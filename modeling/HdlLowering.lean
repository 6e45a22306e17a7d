import HdlLowering.Main
import HdlLowering.Json.Source
import HdlLowering.Proofs.Value.Slices
import HdlLowering.Proofs.Value.Constants
import HdlLowering.Proofs.Folding.Preservation
import HdlLowering.Proofs.Stack.Refinement
import HdlLowering.Proofs.Nesting.Names
import HdlLowering.Proofs.Pipeline.Boundaries
import HdlLowering.Proofs.Pipeline.Leftovers
import HdlLowering.Proofs.Concatenation.Assignments
import HdlLowering.Proofs.Nesting.Drivers
import HdlLowering.Proofs.Normal.Values
import HdlLowering.Proofs.Traversal.Unwinding
import HdlLowering.Proofs.Interchange.Numbers
import HdlLowering.Proofs.Run.Output
import HdlLowering.Proofs.Sequence.Structs
import HdlLowering.Proofs.Value.Bounds
import HdlLowering.Proofs.Normal.Outline
import HdlLowering.Proofs.Netlist.Conflicts
import HdlLowering.Proofs.Netlist.Signals
import HdlLowering.Proofs.Traversal.Substitution
import HdlLowering.Proofs.Value.Symmetry
import HdlLowering.Proofs.Value.Identity
import HdlLowering.Proofs.Text.Reading
