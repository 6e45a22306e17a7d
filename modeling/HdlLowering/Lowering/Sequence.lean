import HdlLowering.Lowering.Nesting
import HdlLowering.Lowering.Pipelines
import HdlLowering.Lowering.Stacks
import HdlLowering.Normal.Blocks
import HdlLowering.Normal.Concatenations
import HdlLowering.Normal.Folding

/-!
# The sequence of passes

The structural passes run once each, and then the passes to normal form a number of rounds. `Step.run` runs a pass with a
state, so that passes may be started afresh or go on with the state they were left in.
-/

namespace HdlLowering

open Nesting

inductive Step where
  | pipeline | stack | nesting | concatenation | folding | blocks
  deriving DecidableEq

structure PassStates where
  stack : Stack.State := {}
  nesting : State := {}
  folding : Folding.State := {}

namespace Step

def name : Step → String
  | .pipeline => Pipeline.pass.name
  | .stack => Stack.pass.name
  | .nesting => pass.name
  | .concatenation => Concatenation.pass.name
  | .folding => Folding.pass.name
  | .blocks => Blocks.pass.name

def structural : List Step := [.pipeline, .stack, .nesting]

def normalizing : List Step := [.concatenation, .folding, .blocks]

/-- The passes of a lowering with a number of rounds to normal form, which is at least one. -/
def lowering (rounds : Int64) : List Step :=
  structural ++ (List.replicate (max rounds 1).toInt.toNat normalizing).flatten

def all : List Step := structural ++ normalizing

def ofName? (name : String) : Option Step := all.find? (·.name == name)

/-- The outcome of a pass: the design it gives, or nothing when it leaves the design as it is, or why it was
aborted; and the context and the states after it. -/
structure Outcome where
  result : Except Abort (Option Root)
  ctx : Context
  states : PassStates

/-- The outcome of running a pass with a state, given where that state is kept. -/
def outcome {σ : Type} (p : Pass σ) (own : σ) (keep : σ → PassStates) (c : Context) (r : Root) : Outcome :=
  match (p.run r).run ⟨c, own⟩ with
  | .ok out s => ⟨.ok out, s.ctx, keep s.own⟩
  | .error a s => ⟨.error a, s.ctx, keep s.own⟩

def run (step : Step) (states : PassStates) (c : Context) (r : Root) : Outcome :=
  match step with
  | .pipeline => outcome Pipeline.pass () (fun _ => states) c r
  | .stack => outcome Stack.pass states.stack (fun stack => { states with stack }) c r
  | .nesting => outcome pass states.nesting (fun nesting => { states with nesting }) c r
  | .concatenation => outcome Concatenation.pass () (fun _ => states) c r
  | .folding => outcome Folding.pass states.folding (fun folding => { states with folding }) c r
  | .blocks => outcome Blocks.pass () (fun _ => states) c r

end Step

end HdlLowering
