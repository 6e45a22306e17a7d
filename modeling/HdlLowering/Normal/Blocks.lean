import HdlLowering.Traversal.Walk
import HdlLowering.Tree.Preorder

/-!
# Blocks

The pass puts the body of a block statement in its place.
-/

namespace HdlLowering.Blocks

def check : List Node → ContextM Unit
  | [] => return ()
  | .stmt (.block l _) :: _ => ContextM.internal (.blockLeft l)
  | _ :: ns => check ns

def pass : Pass Unit where
  name := "RemoveRedundantBlocks"
  transform
    | .stmt (.block _ body) => return .put (.several (body.map fun s => .node (.stmt s)))
    | _ => return .keep
  finalCheck r := check r.nodes

end HdlLowering.Blocks
