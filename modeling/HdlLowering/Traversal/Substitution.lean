import HdlLowering.Traversal.Walk
import HdlLowering.Tree.Preorder

/-!
# Substitution of symbols

`Substitution.pass` sends references to the symbols that a map gives and keeps their places. What holds no such reference is
shared with the design before.
-/

namespace HdlLowering

abbrev Substitution := List (Symbol × Symbol)

namespace Substitution

variable (m : Substitution)

/-- The pass that applies a map to every reference, once. -/
def pass : Pass Unit where
  name := "Substitute"
  transform
    | .expr (.ref l s) =>
      match m.lookup s with
      | some t => return .put (.node (.expr (.ref l t)))
      | none => return .keep
    | _ => return .keep

def walk {σ : Type} (m : Substitution) (n : Node) : PassM σ (Option Forest) :=
  if m.isEmpty then return none else PassM.within () (n.walk m.pass)

def applyExpr {σ : Type} (m : Substitution) (e : Expr) : PassM σ Expr := do
  match ← m.walk (.expr e) with
  | some (.node (.expr x)) => return x
  | _ => return e

def applyRoot (c : Context) (r : Root) : Option Root :=
  match (m.walk (.root r) : PassM Unit _).run ⟨c, ()⟩ with
  | .ok (some (.node (.root r'))) _ => some r'
  | _ => none

/-- Whether a node is shared by the designs before and after a map is applied: the walk of it gives nothing new.
-/
def shares (c : Context) (n : Node) : Bool :=
  match (m.walk n : PassM Unit _).run ⟨c, ()⟩ with
  | .ok none _ => true
  | _ => false

def shared (c : Context) (r : Root) : List Node := r.nodes.filter (m.shares c)

end Substitution

end HdlLowering
