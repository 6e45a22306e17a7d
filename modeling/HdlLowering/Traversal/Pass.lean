import HdlLowering.Context
import HdlLowering.Tree

/-!
# Passes

A pass sees every node three times: `skip` decides whether it and all below are passed over, `enter` runs before the children
are visited, and `transform` runs on the node with its new children and says what takes its place: the node itself
(`Reply.keep`), or a `Forest` of nodes that are spliced into the list it stood in.

When a pass aborts, `unwind` is called for every node that was entered and not completed, the innermost first; without it the
state of the pass stays as the abort left it.
-/

namespace HdlLowering

structure Session (σ : Type) where
  ctx : Context
  own : σ

/-- Steps of a pass with a state of its own. A step that aborts keeps what was changed before. -/
abbrev PassM (σ : Type) := EStateM Abort (Session σ)

/-- Steps of the compilation are steps of a pass. -/
instance {σ : Type} : MonadLift ContextM (PassM σ) where
  monadLift x := fun s =>
    match x s.ctx with
    | .ok a c => .ok a { s with ctx := c }
    | .error e c => .error e { s with ctx := c }

namespace PassM

variable {σ : Type}

def own : PassM σ σ := return (← get).own

def modifyOwn (f : σ → σ) : PassM σ Unit := modify fun s => { s with own := f s.own }

def symbols : PassM σ SymbolTable := return (← get).ctx.symbols

/-- A step of another pass on the same context, with a state made for it. -/
def within {τ α : Type} (own : τ) (x : PassM τ α) : PassM σ α := fun s =>
  match x ⟨s.ctx, own⟩ with
  | .ok a s' => .ok a { s with ctx := s'.ctx }
  | .error e s' => .error e { s with ctx := s'.ctx }

end PassM

/-- What stands in the place of a node: nothing, a node, or several in order. -/
inductive Forest where
  | nothing
  | node (n : Node)
  | several (trees : List Forest)

namespace Forest

/-- Some statements in a row; a single one stands alone. -/
def ofStmts : List Stmt → Forest
  | [s] => .node (.stmt s)
  | ss => .several (ss.map fun s => .node (.stmt s))

/-- What kind of thing it is, in a message about a pass that put it where it cannot stand. -/
def found : Forest → String
  | .nothing => "<nil>"
  | .node n => "*ast." ++ n.variant
  | .several _ => "*ast.Thicket"

end Forest

/-- The answer of a pass about a node: it stays, or something else takes its place. -/
inductive Reply where
  | keep
  | put (f : Forest)

/-- One traversal of a design. The checks run only when the compilation asks for them. -/
structure Pass (σ : Type) where
  name : String
  skip : Node → PassM σ Bool := fun _ => pure false
  enter : Node → PassM σ Unit := fun _ => pure ()
  transform : Node → PassM σ Reply := fun _ => pure .keep
  unwind : Option (Node → σ → σ) := none
  defaultCheck : Root → Root → PassM σ Unit := fun _ _ => pure ()
  finalCheck : Root → PassM σ Unit := fun _ => pure ()

end HdlLowering
