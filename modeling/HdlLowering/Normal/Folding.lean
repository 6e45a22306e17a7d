import HdlLowering.Traversal.Scopes
import HdlLowering.Traversal.Walk
import HdlLowering.Value.Analysis
import HdlLowering.Value.Simplify

/-!
# Folding of statements

The pass removes control flow that known values decide: it keeps the branch or arm taken, drops a stall that never happens,
reports one that never ends, and simplifies other conditions. It analyses a body when it enters an entity, and takes one
record of the analysis for each statement it enters.
-/

namespace HdlLowering.Folding

open PassM

/-- The state of the pass: the records still to come for each open entity, and the bindings at each open
statement. -/
structure State where
  analyses : Scopes Records := {}
  bindings : Scopes Bindings := {}

/-- Opens a statement with the next record; a statement that is not reached has no bindings. -/
def State.enterStmt (st : State) : State :=
  let records := st.analyses.top?.getD []
  { st with
    analyses := st.analyses.modifyLevel 0 List.tail
    bindings := st.bindings.push ((records.head?.bind id).getD {}) }

def fold (b : Bindings) (s : Stmt) : PassM State Reply := do
  let Γ ← symbols
  match s with
  | .cond l c yes no =>
    match c.eval Γ b with
    | some v => return .put (.ofStmts (if v ≠ 0 then yes else no))
    | none =>
      match c.simplify? Γ b with
      | some c => return .put (.node (.stmt (.cond l c yes no)))
      | none => return .keep
  | .case _ x clauses fallback =>
    match (x.eval Γ b).bind fun v => chooseArm Γ b v clauses with
    | some arm => return .put (.ofStmts (arm.body clauses fallback))
    | none => return .keep
  | .stall l c =>
    match c.eval Γ b with
    | some v =>
      if v ≠ 0 then
        ContextM.error l (.stallForever (c.text Γ))
        return .keep
      else return .put .nothing
    | none => return .keep
  | _ => return .keep

def pass : Pass State where
  name := "FoldStmt"
  enter
    | .entity e => do
      let Γ ← symbols
      modifyOwn fun st => { st with analyses := st.analyses.push (analyze Γ e.stmts (constBindings Γ e)) }
    | .stmt _ => modifyOwn State.enterStmt
    | _ => return ()
  transform
    | .entity _ => do
      modifyOwn fun st => { st with analyses := st.analyses.pop }
      return .keep
    | .stmt s => do
      let reply ← fold ((← own).bindings.top?.getD {}) s
      modifyOwn fun st => { st with bindings := st.bindings.pop }
      return reply
    | _ => return .keep
  unwind := some fun n st =>
    match n with
    | .entity _ => { st with analyses := st.analyses.pop }
    | .stmt _ => { st with bindings := st.bindings.pop }
    | _ => st
  finalCheck _ := do
    let st ← own
    if !st.analyses.isEmpty || !st.bindings.isEmpty then
      ContextM.internal (.foldScopesLeft st.analyses.size st.bindings.size)

end HdlLowering.Folding
