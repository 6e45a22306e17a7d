import HdlLowering.Normal.Folding
import HdlLowering.Proofs.Execution.Behaviour

/-!
# What folding leaves of a body

`Stmt.foldedList` says what stands for the statements of a body, given the records of all of its statements: the folding pass
puts exactly that in their place. `Stmt.endlessFrom` lists the stalls that never end by their records, about which the pass
complains.
-/

namespace HdlLowering

open Clause

/-- What is recorded at a position; for a statement that is never reached, that nothing is known. -/
def recordAt (R : Records) (i : Nat) : Bindings := (R[i]?.bind id).getD {}

variable (Γ : SymbolTable) (b : Bindings)

/-- What stands for a statement under bindings, when the statements in it are folded already. -/
def Stmt.replacement : Stmt → List Stmt
  | .cond l c yes no =>
    match c.eval Γ b with
    | some v => if v ≠ 0 then yes else no
    | none => [.cond l (c.simplify Γ b) yes no]
  | .case l x cs d =>
    match (x.eval Γ b).bind fun v => chooseArm Γ b v cs with
    | some arm => arm.body cs d
    | none => [.case l x cs d]
  | .stall l c => if c.eval Γ b = some 0 then [] else [.stall l c]
  | s => [s]

mutual
def Stmt.folded (R : Records) : Nat → Stmt → List Stmt
  | i, .block l body => Stmt.replacement Γ (recordAt R i) (.block l (Stmt.foldedList R (i + 1) body))
  | i, .cond l c yes no =>
    Stmt.replacement Γ (recordAt R i) (.cond l c (Stmt.foldedList R (i + 1) yes)
      (Stmt.foldedList R (i + 1 + (Stmt.substmtsList yes).length) no))
  | i, .case l x cs d =>
    Stmt.replacement Γ (recordAt R i) (.case l x (Clause.foldedList R (i + 1) cs)
      (Stmt.foldedDefault R (i + 1 + (Clause.substmtsList cs).length) d))
  | i, .loop l body => Stmt.replacement Γ (recordAt R i) (.loop l (Stmt.foldedList R (i + 1) body))
  | i, s => Stmt.replacement Γ (recordAt R i) s

def Stmt.foldedList (R : Records) : Nat → List Stmt → List Stmt
  | _, [] => []
  | i, s :: ss => Stmt.folded R i s ++ Stmt.foldedList R (i + s.substmts.length) ss

def Stmt.foldedDefault (R : Records) : Nat → Option (List Stmt) → Option (List Stmt)
  | _, none => none
  | i, some body => some (Stmt.foldedList R i body)

def Clause.foldedList (R : Records) : Nat → List Clause → List Clause
  | _, [] => []
  | i, { loc, conds, body } :: cs =>
    { loc, conds, body := Stmt.foldedList R i body } :: Clause.foldedList R (i + (Stmt.substmtsList body).length) cs
end

/-- A stall that never ends under bindings: its condition is known and true. -/
def Stmt.endless : Stmt → Bool
  | .stall _ c => (c.eval Γ b).any (· ≠ 0)
  | _ => false

/-- The stalls that never end under their records, among statements of which the first is at a position. -/
def Stmt.endlessFrom (R : Records) : Nat → List Stmt → List Stmt
  | _, [] => []
  | i, s :: ss => if s.endless Γ (recordAt R i) then s :: endlessFrom R (i + 1) ss else endlessFrom R (i + 1) ss

theorem Stmt.endlessFrom_append (R : Records) (i : Nat) (ss ss' : List Stmt) :
    endlessFrom Γ R i (ss ++ ss') = endlessFrom Γ R i ss ++ endlessFrom Γ R (i + ss.length) ss' := by
  induction ss generalizing i with
  | nil => rfl
  | cons s ss ih =>
    rw [List.cons_append, endlessFrom, endlessFrom, ih, List.length_cons, Nat.add_right_comm i 1, ← Nat.add_assoc]
    split <;> rfl

/-- Folding leaves the conditions of the arms, so it leaves the choice among them. -/
theorem chooseArm_foldedList (v : Int) (R : Records) (i : Nat) (cs : List Clause) :
    chooseArm Γ b v (foldedList Γ R i cs) = chooseArm Γ b v cs := by
  induction cs generalizing i with
  | nil => rfl
  | cons c cs ih =>
    obtain ⟨l, conds, body⟩ := c
    rw [foldedList, chooseArm, chooseArm, ih]

end HdlLowering
