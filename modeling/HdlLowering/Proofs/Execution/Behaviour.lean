import HdlLowering.Proofs.Execution.Store
import HdlLowering.Value.Analysis

/-!
# What a body does

A behaviour relates the store that a piece of a body starts from to the statements that control reaches, each with its store,
and to how and with which store the piece ends. It is a relation, since an expression without a value may have any, and since a
fence or a jump goes on in a later clock cycle, with any store that holds what always holds (`base`).

A run may be cut at a statement that control just reached, so whatever is ever reached is reached by a run. Statements are told
apart by position: their number in the order of `Stmt.nodesList`, which is that of the records of `analyze`.
-/

namespace HdlLowering

open Node

/-- A statement and the statements in it, outer ones first. -/
def Stmt.substmts (s : Stmt) : List Stmt := stmts s.nodes

def Stmt.substmtsList (ss : List Stmt) : List Stmt := stmts (nodesList ss)

def Stmt.substmtsDefault (d : Option (List Stmt)) : List Stmt := stmts (nodesDefault d)

def Clause.substmtsList (cs : List Clause) : List Stmt := stmts (Clause.nodesList cs)

/-- How a run of statements ends: control goes on after them, leaves or repeats the loop around them, or is not followed
further. -/
inductive Outcome where
  | falls | breaks | continues | cut
  deriving DecidableEq

structure Event (Γ : SymbolTable) where
  position : Nat
  stmt : Stmt
  store : Store Γ

/-- What a piece of a body may do: from a store, by some events, to an outcome and a store. -/
abbrev Behaviour (Γ : SymbolTable) := Store Γ → List (Event Γ) → Outcome → Store Γ → Prop

namespace Behaviour

variable {Γ : SymbolTable} {o : Outcome} {t : List (Event Γ)} {p q : Behaviour Γ} {st st' : Store Γ}

def ends (o : Outcome) : Behaviour Γ := fun st t o' st' => t = [] ∧ o' = o ∧ st' = st

def changes (R : Store Γ → Store Γ → Prop) : Behaviour Γ := fun st t o st' => t = [] ∧ o = .falls ∧ R st st'

/-- Reaches a statement, and does something unless the run is cut there. -/
def entering (i : Nat) (s : Stmt) (p : Behaviour Γ) : Behaviour Γ := fun st t o st' =>
  ∃ t', t = ⟨i, s, st⟩ :: t' ∧ (ends .cut st t' o st' ∨ p st t' o st')

/-- One piece after the other; the second runs when the first falls through. -/
def andThen (p q : Behaviour Γ) : Behaviour Γ := fun st t o st' =>
  (o ≠ .falls ∧ p st t o st') ∨ ∃ t1 t2 st1, t = t1 ++ t2 ∧ p st t1 .falls st1 ∧ q st1 t2 o st'

theorem enter {i : Nat} {s : Stmt} {p : Behaviour Γ} (h : p st t o st') : entering i s p st (⟨i, s, st⟩ :: t) o st' :=
  ⟨t, rfl, Or.inr h⟩

/-- The second piece starts where the first falls through. -/
theorem andThen_falls {st st1 st' : Store Γ} {t1 t2 : List (Event Γ)}
    (h1 : p st t1 .falls st1) (h2 : q st1 t2 o st') : andThen p q st (t1 ++ t2) o st' :=
  Or.inr ⟨t1, t2, st1, rfl, h1, h2⟩

theorem andThen_stops (ho : o ≠ .falls) (h : p st t o st') : andThen p q st t o st' :=
  Or.inl ⟨ho, h⟩

inductive Iterated (p : Behaviour Γ) : Behaviour Γ
  | leave {st st' : Store Γ} {t : List (Event Γ)} : p st t .breaks st' → Iterated p st t .falls st'
  | cut {st st' : Store Γ} {t : List (Event Γ)} : p st t .cut st' → Iterated p st t .cut st'
  | again {st st1 st' : Store Γ} {t1 t2 : List (Event Γ)} {o1 o : Outcome} :
      o1 = .falls ∨ o1 = .continues → p st t1 o1 st1 → Iterated p st1 t2 o st' → Iterated p st (t1 ++ t2) o st'

end Behaviour

variable {Γ : SymbolTable}

/-- An assignment. A plain reference gets the value; of any other place nothing is known but which symbols it is part of. -/
def Store.Assigned (lhs rhs : Expr) (st st' : Store Γ) : Prop :=
  match lhs.symbol? with
  | some s => ∃ v, rhs.MayBe st v ∧ st' = st.set s v
  | none => Store.SameOff lhs.roots st st'

def Store.Declared (d : Decl) (st st' : Store Γ) : Prop :=
  ∃ v, (∀ e, d.init = some e → e.MayBe st v) ∧ st' = st.set d.symbol v

def Store.Hits (st : Store Γ) (v : Int) (conds : List Expr) : Prop := ∃ c ∈ conds, c.MayBe st v

def Store.Misses (st : Store Γ) (v : Int) (conds : List Expr) : Prop := ∀ c ∈ conds, ∃ x, c.MayBe st x ∧ x ≠ v

variable (base : Bindings)

mutual
/-- The behaviour of the statement at a position, where `base` holds at every point. -/
def Stmt.Runs : Nat → Stmt → Behaviour Γ
  | i, .block l body => .entering i (.block l body) (Stmt.RunsList (i + 1) body)
  | i, .cond l c yes no => .entering i (.cond l c yes no) fun st t o st' =>
    ∃ v, c.MayBe st v ∧
      ((v ≠ 0 ∧ Stmt.RunsList (i + 1) yes st t o st') ∨
        (v = 0 ∧ Stmt.RunsList (i + 1 + (Stmt.substmtsList yes).length) no st t o st'))
  | i, .case l x cs d => .entering i (.case l x cs d) fun st t o st' =>
    ∃ v, x.MayBe st v ∧
      Clause.RunsList v (i + 1) cs (Stmt.RunsDefault (i + 1 + (Clause.substmtsList cs).length) d) st t o st'
  | i, .loop l body => .entering i (.loop l body) (.Iterated (Stmt.RunsList (i + 1) body))
  | i, .goto l x => .entering i (.goto l x) (.changes fun _ st' => st'.Agrees base)
  | i, .fence l => .entering i (.fence l) (.changes fun _ st' => st'.Agrees base)
  | i, .break l => .entering i (.break l) (.ends .breaks)
  | i, .continue l => .entering i (.continue l) (.ends .continues)
  | i, .assign l lhs rhs => .entering i (.assign l lhs rhs) (.changes (Store.Assigned lhs rhs))
  | i, .expr l e => .entering i (.expr l e) (.ends .falls)
  | i, .read l => .entering i (.read l) (.changes fun st st' => ∀ s, (Γ.kind s).isPipeline = false → st'.value s = st.value s)
  | i, .write l => .entering i (.write l) (.ends .falls)
  | i, .decl l d => .entering i (.decl l d) (.changes (Store.Declared d))
  | i, .stall l c => .entering i (.stall l c) (.ends .falls)

/-- The behaviour of statements in a row, the first at a position. -/
def Stmt.RunsList : Nat → List Stmt → Behaviour Γ
  | _, [] => .ends .falls
  | i, s :: ss => .andThen (Stmt.Runs i s) (Stmt.RunsList (i + s.substmts.length) ss)

def Stmt.RunsDefault : Nat → Option (List Stmt) → Behaviour Γ
  | _, none => .ends .falls
  | i, some body => Stmt.RunsList i body

/-- The behaviour of the arms of a case statement for a value of its subject: the first arm that the value hits, or what
stands for the default. -/
def Clause.RunsList (v : Int) : Nat → List Clause → Behaviour Γ → Behaviour Γ
  | _, [], fallback => fallback
  | i, { conds, body, .. } :: cs, fallback => fun st t o st' =>
    (st.Hits v conds ∧ Stmt.RunsList i body st t o st') ∨
      (st.Misses v conds ∧ Clause.RunsList v (i + (Stmt.substmtsList body).length) cs fallback st t o st')
end

end HdlLowering
