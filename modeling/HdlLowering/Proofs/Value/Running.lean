import HdlLowering.Proofs.Tree.Children
import HdlLowering.Proofs.Value.Normalize

/-!
# Evaluation as it runs

Evaluation stops where a value is to be cut to a negative number of bits, and only there: it has an answer exactly when it works
with no negative width, and the answer is the value of the expression (`evaluate_answers`). No evaluation stops in an expression
all of whose parts have widths that are not negative (`Expr.Proper.evaluate`), nor in a tree of them (`Node.Proper.evaluable`).
-/

namespace HdlLowering

open List Expr Bits

variable {Γ : SymbolTable} {b : Bindings} {e x : Expr} {w : Int64}

/-! ## The operands that are needed -/

/-- The parts of a concatenation up to the first one that decides that it has no value. -/
def Expr.consultedParts (Γ : SymbolTable) (b : Bindings) : List Expr → List Expr
  | [] => []
  | p :: ps => p :: if (p.eval Γ b).isNone || p.width Γ = 0 then [] else consultedParts Γ b ps

/-- The operands of an expression that are evaluated when it is. -/
def Expr.consulted (Γ : SymbolTable) (b : Bindings) : Expr → List Expr
  | .binary _ op x y => if op.decided (x.eval Γ b) then [x] else [x, y]
  | .ternary _ c x y =>
    match c.eval Γ b with
    | some v => [c, if v = 0 then y else x]
    | none => [c, x, y]
  | .cat _ ps => consultedParts Γ b ps
  | .index _ x i =>
    match x.type Γ with
    | .array .. => []
    | _ => [x, i]
  | .select .. | .call .. => []
  | e => e.operands

theorem mem_of_consultedParts {ps : List Expr} (h : x ∈ consultedParts Γ b ps) : x ∈ ps := by
  induction ps with
  | nil => exact h
  | cons p ps ih =>
    rw [consultedParts] at h
    split at h <;> grind

theorem operand_of_consulted (h : x ∈ e.consulted Γ b) : x ∈ e.operands := by
  unfold consulted at h
  split at h
  case h_3 => exact mem_of_consultedParts h
  all_goals grind [operands]

/-- Evaluation works with the width of every expression on its way that has a value: to cut the value to its type, and then to
read its bits. -/
inductive Expr.WorksWith (Γ : SymbolTable) (b : Bindings) : Expr → Int64 → Prop
  | own {e : Expr} : (e.raw Γ b).isSome = true → WorksWith Γ b e (e.width Γ)
  | operand {e x : Expr} {w : Int64} : x ∈ e.consulted Γ b → WorksWith Γ b x w → WorksWith Γ b e w

/-- Evaluation works with no negative width. -/
def Expr.Works (Γ : SymbolTable) (b : Bindings) (e : Expr) : Prop := ∀ w, e.WorksWith Γ b w → 0 ≤ w

theorem works_iff : e.Works Γ b ↔ (∀ x ∈ e.consulted Γ b, x.Works Γ b) ∧ ((e.raw Γ b).isSome = true → 0 ≤ e.width Γ) := by
  constructor
  · exact fun h => ⟨fun x hx w hw => h w (.operand hx hw), fun hvalue => h _ (.own hvalue)⟩
  · rintro ⟨hbelow, hown⟩ w (hvalue | ⟨hx, hw⟩)
    · exact hown hvalue
    · exact hbelow _ hx w hw

/-! ## Having an answer -/

/-- A computation has an answer exactly under a condition, and which one. -/
def AnswersWhen {α : Type} (x : Except Crash α) (φ : Prop) (a : α) : Prop := ∀ a', x = .ok a' ↔ φ ∧ a = a'

namespace AnswersWhen

variable {α β : Type} {x : Except Crash α} {φ ψ : Prop} {a : α} {c : β}

theorem pure (a : α) : AnswersWhen (Pure.pure a) True a := fun a' => by
  rw [true_and]
  exact ⟨Except.ok.inj, fun h => congrArg _ h⟩

theorem congr (h : AnswersWhen x φ a) (hφ : φ ↔ ψ) : AnswersWhen x ψ a := fun a' => by rw [h a', hφ]

theorem bind {f : α → Except Crash β} (hx : AnswersWhen x φ a) (hf : AnswersWhen (f a) ψ c) : AnswersWhen (x >>= f) (φ ∧ ψ) c := by
  intro c'
  cases x with
  | error e => exact ⟨nofun, fun h => nomatch (hx a).mpr ⟨h.1.1, rfl⟩⟩
  | ok a1 =>
    obtain ⟨hφ, rfl⟩ := (hx a1).mp rfl
    exact (hf c').trans (by simp [hφ])

end AnswersWhen

theorem fitted_answers (v : Option Int) : AnswersWhen (e.fitted Γ v) (v.isSome = true → 0 ≤ e.width Γ) (e.fit Γ v) := by
  intro u
  unfold fitted
  split
  · rename_i h
    simp only [Bool.and_eq_true, decide_eq_true_eq] at h
    exact ⟨nofun, fun hu => absurd (hu.1 h.1) (Int64.not_le.mpr h.2)⟩
  · rename_i h
    refine (AnswersWhen.pure (e.fit Γ v)).congr (iff_of_true trivial fun hv => ?_) u
    simpa [hv] using h

theorem evaluateParts_answers {ps : List Expr} (ih : ∀ p ∈ ps, AnswersWhen (p.evaluate Γ b) (p.Works Γ b) (p.eval Γ b)) (acc : Int) :
    AnswersWhen (evaluateParts Γ b acc ps) (∀ p ∈ consultedParts Γ b ps, p.Works Γ b) (rawParts Γ b acc ps) := by
  induction ps generalizing acc with
  | nil => exact (AnswersWhen.pure _).congr (iff_of_true trivial (forall_mem_nil _))
  | cons p ps ihs =>
    rw [forall_mem_cons] at ih
    rw [evaluateParts, consultedParts, rawParts, ← eval, forall_mem_cons]
    refine ih.1.bind ?_
    cases p.eval Γ b with
    | none => exact (AnswersWhen.pure _).congr (iff_of_true trivial (forall_mem_nil _))
    | some v =>
      by_cases hw : p.width Γ = 0
      · simpa [hw] using AnswersWhen.pure none
      · simpa [hw] using ihs ih.2 _

/-- A decided operator does not need its right operand. -/
theorem BinaryOp.eval_of_decided {op : BinaryOp} {x y : Option Int} (h : op.decided x = true) : op.eval w x none = op.eval w x y := by
  cases op <;> cases x <;> simp [decided] at h
  · simp [h, BinaryOp.eval]
  · cases y <;> simp [h, BinaryOp.eval, BinaryOp.apply, ofBool]

/-- Evaluation has an answer exactly when it works with no negative width, and that answer is the value of the expression. -/
theorem evaluate_answers (e : Expr) : AnswersWhen (e.evaluate Γ b) (e.Works Γ b) (e.eval Γ b) := by
  induction e using of_operands with
  | h e ih =>
    refine AnswersWhen.congr ?_ works_iff.symm
    have hown := fitted_answers (Γ := Γ) (e := e) (e.raw Γ b)
    rw [eval]
    have hpair {P : Expr → Prop} {x y : Expr} : (∀ z ∈ [x, y], P z) ↔ P x ∧ P y := by simp
    have htriple {P : Expr → Prop} {x y z : Expr} : (∀ u ∈ [x, y, z], P u) ↔ P x ∧ P y ∧ P z := by simp
    cases e with
    | ref | num | int | select | call => simpa [evaluate, consulted, operands] using hown
    | unary l op x =>
      rw [evaluate, show (unary l op x).consulted Γ b = [x] from rfl, forall_mem_singleton]
      exact (ih x mem_cons_self).bind hown
    | binary l op x y =>
      obtain ⟨hx, hy⟩ := hpair.mp ih
      rw [evaluate, consulted]
      by_cases h : op.decided (x.eval Γ b) = true
      · rw [if_pos h, forall_mem_singleton]
        refine hx.bind ?_
        rw [raw, ← eval, ← eval, ← BinaryOp.eval_of_decided h] at hown
        rw [if_pos h, pure_bind, raw, ← eval, ← eval, ← BinaryOp.eval_of_decided h]
        exact hown
      · rw [if_neg h, hpair, and_assoc]
        refine hx.bind ?_
        rw [if_neg h]
        exact hy.bind hown
    | ternary l c x y =>
      obtain ⟨hc, hx, hy⟩ := htriple.mp ih
      rw [evaluate, consulted]
      rw [raw, ← eval, ← eval, ← eval] at hown ⊢
      cases hv : c.eval Γ b with
      | none =>
        rw [hv] at hc hown
        rw [htriple, and_assoc, and_assoc]
        exact hc.bind (hx.bind (hy.bind hown))
      | some v =>
        rw [hv] at hc hown
        rw [hpair, and_assoc]
        refine hc.bind ?_
        by_cases h0 : v = 0
        · simp only [h0, ternaryValue, if_true] at hown ⊢
          exact hy.bind hown
        · simp only [h0, ternaryValue, if_false] at hown ⊢
          exact hx.bind hown
    | cat l ps =>
      rw [evaluate]
      exact (evaluateParts_answers ih 0).bind hown
    | rep l n x =>
      obtain ⟨hn, hx⟩ := hpair.mp ih
      rw [evaluate, show (rep l n x).consulted Γ b = [n, x] from rfl, hpair, and_assoc]
      exact hn.bind (hx.bind hown)
    | index l x i =>
      obtain ⟨hx, hi⟩ := hpair.mp ih
      rw [evaluate, consulted]
      rw [raw] at hown ⊢
      cases htype : x.type Γ with
      | array elem n => exact (AnswersWhen.pure none).congr (iff_of_true trivial ⟨forall_mem_nil _, fun h => absurd h Bool.false_ne_true⟩)
      | _ =>
        simp only [htype, hpair, and_assoc] at hown ⊢
        exact hx.bind (hi.bind hown)
    | slice l x m n =>
      obtain ⟨hx, hm, hn⟩ := htriple.mp ih
      rw [evaluate, show (slice l x m n).consulted Γ b = [x, m, n] from rfl, htriple, and_assoc, and_assoc]
      exact hx.bind (hm.bind (hn.bind hown))

theorem Expr.Works.evaluate (h : e.Works Γ b) : e.evaluate Γ b = .ok (e.eval Γ b) := (evaluate_answers e _).mpr ⟨h, rfl⟩

/-- A computation gives an answer, or stops where a condition does not hold. -/
def AnswersOrStops {α : Type} (φ : Prop) (x : Except Crash α) (a : α) : Prop := x = .ok a ∨ ¬ φ ∧ x = .error .negativeWidth

theorem AnswersOrStops.bind {α β : Type} {φ : Prop} {x : Except Crash α} {a : α} {f : α → Except Crash β} {c : β}
    (hx : AnswersOrStops φ x a) (hf : AnswersOrStops φ (f a) c) : AnswersOrStops φ (x >>= f) c := by
  rcases hx with rfl | ⟨hφ, rfl⟩
  · exact hf
  · exact .inr ⟨hφ, rfl⟩

/-- Both operands of an operator that answer may as well be evaluated before it is applied. -/
theorem evaluate_binary {x y : Expr} {u v : Option Int} (hx : x.evaluate Γ b = .ok u) (hy : y.evaluate Γ b = .ok v) (l : Loc)
    (op : BinaryOp) : (binary l op x y).evaluate Γ b = (binary l op x y).fitted Γ (op.eval (x.width Γ) u v) := by
  rw [evaluate, hx, hy]
  by_cases h : op.decided u = true
  · rw [← BinaryOp.eval_of_decided h]
    exact if_pos h
  · exact if_neg h

/-! ## Trees without negative widths -/

/-- No part of an expression has a negative width. -/
def Expr.Proper (Γ : SymbolTable) (e : Expr) : Prop := ∀ x ∈ e.subterms, 0 ≤ x.width Γ

instance : Decidable (e.Proper Γ) := inferInstanceAs (Decidable (∀ x ∈ e.subterms, 0 ≤ x.width Γ))

/-- No part of negative width, no work with one. -/
theorem Expr.Proper.works (h : e.Proper Γ) : e.Works Γ b := by
  induction e using of_operands with
  | h e ih =>
    refine works_iff.mpr ⟨fun x hx => ?_, fun _ => h e e.self_mem_subterms⟩
    have hmem := operand_of_consulted hx
    exact ih x hmem fun y hy => h y (mem_subterms_of_operand hmem hy)

/-- An expression has no part of negative width, and a symbol that is declared neither has a negative width nor an initial value
with such a part. -/
def Node.ProperHere (Γ : SymbolTable) : Node → Prop
  | .expr e => e.Proper Γ
  | .decl d => 0 ≤ (Γ.kind d.symbol).width ∧ ∀ e ∈ Γ.init d.symbol, e.Proper Γ
  | _ => True

instance : DecidablePred (Node.ProperHere Γ) := fun n => by
  cases n <;> unfold Node.ProperHere <;> infer_instance

/-- There are no negative widths among some nodes. -/
abbrev Node.Proper (Γ : SymbolTable) (ns : List Node) : Prop := ∀ n ∈ ns, n.ProperHere Γ

/-- Whatever values are known, the expressions among some nodes and the initial values of what they declare have answers, and a
value can be recorded for every symbol that is declared or used. -/
structure Node.Evaluable (Γ : SymbolTable) (ns : List Node) : Prop where
  exprs : ∀ e, .expr e ∈ ns → ∀ b, e.evaluate Γ b = .ok (e.eval Γ b)
  inits : ∀ d, .decl d ∈ ns → ∀ e, Γ.init d.symbol = some e → ∀ b, e.evaluate Γ b = .ok (e.eval Γ b)
  declared : ∀ d, .decl d ∈ ns → ∀ (b : Bindings) v, b.bound Γ d.symbol v = .ok (b.bind Γ d.symbol v)
  used : ∀ l s, .expr (.ref l s) ∈ ns → ∀ (b : Bindings) v, b.bound Γ s v = .ok (b.bind Γ s v)

theorem bound_eq_ok {s : Symbol} (h : 0 ≤ (Γ.kind s).width) (b : Bindings) (v : Int) : b.bound Γ s v = .ok (b.bind Γ s v) :=
  if_neg (Int64.not_lt.mpr h)

/-- No evaluation stops in a tree without negative widths. -/
theorem Node.Proper.evaluable {ns : List Node} (h : Node.Proper Γ ns) : Node.Evaluable Γ ns where
  exprs e he _ := Works.evaluate (Proper.works (h _ he))
  inits d hd e he _ := Works.evaluate (Proper.works ((h _ hd).2 e he))
  declared d hd := bound_eq_ok (h _ hd).1
  used l s hs := by
    have hwidth := h _ hs _ (self_mem_subterms _)
    rw [width, type, Kind.width_underlying] at hwidth
    exact bound_eq_ok hwidth

namespace ReversedBranch

def table : SymbolTable := ⟨#[.value 1 "x" (.uint 8), .value 2 "y" (.const (.num false)), .value 3 "c" (.const (.uint 1))]⟩

def reversed : Expr := .slice {} (.ref {} ⟨0⟩) (.num {} false 0) (.num {} false 5)

/-- `1 ? y : x[0:5]` -/
def choice : Expr := .ternary {} (.num {} false 1) (.ref {} ⟨1⟩) reversed

/-- `(1 ? y : x[0:5]) && 0`, which is zero as long as `y` has no value. -/
def guarded : Expr := .binary {} .both choice (.num {} false 0)

def five : Bindings := ⟨[(⟨1⟩, 5)]⟩

end ReversedBranch

end HdlLowering
