import HdlLowering.Proofs.Value.Running

/-!
# Operands that change places

The type to which a value is cut can depend on the order of two operands: where an operator is no test, and one operand has a
width and the other has none and is no number without a width either.
-/

namespace HdlLowering

open Bits Kind Expr

variable {a b : Kind} {op : BinaryOp} {Γ : SymbolTable}

/-! ## Operations -/

theorem Bits.and_comm (x y : Int) : and x y = and y x := by
  cases x <;> cases y <;> simp only [and, Nat.and_comm, Nat.or_comm]

theorem Bits.or_comm (x y : Int) : or x y = or y x := by
  rw [or, or, and_comm]

theorem Bits.xor_comm (x y : Int) : xor x y = xor y x := by
  cases x <;> cases y <;> simp only [xor, Nat.xor_comm]

/-- Operators that do not tell their operands apart. -/
def BinaryOp.symmetric : BinaryOp → Bool
  | .add | .mul | .and | .or | .xor | .eq | .ne | .both | .either => true
  | _ => false

/-- Operators that give a truth value, whatever the types of their operands are. -/
def BinaryOp.isTest : BinaryOp → Bool
  | .eq | .ne | .lt | .le | .gt | .ge | .both | .either => true
  | _ => false

theorem BinaryOp.apply_comm (h : op.symmetric = true) (w w' : Int64) (x y : Int) : op.apply w x y = op.apply w' y x := by
  cases op
  case add => exact congrArg some (Int.add_comm x y)
  case mul => exact congrArg some (Int.mul_comm x y)
  case and => exact congrArg some (and_comm x y)
  case or => exact congrArg some (or_comm x y)
  case xor => exact congrArg some (xor_comm x y)
  case eq => simp only [apply, Bool.beq_comm]
  case ne => simp only [apply, bne_comm]
  case both => simp only [apply, Bool.and_comm]
  case either => simp only [apply, Bool.or_comm]
  all_goals exact absurd h Bool.false_ne_true

/-- With both operands known, a short circuit gives what the operation gives. -/
theorem BinaryOp.eval_known (op : BinaryOp) (w : Int64) (x y : Int) : op.eval w (some x) (some y) = op.apply w x y := by
  cases op
  case both => by_cases hx : x = 0 <;> by_cases hy : y = 0 <;> simp [eval, apply, ofBool, hx, hy]
  all_goals rfl

/-- One known operand decides as much on either side. -/
theorem BinaryOp.eval_half (op : BinaryOp) (w w' : Int64) (x : Int) : op.eval w (some x) none = op.eval w' none (some x) := by
  cases op
  case both => by_cases hx : x = 0 <;> simp [eval, hx]
  all_goals rfl

/-- The operators `+`, `*`, `&`, `|`, `^`, `==`, `!=`, `&&` and `||` do not tell their operands apart. -/
theorem BinaryOp.eval_comm (h : op.symmetric = true) (w w' : Int64) : ∀ x y : Option Int, op.eval w x y = op.eval w' y x
  | none, none => by cases op <;> rfl
  | some x, none => op.eval_half w w' x
  | none, some y => (op.eval_half w' w y).symm
  | some x, some y => by rw [eval_known, eval_known, apply_comm h w w']

/-! ## Types -/

def Kind.isNum : Kind → Bool
  | .num _ => true
  | _ => false

/-- Two types give the same values in either order: one is a number without a width, both are signed, or both have a width or
none. -/
def Kind.Interchangeable (a b : Kind) : Prop :=
  a.isNum = true ∨ b.isNum = true ∨ a.signed = true ∧ b.signed = true ∨
    (0 < a.width ∧ 0 < b.width ∨ a.width = 0 ∧ b.width = 0)

/-- Types of one width that values are cut to in the same way. -/
def Kind.CutsLike (a b : Kind) : Prop := a.width = b.width ∧ ∀ v, a.normalize v = b.normalize v

/-- A number without a width takes the type of the other operand, on either side. -/
theorem Kind.join_num_comm (h : a.isNum = true) : (a.join b).CutsLike (b.join a) := by
  unfold isNum at h
  split at h
  · cases b <;> exact ⟨rfl, fun _ => rfl⟩
  · nomatch h

def Kind.maxWidth (a b : Kind) : Int64 := if a.width < b.width then b.width else a.width

theorem Kind.maxWidth_comm (a b : Kind) : a.maxWidth b = b.maxWidth a := by
  grind [maxWidth]

/-- The type of two operands that are not both signed; the first alone says whether there is a width. -/
def Kind.wider (a b : Kind) : Kind := if !a.packed then a else uint (a.maxWidth b)

theorem Kind.join_eq (ha : a.isNum = false) (hb : b.isNum = false) :
    a.join b = if a.signed && b.signed then sint (a.maxWidth b) else a.wider b := by
  unfold join
  split
  · nomatch ha
  · nomatch ha
  · nomatch hb
  · rfl

theorem Kind.wider_comm (h : 0 < a.width ∧ 0 < b.width ∨ a.width = 0 ∧ b.width = 0) : (a.wider b).CutsLike (b.wider a) := by
  rcases h with ⟨ha, hb⟩ | ⟨ha, hb⟩
  · rw [wider, wider, packed, packed, decide_eq_true ha, decide_eq_true hb, maxWidth_comm]
    exact ⟨rfl, fun _ => rfl⟩
  · rw [wider, wider, packed, packed, ha, hb]
    exact ⟨ha.trans hb.symm, fun v => (normalize_of_width_eq_zero ha v).trans (normalize_of_width_eq_zero hb v).symm⟩

theorem Kind.CutsLike.symm (h : a.CutsLike b) : b.CutsLike a := ⟨h.1.symm, fun v => (h.2 v).symm⟩

/-- Both orders have one type otherwise. -/
theorem Kind.join_comm (h : a.Interchangeable b) : (a.join b).CutsLike (b.join a) := by
  cases ha : a.isNum with
  | true => exact join_num_comm ha
  | false =>
    cases hb : b.isNum with
    | true => exact (join_num_comm hb).symm
    | false =>
      rw [join_eq ha hb, join_eq hb ha, Bool.and_comm b.signed, maxWidth_comm b]
      split
      · exact ⟨rfl, fun _ => rfl⟩
      · rename_i hs
        obtain h | h | h | h := h
        · nomatch ha.symm.trans h
        · nomatch hb.symm.trans h
        · exact absurd (Bool.and_eq_true_iff.mpr h) hs
        · exact wider_comm h

/-! ## Expressions -/

theorem Expr.type_binary (loc : Loc) (x y : Expr) (h : op.symmetric = true) (htest : op.isTest = false) :
    (binary loc op x y).type Γ = (x.type Γ).join (y.type Γ) := by
  cases op
  case add | mul | and | or | xor => rfl
  case eq | ne | both | either => nomatch htest
  all_goals nomatch h

theorem Expr.type_test (loc : Loc) (x y : Expr) (htest : op.isTest = true) : (binary loc op x y).type Γ = .uint 1 := by
  cases op
  case eq | ne | lt | le | gt | ge | both | either => rfl
  all_goals nomatch htest

theorem Expr.type_operands_comm {x y : Expr} (loc loc' : Loc) (h : op.symmetric = true)
    (htypes : op.isTest = false → (x.type Γ).Interchangeable (y.type Γ)) :
    ((binary loc op x y).type Γ).CutsLike ((binary loc' op y x).type Γ) := by
  cases htest : op.isTest with
  | true =>
    rw [type_test loc x y htest, type_test loc' y x htest]
    exact ⟨rfl, fun _ => rfl⟩
  | false =>
    rw [type_binary loc x y h htest, type_binary loc' y x h htest]
    exact join_comm (htypes htest)

/-- The operands of an operator that does not tell them apart can change places, if the evaluation of neither stops: the values are
equal, or both are unknown, or there is no answer in either order. For `+`, `*`, `&`, `|` and `^` the types of the operands have
to be interchangeable. -/
theorem Expr.eval_operands_comm {x y : Expr} (loc loc' : Loc) (h : op.symmetric = true)
    (htypes : op.isTest = false → (x.type Γ).Interchangeable (y.type Γ)) (known : Bindings) {u v : Option Int}
    (hx : x.evaluate Γ known = .ok u) (hy : y.evaluate Γ known = .ok v) :
    (binary loc op x y).evaluate Γ known = (binary loc' op y x).evaluate Γ known := by
  obtain ⟨hwidth, hcut⟩ := type_operands_comm (Γ := Γ) (x := x) (y := y) loc loc' h htypes
  have hfit : ∀ r, (binary loc op x y).fit Γ r = (binary loc' op y x).fit Γ r := fun r => congrArg (Option.map · r) (funext hcut)
  rw [evaluate_binary hx hy, evaluate_binary hy hx, BinaryOp.eval_comm h _ (y.width Γ), fitted, fitted, hfit]
  simp only [width, hwidth]
  rfl

namespace UnsizedOperand

def symbols : SymbolTable := ⟨#[.value 1 "x" (.uint 8), .value 2 "c" (.uint 8), .value 3 "y" (.sint 4)]⟩

def known : Bindings := ⟨[(⟨0⟩, 255), (⟨1⟩, 7), (⟨2⟩, -3)]⟩

def x : Expr := .ref {} ⟨0⟩

def y : Expr := .ref {} ⟨2⟩

/-- All bits of a byte, the highest of them named by a symbol. -/
def slice : Expr := .slice {} x (.ref {} ⟨1⟩) (.num {} false 0)

/-- A byte and a signed number of four bits have eight bits together, in either order. -/
theorem sized_commute : (x.type symbols).Interchangeable (y.type symbols) ∧
    (binary {} .add x y).evaluate symbols known = (binary {} .add y x).evaluate symbols known ∧
    (binary {} .add x y).evaluate symbols known = .ok (some 252) := by
  have htypes : (x.type symbols).Interchangeable (y.type symbols) := .inr (.inr (.inr (.inl (by decide))))
  exact ⟨htypes, eval_operands_comm {} {} rfl (fun _ => htypes) known rfl rfl, by decide⟩

/-- The sum of a slice without a width and a byte is cut to a byte when the byte comes first, and not cut when the slice does. -/
theorem slice_first_differs : BinaryOp.add.symmetric = true ∧
    (binary {} .add slice x).evaluate symbols known = .ok (some 510) ∧
    (binary {} .add x slice).evaluate symbols known = .ok (some 254) := by
  decide

end UnsizedOperand

end HdlLowering
