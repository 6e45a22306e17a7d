import HdlLowering.Value.Eval
import Mathlib.Tactic.Common

/-!
# Values of a kind

`Kind.normalize` cuts a value to the width of a kind and reads it with the sign of the kind. The values that a kind holds are
its fixed points, and every value that `Expr.eval` gives is one of the type of its expression.
-/

namespace HdlLowering

open Bits Kind

variable {v : Int} {k : Kind}

theorem Bits.values_pos (w : Int64) : 0 < values w := by
  unfold values
  exact Int.natCast_pos.mpr (Nat.pow_pos (by decide))

theorem Bits.unsigned_eq (v : Int) (w : Int64) : unsigned v w = v % values w := by
  unfold unsigned
  split
  · simp [*]
  · rfl

theorem Bits.unsigned_nonneg (v : Int) (w : Int64) : 0 ≤ unsigned v w :=
  unsigned_eq v w ▸ Int.emod_nonneg v (Int.ne_of_gt (values_pos w))

theorem Bits.unsigned_lt (v : Int) (w : Int64) : unsigned v w < values w :=
  unsigned_eq v w ▸ Int.emod_lt_of_pos v (values_pos w)

theorem Bits.unsigned_eq_self {w : Int64} (h0 : 0 ≤ v) (h : v < values w) : unsigned v w = v :=
  (unsigned_eq v w).trans (Int.emod_eq_of_lt h0 h)

theorem Kind.width_underlying (k : Kind) : k.underlying.width = k.width := by
  fun_induction underlying k <;> simp_all [width]

@[simp] theorem Kind.underlying_underlying (k : Kind) : k.underlying.underlying = k.underlying := by
  fun_induction underlying k with
  | case1 k f ih => exact ih
  | case2 k f s ih => exact ih
  | case3 k ih => exact ih
  | case4 k ih => exact ih
  | case5 k h1 h2 h3 h4 => cases k <;> simp_all [underlying]

theorem Kind.signed_underlying (k : Kind) : k.underlying.signed = k.signed := by
  simp [signed]

@[simp] theorem Kind.normalize_underlying (k : Kind) (v : Int) : k.underlying.normalize v = k.normalize v := by
  simp [normalize, width_underlying, signed_underlying]

theorem Kind.normalize_congr {k k' : Kind} (hw : k.width = k'.width) (hs : k.signed = k'.signed) (v : Int) :
    k.normalize v = k'.normalize v := by
  simp [normalize, hw, hs]

mutual
@[simp] theorem Kind.clone_eq : ∀ k : Kind, k.clone = k
  | .struct n fs => by rw [clone, cloneFields_eq fs]
  | .array e n => by rw [clone, clone_eq e]
  | .input k f => by rw [clone, clone_eq k]
  | .output k f s => by rw [clone, clone_eq k]
  | .const k => by rw [clone, clone_eq k]
  | .pipeline k => by rw [clone, clone_eq k]
  | .stack e d => by rw [clone, clone_eq e]
  | .uint w => rfl
  | .sint w => rfl
  | .num s => rfl
  | .void => rfl
  | .entity ps => rfl
  | .inst e => rfl

theorem Kind.cloneFields_eq : ∀ fs : List (String × Kind), cloneFields fs = fs
  | [] => rfl
  | (n, k) :: fs => by rw [cloneFields, clone_eq k, cloneFields_eq fs]
end

theorem Kind.normalize_of_width_eq_zero (h : k.width = 0) (v : Int) : k.normalize v = v := by
  simp [normalize, h]

theorem Kind.normalize_uint {w : Int64} (h0 : 0 ≤ v) (h : v < values w) : (uint w).normalize v = v := by
  have hs : (uint w).signed = false := rfl
  simp only [normalize, width, hs, Bool.false_and, Bool.false_eq_true, if_false, unsigned_eq_self h0 h,
    ite_self]

theorem Kind.normalize_eq_of_unsigned (hw : k.width ≠ 0) {v v' : Int}
    (h : unsigned v k.width = unsigned v' k.width) : k.normalize v = k.normalize v' := by
  simp only [normalize, if_neg hw, h]

theorem Bits.unsigned_sub_values (v : Int) (w : Int64) : unsigned (v - values w) w = unsigned v w := by
  rw [unsigned_eq, unsigned_eq]
  exact Int.sub_emod_right v (values w)

@[simp] theorem Bits.unsigned_unsigned (v : Int) (w : Int64) : unsigned (unsigned v w) w = unsigned v w :=
  unsigned_eq_self (unsigned_nonneg v w) (unsigned_lt v w)

theorem Kind.unsigned_normalize (k : Kind) (v : Int) : unsigned (k.normalize v) k.width = unsigned v k.width := by
  by_cases hw : k.width = 0
  · rw [normalize_of_width_eq_zero hw]
  · simp only [normalize, hw, if_false]
    split
    · rw [unsigned_sub_values, unsigned_unsigned]
    · rw [unsigned_unsigned]

/-- Doing it twice is doing it once. -/
@[simp] theorem Kind.normalize_normalize (k : Kind) (v : Int) : k.normalize (k.normalize v) = k.normalize v := by
  by_cases hw : k.width = 0
  · rw [normalize_of_width_eq_zero hw]
  · have h := unsigned_normalize k v
    conv_lhs => rw [normalize]
    conv_rhs => rw [normalize]
    simp only [hw, if_false, h]

@[simp] theorem Kind.normalize_zero (k : Kind) : k.normalize 0 = 0 := by
  have hp := values_pos k.width
  have hz : unsigned 0 k.width = 0 := rfl
  simp only [normalize, hz]
  split
  · rfl
  · split
    · rename_i h
      simp only [Bool.and_eq_true, decide_eq_true_eq] at h
      omega
    · rfl

theorem Bits.values_one : values 1 = 2 := by decide

@[simp] theorem Kind.normalize_ofBool (b : Bool) : (uint 1).normalize (ofBool b) = ofBool b := by
  cases b <;> decide

theorem Kind.eq_normalize_one (hw : k.width = 1) (hv : k.normalize v = v) (h0 : v ≠ 0) : v = k.normalize 1 := by
  have h1 : unsigned 1 (1 : Int64) = 1 := by decide
  have hlo := unsigned_nonneg v 1
  have hhi := unsigned_lt v 1
  rw [values_one] at hhi
  rw [← hv] at h0 ⊢
  simp only [normalize, hw, h1, values_one] at h0 ⊢
  have hu : unsigned v 1 = 0 ∨ unsigned v 1 = 1 := by omega
  rcases hu with hu | hu
  · simp [hu] at h0
  · simp [hu]

theorem Expr.normalize_of_eval {Γ : SymbolTable} {b : Bindings} {e : Expr} (h : e.eval Γ b = some v) :
    (e.type Γ).normalize v = v := by
  simp only [Expr.eval, Expr.fit, Option.map_eq_some_iff] at h
  obtain ⟨r, _, rfl⟩ := h
  exact normalize_normalize _ r

end HdlLowering
