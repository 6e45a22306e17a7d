import HdlLowering.Proofs.Value.Fields

/-!
# Slices

The width of a slice is the distance of its bounds when both are literals. A slice with another bound has no width and is not
cut: its value is right only when the operand has no bits above the upper bound (`Expr.eval_slice`).
-/

namespace HdlLowering

open Bits Word

variable {Γ : SymbolTable} {b : Bindings} {x msb lsb : Expr} {v m l : Int}

/-- The bits of a value from a position down to another one. -/
def Bits.between (v m l : Int) : Int := v / 2 ^ l.toNat % 2 ^ (m - l + 1).toNat

namespace Expr

/-- A slice is its operand without the bits below the lower bound, cut to the width of the slice. -/
theorem eval_slice_eq (loc : Loc) (hx : x.eval Γ b = some v) (hm : msb.eval Γ b = some m) (hl : lsb.eval Γ b = some l)
    (h0 : 0 ≤ l) (hlm : l ≤ m) : (slice loc x msb lsb).eval Γ b =
      if l ≤ maxShift then some (((slice loc x msb lsb).type Γ).normalize (v / 2 ^ l.toNat)) else none := by
  rw [eval] at hx hm hl
  simp only [eval, raw, hx, hm, hl, sliceValue, inShiftRange, h0, hlm, decide_true, Bool.true_and, Bool.and_true,
    decide_eq_true_eq, shiftRight_eq]
  split <;> rfl

theorem normalize_slice (loc : Loc) (hm : msb.literal? = some m) (hl : lsb.literal? = some l) (hlm : l ≤ m)
    (hwide : m - l + 1 < limit) (u : Int) :
    ((slice loc x msb lsb).type Γ).normalize u = u % 2 ^ (m - l + 1).toNat := by
  have hwidth := toInt_low (v := m - l + 1) (by omega) hwide
  have hne : low (m - l + 1) ≠ 0 := by
    intro hzero
    rw [hzero, Int64.toInt_zero] at hwidth
    omega
  have hsigned : (Kind.uint (low (m - l + 1))).signed = false := rfl
  simp only [Expr.type, hm, hl, low_sub_add_one, Kind.normalize, Kind.width, if_neg hne, hsigned, Bool.false_and, Bool.false_eq_true,
    if_false, unsigned_eq, values_eq, size, hwidth]

theorem normalize_slice_of_not_literal (loc : Loc) (h : msb.literal? = none ∨ lsb.literal? = none) (u : Int) :
    ((slice loc x msb lsb).type Γ).normalize u = u := by
  refine Kind.normalize_of_width_eq_zero ?_ u
  rcases h with h | h
  · simp only [Expr.type, h, Kind.width]
  · cases hm : msb.literal? <;> simp only [Expr.type, h, hm, Kind.width]

end Expr

theorem Bits.div_eq_between_iff (h0 : 0 ≤ l) (hlm : l ≤ m) :
    v / 2 ^ l.toNat = between v m l ↔ 0 ≤ v ∧ v < 2 ^ (m + 1).toNat := by
  have hpos := two_pow_pos l.toNat
  have hsum : (2 : Int) ^ (m + 1).toNat = 2 ^ (m - l + 1).toNat * 2 ^ l.toNat := by
    rw [← pow_add]
    congr 1
    omega
  rw [between, hsum, ← Int.ediv_lt_iff_lt_mul hpos, ← Int.ediv_nonneg_iff_of_pos hpos]
  constructor
  · intro h
    rw [h]
    exact ⟨Int.emod_nonneg _ (two_pow_pos _).ne', Int.emod_lt_of_pos _ (two_pow_pos _)⟩
  · intro h
    exact (Int.emod_eq_of_lt h.1 h.2).symm

/-- The value of a slice whose operand and bounds have values, the bounds in order. Bounds written as literals give the bits
between them; with another bound the value is those bits exactly when the operand has none above them. -/
theorem Expr.eval_slice {loc : Loc} {r : Int} (hx : x.eval Γ b = some v) (hm : msb.eval Γ b = some m)
    (hl : lsb.eval Γ b = some l) (h0 : 0 ≤ l) (hlm : l ≤ m) (hr : (slice loc x msb lsb).eval Γ b = some r) :
    (msb.literal? = some m → lsb.literal? = some l → m - l + 1 < Word.limit → r = between v m l) ∧
    (msb.literal? = none ∨ lsb.literal? = none → (r = between v m l ↔ 0 ≤ v ∧ v < 2 ^ (m + 1).toNat)) := by
  rw [eval_slice_eq loc hx hm hl h0 hlm] at hr
  split at hr
  · obtain rfl := Option.some.inj hr
    refine ⟨fun hmlit hllit hwide => normalize_slice loc hmlit hllit hlm hwide _, fun hnot => ?_⟩
    rw [normalize_slice_of_not_literal loc hnot]
    exact div_eq_between_iff h0 hlm
  · cases hr

namespace BoundedByConstant

def symbols : SymbolTable := ⟨#[.value 1 "x" (.uint 8), .value 2 "c" (.uint 8)]⟩

def known : Bindings := ⟨[(⟨0⟩, 255), (⟨1⟩, 3)]⟩

def lowest (bound : Expr) : Expr := .slice {} (.ref {} ⟨0⟩) bound (.num {} false 0)

/-- With a literal bound the four bits are left. -/
theorem literal_right : (lowest (.num {} false 3)).eval symbols known = some 15 ∧ 15 = between 255 3 0 := by
  have heval : (lowest (.num {} false 3)).eval symbols known = some 15 := by decide
  exact ⟨heval, (Expr.eval_slice rfl rfl rfl (by decide) (by decide) heval).1 rfl rfl (by decide)⟩

/-- With a symbol as the bound, which has the same value, all bits of the byte are left. -/
theorem symbol_wrong : (Expr.ref {} ⟨1⟩).eval symbols known = some 3 ∧
    (lowest (.ref {} ⟨1⟩)).eval symbols known = some 255 ∧ between 255 3 0 = 15 := by
  decide

end BoundedByConstant

end HdlLowering
