/-!
# Decimal texts

A number is read back from its decimal text (`decimal_repr`).
-/

namespace HdlLowering

/-- A decimal number, with a minus sign or without. -/
def decimal : List Char → Int
  | '-' :: ds => - Nat.ofDigitChars 10 ds 0
  | ds => Nat.ofDigitChars 10 ds 0

theorem isDigit_toDigits {n : Nat} : ∀ c ∈ Nat.toDigits 10 n, c.isDigit = true :=
  fun _ => Nat.isDigit_of_mem_toDigits (by decide) (by decide)

theorem toList_repr {v : Int} (hv : 0 ≤ v) : v.repr.toList = Nat.toDigits 10 v.toNat := by
  rw [Int.repr_eq_if, if_pos hv, Nat.toList_repr]

theorem toList_repr_neg {v : Int} (hv : v < 0) : v.repr.toList = '-' :: (-v).repr.toList := by
  rw [Int.repr_eq_if, if_neg (by omega), toList_repr (by omega), String.toList_append, Nat.toList_repr]
  rfl

/-- The decimal text of a number is read back as that number. -/
theorem decimal_repr (v : Int) : decimal v.repr.toList = v := by
  by_cases hv : 0 ≤ v
  · rw [toList_repr hv, decimal]
    · rw [Nat.ofDigitChars_ten_toDigits, Int.toNat_of_nonneg hv]
    · intro ds h
      have hsign : '-' ∈ Nat.toDigits 10 v.toNat := h ▸ .head _
      exact absurd (isDigit_toDigits '-' hsign) (by decide)
  · rw [toList_repr_neg (by omega), toList_repr (by omega), decimal, Nat.ofDigitChars_ten_toDigits]
    omega

/-- Numbers with one text are one. -/
theorem repr_inj {v w : Int} : v.repr = w.repr ↔ v = w :=
  ⟨fun h => by rw [← decimal_repr v, h, decimal_repr], congrArg _⟩

end HdlLowering
