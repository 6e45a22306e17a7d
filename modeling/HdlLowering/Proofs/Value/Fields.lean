import HdlLowering.Proofs.Value.Normalize
import Mathlib.Algebra.BigOperators.Group.List.Basic
import Mathlib.Tactic.Linarith
import Mathlib.Tactic.Positivity
import Mathlib.Tactic.Ring

/-!
# Fields of bits

Values stand side by side in one value, the first in the highest bits (`Bits.join`).
-/

namespace HdlLowering

theorem Word.limit_eq : limit = 2 ^ 63 := rfl

theorem Word.toInt_low {v : Int} (h0 : 0 ≤ v) (h : v < limit) : (low v).toInt = v := by
  rw [limit_eq] at h
  exact Int64.toInt_ofInt_of_le (by omega) h

theorem Word.toInt_sub {a b : Int64} (h0 : 0 ≤ a.toInt - b.toInt) (h : a.toInt - b.toInt < limit) :
    (a - b).toInt = a.toInt - b.toInt := by
  rw [Int64.toInt_sub]
  rw [limit_eq] at h
  refine Int.bmod_eq_of_le ?_ ?_ <;> omega

theorem Word.low_sub_add_one (hi lo : Int) : low hi - low lo + 1 = low (hi - lo + 1) := by
  simp only [low, Int64.ofInt_add, Int64.ofInt_sub]
  rfl

namespace Bits

theorem values_eq (w : Int64) : values w = 2 ^ size w := by
  unfold values
  exact Int.natCast_pow 2 (size w)

theorem two_pow_pos (n : Nat) : (0 : Int) < 2 ^ n := by positivity

theorem shiftRight_eq (v : Int) (n : Nat) : v >>> n = v / 2 ^ n := by
  rw [Int.shiftRight_eq_div_pow, Nat.cast_pow, Nat.cast_ofNat]

def join (front : Int) : List (Nat × Int) → Int
  | [] => front
  | (n, v) :: fields => join (front * 2 ^ n + v % 2 ^ n) fields

variable (fields : List (Nat × Int))

def count : Nat := (fields.map (·.1)).sum

@[simp] theorem count_nil : count [] = 0 := rfl

@[simp] theorem count_cons (f : Nat × Int) (fields : List (Nat × Int)) : count (f :: fields) = f.1 + count fields := by
  simp [count]

variable (fs gs : List (Nat × Int))

variable (front : Int)

theorem join_append : join front (fs ++ gs) = join (join front fs) gs := by
  induction fs generalizing front with
  | nil => rfl
  | cons f fs ih => exact ih _

theorem join_eq : join front fields = front * 2 ^ count fields + join 0 fields := by
  induction fields generalizing front with
  | nil => simp [join]
  | cons f fs ih =>
    obtain ⟨n, v⟩ := f
    rw [join, ih, join, ih (0 * 2 ^ n + v % 2 ^ n), count_cons, pow_add]
    ring

theorem join_bounds : 0 ≤ join 0 fields ∧ join 0 fields < 2 ^ count fields := by
  induction fields with
  | nil => simp [join]
  | cons f fs ih =>
    obtain ⟨n, v⟩ := f
    have hpos := two_pow_pos (count fs)
    have hlow := Int.emod_nonneg v (two_pow_pos n).ne'
    have hhigh := Int.emod_lt_of_pos v (two_pow_pos n)
    rw [join, join_eq, count_cons, pow_add]
    refine ⟨?_, ?_⟩
    · have := Int.mul_nonneg hlow hpos.le
      linarith [ih.1]
    · -- one more value above leaves room for all that stand below
      have hstep : (v % 2 ^ n + 1) * 2 ^ count fs ≤ 2 ^ n * 2 ^ count fs := Int.mul_le_mul_of_nonneg_right hhigh hpos.le
      have hsplit : (0 * 2 ^ n + v % 2 ^ n) * 2 ^ count fs = (v % 2 ^ n + 1) * 2 ^ count fs - 2 ^ count fs := by ring
      rw [hsplit]
      linarith [ih.2]

theorem join_shiftRight : join front fields >>> count fields = front := by
  have hpos := two_pow_pos (count fields)
  obtain ⟨h0, hlt⟩ := join_bounds fields
  rw [shiftRight_eq, join_eq, Int.add_comm, Int.add_mul_ediv_right _ _ hpos.ne', Int.ediv_eq_zero_of_lt h0 hlt, Int.zero_add]

/-- The bits of each value are found again at its place. -/
theorem join_field (before after : List (Nat × Int)) (n : Nat) (v : Int) :
    (join front (before ++ (n, v) :: after) >>> count after) % 2 ^ n = v % 2 ^ n := by
  have hsplit : before ++ (n, v) :: after = (before ++ [(n, v)]) ++ after := by simp
  rw [hsplit, join_append, join_shiftRight, join_append, join, join, Int.add_comm, Int.add_mul_emod_self_right, Int.emod_emod]

theorem join_emod : join front fields % 2 ^ count fields = join 0 fields := by
  obtain ⟨h0, hlt⟩ := join_bounds fields
  rw [join_eq, Int.add_comm, Int.add_mul_emod_self_right, Int.emod_eq_of_lt h0 hlt]

theorem join_nested : join front ((count fs, join 0 fs) :: gs) = join front (fs ++ gs) := by
  obtain ⟨h0, hlt⟩ := join_bounds fs
  rw [join, Int.emod_eq_of_lt h0 hlt, join_append, ← join_eq]

theorem emod_two_pow_add (v : Int) (m n : Nat) : v % 2 ^ (m + n) = v % 2 ^ m + (v >>> m) % 2 ^ n * 2 ^ m := by
  have hm := two_pow_pos m
  have hn := two_pow_pos n
  rw [shiftRight_eq]
  -- the value taken apart twice: by the lower bits, then by those above them
  have hv := Int.emod_add_mul_ediv v (2 ^ m)
  have hd := Int.emod_add_mul_ediv (v / 2 ^ m) (2 ^ n)
  have hlow0 := Int.emod_nonneg v hm.ne'
  have hlow := Int.emod_lt_of_pos v hm
  have hnext0 := Int.emod_nonneg (v / 2 ^ m) hn.ne'
  have hnext := Int.emod_lt_of_pos (v / 2 ^ m) hn
  generalize v % 2 ^ m = low at *
  generalize hq : v / 2 ^ m = q at *
  generalize q % 2 ^ n = next at *
  generalize q / 2 ^ n = top at *
  have hsum : v = low + next * 2 ^ m + top * 2 ^ (m + n) := by
    rw [← hv, ← hd, pow_add]
    ring
  have hroom : (next + 1) * 2 ^ m ≤ 2 ^ n * 2 ^ m := Int.mul_le_mul_of_nonneg_right hnext hm.le
  have hbelow : low + next * 2 ^ m < 2 ^ (m + n) := by
    rw [pow_add]
    linarith [hroom, mul_comm ((2 : Int) ^ m) (2 ^ n)]
  have habove : 0 ≤ low + next * 2 ^ m := Int.add_nonneg hlow0 (Int.mul_nonneg hnext0 hm.le)
  rw [hsum, Int.add_mul_emod_self_right, Int.emod_eq_of_lt habove hbelow]

theorem emod_congr_of_le {m n : Nat} (hle : n ≤ m) {v v' : Int} (h : v % 2 ^ m = v' % 2 ^ m) : v % 2 ^ n = v' % 2 ^ n := by
  have hdvd : (2 : Int) ^ n ∣ 2 ^ m := pow_dvd_pow 2 hle
  rw [← Int.emod_emod_of_dvd v hdvd, h, Int.emod_emod_of_dvd v' hdvd]

theorem shiftRight_emod_congr {m n : Nat} {v v' : Int} (h : v % 2 ^ (m + n) = v' % 2 ^ (m + n)) :
    (v >>> m) % 2 ^ n = (v' >>> m) % 2 ^ n := by
  have hlow := emod_congr_of_le (Nat.le_add_right m n) h
  rw [emod_two_pow_add, emod_two_pow_add, hlow] at h
  exact mul_right_cancel₀ (two_pow_pos m).ne' (Int.add_left_cancel h)

variable (old : Int)

/-- Writes a value into a number of bits from a position on. -/
def replace (lo n : Nat) (v : Int) : Int := old + (v % 2 ^ n - (old >>> lo) % 2 ^ n) * 2 ^ lo

theorem replace_congr (lo n : Nat) {v v' : Int} (h : v % 2 ^ n = v' % 2 ^ n) :
    replace old lo n v = replace old lo n v' := by
  unfold replace
  rw [h]

theorem replace_shiftRight_emod (lo m n : Nat) (v : Int) :
    (replace old (lo + m) n v >>> lo) % 2 ^ m = (old >>> lo) % 2 ^ m := by
  have hlo := two_pow_pos lo
  unfold replace
  rw [shiftRight_eq _ lo, shiftRight_eq _ lo, pow_add, mul_comm ((2 : Int) ^ lo), ← mul_assoc,
    Int.add_mul_ediv_right _ _ hlo.ne', Int.add_mul_emod_self_right]

/-- Writing two ranges of bits that lie next to each other is writing them as one. -/
theorem replace_adjacent (lo m n : Nat) (v : Int) :
    replace (replace old (lo + m) n (v >>> m)) lo m v = replace old lo (m + n) v := by
  have hlow := replace_shiftRight_emod old lo m n (v >>> m)
  have hvalue := emod_two_pow_add v m n
  have hold := emod_two_pow_add (old >>> lo) m n
  rw [replace, hlow, replace, replace, hvalue, hold, ← Int.shiftRight_add, pow_add]
  ring

theorem replace_zero_emod (n : Nat) (v : Int) : replace old 0 n v % 2 ^ n = v % 2 ^ n := by
  have hold := Int.emod_add_mul_ediv old (2 ^ n)
  have hsum : replace old 0 n v = v % 2 ^ n + old / 2 ^ n * 2 ^ n := by
    rw [replace, shiftRight_eq, pow_zero, Int.ediv_one]
    linarith
  rw [hsum, Int.add_mul_emod_self_right, Int.emod_emod]

theorem replace_emod_of_le {lo w : Nat} (h : w ≤ lo) (n : Nat) (v : Int) : replace old lo n v % 2 ^ w = old % 2 ^ w := by
  obtain ⟨k, rfl⟩ := Nat.exists_eq_add_of_le h
  rw [replace, pow_add, mul_comm ((2 : Int) ^ w), ← mul_assoc, Int.add_mul_emod_self_right]

theorem replace_emod_congr {old old' : Int} {w : Nat} (h : old % 2 ^ w = old' % 2 ^ w) (lo n : Nat) (v : Int) :
    replace old lo n v % 2 ^ w = replace old' lo n v % 2 ^ w := by
  -- a range within the width
  have hwithin : ∀ {old old' : Int} (n : Nat), lo + n ≤ w → old % 2 ^ w = old' % 2 ^ w →
      replace old lo n v % 2 ^ w = replace old' lo n v % 2 ^ w := by
    intro old old' n hle h
    have hfield : (old >>> lo) % 2 ^ n = (old' >>> lo) % 2 ^ n := shiftRight_emod_congr (emod_congr_of_le hle h)
    rw [replace, replace, hfield, Int.add_emod, h, ← Int.add_emod]
  rcases Nat.le_total w lo with hle | hle
  · rw [replace_emod_of_le old hle, replace_emod_of_le old' hle, h]
  · rcases Nat.le_total (lo + n) w with hn | hn
    · exact hwithin n hn h
    · -- the bits above the width are written first
      obtain ⟨m, rfl⟩ := Nat.exists_eq_add_of_le hle
      obtain ⟨k, rfl⟩ : ∃ k, n = m + k := ⟨n - m, by omega⟩
      rw [← replace_adjacent, ← replace_adjacent]
      refine hwithin m (Nat.le_refl _) ?_
      rw [replace_emod_of_le old (Nat.le_refl _), replace_emod_of_le old' (Nat.le_refl _), h]

end Bits

end HdlLowering
