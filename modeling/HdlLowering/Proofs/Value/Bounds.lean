import HdlLowering.Proofs.Concatenation.Flat

/-!
# The sizes that evaluation works with

The type of an expression follows from its literals as they are written, and evaluation looks at their values. So an expression
with a value may have a negative width (`ReversedBranch.width_negative`), and a replication may exceed its bound
(`HugeCount.size_unbounded`), unless the literals are the values, sizes stay below the limit of a word, and no branch has a
negative width (`worksWith_nonneg`, `rep_bounded`).
-/

namespace HdlLowering

open List Expr Word Bits

variable {Γ : SymbolTable} {b : Bindings} {e x : Expr} {w : Int64}

/-! ## Widths -/

/-- Symbols, literals and both branches of a conditional have widths that are not negative; literal bounds of slices and counts of
replications are their values; and no size reaches the limit of a word. -/
def Expr.Measured (Γ : SymbolTable) (b : Bindings) : Expr → Prop
  | .ref _ s => 0 ≤ (Γ.kind s).width
  | .int _ _ w _ => 0 ≤ w
  | .ternary _ _ x y => 0 ≤ x.width Γ ∧ 0 ≤ y.width Γ
  | .cat _ ps => span Γ ps < limit
  | .rep _ n x => ∀ c, n.literal? = some c → n.eval Γ b = some c ∧ c * (x.width Γ).toInt < limit
  | .slice _ _ m l => ∀ hi lo, m.literal? = some hi → l.literal? = some lo →
      m.eval Γ b = some hi ∧ l.eval Γ b = some lo ∧ hi - lo + 1 < limit
  | _ => True

theorem Kind.width_join_nonneg {k k' : Kind} (h : 0 ≤ k.width) (h' : 0 ≤ k'.width) : 0 ≤ (k.join k').width := by
  unfold Kind.join
  split
  · exact Int64.le_refl 0
  · exact h'
  · exact h
  · dsimp only
    split_ifs
    all_goals first | exact h | exact h'

theorem parts_of_rawParts {ps : List Expr} {acc : Int} (h : rawParts Γ b acc ps ≠ none) : ∀ p ∈ ps, p.raw Γ b ≠ none := by
  induction ps generalizing acc with
  | nil => nofun
  | cons p ps ih =>
    rw [rawParts] at h
    cases hp : p.raw Γ b <;> grind [fit]

theorem repValue_eq_some {n v : Option Int} {r : Int} (h : repValue w n v = some r) : ∃ c u, n = some c ∧ v = some u ∧ w ≠ 0 ∧
    0 ≤ c ∧ c < limit ∧ (low c * w).toInt ≤ maxShift ∧ r = repeatBits c.toNat (unsigned u w) w := by
  unfold repValue at h
  split at h
  · rename_i c u
    split at h
    · rename_i n64 hword
      simp only [ofInt?, Option.ite_none_right_eq_some, Option.some.injEq] at hword
      obtain ⟨⟨-, hlimit⟩, rfl⟩ := hword
      simp only [Option.ite_none_left_eq_some, Bool.or_eq_true, decide_eq_true_eq, not_or, Int.not_lt, Option.some.injEq] at h
      obtain ⟨⟨⟨hw, hc⟩, hshift⟩, rfl⟩ := h
      exact ⟨c, u, rfl, rfl, hw, hc, hlimit, hshift, rfl⟩
    · cases h
  · cases h

theorem toInt_low_mul {c : Int} (hc : 0 ≤ c) (hw : 0 < w.toInt) (h : c * w.toInt < limit) :
    (low c * w).toInt = c * w.toInt := by
  have hle : c ≤ c * w.toInt := le_mul_of_one_le_right hc hw
  have h0 : 0 ≤ c * w.toInt := Int.mul_nonneg hc hw.le
  rw [Int64.toInt_mul, toInt_low hc (by omega)]
  exact Int.bmod_eq_of_le (by omega) (by simp only [limit] at h; omega)

theorem BinaryOp.operands_of_eval {op : BinaryOp} {x y : Option Int} (h : op.eval w x y ≠ none) :
    op = .both ∨ op = .either ∨ x ≠ none ∧ y ≠ none := by
  cases op <;> cases x <;> cases y <;> simp [BinaryOp.eval] at h ⊢

theorem width_nonneg (e : Expr) : (∀ x ∈ e.subterms, x.Measured Γ b) → e.eval Γ b ≠ none → 0 ≤ e.width Γ := by
  induction e using of_operands with
  | h e ih =>
    intro hmeasured hvalue
    have hown := hmeasured e e.self_mem_subterms
    replace ih : ∀ x ∈ e.operands, x.eval Γ b ≠ none → 0 ≤ (x.type Γ).width :=
      fun x hx => ih x hx fun y hy => hmeasured y (mem_subterms_of_operand hx hy)
    have hraw : e.raw Γ b ≠ none := fun hnone => hvalue (by rw [eval, hnone]; rfl)
    have hbit : 0 ≤ (Kind.uint 1).width := by decide
    have hword : ∀ {w : Int64}, 0 ≤ w.toInt → 0 ≤ w := fun h => Int64.le_iff_toInt_le.mpr h
    unfold width
    cases e with
    | ref l s =>
      rw [type, Kind.width_underlying]
      exact hown
    | num => exact Int64.le_refl 0
    | int l signed w v => cases signed <;> exact hown
    | unary l op x =>
      have hx : x.eval Γ b ≠ none := fun hnone => hraw (by rw [raw, ← eval, hnone]; rfl)
      have hwx := ih x mem_cons_self hx
      cases op <;> simp only [type] <;> with_reducible assumption
    | binary l op x y =>
      have hop : op.eval (x.width Γ) (x.eval Γ b) (y.eval Γ b) ≠ none := hraw
      rcases BinaryOp.operands_of_eval hop with rfl | rfl | ⟨hx, hy⟩
      · exact hbit
      · exact hbit
      · have hwx := ih x mem_cons_self hx
        have hjoin := Kind.width_join_nonneg hwx (ih y (mem_cons_of_mem _ mem_cons_self) hy)
        cases op <;> simp only [type] <;> with_reducible assumption
    | ternary l c x y => exact Kind.width_join_nonneg hown.1 hown.2
    | cat l ps =>
      have hraws : ∀ p ∈ ps, p.raw Γ b ≠ none := parts_of_rawParts hraw
      have hparts : ∀ p ∈ ps, p.eval Γ b ≠ none := fun p hp => by
        simpa [eval, fit] using hraws p hp
      have hadds : Adds Γ ps := ⟨fun p hp => ih p hp (hparts p hp), hown⟩
      exact hword (hadds.toInt_widths ▸ hadds.span_nonneg)
    | rep l n x =>
      rw [type]
      split
      · rename_i c hc
        obtain ⟨hn, hlimit⟩ := hown c hc
        obtain ⟨r, hr⟩ := Option.ne_none_iff_exists'.mp hraw
        obtain ⟨c', v, hc', hv, hne, h0, -⟩ := repValue_eq_some hr
        obtain rfl : c = c' := Option.some.inj (hn.symm.trans hc')
        have hpos := toInt_pos (Int64.lt_of_le_of_ne
          (ih x (by simp [operands]) fun h => Option.some_ne_none v (hv.symm.trans h)) hne.symm)
        exact hword ((toInt_low_mul h0 hpos hlimit).symm ▸ Int.mul_nonneg h0 hpos.le)
      · exact Int64.le_refl 0
    | index l x i =>
      rw [type]
      rw [raw] at hraw
      split
      · simp_all
      · exact hbit
    | slice l x m n =>
      rw [type]
      split
      · rename_i hi lo hhi hlo
        obtain ⟨hm, hn, hlimit⟩ := hown hi lo hhi hlo
        have hslice : sliceValue (x.eval Γ b) (m.eval Γ b) (n.eval Γ b) ≠ none := hraw
        rw [hm, hn] at hslice
        have horder : lo ≤ hi := by
          cases hx : x.eval Γ b <;> simp_all [sliceValue]
        rw [Kind.width, Word.low_sub_add_one]
        exact hword (by rw [Word.toInt_low] <;> omega)
      · exact Int64.le_refl 0
    | select => exact absurd rfl hraw
    | call => exact absurd rfl hraw

/-- Evaluation works with no negative width, and so it has an answer, where every part of the expression measures what its
literals say. -/
theorem worksWith_nonneg (Γ : SymbolTable) (b : Bindings) (e : Expr) (h : ∀ x ∈ e.subterms, x.Measured Γ b) :
    (∀ w, e.WorksWith Γ b w → 0 ≤ w) ∧ e.evaluate Γ b = .ok (e.eval Γ b) := by
  have hworks : e.Works Γ b := by
    intro w hw
    induction hw with
    | @own e hvalue =>
      refine width_nonneg e h fun hnone => ?_
      cases hraw : e.raw Γ b <;> simp_all [eval, fit]
    | operand hx _ ih => exact ih fun y hy => h y (mem_subterms_of_operand (operand_of_consulted hx) hy)
  exact ⟨hworks, hworks.evaluate⟩

namespace ReversedBranch

/-- The number, which is chosen, is cut to the negative width of the slice, which is not. -/
theorem width_negative : (∃ w, choice.WorksWith table five w ∧ w < 0) ∧ choice.evaluate table five = .error .negativeWidth :=
  ⟨⟨-4, .own rfl, by decide⟩, by decide⟩

/-- By itself the slice has the same width, and no value. -/
theorem slice_harmless : reversed.width table = -4 ∧ (∀ x ∈ reversed.subterms, x.Measured table ⟨[(⟨0⟩, 200)]⟩) ∧
    (∀ w, reversed.WorksWith table ⟨[(⟨0⟩, 200)]⟩ w → 0 ≤ w) ∧ reversed.evaluate table ⟨[(⟨0⟩, 200)]⟩ = .ok none := by
  have hmeasured : ∀ x ∈ reversed.subterms, x.Measured table ⟨[(⟨0⟩, 200)]⟩ := by
    intro x hx
    simp only [reversed, subterms, mem_cons, mem_append, not_mem_nil, or_false] at hx
    rcases hx with rfl | (rfl | rfl) | rfl
    · rintro hi lo ⟨⟩ ⟨⟩
      decide
    · exact (by decide : (0 : Int64) ≤ 8)
    · trivial
    · trivial
  exact ⟨by decide, hmeasured, worksWith_nonneg table _ reversed hmeasured⟩

end ReversedBranch

/-! ## Replications -/

theorem repeatBits_bounds (w : Int64) {part : Int} (h0 : 0 ≤ part) (h : part < values w) (n : Nat) :
    0 ≤ repeatBits n part w ∧ repeatBits n part w < values w ^ n := by
  have hvalues := values_pos w
  unfold repeatBits
  split
  · exact ⟨le_rfl, pow_pos hvalues n⟩
  induction n with
  | zero => simp [Nat.repeat]
  | succ n ih =>
    obtain ⟨hlow, hhigh⟩ := ih
    have hcopies := Int.mul_le_mul_of_nonneg_right (Int.add_one_le_of_lt hhigh) hvalues.le
    rw [Int.add_mul] at hcopies
    rw [Nat.repeat, pow_succ]
    exact ⟨Int.add_nonneg (Int.mul_nonneg hlow hvalues.le) h0, by omega⟩

/-- A replication that is evaluated repeats the bits of its operand, in as many bits as all copies have. There are few copies
of few bits, or so many that their size is beyond the limit of a word. -/
theorem rep_bounded (Γ : SymbolTable) (b : Bindings) (l : Loc) (n x : Expr) (r : Int) (h : (Expr.rep l n x).raw Γ b = some r)
    (hw : 0 ≤ x.width Γ) : ∃ c v, n.eval Γ b = some c ∧ x.eval Γ b = some v ∧ 0 ≤ c ∧
      r = repeatBits c.toNat (Bits.unsigned v (x.width Γ)) (x.width Γ) ∧ 0 ≤ r ∧ r < 2 ^ (c * (x.width Γ).toInt).toNat ∧
      (c ≤ maxShift ∧ c * (x.width Γ).toInt ≤ maxShift ∨ Word.limit ≤ c * (x.width Γ).toInt) := by
  obtain ⟨c, v, hc, hv, hne, h0, -, hshift, rfl⟩ := repValue_eq_some h
  have hpos := toInt_pos (Int64.lt_of_le_of_ne hw hne.symm)
  have hbounds := repeatBits_bounds (x.width Γ) (Bits.unsigned_nonneg v _) (Bits.unsigned_lt v _) c.toNat
  have hsize : Bits.values (x.width Γ) ^ c.toNat = 2 ^ (c * (x.width Γ).toInt).toNat := by
    rw [Bits.values_eq, ← pow_mul, Int.toNat_mul h0 hpos.le, Nat.mul_comm]
    rfl
  refine ⟨c, v, hc, hv, h0, rfl, hbounds.1, hsize ▸ hbounds.2, ?_⟩
  by_cases hlimit : c * (x.width Γ).toInt < Word.limit
  · rw [toInt_low_mul h0 hpos hlimit] at hshift
    exact .inl ⟨(le_mul_of_one_le_right h0 hpos).trans hshift, hshift⟩
  · exact .inr (not_lt.mp hlimit)

namespace HugeCount

def table : SymbolTable := ⟨#[.value 1 "n" (.num false)]⟩

def known : Bindings := ⟨[(⟨0⟩, 2 ^ 29)]⟩

def copies (count : Expr) (w : Int64) : Expr := .rep {} count (.int {} false w 0)

/-- The size of `2 ^ 29` copies of `2 ^ 34` bits is negative as a word, so they are made. -/
theorem size_unbounded : (Expr.ref {} ⟨0⟩).eval table known = some (2 ^ 29) ∧
    (copies (.ref {} ⟨0⟩) (2 ^ 34)).raw table known = some 0 ∧
    maxShift < 2 ^ 29 * ((Expr.int {} false (2 ^ 34) 0).width table).toInt := by
  decide

/-- Three copies of four bits are few. -/
theorem size_bounded : (copies (.num {} false 3) 4).raw table known = some 0 ∧
    ∃ c, (Expr.num {} false 3).eval table known = some c ∧ (c ≤ maxShift ∧ c * 4 ≤ maxShift ∨ Word.limit ≤ c * 4) := by
  have hraw : (copies (.num {} false 3) 4).raw table known = some 0 := by decide
  obtain ⟨c, v, hc, -, -, -, -, -, hsize⟩ := rep_bounded table known {} _ _ 0 hraw (by decide)
  exact ⟨hraw, c, hc, hsize⟩

end HugeCount

end HdlLowering
