import HdlLowering.Proofs.Concatenation.Flattening

/-!
# Ranges of bits

A target takes the lowest bits of a value, as many as it has (`Expr.Exact`). Variables, slices and bits of them are ranges of
bits (`IsRange`), and cutting a range in two (`splitTop?`) gives two next to each other.
-/

namespace HdlLowering

def Kind.isArray : Kind → Bool
  | .array .. => true
  | _ => false

open Expr Bits Store Word

variable {Γ : SymbolTable} {ω : Unknowns} {st cur : Store Γ} {x m l : Expr} {v v' : Int}

namespace Expr

variable {hi lo : Int}

/-! ## Literals and bounds -/

theorem value_of_literal? {e : Expr} {v : Int} (h : e.literal? = some v) : e.value ω st = (e.type Γ).normalize v := by
  cases e with
  | num | int =>
    obtain rfl := Option.some.inj h
    rw [value, rawValue]
  | _ => cases h

theorem symbols_of_literal? {e : Expr} {v : Int} (h : e.literal? = some v) : e.symbols = [] := by
  cases e with
  | num | int => rfl
  | _ => nomatch h

theorem type_slice (hm : m.literal? = some hi) (hl : l.literal? = some lo) (loc : Loc) :
    (slice loc x m l).type Γ = .uint (low hi - low lo + 1) := by
  simp only [type, hm, hl]

variable (h : InOrder Γ x m l hi lo) (hm : m.literal? = some hi) (hl : l.literal? = some lo)
include h hm hl

theorem InOrder.toInt_width (loc : Loc) : ((slice loc x m l).width Γ).toInt = hi - lo + 1 := by
  have h1 := h.low
  have h2 := h.order
  have h3 := h.high
  rw [width, type_slice hm hl, Kind.width, low_sub_add_one, toInt_low] <;> omega

theorem InOrder.bits (loc : Loc) : (Expr.slice loc x m l).bits Γ = (hi - lo + 1).toNat := by
  rw [Expr.bits, size, h.toInt_width hm hl loc]

theorem InOrder.between : BitRange.between (m.value ω st) (l.value ω st) = ⟨lo.toNat, (hi - lo + 1).toNat⟩ := by
  rw [value_of_literal? hm, value_of_literal? hl, h.msb, h.lsb, BitRange.between, if_pos ⟨h.low, h.order⟩]

end Expr

/-! ## Targets take the lowest bits -/

theorem Store.set_congr {s : Symbol} (h : (Γ.kind s).normalize v = (Γ.kind s).normalize v') : cur.set s v = cur.set s v' := by
  refine Store.ext (funext fun t => ?_)
  simp only [Store.set, h]

theorem Store.set_set (s : Symbol) (u v : Int) : (cur.set s u).set s v = cur.set s v := by
  refine Store.ext (funext fun t => ?_)
  simp only [Store.set]
  split <;> rfl

/-- A target sees the lowest bits of a value only, as many as it has. -/
def Expr.Exact (Γ : SymbolTable) (t : Expr) : Prop := ∀ ω (st cur : Store Γ) v v', v % 2 ^ t.bits Γ = v' % 2 ^ t.bits Γ →
  st.write ω cur (t, v) = st.write ω cur (t, v')

theorem Store.write_congr {t : Expr} (h : ∀ old, t.put ω st old v = t.put ω st old v') :
    st.write ω cur (t, v) = st.write ω cur (t, v') := by
  unfold write
  dsimp only
  split
  · rw [h]
  · rfl

theorem Expr.exact_ref {l : Loc} {s : Symbol} (hwidth : (ref l s).width Γ ≠ 0) : (ref l s).Exact Γ := by
  intro ω st cur v v' h
  have hw : (Γ.kind s).width ≠ 0 := by
    rw [← Kind.width_underlying]
    exact hwidth
  rw [bits_ref, ← values_eq, ← unsigned_eq, ← unsigned_eq] at h
  rw [write_of_root (x := s) rfl, write_of_root (x := s) rfl]
  exact set_congr (Kind.normalize_eq_of_unsigned hw h)

theorem Expr.exact_index (l : Loc) (x i : Expr) : (index l x i).Exact Γ := by
  intro ω st cur v v' h
  have hstep : (x.type Γ).step ≤ (index l x i).bits Γ := by
    rw [bits, width, type]
    cases x.type Γ <;> exact Nat.le_refl _
  refine write_congr fun old => ?_
  rw [put, put]
  refine congrArg _ (replace_congr _ _ _ (emod_congr_of_le ?_ h))
  rw [Kind.rangeAt]
  split
  · exact hstep
  · exact Nat.zero_le _

theorem Expr.exact_slice {l : Loc} {x m n : Expr} (hsized : (slice l x m n).WellSized Γ)
    (hwidth : (slice l x m n).width Γ ≠ 0) : (slice l x m n).Exact Γ := by
  intro ω st cur v v' h
  -- a slice of known width has literal bounds
  cases hm : m.literal? with
  | none => exact absurd (by simp [width, type, hm, Kind.width]) hwidth
  | some hi =>
    cases hn : n.literal? with
    | none => exact absurd (by simp [width, type, hm, hn, Kind.width]) hwidth
    | some lo =>
      have horder := hsized.2.2 hi lo hm hn
      rw [horder.bits hm hn] at h
      refine write_congr fun old => ?_
      rw [put, put, horder.between hm hn]
      exact congrArg _ (replace_congr _ _ _ h)

theorem Expr.exact_of_sized {t : Expr} (hroot : t.root? ≠ none) (hsized : t.WellSized Γ) (hwidth : t.width Γ ≠ 0) :
    t.Exact Γ := by
  cases t with
  | ref l s => exact exact_ref hwidth
  | index l x i => exact exact_index l x i
  | slice l x m n => exact exact_slice hsized hwidth
  | _ => exact absurd rfl hroot

theorem Store.writes_cut_congr {ts : List Expr} (hexact : ∀ t ∈ ts, t.Exact Γ)
    (h : v % 2 ^ bitsList Γ ts = v' % 2 ^ bitsList Γ ts) :
    st.writes ω cur (cut Γ ts v) = st.writes ω cur (cut Γ ts v') := by
  induction ts generalizing cur with
  | nil => rfl
  | cons t ts ih =>
    rw [List.forall_mem_cons] at hexact
    rw [bitsList_cons, Nat.add_comm] at h
    rw [cut, cut, writes_cons, writes_cons, hexact.1 ω st cur _ _ (shiftRight_emod_congr h)]
    exact ih hexact.2 (emod_congr_of_le (Nat.le_add_right _ _) h)

namespace Concatenation

/-! ## Ranges of a variable -/

/-- An expression is a number of bits of a variable from a position on, as a value and as a target. -/
structure IsRange (Γ : SymbolTable) (e : Expr) (s : Symbol) (lo n : Nat) : Prop where
  bits : e.bits Γ = n
  positive : 0 < n
  root : e.root? = some s
  steers : e.steers = []
  symbols : e.symbols = [s]
  sized : e.WellSized Γ
  cat : e.isCat = false
  width : 0 ≤ e.width Γ
  value : ∀ ω (st : Store Γ), e.value ω st % 2 ^ n = (st.value s >>> lo) % 2 ^ n
  write : ∀ ω (st cur : Store Γ) v, st.write ω cur (e, v) = cur.set s (replace (cur.value s) lo n v)

variable {s : Symbol} {e top rest : Expr} {lo m n : Nat}

/-- The two are written like the whole. -/
theorem IsRange.write_split (he : IsRange Γ e s lo (m + n)) (htop : IsRange Γ top s (lo + m) n)
    (hrest : IsRange Γ rest s lo m) (v : Int) :
    st.write ω (st.write ω cur (top, v >>> m)) (rest, v) = st.write ω cur (e, v) := by
  rw [htop.write, hrest.write, he.write, set_set, set_value_self, ← replace_adjacent]
  refine set_congr ?_
  by_cases hw : (Γ.kind s).width = 0
  · simp only [Kind.normalize_of_width_eq_zero hw]
  · refine Kind.normalize_eq_of_unsigned hw ?_
    have hnormal := Kind.unsigned_normalize (Γ.kind s) (replace (cur.value s) (lo + m) n (v >>> m))
    rw [unsigned_eq, unsigned_eq, values_eq] at hnormal ⊢
    exact replace_emod_congr hnormal lo m v

/-- The two side by side are read like the whole. -/
theorem IsRange.join_split (he : IsRange Γ e s lo (m + n)) (htop : IsRange Γ top s (lo + m) n)
    (hrest : IsRange Γ rest s lo m) (front : Int) (fields : List (Nat × Int)) :
    join front ((n, top.value ω st) :: (m, rest.value ω st) :: fields) =
      join front ((m + n, e.value ω st) :: fields) := by
  rw [join, join, join, he.value, htop.value, hrest.value, emod_two_pow_add, pow_add,
    Int.shiftRight_add]
  congr 1
  ring

theorem isRange_ref {l : Loc} (hwidth : 0 < (ref l s).width Γ) : IsRange Γ (.ref l s) s 0 (size (Γ.kind s).width) := by
  have hne : (Γ.kind s).width ≠ 0 := by
    rw [← Kind.width_underlying]
    exact fun h => Int64.lt_irrefl (h ▸ hwidth)
  have hpositive : 0 < (Γ.kind s).width := by
    rw [← Kind.width_underlying]
    exact hwidth
  have hint := Int64.lt_iff_toInt_lt.mp hpositive
  refine ⟨bits_ref l s, ?_, rfl, rfl, rfl, trivial, rfl, Int64.le_of_lt hwidth, fun ω st => ?_, fun ω st cur v => ?_⟩
  · exact size_pos.mpr hpositive
  · rw [value_ref, Int.shiftRight_zero]
  · rw [write_of_root (x := s) rfl]
    refine set_congr (Kind.normalize_eq_of_unsigned hne ?_)
    rw [unsigned_eq, unsigned_eq, values_eq, replace_zero_emod]
    rfl

theorem isRange_slice {loc l : Loc} {x y : Expr} {hi lo : Int} (hx : x.literal? = some hi) (hy : y.literal? = some lo)
    (hsized : (slice loc (.ref l s) x y).WellSized Γ) :
    IsRange Γ (.slice loc (.ref l s) x y) s lo.toNat (hi - lo + 1).toNat := by
  have h := hsized.2.2 hi lo hx hy
  have hbits := h.bits hx hy loc
  have hwidth := h.toInt_width hx hy loc
  have h1 := h.low
  have h2 := h.order
  refine ⟨hbits, by omega, rfl, ?_, ?_, hsized, rfl, ?_, fun ω st => ?_, fun ω st cur v => ?_⟩
  · simp [steers, symbols_of_literal? hx, symbols_of_literal? hy]
  · simp [symbols_of_literal? hx, symbols_of_literal? hy]
  · rw [Int64.le_iff_toInt_le, hwidth]
    have hzero : (0 : Int64).toInt = 0 := by decide
    omega
  · -- the slice is cut to its width, which is that of the range
    have hcut := Kind.unsigned_normalize ((slice loc (.ref l s) x y).type Γ)
      ((slice loc (.ref l s) x y).rawValue ω st)
    have hsize : values ((slice loc (.ref l s) x y).type Γ).width = 2 ^ (hi - lo + 1).toNat := by
      rw [← hbits, values_eq]
      rfl
    rw [unsigned_eq, unsigned_eq, hsize] at hcut
    have hraw : (slice loc (.ref l s) x y).rawValue ω st = st.value s >>> lo.toNat := by
      rw [rawValue]
      change ω.bitsFrom ((ref l s).value ω st) (x.value ω st) (y.value ω st) = _
      rw [value_ref, value_of_literal? hx, value_of_literal? hy, h.msb, h.lsb, Unknowns.bitsFrom,
        if_pos ⟨h1, h2⟩]
    rw [Expr.value, hcut, hraw]
  · rw [write_of_root (x := s) rfl, put, h.between hx hy]
    rfl

theorem literal?_ofInt (v : Int) : (ofInt v).literal? = some v := rfl

theorem isRange_bit {loc l : Loc} {i : Int} (hi : 0 ≤ i) (hkind : ∀ elem n, (Γ.kind s).underlying ≠ .array elem n) :
    IsRange Γ (.index loc (.ref l s) (.ofInt i)) s i.toNat 1 := by
  have htype : (index loc (.ref l s) (.ofInt i)).type Γ = .uint 1 := by
    rw [type, type]
    cases hk : (Γ.kind s).underlying <;> first | rfl | exact absurd hk (hkind _ _)
  have hstep : ((ref l s).type Γ).step = 1 := by
    rw [type]
    cases hk : (Γ.kind s).underlying <;> first | rfl | exact absurd hk (hkind _ _)
  have hposition : ∀ ω (st : Store Γ), (ofInt i).value ω st = i := fun ω st =>
    (value_of_literal? (literal?_ofInt i)).trans (Kind.normalize_of_width_eq_zero rfl i)
  refine ⟨?_, Nat.one_pos, rfl, rfl, rfl, trivial, rfl, ?_, fun ω st => ?_, fun ω st cur v => ?_⟩
  · rw [bits, width, htype]
    rfl
  · rw [width, htype]
    exact Int64.le_of_lt (by decide)
  · have hcut := Kind.unsigned_normalize (.uint 1) ((index loc (.ref l s) (.ofInt i)).rawValue ω st)
    have hraw : (index loc (.ref l s) (.ofInt i)).rawValue ω st = bit (st.value s) i.toNat := by
      rw [rawValue]
      change ω.at ((ref l s).type Γ) ((ref l s).value ω st) ((ofInt i).value ω st) = _
      rw [value_ref, hposition, type]
      unfold Unknowns.at
      split
      · exact absurd ‹_› (hkind _ _)
      · rw [if_pos hi]
    rw [unsigned_eq, unsigned_eq, Kind.width, values_one, hraw, bit, Int.emod_emod] at hcut
    rw [Expr.value, htype, pow_one, hraw, bit]
    exact hcut
  · rw [write_of_root (x := s) rfl, put, hposition, Kind.rangeAt, if_pos hi, hstep, Nat.mul_one]
    rfl

theorem isRange_bitRange {l : Loc} (hi lo : Int64) (hlo : 0 ≤ lo.toInt) (hle : lo.toInt ≤ hi.toInt)
    (hhi : hi.toInt + 1 < limit) (hkind : ∀ elem n, (Γ.kind s).underlying ≠ .array elem n) :
    IsRange Γ (bitRange (.ref l s) hi lo) s lo.toInt.toNat (hi.toInt - lo.toInt + 1).toNat := by
  unfold bitRange
  split
  · rename_i heq
    subst heq
    have hone : (hi.toInt - hi.toInt + 1).toNat = 1 := by omega
    rw [hone]
    exact isRange_bit hlo hkind
  · refine isRange_slice (literal?_ofInt _) (literal?_ofInt _) ⟨rfl, rfl, fun hi' lo' hhi' hlo' => ?_⟩
    obtain rfl := Option.some.inj hhi'
    obtain rfl := Option.some.inj hlo'
    refine ⟨hlo, hle, hhi, Kind.normalize_of_width_eq_zero rfl _, Kind.normalize_of_width_eq_zero rfl _, ?_⟩
    rintro loc s' elem n ⟨⟩
    exact hkind elem n

/-! ## What can be cut -/

/-- An expression is a variable that is no array, or the bits of a variable between two literals. -/
inductive Sliced (Γ : SymbolTable) : Expr → Loc → Symbol → Int64 → Int64 → Prop
  | whole {l : Loc} {s : Symbol} : (Γ.kind s).underlying.isArray = false → Sliced Γ (.ref l s) l s ((Γ.kind s).width - 1) 0
  | slice {loc l : Loc} {s : Symbol} {m n : Expr} {v w : Int} : m.literal? = some v → n.literal? = some w →
    Sliced Γ (.slice loc (.ref l s) m n) l s (low v) (low w)

theorem bitsOf?_eq_some {base : Expr} {hi lo : Int64} (h : bitsOf? Γ e = some (base, hi, lo)) :
    ∃ l s, base = .ref l s ∧ Sliced Γ e l s hi lo := by
  cases e with
  | ref l s =>
    rw [bitsOf?] at h
    split at h
    · cases h
      exact ⟨l, s, rfl, .whole (by simp [*, Kind.isArray])⟩
    · cases h
      exact ⟨l, s, rfl, .whole (by simp [*, Kind.isArray])⟩
    · cases h
  | slice loc x m n =>
    cases x with
    | ref l s =>
      rw [bitsOf?] at h
      simp only [bind, Option.bind_eq_some_iff, pure, Option.some.injEq, Prod.mk.injEq] at h
      obtain ⟨v, hm, w, hn, rfl, rfl, rfl⟩ := h
      exact ⟨l, s, rfl, .slice hm hn⟩
    | _ => cases h
  | _ => cases h

theorem splitTop?_eq_some {count : Int64} (h : splitTop? Γ e count = some (top, rest)) : ∃ l s hi lo, 0 < count ∧
    count ≤ hi - lo ∧ Sliced Γ e l s hi lo ∧ top = bitRange (.ref l s) hi (hi - count + 1) ∧
      rest = bitRange (.ref l s) (hi - count) lo := by
  unfold splitTop? at h
  simp only [bind, Option.bind_eq_some_iff] at h
  obtain ⟨⟨base, hi, lo⟩, hbits, h⟩ := h
  obtain ⟨l, s, rfl, he⟩ := bitsOf?_eq_some hbits
  dsimp only at h
  split at h
  · nomatch h
  · rename_i hcount
    simp only [Bool.or_eq_true, decide_eq_true_eq, not_or, Int64.not_le, Int64.not_lt] at hcount
    obtain ⟨rfl, rfl⟩ := Prod.mk.inj (Option.some.inj h)
    exact ⟨l, s, hi, lo, hcount.1, hcount.2, he, rfl, rfl⟩

theorem Sliced.isRange {l : Loc} {hi lo : Int64} (h : Sliced Γ e l s hi lo) (hsized : e.WellSized Γ) (hwidth : 0 < e.width Γ) :
    (∀ elem n, (Γ.kind s).underlying ≠ .array elem n) ∧ 0 ≤ lo.toInt ∧ lo.toInt ≤ hi.toInt ∧ hi.toInt + 1 < limit ∧
      IsRange Γ e s lo.toInt.toNat (hi.toInt - lo.toInt + 1).toNat := by
  cases h with
  | whole hkind =>
    have hrange := isRange_ref hwidth
    have hw := toInt_pos hwidth
    rw [width, type, Kind.width_underlying] at hw
    have hzero : (0 : Int64).toInt = 0 := by decide
    have hone : (1 : Int64).toInt = 1 := by decide
    have hlt := Int64.toInt_lt (Γ.kind s).width
    have hlimit := limit_eq
    have hsub : ((Γ.kind s).width - 1).toInt = (Γ.kind s).width.toInt - 1 := by
      rw [toInt_sub, hone] <;> omega
    have hcount : (((Γ.kind s).width - 1).toInt - (0 : Int64).toInt + 1).toNat = size (Γ.kind s).width := by
      rw [hsub, size]
      omega
    refine ⟨fun elem n hk => ?_, by omega, by omega, by omega, hcount ▸ hrange⟩
    rw [hk] at hkind
    cases hkind
  | slice hm hn =>
    have horder := hsized.2.2 _ _ hm hn
    have h1 := horder.low
    have h2 := horder.order
    have h3 := horder.high
    rw [toInt_low (by omega) (by omega), toInt_low (by omega) (by omega)]
    exact ⟨fun elem k => horder.base _ s elem k rfl, h1, h2, h3, isRange_slice hm hn hsized⟩

/-- Cutting the highest bits off gives two ranges next to each other. -/
theorem isRange_of_splitTop? {count : Int64} (h : splitTop? Γ e count = some (top, rest)) (hsized : e.WellSized Γ)
    (hwidth : 0 < e.width Γ) : ∃ s lo m, IsRange Γ e s lo (m + size count) ∧
      IsRange Γ top s (lo + m) (size count) ∧ IsRange Γ rest s lo m := by
  obtain ⟨l, s, hi, lo, hpositive, hroom, he, rfl, rfl⟩ := splitTop?_eq_some h
  obtain ⟨hkind, hlo, hle, hhi, hrange⟩ := he.isRange hsized hwidth
  have hone : (1 : Int64).toInt = 1 := by decide
  have hlimit := limit_eq
  have hpositive := toInt_pos hpositive
  have hspan : (hi - lo).toInt = hi.toInt - lo.toInt := by
    rw [toInt_sub] <;> omega
  rw [Int64.le_iff_toInt_le, hspan] at hroom
  have hcut : (hi - count).toInt = hi.toInt - count.toInt := by
    rw [toInt_sub] <;> omega
  have hnext : (hi - count + 1).toInt = hi.toInt - count.toInt + 1 := by
    rw [toInt_add, hcut, hone] <;> omega
  refine ⟨s, lo.toInt.toNat, (hi.toInt - count.toInt - lo.toInt + 1).toNat, ?_, ?_, ?_⟩
  · have hsize : (hi.toInt - count.toInt - lo.toInt + 1).toNat + size count = (hi.toInt - lo.toInt + 1).toNat := by
      rw [size]
      omega
    rw [hsize]
    exact hrange
  · have htop := isRange_bitRange (l := l) hi (hi - count + 1) (by omega) (by omega) (by omega) hkind
    have hposition : lo.toInt.toNat + (hi.toInt - count.toInt - lo.toInt + 1).toNat = (hi - count + 1).toInt.toNat := by
      omega
    have hsize : size count = (hi.toInt - (hi - count + 1).toInt + 1).toNat := by
      rw [size]
      omega
    rw [hposition, hsize]
    exact htop
  · have hrest := isRange_bitRange (l := l) (hi - count) lo hlo (by omega) (by omega) hkind
    rwa [hcut] at hrest

end Concatenation

end HdlLowering
