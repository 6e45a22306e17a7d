import HdlLowering.Proofs.Concatenation.Flat
import HdlLowering.Proofs.Concatenation.Regrouping

/-!
# Parts that are not cut

The groups of two concatenations are the finest ones with as many bits on both sides. Cutting leading parts further does not
always cut a part of the target.
-/

namespace HdlLowering

open List Bits Word

def Expr.slicesArray (Γ : SymbolTable) : Expr → Bool
  | .slice _ (.ref _ s) _ _ => (Γ.kind s).underlying.isArray
  | _ => false

namespace Concatenation

open Expr
open Netlist (drivenSignals drivenSignalsList)

variable {Γ : SymbolTable} {signal : String} {e top rest : Expr} {ts ts' ss ss' : List Expr} {count : Int64} {t s : Expr}
  {gs : List Group}

/-- Expressions with known widths that add up to a word, none of them a slice of an array. -/
structure Spans (Γ : SymbolTable) (ps : List Expr) : Prop where
  width : ∀ p ∈ ps, 0 < p.width Γ
  solid : ∀ p ∈ ps, p.slicesArray Γ = false
  room : (bitsList Γ ps : Int) < limit

/-- Where a part of the target that drives a signal and can be cut has an end of a part of the source inside, a part of the
source ends with it. -/
def Kept (Γ : SymbolTable) (signal : String) (ts ss : List Expr) : Prop :=
  ∀ pre t spre, pre ++ [t] <+: ts → signal ∈ drivenSignals Γ t → (bitsOf? Γ t).isSome = true → spre <+: ss →
    bitsList Γ pre < bitsList Γ spre → bitsList Γ spre < bitsList Γ (pre ++ [t]) →
    ∃ spre', spre' <+: ss ∧ bitsList Γ spre' = bitsList Γ (pre ++ [t])

/-! ## Ranges of bits -/

variable (l : Loc)

theorem width_bitRange {s : Symbol} (h : (Γ.kind s).underlying.isArray = false) (hi lo : Int64) :
    (bitRange (.ref l s) hi lo).width Γ = hi - lo + 1 := by
  unfold bitRange
  split
  · rename_i heq
    rw [heq, width, type, type]
    cases hk : (Γ.kind s).underlying with
    | array elem n => rw [hk] at h; cases h
    | _ => simp [Kind.width]
  · simp [width, type, ofInt, literal?, Kind.width, low]

theorem slicesArray_bitRange {s : Symbol} (h : (Γ.kind s).underlying.isArray = false) (hi lo : Int64) :
    (bitRange (.ref l s) hi lo).slicesArray Γ = false := by
  unfold bitRange
  split
  · rfl
  · exact h

theorem drivenSignals_bitRange (s : Symbol) (hi lo : Int64) :
    drivenSignals Γ (bitRange (.ref l s) hi lo) = [Γ.name s] := by
  unfold bitRange
  split <;> rfl

theorem isCat_bitRange (s : Symbol) (hi lo : Int64) : (bitRange (.ref l s) hi lo).isCat = false := by
  unfold bitRange
  split <;> rfl

theorem unnested_bitRange (s : Symbol) (hi lo : Int64) : ∀ x ∈ (bitRange (.ref l s) hi lo).subterms, x.Unnested := by
  unfold bitRange
  split <;> simp [subterms, ofInt, Unnested]

section

variable {l} {s : Symbol} {hi lo : Int64}

variable (h : Sliced Γ e l s hi lo)
include h

theorem Sliced.drivenSignals_eq : drivenSignals Γ e = [Γ.name s] := by
  cases h <;> rfl

theorem Sliced.width_eq : e.width Γ = hi - lo + 1 := by
  cases h with
  | whole =>
    rw [width, type, Kind.width_underlying]
    grind
  | slice hm hn => simp only [width, type, hm, hn, Kind.width]

theorem Sliced.isArray_eq (hsolid : e.slicesArray Γ = false) : (Γ.kind s).underlying.isArray = false := by
  cases h with
  | whole hkind => exact hkind
  | slice => exact hsolid

end

section

variable (h : splitTop? Γ e count = some (top, rest))
include h

theorem drivenSignals_of_splitTop? :
    drivenSignals Γ top = drivenSignals Γ e ∧ drivenSignals Γ rest = drivenSignals Γ e := by
  obtain ⟨l, s, hi, lo, -, -, he, rfl, rfl⟩ := splitTop?_eq_some h
  rw [he.drivenSignals_eq]
  exact ⟨drivenSignals_bitRange _ _ _ _, drivenSignals_bitRange _ _ _ _⟩

theorem unnested_of_splitTop? : (∀ x ∈ top.subterms, x.Unnested) ∧ ∀ x ∈ rest.subterms, x.Unnested := by
  obtain ⟨l, s, hi, lo, -, -, -, rfl, rfl⟩ := splitTop?_eq_some h
  exact ⟨unnested_bitRange _ _ _ _, unnested_bitRange _ _ _ _⟩

theorem spans_of_splitTop? (hsolid : e.slicesArray Γ = false)
    (hlt : count < e.width Γ) : Spans Γ [top] ∧ Spans Γ [rest] ∧
      top.bits Γ = size count ∧ e.bits Γ = size count + rest.bits Γ := by
  obtain ⟨l, s, hi, lo, hpositive, -, he, rfl, rfl⟩ := splitTop?_eq_some h
  have harray := he.isArray_eq hsolid
  have htop : (bitRange (.ref l s) hi (hi - count + 1)).width Γ = count := by
    rw [width_bitRange l harray]
    grind
  have hrest : (bitRange (.ref l s) (hi - count) lo).width Γ = e.width Γ - count := by
    rw [width_bitRange l harray, he.width_eq]
    grind
  have hzero : (0 : Int64).toInt = 0 := by decide
  have hpositive' := Int64.lt_iff_toInt_lt.mp hpositive
  have hlt' := Int64.lt_iff_toInt_lt.mp hlt
  have hmost := Int64.toInt_lt (e.width Γ)
  have hlimit := limit_eq
  have hsub : (e.width Γ - count).toInt = (e.width Γ).toInt - count.toInt := by
    rw [toInt_sub] <;> omega
  have hleft : 0 < e.width Γ - count := by
    rw [Int64.lt_iff_toInt_lt, hsub]
    omega
  refine ⟨⟨?_, ?_, ?_⟩, ⟨?_, ?_, ?_⟩, ?_, ?_⟩
  · rw [forall_mem_singleton, htop]
    exact hpositive
  · exact forall_mem_singleton.mpr (slicesArray_bitRange l harray _ _)
  · rw [bitsList_cons, bitsList_nil, bits, htop, size]
    omega
  · rw [forall_mem_singleton, hrest]
    exact hleft
  · exact forall_mem_singleton.mpr (slicesArray_bitRange l harray _ _)
  · rw [bitsList_cons, bitsList_nil, bits, hrest, size, hsub]
    omega
  · rw [bits, htop]
  · rw [bits, bits, hrest, size, size, size, hsub]
    omega

end

/-! ## Parts that stay whole -/

theorem Spans.of_sublist (h : Spans Γ ts) (hsub : ts' <+ ts) : Spans Γ ts' where
  width p hp := h.width p (hsub.subset hp)
  solid p hp := h.solid p (hsub.subset hp)
  room := Int.lt_of_le_of_lt (Int.ofNat_le.mpr (bitsList_mono hsub)) h.room

theorem Spans.tail (h : Spans Γ (e :: ts)) : Spans Γ ts := h.of_sublist (sublist_cons_self e ts)

theorem Spans.head (h : Spans Γ (e :: ts)) : Spans Γ [e] := h.of_sublist (singleton_sublist.mpr mem_cons_self)

theorem Spans.cons (h : Spans Γ [e]) (hts : Spans Γ ts) (hroom : (bitsList Γ (e :: ts) : Int) < limit) :
    Spans Γ (e :: ts) where
  width := forall_mem_cons.mpr ⟨h.width e mem_cons_self, hts.width⟩
  solid := forall_mem_cons.mpr ⟨h.solid e mem_cons_self, hts.solid⟩
  room := hroom

theorem Spans.append (h : Spans Γ (ts ++ ts')) : Spans Γ ts ∧ Spans Γ ts' :=
  ⟨h.of_sublist (sublist_append_left ts ts'), h.of_sublist (sublist_append_right ts ts')⟩

theorem Spans.bits_pos (h : Spans Γ (e :: ts)) : 0 < e.bits Γ := size_pos.mpr (h.width e mem_cons_self)

/-- A group with known widths that add up to the same word on both sides. -/
structure Group.Balanced (Γ : SymbolTable) (g : Group) : Prop where
  target : Spans Γ g.target
  source : Spans Γ g.source
  bits : bitsList Γ g.target = bitsList Γ g.source

section

variable {t s : Expr}

theorem Group.Balanced.head_bits (h : Balanced Γ ⟨[t], [s]⟩) : t.bits Γ = s.bits Γ := by
  simpa only [bitsList_cons, bitsList_nil, Nat.add_zero] using h.bits

variable (h : Group.Balanced Γ ⟨t :: ts, s :: ss⟩)
include h

theorem Group.Balanced.same (hw : t.width Γ = s.width Γ) : Balanced Γ ⟨[t], [s]⟩ ∧ Balanced Γ ⟨ts, ss⟩ := by
  obtain ⟨ht, hs, hbits⟩ := h
  have hhead := bits_of_width hw
  refine ⟨⟨ht.head, hs.head, ?_⟩, ht.tail, hs.tail, ?_⟩ <;> simp only [bitsList_cons] at hbits ⊢ <;> omega

theorem Group.Balanced.cut_target (hsplit : splitTop? Γ t (s.width Γ) = some (top, rest))
    (hlt : s.width Γ < t.width Γ) :
    Balanced Γ ⟨[top], [s]⟩ ∧ Balanced Γ ⟨rest :: ts, ss⟩ ∧ t.bits Γ = s.bits Γ + rest.bits Γ := by
  obtain ⟨ht, hs, hbits⟩ := h
  obtain ⟨htop, hrest, htopbits, hcut⟩ := spans_of_splitTop? hsplit (ht.solid t mem_cons_self) hlt
  change top.bits Γ = s.bits Γ at htopbits
  change t.bits Γ = s.bits Γ + rest.bits Γ at hcut
  have hroom := ht.room
  simp only [bitsList_cons, hcut] at hroom hbits
  refine ⟨⟨htop, hs.head, ?_⟩, ⟨hrest.cons ht.tail ?_, hs.tail, ?_⟩, hcut⟩ <;> simp only [bitsList_cons, bitsList_nil] <;> omega

theorem Group.Balanced.cut_source (hsplit : splitTop? Γ s (t.width Γ) = some (top, rest))
    (hlt : t.width Γ < s.width Γ) :
    Balanced Γ ⟨[t], [top]⟩ ∧ Balanced Γ ⟨ts, rest :: ss⟩ ∧ s.bits Γ = t.bits Γ + rest.bits Γ := by
  obtain ⟨⟨hs, ht, hbits⟩, ⟨hs', ht', hbits'⟩, hcut⟩ :=
    Group.Balanced.cut_target ⟨h.source, h.target, h.bits.symm⟩ hsplit hlt
  exact ⟨⟨ht, hs, hbits.symm⟩, ⟨ht', hs', hbits'.symm⟩, hcut⟩

end

theorem kept_single (h : t.bits Γ = s.bits Γ) : Kept Γ signal [t] [s] := by
  intro pre u spre hpre _ _ hspre hlow hhigh
  have hmost := bitsList_mono (Γ := Γ) hpre.sublist
  rw [bitsList_cons, bitsList_nil, h] at hmost
  rcases prefix_cons_iff.mp hspre with rfl | ⟨_, rfl, hnil⟩
  · nomatch hlow
  · rw [prefix_nil.mp hnil, bitsList_cons, bitsList_nil] at hhigh
    omega

theorem Kept.left (h : Kept Γ signal (ts ++ ts') (ss ++ ss')) (hbits : bitsList Γ ts = bitsList Γ ss) :
    Kept Γ signal ts ss := by
  intro pre t spre hpre ht hcut hspre hlow hhigh
  obtain ⟨end', hend, heq⟩ := h pre t spre (hpre.trans (prefix_append _ _)) ht hcut
    (hspre.trans (prefix_append _ _)) hlow hhigh
  rcases prefix_or_prefix_of_prefix hend (prefix_append ss ss') with hwithin | hbeyond
  · exact ⟨end', hwithin, heq⟩
  · -- a source beyond the first ones ends where they all end
    refine ⟨ss, prefix_refl ss, ?_⟩
    have hmost := bitsList_mono (Γ := Γ) hpre.sublist
    have hleast := bitsList_mono (Γ := Γ) hbeyond.sublist
    omega

theorem Kept.right (h : Kept Γ signal (ts ++ ts') (ss ++ ss')) (hbits : bitsList Γ ts = bitsList Γ ss) :
    Kept Γ signal ts' ss' := by
  intro pre t spre hpre ht hcut hspre hlow hhigh
  obtain ⟨end', hend, heq⟩ := h (ts ++ pre) t (ss ++ spre)
    (by rw [append_assoc]; exact (prefix_append_right_inj ts).mpr hpre) ht hcut
    ((prefix_append_right_inj ss).mpr hspre) (by rw [bitsList_append, bitsList_append]; omega)
    (by rw [append_assoc, bitsList_append, bitsList_append]; omega)
  rw [append_assoc, bitsList_append] at heq
  rcases prefix_or_prefix_of_prefix hend (prefix_append ss ss') with hwithin | ⟨rest, rfl⟩
  · have hmost := bitsList_mono (Γ := Γ) hwithin.sublist
    omega
  · refine ⟨rest, (prefix_append_right_inj ss).mp hend, ?_⟩
    rw [bitsList_append] at heq
    omega

theorem bits_lt_of_width (hs : 0 < s.width Γ) (h : s.width Γ < t.width Γ) : s.bits Γ < t.bits Γ := by
  have hless := Int64.lt_iff_toInt_lt.mp h
  have hpositive := toInt_pos hs
  rw [bits, bits, size, size]
  omega

theorem Finest.cut_target (h : Finest Γ (t :: ts) (s :: ss)) (hbits : t.bits Γ = s.bits Γ + rest.bits Γ) :
    Finest Γ (rest :: ts) ss := by
  intro pre spre hpre hspre hne hproper
  rcases prefix_cons_iff.mp hpre with rfl | ⟨pre, rfl, hfront⟩
  · exact absurd rfl hne
  · have hwhole := h (t :: pre) (s :: spre) (cons_prefix_cons.mpr ⟨rfl, hfront⟩) (cons_prefix_cons.mpr ⟨rfl, hspre⟩)
      (cons_ne_nil _ _) fun heq => hproper (by rw [(cons.inj heq).2])
    rw [bitsList_cons, bitsList_cons] at hwhole
    rw [bitsList_cons]
    omega

theorem Finest.cut_source (h : Finest Γ (t :: ts) (s :: ss)) (hts : Spans Γ ts)
    (hbits : s.bits Γ = t.bits Γ + rest.bits Γ) : Finest Γ ts (rest :: ss) := by
  intro pre spre hpre hspre hne hproper
  rcases prefix_cons_iff.mp hspre with rfl | ⟨spre, rfl, hback⟩
  · -- some part of the target has bits
    obtain ⟨t', pre, rfl⟩ := exists_cons_of_ne_nil hne
    obtain ⟨after, rfl⟩ := hpre
    have hpositive := hts.bits_pos
    rw [bitsList_cons, bitsList_nil]
    omega
  · have hwhole := h (t :: pre) (s :: spre) (cons_prefix_cons.mpr ⟨rfl, hpre⟩) (cons_prefix_cons.mpr ⟨rfl, hback⟩)
      (cons_ne_nil _ _) fun heq => hproper (cons.inj heq).2
    rw [bitsList_cons, bitsList_cons] at hwhole
    rw [bitsList_cons]
    omega

theorem Kept.tail (h : Kept Γ signal (t :: ts) (s :: ss)) {pre spre : List Expr} {u : Expr} (hpre : pre ++ [u] <+: ts)
    (hu : signal ∈ drivenSignals Γ u) (hcut : (bitsOf? Γ u).isSome = true) (hspre : spre <+: ss)
    (hlow : t.bits Γ + bitsList Γ pre < s.bits Γ + bitsList Γ spre)
    (hhigh : s.bits Γ + bitsList Γ spre < t.bits Γ + bitsList Γ (pre ++ [u])) :
    ∃ spre', spre' <+: ss ∧ s.bits Γ + bitsList Γ spre' = t.bits Γ + bitsList Γ (pre ++ [u]) := by
  obtain ⟨spre', hend, heq⟩ := h (t :: pre) u (s :: spre) (cons_prefix_cons.mpr ⟨rfl, hpre⟩) hu hcut
    (cons_prefix_cons.mpr ⟨rfl, hspre⟩) hlow hhigh
  rw [cons_append, bitsList_cons] at heq
  rcases prefix_cons_iff.mp hend with rfl | ⟨spre', rfl, hends⟩
  · rw [bitsList_nil] at heq
    omega
  · exact ⟨spre', hends, heq⟩

theorem Kept.cut_target (h : Kept Γ signal (t :: ts) (s :: ss)) (hbits : t.bits Γ = s.bits Γ + rest.bits Γ)
    (hrest : signal ∉ drivenSignals Γ rest) : Kept Γ signal (rest :: ts) ss := by
  intro pre u spre hpre hu hcut hspre hlow hhigh
  match pre, hpre with
  | [], hpre =>
    obtain ⟨rfl, -⟩ := cons_prefix_cons.mp hpre
    exact absurd hu hrest
  | p :: pre, hpre =>
    obtain ⟨rfl, hfront⟩ := cons_prefix_cons.mp hpre
    simp only [cons_append, bitsList_cons] at hlow hhigh ⊢
    obtain ⟨spre', hends, heq⟩ := h.tail hfront hu hcut hspre (by omega) (by omega)
    exact ⟨spre', hends, by omega⟩

theorem Kept.cut_source (h : Kept Γ signal (t :: ts) (s :: ss)) (hbits : s.bits Γ = t.bits Γ + rest.bits Γ) :
    Kept Γ signal ts (rest :: ss) := by
  intro pre u spre hpre hu hcut hspre hlow hhigh
  rcases prefix_cons_iff.mp hspre with rfl | ⟨spre, rfl, hback⟩
  · nomatch hlow
  · rw [bitsList_cons] at hlow hhigh
    obtain ⟨spre', hends, heq⟩ := h.tail hpre hu hcut hback (by omega) (by omega)
    exact ⟨rest :: spre', cons_prefix_cons.mpr ⟨rfl, hends⟩, by rw [bitsList_cons]; omega⟩

theorem not_mem_of_cut (hkept : Kept Γ signal (t :: ts) (s :: ss)) (hfinest : Finest Γ (t :: ts) (s :: ss))
    (hts : ts ≠ []) (hpositive : 0 < s.bits Γ) (hlt : s.bits Γ < t.bits Γ) (hcut : (bitsOf? Γ t).isSome = true) :
    signal ∉ drivenSignals Γ t := by
  intro ht
  have hfirst : [t] <+: t :: ts := cons_prefix_cons.mpr ⟨rfl, nil_prefix⟩
  obtain ⟨end', hend, heq⟩ := hkept [] t [s] hfirst ht hcut (cons_prefix_cons.mpr ⟨rfl, nil_prefix⟩)
    (by rwa [bitsList_cons, bitsList_nil]) (by rwa [nil_append, bitsList_cons, bitsList_cons, bitsList_nil])
  refine hfinest [t] end' hfirst hend (cons_ne_nil _ _) (fun h => hts ?_) heq.symm
  exact (cons.inj h).2.symm

/-- Groups in which the parts of a signal are kept, with as many of its targets as there were. -/
structure KeptGroups (Γ : SymbolTable) (signal : String) (ts : List Expr) (gs : List Group) : Prop where
  balanced : ∀ g ∈ gs, g.Balanced Γ
  kept : ∀ g ∈ gs, Kept Γ signal g.target g.source
  count : (gs.flatMap fun g => drivenSignalsList Γ g.target).count signal = (drivenSignalsList Γ ts).count signal

theorem KeptGroups.single (h : Group.Balanced Γ ⟨ts, ss⟩) (hkept : Kept Γ signal ts ss) : KeptGroups Γ signal ts [⟨ts, ss⟩] where
  balanced := forall_mem_singleton.mpr h
  kept := forall_mem_singleton.mpr hkept
  count := by rw [flatMap_singleton]

theorem KeptGroups.append {gs gs' : List Group} (h : KeptGroups Γ signal ts gs) (h' : KeptGroups Γ signal ts' gs') :
    KeptGroups Γ signal (ts ++ ts') (gs ++ gs') where
  balanced := forall_mem_append.mpr ⟨h.balanced, h'.balanced⟩
  kept := forall_mem_append.mpr ⟨h.kept, h'.kept⟩
  count := by
    rw [flatMap_append, List.count_append, h.count, h'.count, drivenSignalsList_eq, drivenSignalsList_eq, drivenSignalsList_eq,
      flatMap_append, List.count_append]

/-- A signal has as many targets as before when each of its parts lies in one part of the source or ends where one ends. -/
theorem peel_kept (ts ss : List Expr) (h : Group.Balanced Γ ⟨ts, ss⟩) (hfinest : Finest Γ ts ss) (hkept : Kept Γ signal ts ss) :
    KeptGroups Γ signal ts (peel Γ ts ss) := by
  fun_induction peel Γ ts ss with
  | case1 t t' ts s s' ss wt ws hw ih =>
    -- the first parts end together, which they do in no finest group
    refine absurd ?_ (hfinest [t] [s] (cons_prefix_cons.mpr ⟨rfl, nil_prefix⟩)
      (cons_prefix_cons.mpr ⟨rfl, nil_prefix⟩) (cons_ne_nil _ _) (by simp))
    rw [bitsList_cons, bitsList_cons, bits_of_width (Γ := Γ) (t := t) (s := s) hw]
  | case2 t t' ts s s' ss wt ws hne hlt top rest hsplit ih =>
    obtain ⟨hfirst, hothers, hcut⟩ := h.cut_target hsplit hlt
    have hsignal : signal ∉ drivenSignals Γ t := by
      obtain ⟨_, hof, -⟩ := Option.bind_eq_some_iff.mp hsplit
      exact not_mem_of_cut hkept hfinest (cons_ne_nil _ _) h.source.bits_pos
        (bits_lt_of_width (h.source.width s mem_cons_self) hlt) (by rw [hof]; rfl)
    obtain ⟨htopsignals, hrestsignals⟩ := drivenSignals_of_splitTop? hsplit
    have htail := ih hothers (hfinest.cut_target hcut) (hkept.cut_target hcut (hrestsignals.symm ▸ hsignal))
    have hall := (KeptGroups.single hfirst (kept_single hfirst.head_bits)).append htail
    refine { hall with count := hall.count.trans ?_ }
    -- neither part of what is cut drives the signal
    rw [singleton_append, drivenSignalsList, drivenSignalsList, htopsignals, hrestsignals, List.count_append,
      count_eq_zero_of_not_mem hsignal, Nat.zero_add]
    rfl
  | case4 t t' ts s s' ss wt ws hne hlt top rest hsplit ih =>
    obtain ⟨hfirst, hothers, hcut⟩ := h.cut_source hsplit (Int64.lt_of_le_of_ne (Int64.not_lt.mp hlt) hne)
    have htail := ih hothers (hfinest.cut_source h.target.tail hcut) (hkept.cut_source hcut)
    exact (KeptGroups.single hfirst (kept_single hfirst.head_bits)).append htail
  | case3 | case5 | case6 => exact .single h hkept

theorem flatMap_peel_kept (gs : List Group) (h : ∀ g ∈ gs, g.Balanced Γ)
    (hfinest : ∀ g ∈ gs, (g.target ≠ [] ∧ g.source ≠ []) ∧ Finest Γ g.target g.source)
    (hkept : Kept Γ signal (gs.flatMap (·.target)) (gs.flatMap (·.source))) :
    KeptGroups Γ signal (gs.flatMap (·.target)) (gs.flatMap fun g => peel Γ g.target g.source) := by
  induction gs with
  | nil => exact ⟨nofun, nofun, rfl⟩
  | cons g gs ih =>
    rw [forall_mem_cons] at h hfinest
    rw [flatMap_cons, flatMap_cons] at hkept
    rw [flatMap_cons, flatMap_cons]
    exact (peel_kept g.target g.source h.1 hfinest.1.2 (hkept.left h.1.bits)).append
      (ih h.2 hfinest.2 (hkept.right h.1.bits))

/-- Two concatenations between which the parts of a signal are kept. -/
structure Lasting (Γ : SymbolTable) (signal : String) (ts ss : List Expr) : Prop where
  target : Adds Γ ts
  source : Adds Γ ss
  solid : ∀ p ∈ ts ++ ss, p.slicesArray Γ = false
  kept : Kept Γ signal ts ss

theorem Spans.adds (h : Spans Γ ts) : Adds Γ ts := by
  have hwidth : ∀ t ∈ ts, 0 ≤ t.width Γ := fun t ht => Int64.le_of_lt (h.width t ht)
  exact ⟨hwidth, bitsList_eq_span hwidth ▸ h.room⟩

theorem KeptGroups.lasting {g : Group} (h : KeptGroups Γ signal ts gs) (hg : g ∈ gs) : Lasting Γ signal g.target g.source where
  target := (h.balanced g hg).target.adds
  source := (h.balanced g hg).source.adds
  solid := forall_mem_append.mpr ⟨(h.balanced g hg).target.solid, (h.balanced g hg).source.solid⟩
  kept := h.kept g hg

theorem Spans.of_mem_flatMap {f : Group → List Expr} {g : Group} (h : Spans Γ (gs.flatMap f)) (hg : g ∈ gs) :
    Spans Γ (f g) := by
  obtain ⟨before, after, rfl⟩ := append_of_mem hg
  rw [flatMap_append, flatMap_cons] at h
  exact h.append.2.append.1

theorem Regrouped.balanced (h : Regrouped Γ ts ss gs) (ht : Adds Γ ts) (hs : Adds Γ ss)
    (hsolid : ∀ p ∈ ts ++ ss, p.slicesArray Γ = false) : ∃ gs0 : List Group,
    gs = (gs0.flatMap fun g => peel Γ g.target g.source) ∧ gs0.flatMap (·.target) = ts ∧ gs0.flatMap (·.source) = ss ∧
      (∀ g ∈ gs0, g.Balanced Γ) ∧ ∀ g ∈ gs0, (g.target ≠ [] ∧ g.source ≠ []) ∧ Finest Γ g.target g.source := by
  rw [forall_mem_append] at hsolid
  obtain ⟨gs0, rfl, rfl, rfl, hgroups, hfinest, hts, hss⟩ := h.groups ht hs
  have htspans : Spans Γ _ := ⟨hts, hsolid.1, ht.room⟩
  have hsspans : Spans Γ _ := ⟨hss, hsolid.2, hs.room⟩
  exact ⟨gs0, rfl, rfl, rfl, fun g hg => ⟨htspans.of_mem_flatMap hg, hsspans.of_mem_flatMap hg, hgroups g hg⟩, hfinest⟩

theorem Lasting.regrouped (h : Lasting Γ signal ts ss) (hgs : Regrouped Γ ts ss gs) : KeptGroups Γ signal ts gs := by
  obtain ⟨gs0, rfl, rfl, rfl, hbalanced, hfinest⟩ := hgs.balanced h.target h.source h.solid
  exact flatMap_peel_kept gs0 hbalanced hfinest h.kept

end Concatenation

end HdlLowering
