import HdlLowering.Proofs.Concatenation.Cuts

/-!
# Bits in their places

A part of a concatenation is some bits of a variable or the bits of another expression (`Expr.bitNames`). After regrouping, a
bit of the target gets the bit of the source that it got before (`regroup_inPlace`).
-/

namespace HdlLowering

open List

inductive BitName where
  | ofVariable (s : Symbol) (position : Int)
  | ofExpr (e : Expr) (position : Nat)
  deriving BEq

def BitName.down (s : Symbol) (hi lo : Int) : List BitName :=
  (range (hi - lo + 1).toNat).map fun i : Nat => .ofVariable s (hi - i)

def Expr.bitNames (Γ : SymbolTable) (e : Expr) : List BitName :=
  match e with
  | .ref _ s => BitName.down s ((Γ.kind s).width.toInt - 1) 0
  | .slice _ (.ref _ s) m n => (m.literal?.bind fun hi => n.literal?.map fun lo => BitName.down s hi lo).getD others
  | .index _ (.ref _ s) i =>
    if (Γ.kind s).underlying.isArray then others else (i.literal?.map fun i => [.ofVariable s i]).getD others
  | _ => others
where
  others : List BitName := (range (e.bits Γ)).map (.ofExpr e)

/-- A slice of a variable has literal bounds in order, and these are words. -/
def Expr.Bounded (e : Expr) : Prop := ∀ loc l s m n, e = .slice loc (.ref l s) m n →
  ∃ hi lo : Int64, m.literal? = some hi.toInt ∧ n.literal? = some lo.toInt ∧ lo ≤ hi

namespace Concatenation

open Expr

variable {Γ : SymbolTable} {e top rest : Expr} {ts ts' ss ss' : List Expr} {gs gs' : List Group}

/-! ## Cutting a range of bits -/

theorem down_split (s : Symbol) {hi lo count : Int} (h0 : 0 ≤ count) (h : count ≤ hi - lo + 1) :
    BitName.down s hi lo = BitName.down s hi (hi - count + 1) ++ BitName.down s (hi - count) lo := by
  have hsum : (hi - lo + 1).toNat = (hi - (hi - count + 1) + 1).toNat + (hi - count - lo + 1).toNat := by omega
  have hcount : (((hi - (hi - count + 1) + 1).toNat : Nat) : Int) = count := by omega
  unfold BitName.down
  rw [hsum, range_add, map_append, map_map]
  refine congrArg _ (map_congr_left fun i _ => ?_)
  rw [Function.comp_apply, Nat.cast_add, hcount, Int.sub_sub]

theorem bitNames_bitRange (l : Loc) {s : Symbol} (harray : (Γ.kind s).underlying.isArray = false) (hi lo : Int64) :
    (bitRange (.ref l s) hi lo).bitNames Γ = BitName.down s hi.toInt lo.toInt := by
  unfold bitRange
  split
  · rename_i heq
    simp [heq, bitNames, harray, ofInt, literal?, BitName.down]
  · rfl

theorem bounded_bitRange (l : Loc) (s : Symbol) {hi lo : Int64} (h : lo ≤ hi) : (bitRange (.ref l s) hi lo).Bounded := by
  unfold bitRange
  split
  · intro _ _ _ _ _ hform
    cases hform
  · intro _ _ _ _ _ hform
    cases hform
    exact ⟨hi, lo, rfl, rfl, h⟩

theorem Sliced.bitNames_eq {l : Loc} {s : Symbol} {hi lo : Int64} (h : Sliced Γ e l s hi lo) (hwidth : 0 < e.width Γ)
    (hbounded : e.Bounded) :
    e.bitNames Γ = BitName.down s hi.toInt lo.toInt ∧ (e.width Γ).toInt = hi.toInt - lo.toInt + 1 := by
  have hzero : (0 : Int64).toInt = 0 := by decide
  have hone : (1 : Int64).toInt = 1 := by decide
  have hlimit := Word.limit_eq
  have hpositive := toInt_pos hwidth
  have hsize := h.width_eq
  cases h with
  | whole =>
    have hkind : (ref l s).width Γ = (Γ.kind s).width := by rw [width, type, Kind.width_underlying]
    rw [hkind] at hpositive ⊢
    have hmost := Int64.toInt_lt (Γ.kind s).width
    have hlast : ((Γ.kind s).width - 1).toInt = (Γ.kind s).width.toInt - 1 := by
      rw [Word.toInt_sub] <;> omega
    exact ⟨by rw [hlast, hzero]; rfl, by omega⟩
  | slice hm hn =>
    obtain ⟨hi, lo, hm', hn', hle⟩ := hbounded _ l s _ _ rfl
    obtain rfl := Option.some.inj (hm.symm.trans hm')
    obtain rfl := Option.some.inj (hn.symm.trans hn')
    simp only [Word.low, Int64.ofInt_toInt] at hsize ⊢
    refine ⟨by simp [bitNames, hm, hn], ?_⟩
    -- a distance of words whose word is positive is that word
    rw [hsize] at hpositive ⊢
    have hle' := Int64.le_iff_toInt_le.mp hle
    have hleast := Int64.le_toInt lo
    have hmost := Int64.toInt_lt hi
    rw [Int64.toInt_add, Int64.toInt_sub, hone] at hpositive ⊢
    simp only [Int.bmod_def] at hpositive ⊢
    omega

theorem bitNames_of_splitTop? {count : Int64} (h : splitTop? Γ e count = some (top, rest)) (he : Spans Γ [e])
    (hbounded : e.Bounded) (hlt : count < e.width Γ) :
    e.bitNames Γ = top.bitNames Γ ++ rest.bitNames Γ ∧ top.Bounded ∧ rest.Bounded := by
  obtain ⟨l, s, hi, lo, hpositive, -, hsliced, rfl, rfl⟩ := splitTop?_eq_some h
  obtain ⟨hnames, hwidth⟩ := hsliced.bitNames_eq (he.width e mem_cons_self) hbounded
  have hsolid := hsliced.isArray_eq (he.solid e mem_cons_self)
  have hone : (1 : Int64).toInt = 1 := by decide
  have hpositive' := toInt_pos hpositive
  have hlt' := Int64.lt_iff_toInt_lt.mp hlt
  have hleast := Int64.le_toInt lo
  have hmost := Int64.toInt_lt hi
  have hrest : (hi - count).toInt = hi.toInt - count.toInt := by
    rw [Int64.toInt_sub]
    refine Int.bmod_eq_of_le ?_ ?_ <;> omega
  have htop : (hi - count + 1).toInt = hi.toInt - count.toInt + 1 := by
    rw [Int64.toInt_add, hrest, hone]
    refine Int.bmod_eq_of_le ?_ ?_ <;> omega
  refine ⟨?_, bounded_bitRange l s ?_, bounded_bitRange l s ?_⟩
  · rw [hnames, bitNames_bitRange l hsolid, bitNames_bitRange l hsolid, hrest, htop]
    exact down_split s (by omega) (by omega)
  · rw [Int64.le_iff_toInt_le, htop]
    omega
  · rw [Int64.le_iff_toInt_le, hrest]
    omega

/-! ## Groups that keep all bits in their places -/

/-- Groups with as many bits on both sides, which have the bits of some targets and of some sources in order. -/
structure InPlace (Γ : SymbolTable) (ts ss : List Expr) (gs : List Group) : Prop where
  bits : ∀ g ∈ gs, bitsList Γ g.target = bitsList Γ g.source
  target : (gs.flatMap fun g => g.target.flatMap (bitNames Γ)) = ts.flatMap (bitNames Γ)
  source : (gs.flatMap fun g => g.source.flatMap (bitNames Γ)) = ss.flatMap (bitNames Γ)

theorem InPlace.single (h : bitsList Γ ts = bitsList Γ ss) : InPlace Γ ts ss [⟨ts, ss⟩] where
  bits := forall_mem_singleton.mpr h
  target := flatMap_singleton _ _
  source := flatMap_singleton _ _

theorem InPlace.append (h : InPlace Γ ts ss gs) (h' : InPlace Γ ts' ss' gs') :
    InPlace Γ (ts ++ ts') (ss ++ ss') (gs ++ gs') where
  bits := forall_mem_append.mpr ⟨h.bits, h'.bits⟩
  target := by rw [flatMap_append, flatMap_append, h.target, h'.target]
  source := by rw [flatMap_append, flatMap_append, h.source, h'.source]

/-- Cutting leading parts leaves every bit in its place. -/
theorem peel_inPlace (ts ss : List Expr) (h : Group.Balanced Γ ⟨ts, ss⟩) (htb : ∀ t ∈ ts, t.Bounded)
    (hsb : ∀ s ∈ ss, s.Bounded) : InPlace Γ ts ss (peel Γ ts ss) := by
  fun_induction peel Γ ts ss with
  | case1 t t' ts s s' ss wt ws hw ih =>
    obtain ⟨hfirst, hothers⟩ := h.same hw
    exact (InPlace.single hfirst.bits).append (ih hothers (forall_mem_cons.mp htb).2 (forall_mem_cons.mp hsb).2)
  | case2 t t' ts s s' ss wt ws hne hlt top rest hsplit ih =>
    rw [forall_mem_cons] at htb
    obtain ⟨hfirst, hothers, -⟩ := h.cut_target hsplit hlt
    obtain ⟨hnames, -, hbounded⟩ := bitNames_of_splitTop? hsplit h.target.head htb.1 hlt
    have htail := ih hothers (forall_mem_cons.mpr ⟨hbounded, htb.2⟩) (forall_mem_cons.mp hsb).2
    have hall := (InPlace.single hfirst.bits).append htail
    refine { hall with target := hall.target.trans ?_ }
    rw [singleton_append, flatMap_cons, flatMap_cons, ← append_assoc, ← hnames]
    rfl
  | case4 t t' ts s s' ss wt ws hne hlt top rest hsplit ih =>
    rw [forall_mem_cons] at hsb
    have hless : t.width Γ < s.width Γ := Int64.lt_of_le_of_ne (Int64.not_lt.mp hlt) hne
    obtain ⟨hfirst, hothers, -⟩ := h.cut_source hsplit hless
    obtain ⟨hnames, -, hbounded⟩ := bitNames_of_splitTop? hsplit h.source.head hsb.1 hless
    have htail := ih hothers (forall_mem_cons.mp htb).2 (forall_mem_cons.mpr ⟨hbounded, hsb.2⟩)
    have hall := (InPlace.single hfirst.bits).append htail
    refine { hall with source := hall.source.trans ?_ }
    rw [singleton_append, flatMap_cons, flatMap_cons, ← append_assoc, ← hnames]
    rfl
  | case3 | case5 | case6 => exact .single h.bits

/-! ## Where groups end -/

theorem bitsList_lt_of_prefix (hts : Spans Γ ts) {pre : List Expr} (hpre : pre <+: ts) (hne : pre ≠ ts) :
    bitsList Γ pre < bitsList Γ ts := by
  obtain ⟨rest, rfl⟩ := hpre
  obtain ⟨t, rest, rfl⟩ := exists_cons_of_ne_nil (l := rest) fun hnil => hne (by rw [hnil, append_nil])
  have hpositive := hts.append.2.bits_pos
  rw [bitsList_append, bitsList_cons]
  omega

theorem prefix_append_cases {α : Type} {pre xs ys : List α} (h : pre <+: xs ++ ys) :
    pre <+: xs ∧ pre ≠ xs ∨ ∃ rest, pre = xs ++ rest ∧ rest <+: ys := by
  rcases prefix_or_prefix_of_prefix h (prefix_append xs ys) with hwithin | ⟨rest, rfl⟩
  · by_cases hall : pre = xs
    · exact Or.inr ⟨[], by rw [hall, append_nil], nil_prefix⟩
    · exact Or.inl ⟨hwithin, hall⟩
  · exact Or.inr ⟨rest, rfl, (prefix_append_right_inj xs).mp h⟩

/-- The groups of two concatenations end exactly where a part ends on both sides. -/
theorem groups_ends (gs : List Group) (h : ∀ g ∈ gs, g.Balanced Γ)
    (hfinest : ∀ g ∈ gs, (g.target ≠ [] ∧ g.source ≠ []) ∧ Finest Γ g.target g.source)
    {pre spre : List Expr} (hpre : pre <+: gs.flatMap (·.target)) (hspre : spre <+: gs.flatMap (·.source))
    (heq : bitsList Γ pre = bitsList Γ spre) : ∃ gs', gs' <+: gs ∧ gs'.flatMap (·.target) = pre := by
  induction gs generalizing pre spre with
  | nil => exact ⟨[], prefix_refl _, (prefix_nil.mp hpre).symm⟩
  | cons g gs ih =>
    rw [forall_mem_cons] at h hfinest
    rw [flatMap_cons] at hpre hspre
    obtain ⟨htarget, hsource, hbits⟩ := h.1
    rcases prefix_append_cases hpre with ⟨hwithin, hproper⟩ | ⟨pre', rfl, hpre'⟩
    · -- within a group nothing but its ends meet
      have hless := bitsList_lt_of_prefix htarget hwithin hproper
      rcases prefix_append_cases hspre with ⟨hswithin, -⟩ | ⟨spre', rfl, -⟩
      · by_cases hempty : pre = []
        · exact ⟨[], nil_prefix, hempty.symm⟩
        · exact absurd heq (hfinest.1.2 pre spre hwithin hswithin hempty hproper)
      · rw [bitsList_append, ← hbits] at heq
        omega
    · rw [bitsList_append, hbits] at heq
      rcases prefix_append_cases hspre with ⟨hswithin, hsproper⟩ | ⟨spre', rfl, hspre'⟩
      · have hless := bitsList_lt_of_prefix hsource hswithin hsproper
        omega
      · rw [bitsList_append, Nat.add_left_cancel_iff] at heq
        obtain ⟨gs', hgs', hends⟩ := ih h.2 hfinest.2 hpre' hspre' heq
        exact ⟨g :: gs', cons_prefix_cons.mpr ⟨rfl, hgs'⟩, by rw [flatMap_cons, hends]⟩

def EndsAt (Γ : SymbolTable) (ps : List Expr) (n : Nat) : Prop := ∃ pre, pre <+: ps ∧ bitsList Γ pre = n

theorem flatMap_prefix {f : Group → List Expr} (h : gs' <+: gs) : gs'.flatMap f <+: gs.flatMap f := by
  obtain ⟨more, rfl⟩ := h
  rw [flatMap_append]
  exact prefix_append _ _

theorem bitsList_flatMap (h : ∀ g ∈ gs, bitsList Γ g.target = bitsList Γ g.source) :
    bitsList Γ (gs.flatMap (·.target)) = bitsList Γ (gs.flatMap (·.source)) := by
  induction gs with
  | nil => rfl
  | cons g gs ih =>
    rw [forall_mem_cons] at h
    rw [flatMap_cons, flatMap_cons, bitsList_append, bitsList_append, h.1, ih h.2]

/-! ## What the pass makes of two concatenations -/

theorem peel_ne_nil (ts ss : List Expr) : peel Γ ts ss ≠ [] := by
  fun_cases peel Γ ts ss <;> simp

theorem eq_of_peel_single {g : Group} (h : peel Γ ts ss = [g]) : g = ⟨ts, ss⟩ := by
  fun_induction peel Γ ts ss with
  | case1 | case2 | case4 => exact absurd (cons.inj h).2 (peel_ne_nil _ _)
  | case3 | case5 | case6 => exact (singleton_inj.mp h).symm

theorem eq_of_flatMap_peel_single {g : Group} (ht : gs.flatMap (·.target) = ts) (hs : gs.flatMap (·.source) = ss)
    (h : (gs.flatMap fun g => peel Γ g.target g.source) = [g]) : g = ⟨ts, ss⟩ := by
  rcases gs with _ | ⟨g0, _ | ⟨g1, gs⟩⟩
  · cases h
  · rw [flatMap_singleton] at ht hs h
    rw [eq_of_peel_single h, ht, hs]
  · have hlength := congrArg length h
    have hfirst := length_pos_of_ne_nil (peel_ne_nil (Γ := Γ) g0.target g0.source)
    have hsecond := length_pos_of_ne_nil (peel_ne_nil (Γ := Γ) g1.target g1.source)
    simp only [flatMap_cons, length_append, length_singleton] at hlength
    omega

theorem Spans.measured?_eq (h : Spans Γ ts) : measured? Γ ts = some (measure Γ ts) :=
  measured?_eq_some.mpr ⟨fun t ht => (Int64.ne_of_lt (h.width t ht)).symm, rfl⟩

theorem Spans.groups (ht : Spans Γ ts) (hs : Spans Γ ss) (hbits : bitsList Γ ts = bitsList Γ ss)
    (h : gs = groups none (measure Γ ts) (measure Γ ss)) :
    gs.flatMap (·.target) = ts ∧ gs.flatMap (·.source) = ss ∧ (∀ g ∈ gs, g.Balanced Γ) ∧
      ∀ g ∈ gs, (g.target ≠ [] ∧ g.source ≠ []) ∧ Finest Γ g.target g.source := by
  obtain ⟨htarget, hsource, hgroups, hfinest⟩ := groups_measure ht.width hs.width hbits ht.room h
  refine ⟨htarget, hsource, fun g hg => ⟨?_, ?_, hgroups g hg⟩, hfinest⟩
  · exact Spans.of_mem_flatMap (htarget.symm ▸ ht) hg
  · exact Spans.of_mem_flatMap (hsource.symm ▸ hs) hg

theorem flatMap_peel_inPlace (gs : List Group) (h : ∀ g ∈ gs, g.Balanced Γ) (htb : ∀ t ∈ gs.flatMap (·.target), t.Bounded)
    (hsb : ∀ s ∈ gs.flatMap (·.source), s.Bounded) :
    InPlace Γ (gs.flatMap (·.target)) (gs.flatMap (·.source)) (gs.flatMap fun g => peel Γ g.target g.source) := by
  induction gs with
  | nil => exact ⟨by simp, rfl, rfl⟩
  | cons g gs ih =>
    rw [forall_mem_cons] at h
    rw [flatMap_cons, forall_mem_append] at htb hsb
    exact (peel_inPlace g.target g.source h.1 htb.1 hsb.1).append (ih h.2 htb.2 hsb.2)

theorem overlap_eq_false (h : ∀ x ∈ symbolsList ts, ∀ y ∈ symbolsList ss, Γ.id x ≠ Γ.id y) : overlap Γ ts ss = false := by
  rw [overlap, any_eq_false]
  intro y hy hhas
  rw [SymbolTable.has_setOf, any_eq_true] at hhas
  obtain ⟨x, hx, heq⟩ := hhas
  exact h x (mem_refs_nodesList.mp hx) y (mem_refs_nodesList.mp hy) (beq_iff_eq.mp heq)

theorem regroup_eq {c : Context} (l : Loc) (ht : Spans c.symbols ts) (hs : Spans c.symbols ss)
    (hapart : overlap c.symbols ts ss = false) (hbits : bitsList c.symbols ts = bitsList c.symbols ss)
    (hgs : gs = (groups none (measure c.symbols ts) (measure c.symbols ss)).flatMap
      fun g => peel c.symbols g.target g.source) (hwhole : ∀ g, gs = [g] → g = ⟨ts, ss⟩) :
    ∃ o, regroup l ts ss c = .ok o c ∧ o.getD [⟨ts, ss⟩] = gs := by
  have htotal : total (measure c.symbols ts) = total (measure c.symbols ss) := by
    rw [← Int64.toInt_inj, toInt_total ht.adds, toInt_total hs.adds, hbits]
  unfold regroup
  rw [bind_ok (show ContextM.symbols c = .ok c.symbols c from rfl), hapart, ht.measured?_eq, hs.measured?_eq]
  simp only [Bool.false_eq_true, if_false, htotal, ne_eq, not_true_eq_false, ← hgs]
  rcases gs with _ | ⟨g, _ | ⟨g', gs⟩⟩
  · exact ⟨some [], rfl, rfl⟩
  · refine ⟨none, ?_, by rw [hwhole g rfl]; rfl⟩
    rw [hwhole g rfl]
    simp only [decide_true, Bool.and_self, if_true]
    rfl
  · exact ⟨some _, rfl, rfl⟩

/-- Concatenations without a common symbol, with parts of known widths that add up to the same word and slices between literal
words: the groups the pass makes end exactly where parts of both sides end, and what it puts for them, these groups with
leading parts cut, keeps every bit in its place. -/
theorem regroup_inPlace {c : Context} (l : Loc) (ht : Spans c.symbols ts) (hs : Spans c.symbols ss)
    (hbounded : ∀ p ∈ ts ++ ss, p.Bounded)
    (hapart : ∀ x ∈ symbolsList ts, ∀ y ∈ symbolsList ss, c.symbols.id x ≠ c.symbols.id y)
    (hbits : bitsList c.symbols ts = bitsList c.symbols ss) :
    ∃ o gs, regroup l ts ss c = .ok o c ∧ gs = groups none (measure c.symbols ts) (measure c.symbols ss) ∧
      gs.flatMap (·.target) = ts ∧ gs.flatMap (·.source) = ss ∧
      (∀ n, (∃ gs', gs' <+: gs ∧ bitsList c.symbols (gs'.flatMap (·.target)) = n) ↔
        EndsAt c.symbols ts n ∧ EndsAt c.symbols ss n) ∧
      o.getD [⟨ts, ss⟩] = (gs.flatMap fun g => peel c.symbols g.target g.source) ∧
      InPlace c.symbols ts ss (o.getD [⟨ts, ss⟩]) := by
  generalize hgs : groups none (measure c.symbols ts) (measure c.symbols ss) = gs
  obtain ⟨htarget, hsource, hbalanced, hfinest⟩ := ht.groups hs hbits hgs.symm
  obtain ⟨o, hregroup, ho⟩ := regroup_eq l ht hs (overlap_eq_false hapart) hbits (by rw [hgs])
    fun g hg => eq_of_flatMap_peel_single htarget hsource hg
  rw [forall_mem_append] at hbounded
  refine ⟨o, gs, hregroup, rfl, htarget, hsource, fun n => ⟨?_, ?_⟩, ho, ?_⟩
  · rintro ⟨gs', hfront, hn⟩
    have heach : ∀ g ∈ gs', bitsList c.symbols g.target = bitsList c.symbols g.source :=
      fun g hg => (hbalanced g (hfront.subset hg)).bits
    exact ⟨⟨_, htarget ▸ flatMap_prefix hfront, hn⟩, ⟨_, hsource ▸ flatMap_prefix hfront, bitsList_flatMap heach ▸ hn⟩⟩
  · rintro ⟨⟨pre, hpre, hn⟩, spre, hspre, hsn⟩
    obtain ⟨gs', hfront, hgs'⟩ := groups_ends gs hbalanced hfinest (htarget.symm ▸ hpre) (hsource.symm ▸ hspre) (hn.trans hsn.symm)
    exact ⟨gs', hfront, hgs'.symm ▸ hn⟩
  · have hall := flatMap_peel_inPlace gs hbalanced (htarget.symm ▸ hbounded.1) (hsource.symm ▸ hbounded.2)
    rwa [htarget, hsource, ← ho] at hall

namespace BeyondWords

def context : Context where
  symbols := ⟨#[.value 1 "a" (.uint 3), .value 2 "b" (.uint 2), .value 3 "c" (.uint 8), .value 4 "d" (.uint 1)]⟩

def targets : List Expr := [.ref {} ⟨0⟩, .ref {} ⟨1⟩]

/-- Four bits of a variable from a position on, and one more. -/
def sources (lowest : Int) : List Expr :=
  [.slice {} (.ref {} ⟨2⟩) (.num {} false (lowest + 3)) (.num {} false lowest), .ref {} ⟨3⟩]

theorem spans_targets : Spans context.symbols targets := ⟨by decide, by decide, by decide⟩

/-- The lowest bits of the variable are cut and stay in their places. -/
theorem low_inPlace : ∃ o, regroup {} targets (sources 0) context = .ok o context ∧
    InPlace context.symbols targets (sources 0) (o.getD [⟨targets, sources 0⟩]) := by
  have hbounded : ∀ p ∈ targets ++ sources 0, p.Bounded := by
    intro p hp loc l s m n hform
    subst hform
    simp only [targets, sources, cons_append, nil_append, mem_cons, reduceCtorEq, slice.injEq,
      not_mem_nil, false_or, or_false] at hp
    obtain ⟨-, -, rfl, rfl⟩ := hp
    exact ⟨3, 0, rfl, rfl, by decide⟩
  obtain ⟨o, _, hregroup, -, -, -, -, -, hplace⟩ := regroup_inPlace (c := context) {} spans_targets
    ⟨by decide, by decide, by decide⟩ hbounded (by decide) (by decide)
  exact ⟨o, hregroup, hplace⟩

/-- Bits whose positions are no words are cut at the low words of these, so other bits of the variable are read. -/
theorem high_moved : ∃ o, regroup {} targets (sources 0x10000000000000000) context = .ok o context ∧
    ((o.getD [⟨targets, sources 0x10000000000000000⟩]).flatMap fun g => g.source.flatMap (bitNames context.symbols)) =
      BitName.down ⟨2⟩ 3 0 ++ BitName.down ⟨3⟩ 0 0 ∧
    (sources 0x10000000000000000).flatMap (bitNames context.symbols) =
      BitName.down ⟨2⟩ 0x10000000000000003 0x10000000000000000 ++ BitName.down ⟨3⟩ 0 0 := by
  have hgroups : groups none (measure context.symbols targets) (measure context.symbols (sources 0x10000000000000000)) =
      [⟨targets, sources 0x10000000000000000⟩] := by
    change groups none [(_, 3), (_, 2)] [(_, 4), (_, 1)] = _
    simp [groups, targets, sources]
  have hparts : peel context.symbols targets (sources 0x10000000000000000) =
      [⟨[.ref {} ⟨0⟩], [bitRange (.ref {} ⟨2⟩) 3 1]⟩, ⟨[.ref {} ⟨1⟩], [bitRange (.ref {} ⟨2⟩) 0 0, .ref {} ⟨3⟩]⟩] := by
    simp only [targets, sources, peel]
    rfl
  have hwhole : ∀ g, (groups none (measure context.symbols targets)
      (measure context.symbols (sources 0x10000000000000000))).flatMap (fun g => peel context.symbols g.target g.source) = [g] →
      g = ⟨targets, sources 0x10000000000000000⟩ := by
    intro g hg
    rw [hgroups, flatMap_singleton, hparts] at hg
    cases hg
  obtain ⟨o, hregroup, ho⟩ := regroup_eq (c := context) {} spans_targets ⟨by decide, by decide, by decide⟩ (by decide) (by decide)
    rfl hwhole
  rw [hgroups, flatMap_singleton, hparts] at ho
  exact ⟨o, hregroup, by rw [ho]; rfl, rfl⟩

end BeyondWords

end Concatenation

end HdlLowering
