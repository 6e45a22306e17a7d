import HdlLowering.Proofs.Concatenation.Ranges

/-!
# Groups of parts

The targets and the sources of an assignment are split into groups with as many bits on both sides (`groups_flatMap`), and these
are cut further.
-/

namespace HdlLowering.Concatenation

open List Expr Bits Word Store

variable {Γ : SymbolTable} {ω : Unknowns} {st cur : Store Γ} {ts ts' ss ss' : List Expr} {gs gs' : List Group} {t s : Expr}

/-- The variable that one target is a part of is not read for the positions of another. -/
def Later (p q : Expr) : Prop := ∀ x, p.root? = some x → x ∉ q.steers

structure Targets (Γ : SymbolTable) (ts : List Expr) : Prop where
  root : ∀ t ∈ ts, t.root? ≠ none
  sized : ∀ t ∈ ts, t.WellSized Γ
  width : ∀ t ∈ ts, 0 < t.width Γ
  distinct : (ts.map root?).Nodup
  later : ts.Pairwise Later

structure Sources (Γ : SymbolTable) (ss : List Expr) : Prop where
  sized : ∀ s ∈ ss, s.WellSized Γ
  width : ∀ s ∈ ss, 0 < s.width Γ
  room : (bitsList Γ ss : Int) < Word.limit

theorem Sources.adds (h : Sources Γ ss) : Adds Γ ss := by
  have hwidth : ∀ s ∈ ss, 0 ≤ s.width Γ := fun s hs => Int64.le_of_lt (h.width s hs)
  exact ⟨hwidth, bitsList_eq_span hwidth ▸ h.room⟩

theorem bitsList_mono {ps qs : List Expr} (h : ps <+ qs) : bitsList Γ ps ≤ bitsList Γ qs := by
  induction h with
  | slnil => exact Nat.le_refl _
  | cons q _ ih => exact Nat.le_trans ih (by rw [bitsList_cons]; exact Nat.le_add_left _ _)
  | cons_cons q _ ih => simpa only [bitsList_cons, Nat.add_le_add_iff_left] using ih

theorem Sources.of_sublist (h : Sources Γ ss) (hsub : ss' <+ ss) : Sources Γ ss' where
  sized x hx := h.sized x (hsub.subset hx)
  width x hx := h.width x (hsub.subset hx)
  room := Int.lt_of_le_of_lt (Int.ofNat_le.mpr (bitsList_mono hsub)) h.room

theorem Targets.of_sublist (h : Targets Γ ts) (hsub : ts' <+ ts) : Targets Γ ts' where
  root x hx := h.root x (hsub.subset hx)
  sized x hx := h.sized x (hsub.subset hx)
  width x hx := h.width x (hsub.subset hx)
  distinct := h.distinct.sublist (hsub.map _)
  later := h.later.sublist hsub

section

variable {t s : Expr}

theorem Targets.head (h : Targets Γ (t :: ts)) : Targets Γ [t] := h.of_sublist (singleton_sublist.mpr mem_cons_self)

theorem Targets.tail (h : Targets Γ (t :: ts)) : Targets Γ ts := h.of_sublist (sublist_cons_self t ts)

theorem Sources.head (h : Sources Γ (s :: ss)) : Sources Γ [s] := h.of_sublist (singleton_sublist.mpr mem_cons_self)

theorem Sources.tail (h : Sources Γ (s :: ss)) : Sources Γ ss := h.of_sublist (sublist_cons_self s ss)

end

theorem value_concat (h : Adds Γ ss) : (Expr.concat ss).value ω st % 2 ^ bitsList Γ ss = join 0 (fields ω st ss) := by
  have hcat : ∀ l, (cat l ss).value ω st % 2 ^ bitsList Γ ss = join 0 (fields ω st ss) := by
    intro l
    obtain ⟨h0, hlt⟩ := join_bounds (fields ω st ss)
    rw [count_fields] at hlt
    rw [h.value_cat, Int.emod_eq_of_lt h0 hlt]
  match ss, hcat with
  | [s], _ =>
    change s.value ω st % 2 ^ bitsList Γ [s] = 0 * 2 ^ s.bits Γ + s.value ω st % 2 ^ s.bits Γ
    rw [bitsList_cons, bitsList_nil, Nat.add_zero, Int.zero_mul, Int.zero_add]
  | [], hcat => exact hcat _
  | _ :: _ :: _, hcat => exact hcat _

theorem cut_append (ts ts' : List Expr) (v : Int) : cut Γ (ts ++ ts') v = cut Γ ts (v >>> bitsList Γ ts') ++ cut Γ ts' v := by
  induction ts with
  | nil => rfl
  | cons t ts ih => rw [cons_append, cut, ih, cut, bitsList_append, Nat.add_comm, Int.shiftRight_add]; rfl

/-! ## Splits -/

structure Split (Γ : SymbolTable) (ts ss : List Expr) (gs : List Group) : Prop where
  bits : ∀ g ∈ gs, bitsList Γ g.target = bitsList Γ g.source
  total : bitsList Γ (gs.flatMap (·.target)) = bitsList Γ ts
  write : ∀ ω (st cur : Store Γ) v,
    st.writes ω cur (cut Γ (gs.flatMap (·.target)) v) = st.writes ω cur (cut Γ ts v)
  value : ∀ ω (st : Store Γ) front,
    join front (fields ω st (gs.flatMap (·.source))) = join front (fields ω st ss)
  exact : ∀ g ∈ gs, ∀ t ∈ g.target, t.Exact Γ ∧ t.isCat = false
  distinct : ∀ g ∈ gs, (g.target.map root?).Nodup
  within : ∀ t ∈ gs.flatMap (·.target), ∃ t0 ∈ ts, t.root? = t0.root? ∧ ∀ x ∈ t.steers, x ∈ t0.steers
  later : (gs.flatMap (·.target)).Pairwise Later
  adds : ∀ g ∈ gs, Adds Γ g.source
  symbols : ∀ g ∈ gs, ∀ x ∈ symbolsList g.source, x ∈ symbolsList ss

theorem not_cat_of_root {t : Expr} (h : t.root? ≠ none) : t.isCat = false := by
  cases t <;> first | rfl | exact absurd rfl h

theorem Targets.exact (h : Targets Γ ts) : ∀ t ∈ ts, t.Exact Γ ∧ t.isCat = false := fun t ht =>
  ⟨exact_of_sized (h.root t ht) (h.sized t ht) fun hzero => Int64.lt_irrefl (hzero ▸ h.width t ht),
    not_cat_of_root (h.root t ht)⟩

theorem Split.single (ht : Targets Γ ts) (hs : Sources Γ ss) (hbits : bitsList Γ ts = bitsList Γ ss) :
    Split Γ ts ss [⟨ts, ss⟩] := by
  have htarget : [(⟨ts, ss⟩ : Group)].flatMap (·.target) = ts := by simp
  have hsource : [(⟨ts, ss⟩ : Group)].flatMap (·.source) = ss := by simp
  refine ⟨?_, ?_, ?_, ?_, ?_, ?_, ?_, ?_, ?_, ?_⟩ <;>
    simp only [htarget, hsource, forall_mem_singleton, implies_true]
  · exact hbits
  · exact ht.exact
  · exact ht.distinct
  · exact fun t h => ⟨t, h, rfl, fun _ h => h⟩
  · exact ht.later
  · exact hs.adds
  · exact fun _ h => h

theorem Split.append (h : Split Γ ts ss gs) (h' : Split Γ ts' ss' gs') (hlater : ∀ p ∈ ts, ∀ q ∈ ts', Later p q) :
    Split Γ (ts ++ ts') (ss ++ ss') (gs ++ gs') where
  bits := forall_mem_append.mpr ⟨h.bits, h'.bits⟩
  total := by rw [flatMap_append, bitsList_append, bitsList_append, h.total, h'.total]
  write ω st cur v := by
    rw [flatMap_append, cut_append, cut_append, writes_append, writes_append, h.write, h'.write, h'.total]
  value ω st front := by
    have hfields : ∀ es fs : List Expr, fields ω st (es ++ fs) = fields ω st es ++ fields ω st fs :=
      fun es fs => by simp [fields]
    rw [flatMap_append, hfields, hfields, join_append, join_append, h.value, h'.value]
  exact := forall_mem_append.mpr ⟨h.exact, h'.exact⟩
  distinct := forall_mem_append.mpr ⟨h.distinct, h'.distinct⟩
  within := by
    rw [flatMap_append, forall_mem_append]
    refine ⟨fun t ht => ?_, fun t ht => ?_⟩
    · obtain ⟨t0, ht0, hin⟩ := h.within t ht
      exact ⟨t0, mem_append_left _ ht0, hin⟩
    · obtain ⟨t0, ht0, hin⟩ := h'.within t ht
      exact ⟨t0, mem_append_right _ ht0, hin⟩
  later := by
    rw [flatMap_append, pairwise_append]
    refine ⟨h.later, h'.later, fun p hp q hq x hx hsteer => ?_⟩
    obtain ⟨p0, hp0, hroot, -⟩ := h.within p hp
    obtain ⟨q0, hq0, -, hsteers⟩ := h'.within q hq
    exact hlater p0 hp0 q0 hq0 x (hroot ▸ hx) (hsteers x hsteer)
  adds := forall_mem_append.mpr ⟨h.adds, h'.adds⟩
  symbols := by
    rw [forall_mem_append]
    refine ⟨fun g hg x hx => ?_, fun g hg x hx => ?_⟩
    · rw [symbolsList_append]
      exact mem_append_left _ (h.symbols g hg x hx)
    · rw [symbolsList_append]
      exact mem_append_right _ (h'.symbols g hg x hx)

section

variable {s : Symbol} {e top rest : Expr} {lo m n : Nat}

theorem Split.merge_target (he : IsRange Γ e s lo (m + n)) (htop : IsRange Γ top s (lo + m) n) (hrest : IsRange Γ rest s lo m)
    (h : Split Γ (top :: rest :: ts) ss gs) : Split Γ (e :: ts) ss gs := by
  refine { h with total := ?_, write := fun ω st cur v => ?_, within := fun t ht => ?_ }
  · rw [h.total, bitsList_cons, bitsList_cons, bitsList_cons, he.bits, htop.bits, hrest.bits]
    omega
  · rw [h.write, cut, cut, cut, writes_cons, writes_cons, writes_cons, bitsList_cons,
      hrest.bits, Nat.add_comm, Int.shiftRight_add, IsRange.write_split he htop hrest]
  · obtain ⟨t0, ht0, hroot, hsteers⟩ := h.within t ht
    rcases mem_cons.mp ht0 with rfl | ht0
    · refine ⟨e, mem_cons_self, hroot.trans (htop.root.trans he.root.symm), fun x hx => ?_⟩
      exact absurd (hsteers x hx) (by simp [htop.steers])
    · rcases mem_cons.mp ht0 with rfl | ht0
      · refine ⟨e, mem_cons_self, hroot.trans (hrest.root.trans he.root.symm), fun x hx => ?_⟩
        exact absurd (hsteers x hx) (by simp [hrest.steers])
      · exact ⟨t0, mem_cons_of_mem _ ht0, hroot, hsteers⟩

theorem Split.merge_source (he : IsRange Γ e s lo (m + n)) (htop : IsRange Γ top s (lo + m) n) (hrest : IsRange Γ rest s lo m)
    (h : Split Γ ts (top :: rest :: ss) gs) : Split Γ ts (e :: ss) gs := by
  refine { h with value := fun ω st front => ?_, symbols := fun g hg x hx => ?_ }
  · rw [h.value]
    change join front ((top.bits Γ, top.value ω st) :: (rest.bits Γ, rest.value ω st) :: fields ω st ss) =
      join front ((e.bits Γ, e.value ω st) :: fields ω st ss)
    rw [he.bits, htop.bits, hrest.bits]
    exact IsRange.join_split he htop hrest front _
  · have hmem := h.symbols g hg x hx
    simp only [symbolsList_cons, htop.symbols, hrest.symbols, he.symbols, mem_append, mem_singleton] at hmem ⊢
    tauto

theorem IsRange.width_pos (h : IsRange Γ e s lo n) : 0 < e.width Γ := by
  rw [← size_pos, ← Expr.bits, h.bits]
  exact h.positive

theorem Targets.cut (h : Targets Γ (e :: ts)) (hroot : e.root? = some s) (hrest : IsRange Γ rest s lo m) :
    Targets Γ (rest :: ts) where
  root := forall_mem_cons.mpr ⟨by simp [hrest.root], h.tail.root⟩
  sized := forall_mem_cons.mpr ⟨hrest.sized, h.tail.sized⟩
  width := forall_mem_cons.mpr ⟨hrest.width_pos, h.tail.width⟩
  distinct := by
    have hdistinct := h.distinct
    rwa [map_cons, hroot, ← hrest.root, ← map_cons (f := root?)] at hdistinct
  later := by
    obtain ⟨hfirst, hothers⟩ := pairwise_cons.mp h.later
    refine pairwise_cons.mpr ⟨fun q hq x hx => hfirst q hq x ?_, hothers⟩
    rw [hroot, ← hrest.root, hx]

end

/-! ## Cutting the leading part -/

theorem Split.cons (ht : Targets Γ [t]) (hs : Sources Γ [s]) (hbits : t.bits Γ = s.bits Γ)
    (hlater : ∀ q ∈ ts, Later t q) (h : Split Γ ts ss gs) : Split Γ (t :: ts) (s :: ss) (⟨[t], [s]⟩ :: gs) := by
  have hfirst := Split.single ht hs (by rw [bitsList_cons, bitsList_cons, hbits])
  exact hfirst.append h (forall_mem_singleton.mpr hlater)

theorem bits_of_width (h : t.width Γ = s.width Γ) : t.bits Γ = s.bits Γ := by
  rw [bits, bits, h]

/-- Cutting leading parts splits a group. -/
theorem peel_split (ts ss : List Expr) (ht : Targets Γ ts) (hs : Sources Γ ss)
    (hbits : bitsList Γ ts = bitsList Γ ss) : Split Γ ts ss (peel Γ ts ss) := by
  fun_induction peel Γ ts ss with
  | case1 t t' ts s s' ss wt ws hw ih =>
    have hhead := bits_of_width (Γ := Γ) (t := t) (s := s) hw
    rw [bitsList_cons, bitsList_cons (t := s), hhead, Nat.add_left_cancel_iff] at hbits
    exact .cons ht.head hs.head hhead (pairwise_cons.mp ht.later).1 (ih ht.tail hs.tail hbits)
  | case2 t t' ts s s' ss wt ws hne hlt top rest hsplit ih =>
    obtain ⟨x, lo, m, he, htop, hrest⟩ := isRange_of_splitTop? hsplit (ht.sized t mem_cons_self)
      (ht.width t mem_cons_self)
    have hcut := ht.cut he.root hrest
    have hlater := (pairwise_cons.mp hcut.later).1
    rw [bitsList_cons, he.bits] at hbits
    have hwhole : bitsList Γ (rest :: t' :: ts) = bitsList Γ (s' :: ss) := by
      rw [bitsList_cons, hrest.bits]
      rw [bitsList_cons (t := s), bits] at hbits
      change m + size (s.width Γ) + _ = _ at hbits
      omega
    have htop' : Targets Γ [top] := (Targets.cut ht.head he.root htop)
    refine Split.merge_target he htop hrest (.cons htop' hs.head htop.bits ?_ (ih hcut hs.tail hwhole))
    refine forall_mem_cons.mpr ⟨fun y _ hy => ?_, fun q hq y hy => hlater q hq y ?_⟩
    · simp [hrest.steers] at hy
    · rw [hrest.root, ← htop.root, hy]
  | case3 => exact .single ht hs hbits
  | case4 t t' ts s s' ss wt ws hne hlt top rest hsplit ih =>
    obtain ⟨x, lo, m, he, htop, hrest⟩ := isRange_of_splitTop? hsplit (hs.sized s mem_cons_self)
      (hs.width s mem_cons_self)
    have hroom := hs.room
    rw [bitsList_cons, he.bits] at hroom
    have hcut : Sources Γ (rest :: s' :: ss) := by
      refine ⟨forall_mem_cons.mpr ⟨hrest.sized, hs.tail.sized⟩,
        forall_mem_cons.mpr ⟨hrest.width_pos, hs.tail.width⟩, ?_⟩
      rw [bitsList_cons, hrest.bits]
      omega
    have htop' : Sources Γ [top] := by
      refine ⟨forall_mem_singleton.mpr htop.sized, forall_mem_singleton.mpr htop.width_pos, ?_⟩
      rw [bitsList_cons, bitsList_nil, htop.bits]
      omega
    have hwhole : bitsList Γ (t' :: ts) = bitsList Γ (rest :: s' :: ss) := by
      rw [bitsList_cons (t := rest), hrest.bits]
      rw [bitsList_cons, bitsList_cons (t := s), he.bits, bits] at hbits
      change size (t.width Γ) + _ = m + size (t.width Γ) + _ at hbits
      omega
    exact Split.merge_source he htop hrest (.cons ht.head htop' htop.bits.symm (pairwise_cons.mp ht.later).1
      (ih ht.tail hcut hwhole))
  | case5 => exact .single ht hs hbits
  | case6 => exact .single ht hs hbits

/-! ## Groups of one width -/

def Measured (Γ : SymbolTable) (ps : List Part) : Prop := ∀ p ∈ ps, p.2 = p.1.width Γ ∧ 0 < p.2

/-- A group in the making, before more parts, with as many bits on both sides in the end. -/
structure Pending (Γ : SymbolTable) (o : Open) (ts ss : List Part) : Prop where
  target : o.targetWidth.toInt = bitsList Γ o.group.target
  source : o.sourceWidth.toInt = bitsList Γ o.group.source
  total : bitsList Γ o.group.target + bitsList Γ (ts.map (·.1)) =
    bitsList Γ o.group.source + bitsList Γ (ss.map (·.1))
  room : ((bitsList Γ o.group.target + bitsList Γ (ts.map (·.1)) : Nat) : Int) < Word.limit

theorem bits_of_measured {p : Part} (h : p.2 = p.1.width Γ ∧ 0 < p.2) : (p.1.bits Γ : Int) = p.2.toInt ∧ 0 < p.1.bits Γ := by
  rw [bits, ← h.1]
  exact ⟨size_eq (Int64.le_of_lt h.2), size_pos.mpr h.2⟩

section

variable {t s : Part} {tps sps : List Part} {o : Open}

theorem Pending.first (ht : t.2 = t.1.width Γ ∧ 0 < t.2) (hs : s.2 = s.1.width Γ ∧ 0 < s.2)
    (htotal : bitsList Γ ((t :: tps).map (·.1)) = bitsList Γ ((s :: sps).map (·.1)))
    (hroom : (bitsList Γ ((t :: tps).map (·.1)) : Int) < Word.limit) :
    Pending Γ ⟨⟨[t.1], [s.1]⟩, t.2, s.2⟩ tps sps := by
  refine ⟨?_, ?_, ?_, ?_⟩ <;> simp only [bitsList_cons, bitsList_nil, Nat.add_zero]
  · exact (bits_of_measured ht).1.symm
  · exact (bits_of_measured hs).1.symm
  · simpa using htotal
  · simpa using hroom

theorem Pending.add_target (h : Pending Γ o (t :: tps) sps) (ht : t.2 = t.1.width Γ ∧ 0 < t.2) :
    Pending Γ ⟨⟨o.group.target ++ [t.1], o.group.source⟩, o.targetWidth + t.2, o.sourceWidth⟩ tps sps := by
  obtain ⟨htarget, hsource, htotal, hroom⟩ := h
  obtain ⟨hwidth, -⟩ := bits_of_measured ht
  simp only [map_cons, bitsList_cons] at htotal hroom
  refine ⟨?_, hsource, ?_, ?_⟩ <;> simp only [bitsList_append, bitsList_cons, bitsList_nil, Nat.add_zero]
  · rw [toInt_add] <;> omega
  · omega
  · omega

theorem Pending.add_source (h : Pending Γ o tps (s :: sps)) (hs : s.2 = s.1.width Γ ∧ 0 < s.2) :
    Pending Γ ⟨⟨o.group.target, o.group.source ++ [s.1]⟩, o.targetWidth, o.sourceWidth + s.2⟩ tps sps := by
  obtain ⟨htarget, hsource, htotal, hroom⟩ := h
  obtain ⟨hwidth, -⟩ := bits_of_measured hs
  simp only [map_cons, bitsList_cons] at htotal
  refine ⟨htarget, ?_, ?_, hroom⟩ <;> simp only [bitsList_append, bitsList_cons, bitsList_nil, Nat.add_zero]
  · rw [toInt_add] <;> omega
  · omega

variable (h : Pending Γ o tps sps)
include h

theorem Pending.close (heq : o.targetWidth = o.sourceWidth) : bitsList Γ o.group.target = bitsList Γ o.group.source ∧
      bitsList Γ (tps.map (·.1)) = bitsList Γ (sps.map (·.1)) ∧
      (bitsList Γ (tps.map (·.1)) : Int) < limit := by
  obtain ⟨htarget, hsource, htotal, hroom⟩ := h
  rw [heq] at htarget
  omega

theorem Pending.target_behind (hlt : o.targetWidth < o.sourceWidth) :
    bitsList Γ o.group.target < bitsList Γ o.group.source := by
  have hless := Int64.lt_iff_toInt_lt.mp hlt
  have htarget := h.target
  have hsource := h.source
  omega

theorem Pending.source_behind (hne : o.targetWidth ≠ o.sourceWidth)
    (hge : ¬ o.targetWidth < o.sourceWidth) : bitsList Γ o.group.source < bitsList Γ o.group.target := by
  have hmore := Int64.le_iff_toInt_le.mp (Int64.not_lt.mp hge)
  have hdiffer : o.targetWidth.toInt ≠ o.sourceWidth.toInt := fun heq => hne (Int64.toInt_inj.mp heq)
  have htarget := h.target
  have hsource := h.source
  omega

end

/-- No part of the target but the last one ends where a part of the source ends. -/
def Finest (Γ : SymbolTable) (ts ss : List Expr) : Prop :=
  ∀ pre spre, pre <+: ts → spre <+: ss → pre ≠ [] → pre ≠ ts → bitsList Γ pre ≠ bitsList Γ spre

/-- A group in the making: neither side has reached the other before its last part. -/
structure Abreast (Γ : SymbolTable) (ts ss : List Expr) : Prop where
  some : ts ≠ [] ∧ ss ≠ []
  finest : Finest Γ ts ss
  target : ∀ pre, pre <+: ts → pre ≠ ts → bitsList Γ pre < bitsList Γ ss
  source : ∀ spre, spre <+: ss → spre ≠ ss → bitsList Γ spre < bitsList Γ ts

theorem Abreast.add_target (h : Abreast Γ ts ss) (hbehind : bitsList Γ ts < bitsList Γ ss) (t : Expr) :
    Abreast Γ (ts ++ [t]) ss where
  some := ⟨by simp, h.some.2⟩
  finest pre spre hpre hspre hne hproper := by
    have hwithin := (prefix_concat_iff.mp hpre).resolve_left hproper
    by_cases hall : pre = ts
    · subst hall
      by_cases hsource : spre = ss
      · exact hsource ▸ Nat.ne_of_lt hbehind
      · exact Nat.ne_of_gt (h.source spre hspre hsource)
    · exact h.finest pre spre hwithin hspre hne hall
  target pre hpre hproper :=
    Nat.lt_of_le_of_lt (bitsList_mono ((prefix_concat_iff.mp hpre).resolve_left hproper).sublist) hbehind
  source spre hspre hproper :=
    Nat.lt_of_lt_of_le (h.source spre hspre hproper) (bitsList_mono (sublist_append_left ts [t]))

theorem Abreast.add_source (h : Abreast Γ ts ss) (hbehind : bitsList Γ ss < bitsList Γ ts) (s : Expr) :
    Abreast Γ ts (ss ++ [s]) where
  some := ⟨h.some.1, by simp⟩
  finest pre spre hpre hspre hne hproper := by
    have hmore := bitsList_mono (Γ := Γ) (sublist_append_left ss [s])
    rcases prefix_concat_iff.mp hspre with rfl | hwithin
    · exact Nat.ne_of_lt (Nat.lt_of_lt_of_le (h.target pre hpre hproper) hmore)
    · exact h.finest pre spre hpre hwithin hne hproper
  target pre hpre hproper :=
    Nat.lt_of_lt_of_le (h.target pre hpre hproper) (bitsList_mono (sublist_append_left ss [s]))
  source spre hspre hproper :=
    Nat.lt_of_le_of_lt (bitsList_mono ((prefix_concat_iff.mp hspre).resolve_left hproper).sublist) hbehind

theorem abreast_single (ht : 0 < t.bits Γ) (hs : 0 < s.bits Γ) : Abreast Γ [t] [s] where
  some := ⟨cons_ne_nil _ _, cons_ne_nil _ _⟩
  finest pre spre hpre _ hne hproper := by
    rcases prefix_cons_iff.mp hpre with rfl | ⟨_, rfl, hnil⟩
    · exact absurd rfl hne
    · exact absurd (by rw [prefix_nil.mp hnil]) hproper
  target pre hpre hproper := by
    rcases prefix_cons_iff.mp hpre with rfl | ⟨_, rfl, hnil⟩
    · rwa [bitsList_cons, bitsList_nil]
    · exact absurd (by rw [prefix_nil.mp hnil]) hproper
  source spre hspre hproper := by
    rcases prefix_cons_iff.mp hspre with rfl | ⟨_, rfl, hnil⟩
    · rwa [bitsList_cons, bitsList_nil]
    · exact absurd (by rw [prefix_nil.mp hnil]) hproper

/-- The groups hold all parts in order, and each has as many bits on both sides and no fewer parts with that property. -/
theorem groups_flatMap (o : Option Open) (ts ss : List Part) (ht : Measured Γ ts) (hs : Measured Γ ss)
    (hnone : o = none → bitsList Γ (ts.map (·.1)) = bitsList Γ (ss.map (·.1)) ∧
      (bitsList Γ (ts.map (·.1)) : Int) < limit)
    (hopen : ∀ p, o = some p → Pending Γ p ts ss ∧ Abreast Γ p.group.target p.group.source) :
    (groups o ts ss).flatMap (·.target) = (o.map (·.group.target)).getD [] ++ ts.map (·.1) ∧
      (groups o ts ss).flatMap (·.source) = (o.map (·.group.source)).getD [] ++ ss.map (·.1) ∧
      (∀ g ∈ groups o ts ss, bitsList Γ g.target = bitsList Γ g.source) ∧
      ∀ g ∈ groups o ts ss, (g.target ≠ [] ∧ g.source ≠ []) ∧ Finest Γ g.target g.source := by
  fun_induction groups o ts ss with
  | case1 t ts s ss ih =>
    rw [Measured, forall_mem_cons] at ht hs
    obtain ⟨htotal, hroom⟩ := hnone rfl
    refine ih ht.2 hs.2 nofun ?_
    rintro p ⟨⟩
    exact ⟨.first ht.1 hs.1 htotal hroom, abreast_single (bits_of_measured ht.1).2 (bits_of_measured hs.1).2⟩
  | case2 ts ss hshort =>
    -- with one side empty, the other has no bits left, and so no parts
    obtain ⟨htotal, -⟩ := hnone rfl
    match ts, ss with
    | [], [] => exact ⟨rfl, rfl, nofun, nofun⟩
    | [], s :: ss =>
      have hpositive := (bits_of_measured (hs s mem_cons_self)).2
      simp only [map_cons, map_nil, bitsList_cons, bitsList_nil] at htotal
      omega
    | t :: ts, [] =>
      have hpositive := (bits_of_measured (ht t mem_cons_self)).2
      simp only [map_cons, map_nil, bitsList_cons, bitsList_nil] at htotal
      omega
    | t :: ts, s :: ss => exact absurd rfl (hshort t ts s ss rfl)
  | case3 o ts ss heq ih =>
    obtain ⟨hpending, habreast⟩ := hopen o rfl
    obtain ⟨hbits, hleft⟩ := hpending.close heq
    obtain ⟨hts, hss, hgroups, hfinest⟩ := ih ht hs (fun _ => hleft) nofun
    refine ⟨?_, ?_, forall_mem_cons.mpr ⟨hbits, hgroups⟩,
      forall_mem_cons.mpr ⟨⟨habreast.some, habreast.finest⟩, hfinest⟩⟩
    · rw [flatMap_cons, hts]
      rfl
    · rw [flatMap_cons, hss]
      rfl
  | case4 o ss hne hlt t ts ih =>
    rw [Measured, forall_mem_cons] at ht
    obtain ⟨hpending, habreast⟩ := hopen o rfl
    obtain ⟨hts, hrest⟩ := ih ht.2 hs nofun (by
      rintro p ⟨⟩
      exact ⟨hpending.add_target ht.1, habreast.add_target (hpending.target_behind hlt) t.1⟩)
    refine ⟨?_, hrest⟩
    rw [hts]
    simp
  | case5 o ss hne hlt =>
    have hbehind := (hopen o rfl).1.target_behind hlt
    have htotal := (hopen o rfl).1.total
    simp only [map_nil, bitsList_nil] at htotal
    omega
  | case6 o ts hne hge s ss ih =>
    rw [Measured, forall_mem_cons] at hs
    obtain ⟨hpending, habreast⟩ := hopen o rfl
    obtain ⟨hts, hss, hrest⟩ := ih ht hs.2 nofun (by
      rintro p ⟨⟩
      exact ⟨hpending.add_source hs.1, habreast.add_source (hpending.source_behind hne hge) s.1⟩)
    refine ⟨hts, ?_, hrest⟩
    rw [hss]
    simp
  | case7 o ts hne hge =>
    have hbehind := (hopen o rfl).1.source_behind hne hge
    have htotal := (hopen o rfl).1.total
    simp only [map_nil, bitsList_nil] at htotal
    omega

/-! ## All groups -/

theorem flatMap_peel_split (gs : List Group) (ht : Targets Γ (gs.flatMap (·.target))) (hs : Sources Γ (gs.flatMap (·.source)))
    (hbits : ∀ g ∈ gs, bitsList Γ g.target = bitsList Γ g.source) :
    Split Γ (gs.flatMap (·.target)) (gs.flatMap (·.source)) (gs.flatMap fun g => peel Γ g.target g.source) := by
  induction gs with
  | nil => exact ⟨nofun, rfl, fun _ _ _ _ => rfl, fun _ _ _ => rfl, nofun, nofun, nofun, .nil, nofun, nofun⟩
  | cons g gs ih =>
    rw [forall_mem_cons] at hbits
    rw [flatMap_cons] at ht hs ⊢
    rw [flatMap_cons, flatMap_cons]
    exact (peel_split g.target g.source (ht.of_sublist (sublist_append_left ..))
      (hs.of_sublist (sublist_append_left ..)) hbits.1).append
      (ih (ht.of_sublist (sublist_append_right ..)) (hs.of_sublist (sublist_append_right ..)) hbits.2)
      (pairwise_append.mp ht.later).2.2

/-- Writing every group's targets with its sources is writing all targets with all sources. -/
theorem Split.writes (h : Split Γ ts ss gs) :
    st.writes ω cur (gs.flatMap fun g => cut Γ g.target ((Expr.concat g.source).value ω st)) =
      st.writes ω cur (cut Γ ts (join 0 (fields ω st ss))) := by
  -- first for the groups as they are, by the number of groups
  have hgroups : ∀ (gs : List Group) (cur : Store Γ), (∀ g ∈ gs, bitsList Γ g.target = bitsList Γ g.source) →
      (∀ g ∈ gs, ∀ t ∈ g.target, t.Exact Γ ∧ t.isCat = false) → (∀ g ∈ gs, Adds Γ g.source) →
      st.writes ω cur (gs.flatMap fun g => cut Γ g.target ((Expr.concat g.source).value ω st)) =
        st.writes ω cur (cut Γ (gs.flatMap (·.target)) (join 0 (fields ω st (gs.flatMap (·.source))))) := by
    intro gs
    induction gs with
    | nil => exact fun _ _ _ _ => rfl
    | cons g gs ih =>
      intro cur hbits hexact hadds
      rw [forall_mem_cons] at hbits hexact hadds
      have hcount : bitsList Γ (gs.flatMap (·.target)) = Bits.count (fields ω st (gs.flatMap (·.source))) := by
        rw [count_fields]
        have hrest := hbits.2
        clear ih hbits hexact hadds
        induction gs with
        | nil => rfl
        | cons g gs ih =>
          rw [forall_mem_cons] at hrest
          rw [flatMap_cons, flatMap_cons, bitsList_append, bitsList_append, hrest.1, ih hrest.2]
      have hfields : fields ω st (g.source ++ gs.flatMap (·.source)) =
          fields ω st g.source ++ fields ω st (gs.flatMap (·.source)) := by simp [fields]
      rw [flatMap_cons, flatMap_cons, flatMap_cons, cut_append, writes_append, writes_append,
        ih _ hbits.2 hexact.2 hadds.2, hfields, join_append, hcount, join_shiftRight]
      -- the later groups see the lowest bits of the whole only
      have hlater : ∀ cur : Store Γ, st.writes ω cur (cut Γ (gs.flatMap (·.target))
          (join 0 (fields ω st (gs.flatMap (·.source))))) = st.writes ω cur (cut Γ (gs.flatMap (·.target))
          (join (join 0 (fields ω st g.source)) (fields ω st (gs.flatMap (·.source))))) := by
        intro cur
        refine writes_cut_congr (fun t ht => ?_) ?_
        · obtain ⟨g', hg', ht⟩ := mem_flatMap.mp ht
          exact (hexact.2 g' hg' t ht).1
        · rw [hcount, join_emod, join_emod]
      rw [hlater]
      congr 1
      refine writes_cut_congr (fun t ht => (hexact.1 t ht).1) ?_
      rw [hbits.1, value_concat hadds.1, ← value_concat hadds.1, Int.emod_emod]
  rw [hgroups gs cur h.bits h.exact h.adds, h.write, h.value]

end HdlLowering.Concatenation
