import HdlLowering.Proofs.Concatenation.Groups
import HdlLowering.Proofs.Traversal.Postcondition
import HdlLowering.Proofs.Tree.Entities
import HdlLowering.Proofs.Value.Simplification

/-!
# Assignments to concatenations

What the pass puts for an assignment to a concatenation does the same to a store, one assignment after the other: the groups of
two concatenations (`Split.foldl_assign`), and the bits of a constant (`Dealt.foldl_assign`).
-/

namespace HdlLowering.Concatenation

open List Expr Bits Word Node Store Kind Stmt Forest PassM

variable {Γ : SymbolTable} {ω : Unknowns} {st cur : Store Γ} {ts ss : List Expr} {gs : List Group} {l : Loc} {x : Symbol}
  {as : List (Expr × Expr)}

/-- Targets of different variables whose widths add up, none of them read for the position of a later one, and a source whose
parts have the sizes they look. -/
structure Ready (Γ : SymbolTable) (ts : List Expr) (rhs : Expr) : Prop where
  root : ∀ t ∈ ts, t.root? ≠ none
  distinct : (ts.map root?).Nodup
  later : ts.Pairwise Later
  sized : ∀ t ∈ ts, t.WellSized Γ
  adds : Adds Γ ts
  source : rhs.WellSized Γ
  parts : ∀ p ∈ rhs.targets, p.WellSized Γ

def assigns (ω : Unknowns) (st : Store Γ) (as : List (Expr × Expr)) : Store Γ := as.foldl (fun st a => st.assign ω a.1 a.2) st

/-! ## Widths -/

def measure (Γ : SymbolTable) (ps : List Expr) : List Part := ps.map fun e => (e, e.width Γ)

theorem map_fst_measure (ts : List Expr) : (measure Γ ts).map (·.1) = ts := by
  rw [measure, map_map]
  exact map_id ts

theorem measured_measure (h : ∀ t ∈ ts, 0 < t.width Γ) : Measured Γ (measure Γ ts) :=
  forall_mem_map.mpr fun t ht => ⟨rfl, h t ht⟩

theorem measured?_eq_some {ps : List Part} : measured? Γ ts = some ps ↔ (∀ t ∈ ts, t.width Γ ≠ 0) ∧ ps = measure Γ ts := by
  induction ts generalizing ps with
  | nil => simp [measured?, measure, eq_comm]
  | cons t ts ih =>
    rw [measured?] at ih
    by_cases hzero : t.width Γ = 0
    · simp [measured?, hzero]
    · simp [measured?, measure, hzero, Option.bind_eq_some_iff, ih, and_assoc]
      grind

theorem total_measure (ts : List Expr) : total (measure Γ ts) = widths Γ ts := by
  have key : ∀ (ts : List Expr) (w : Int64), ((measure Γ ts).map (·.2)).foldl (· + ·) w = w + widths Γ ts := by
    intro ts
    induction ts with
    | nil => exact fun w => (Int64.add_zero w).symm
    | cons t ts ih =>
      intro w
      rw [widths, ← Int64.add_assoc]
      exact ih _
  rw [total, key ts 0, Int64.zero_add]

theorem toInt_total (h : Adds Γ ts) : (total (measure Γ ts)).toInt = bitsList Γ ts := by
  rw [total_measure, h.toInt_widths, bitsList_eq_span h.width]

theorem bitsList_of_total (ht : Adds Γ ts) (hs : Adds Γ ss) (h : total (measure Γ ts) = total (measure Γ ss)) :
    bitsList Γ ts = bitsList Γ ss := by
  rw [← Int.ofNat_inj, ← toInt_total ht, ← toInt_total hs, h]

theorem width_pos_of_adds (h : Adds Γ ts) (hne : ∀ t ∈ ts, t.width Γ ≠ 0) : ∀ t ∈ ts, 0 < t.width Γ :=
  fun t ht => Int64.lt_of_le_of_ne (h.width t ht) (hne t ht).symm

theorem groups_measure (ht : ∀ t ∈ ts, 0 < t.width Γ) (hs : ∀ s ∈ ss, 0 < s.width Γ) (hbits : bitsList Γ ts = bitsList Γ ss)
    (hroom : (bitsList Γ ts : Int) < limit) (h : gs = groups none (measure Γ ts) (measure Γ ss)) :
    gs.flatMap (·.target) = ts ∧ gs.flatMap (·.source) = ss ∧ (∀ g ∈ gs, bitsList Γ g.target = bitsList Γ g.source) ∧
      ∀ g ∈ gs, (g.target ≠ [] ∧ g.source ≠ []) ∧ Finest Γ g.target g.source := by
  have hall := groups_flatMap none _ _ (measured_measure ht) (measured_measure hs)
    (fun _ => by rw [map_fst_measure, map_fst_measure]; exact ⟨hbits, hroom⟩) nofun
  rw [map_fst_measure, map_fst_measure] at hall
  exact h ▸ hall

/-! ## Symbols on both sides -/

theorem mem_refs_nodesList {es : List Expr} : x ∈ refs (nodesList es) ↔ x ∈ symbolsList es := by
  rw [mem_refs, ← map_subtermsList, references, filterMap_map, symbolsList]
  constructor
  · rintro ⟨u, hu, rfl⟩
    obtain ⟨e, he, hue⟩ := mem_filterMap.mp hu
    refine mem_filterMap.mpr ⟨e, he, ?_⟩
    cases e with
    | ref l s =>
      obtain rfl := Option.some.inj hue
      rfl
    | _ => cases hue
  · intro hx
    obtain ⟨e, he, hxe⟩ := mem_filterMap.mp hx
    cases e with
    | ref l s =>
      obtain rfl := Option.some.inj hxe
      exact ⟨⟨s, l⟩, mem_filterMap.mpr ⟨_, he, rfl⟩, rfl⟩
    | _ => cases hxe

theorem not_mem_of_overlap (h : overlap Γ ts ss = false) (hx : x ∈ symbolsList ts) : x ∉ symbolsList ss := by
  intro hmem
  rw [overlap, any_eq_false] at h
  refine h x (mem_refs_nodesList.mpr hmem) ?_
  rw [SymbolTable.has_setOf, any_eq_true]
  exact ⟨x, mem_refs_nodesList.mpr hx, beq_iff_eq.mpr rfl⟩

theorem mem_symbols_of_root : ∀ {t : Expr}, t.root? = some x → x ∈ t.symbols
  | .ref l s, h => by
    obtain rfl := Option.some.inj h
    exact mem_singleton_self _
  | .index l y i, h => by
    rw [symbols_index]
    exact mem_append_left _ (mem_symbols_of_root (t := y) h)
  | .slice l y m n, h => by
    rw [symbols_slice]
    exact mem_append_left _ (mem_append_left _ (mem_symbols_of_root (t := y) h))

theorem mem_symbolsList_of_root {t : Expr} (ht : t ∈ ts) (h : t.root? = some x) : x ∈ symbolsList ts := by
  obtain ⟨before, after, rfl⟩ := append_of_mem ht
  rw [symbolsList_append, symbolsList_cons]
  exact mem_append_right _ (mem_append_left _ (mem_symbols_of_root h))

/-! ## Groups -/

def groupAssigns (gs : List Group) : List (Expr × Expr) := gs.map fun g => (concat g.target, concat g.source)

theorem targets_concat (h : ∀ t ∈ ts, t.isCat = false) : (Expr.concat ts).targets = ts := by
  match ts, h with
  | [t], h => exact targets_of_not_cat (h t (mem_singleton_self t))
  | [], _ => rfl
  | _ :: _ :: _, _ => rfl

theorem symbols_concat (es : List Expr) : (Expr.concat es).symbols = symbolsList es := by
  match es with
  | [e] => rw [symbolsList_cons]; exact (append_nil _).symm
  | [] => rfl
  | _ :: _ :: _ => rfl

/-- The assignments of the groups, one after the other, do what the assignment of all sources to all targets does. -/
theorem Split.foldl_assign (h : Split Γ ts ss gs) (hdistinct : (ts.map root?).Nodup) (hadds : Adds Γ ss)
    (hapart : ∀ x ∈ symbolsList ts, x ∉ symbolsList ss) (l l' : Loc) :
    assigns ω st (groupAssigns gs) = st.assign ω (.cat l ts) (.cat l' ss) := by
  have htargets : ∀ g ∈ gs, (Expr.concat g.target).targets = g.target := fun g hg =>
    targets_concat fun t ht => (h.exact g hg t ht).2
  have hroots : ∀ a ∈ groupAssigns gs, (a.1.targets.map root?).Nodup := by
    intro a ha
    obtain ⟨g, hg, rfl⟩ := mem_map.mp ha
    rw [htargets g hg]
    exact h.distinct g hg
  have hlater : (groupAssigns gs).Pairwise Undisturbed := by
    refine pairwise_map.mpr ((pairwise_flatMap.mp h.later).2.imp_of_mem ?_)
    intro g g' hg hg' hbetween p hp x hx
    rw [htargets g hg] at hp
    refine ⟨fun q hq => ?_, fun hmem => ?_⟩
    · rw [htargets g' hg'] at hq
      exact hbetween p hp q hq x hx
    · -- a variable that is written stands in no source
      obtain ⟨t0, ht0, hroot, -⟩ := h.within p (mem_flatMap.mpr ⟨g, hg, hp⟩)
      rw [symbols_concat] at hmem
      exact hapart x (mem_symbolsList_of_root ht0 (hroot ▸ hx)) (h.symbols g' hg' x hmem)
  have hfields : ((groupAssigns gs).flatMap fun a => cut Γ a.1.targets (a.2.value ω st)) =
      gs.flatMap fun g => cut Γ g.target ((Expr.concat g.source).value ω st) := by
    rw [groupAssigns, flatMap_map]
    exact flatMap_congr fun g hg => by rw [htargets g hg]
  calc assigns ω st (groupAssigns gs)
    _ = st.writes ω st (gs.flatMap fun g => cut Γ g.target ((Expr.concat g.source).value ω st)) := by
      rw [assigns, HdlLowering.foldl_assign hroots hlater fun _ _ => ⟨fun _ _ _ _ => rfl, fun _ _ => rfl⟩, hfields]
    _ = st.writes ω st (cut Γ ts (join 0 (fields ω st ss))) := h.writes
    _ = st.assign ω (.cat l ts) (.cat l' ss) := by
      rw [Store.assign, Store.receive, hadds.value_cat, Store.writeAll_eq_writes (by rwa [map_root?_cut])]
      rfl

theorem unlessWhole_ok (ts ss : List Expr) (gs : List Group) : ∃ o, (∀ c, (match gs with
      | [g] =>
        if g.target.length = ts.length && g.source.length = ss.length then return none
        else return some gs
      | _ => return some gs : ContextM (Option (List Group))) c = .ok o c) ∧
    ∀ gs', o = some gs' → gs' = gs ∧ gs' ≠ [⟨ts, ss⟩] := by
  match gs with
  | [] => exact ⟨some [], fun _ => rfl, by rintro _ ⟨⟩; exact ⟨rfl, nofun⟩⟩
  | g :: g' :: gs => exact ⟨some _, fun _ => rfl, by rintro _ ⟨⟩; exact ⟨rfl, nofun⟩⟩
  | [g] =>
    dsimp only
    split
    · exact ⟨none, fun _ => rfl, nofun⟩
    · rename_i hlength
      refine ⟨some [g], fun _ => rfl, ?_⟩
      rintro _ ⟨⟩
      refine ⟨rfl, fun heq => hlength ?_⟩
      rw [singleton_inj.mp heq]
      simp

structure Regrouped (Γ : SymbolTable) (ts ss : List Expr) (gs : List Group) : Prop where
  apart : overlap Γ ts ss = false
  proper : gs ≠ [⟨ts, ss⟩]
  split : ∃ tps sps, measured? Γ ts = some tps ∧ measured? Γ ss = some sps ∧ total tps = total sps ∧
    gs = (groups none tps sps).flatMap fun g => peel Γ g.target g.source

def Answers (Γ : SymbolTable) (x : PassM Unit Reply) (r : Reply) : Prop :=
  ∀ s, s.ctx.symbols = Γ → ∃ s', x s = .ok r s' ∧ s'.ctx.symbols = Γ

theorem answers_pure (r : Reply) : Answers Γ (pure r) r := fun s hs => ⟨s, rfl, hs⟩

theorem regroup_answers (Γ : SymbolTable) (l : Loc) (ts ss : List Expr) : ∃ o, (∀ gs, o = some gs → Regrouped Γ ts ss gs) ∧
    ∀ f r, f o = pure r → Answers Γ (liftM (regroup l ts ss) >>= f) r := by
  suffices h : ∃ o, (∀ gs, o = some gs → Regrouped Γ ts ss gs) ∧
      ∀ c, c.symbols = Γ → ∃ c', regroup l ts ss c = .ok o c' ∧ c'.symbols = Γ by
    obtain ⟨o, hgroups, ho⟩ := h
    refine ⟨o, hgroups, fun f r hr s hs => ?_⟩
    obtain ⟨c, hc, hsymbols⟩ := ho s.ctx hs
    exact ⟨_, (bind_ok (lift_ok hc)).trans (congrFun hr _), hsymbols⟩
  have hsymbols : ∀ c, ContextM.symbols c = .ok c.symbols c := fun _ => rfl
  by_cases hgo : overlap Γ ts ss = false ∧ ∃ tps sps, measured? Γ ts = some tps ∧ measured? Γ ss = some sps ∧
      total tps = total sps
  · obtain ⟨hoverlap, tps, sps, ht, hs, htotal⟩ := hgo
    obtain ⟨o, ho, hsome⟩ := unlessWhole_ok ts ss ((groups none tps sps).flatMap fun g => peel Γ g.target g.source)
    refine ⟨o, fun gs hgs => ⟨hoverlap, (hsome gs hgs).2, tps, sps, ht, hs, htotal, (hsome gs hgs).1⟩, ?_⟩
    rintro c rfl
    rw [regroup, bind_ok (hsymbols c), hoverlap, ht, hs]
    simp only [Bool.false_eq_true, if_false, htotal, ne_eq, not_true_eq_false]
    exact ⟨c, ho c, rfl⟩
  · refine ⟨none, nofun, ?_⟩
    rintro c rfl
    rw [regroup, bind_ok (hsymbols c)]
    cases hoverlap : overlap c.symbols ts ss with
    | true => exact ⟨c, rfl, rfl⟩
    | false =>
      cases ht : measured? c.symbols ts with
      | none => exact ⟨c, rfl, rfl⟩
      | some tps =>
        cases hs : measured? c.symbols ss with
        | none => exact ⟨c, rfl, rfl⟩
        | some sps =>
          have htotal : total tps ≠ total sps := fun htotal => hgo ⟨hoverlap, tps, sps, ht, hs, htotal⟩
          simp only [Bool.false_eq_true, if_false, htotal, ne_eq, not_false_eq_true, if_true]
          exact ⟨_, rfl, rfl⟩

theorem Regrouped.groups (h : Regrouped Γ ts ss gs) (ht : Adds Γ ts) (hs : Adds Γ ss) : ∃ gs0 : List Group,
    gs = (gs0.flatMap fun g => peel Γ g.target g.source) ∧ gs0.flatMap (·.target) = ts ∧ gs0.flatMap (·.source) = ss ∧
      (∀ g ∈ gs0, bitsList Γ g.target = bitsList Γ g.source) ∧
      (∀ g ∈ gs0, (g.target ≠ [] ∧ g.source ≠ []) ∧ Finest Γ g.target g.source) ∧ (∀ t ∈ ts, 0 < t.width Γ) ∧
      ∀ s ∈ ss, 0 < s.width Γ := by
  obtain ⟨-, -, tps, sps, htps, hsps, htotal, rfl⟩ := h
  obtain ⟨htne, rfl⟩ := measured?_eq_some.mp htps
  obtain ⟨hsne, rfl⟩ := measured?_eq_some.mp hsps
  have htpos := width_pos_of_adds ht htne
  have hspos := width_pos_of_adds hs hsne
  obtain ⟨htarget, hsource, hgroups, hfinest⟩ := groups_measure htpos hspos (bitsList_of_total ht hs htotal) ht.room rfl
  exact ⟨_, rfl, htarget, hsource, hgroups, hfinest, htpos, hspos⟩

theorem Ready.split {l : Loc} (h : Ready Γ ts (.cat l ss)) (hgs : Regrouped Γ ts ss gs) : Split Γ ts ss gs := by
  have hadds := h.source.2.1
  obtain ⟨gs0, rfl, rfl, rfl, hgroups, -, hts, hss⟩ := hgs.groups h.adds hadds
  exact flatMap_peel_split gs0 ⟨h.root, h.sized, hts, h.distinct, h.later⟩ ⟨h.parts, hss, hadds.room⟩ hgroups

/-! ## Constants -/

theorem value_ofValue {k : Kind} (hk : 0 < k.width) (l : Loc) (v : Int) :
    (ofValue l v k).value ω st % 2 ^ size k.width = v % 2 ^ size k.width := by
  have hliteral : (ofValue l v k).value ω st = k.normalize v := by
    have heval := eval_ofValue Γ {} l (v := k.normalize v) (Or.inr hk) (normalize_normalize k v)
    have hagrees : st.Agrees {} := fun _ h => nomatch h
    rw [← value_of_eval (ω := ω) hagrees heval]
    simp [ofValue, hk]
  rw [hliteral, ← values_eq, ← unsigned_eq, ← unsigned_eq, unsigned_normalize]

/-- Assignments of literals to all targets, which write the bits of a value when the targets have their widths. -/
structure Dealt (Γ : SymbolTable) (l : Loc) (v : Int) (w : Int64) (ts : List Expr) (as : List (Expr × Expr)) : Prop where
  targets : as.map (·.1) = ts
  width : ∀ t ∈ ts, t.width Γ ≠ 0
  literal : ∀ a ∈ as, ∃ u, a.2 = ofValue l u (a.1.type Γ)
  writes : (∀ t ∈ ts, t.root? ≠ none ∧ t.WellSized Γ) → Adds Γ ts → w.toInt = bitsList Γ ts → ∀ ω (st cur : Store Γ),
    st.writes ω cur (as.flatMap fun a => cut Γ [a.1] (a.2.value ω st)) = st.writes ω cur (cut Γ ts v)

def stmtsOf (l : Loc) (as : List (Expr × Expr)) : List Stmt := as.map fun a => .assign l a.1 a.2

theorem stmtsOf_injective (l : Loc) : Function.Injective (stmtsOf l) :=
  map_injective_iff.mpr fun _ _ h => Prod.ext (assign.inj h).2.1 (assign.inj h).2.2

theorem dealOut_eq_some {v : Int} {w : Int64} {out : List Stmt} (h : dealOut Γ l v w ts = some out) :
    ∃ as, out = stmtsOf l as ∧ Dealt Γ l v w ts as := by
  induction ts generalizing w out with
  | nil =>
    obtain rfl := Option.some.inj h
    exact ⟨[], rfl, rfl, nofun, nofun, fun _ _ _ _ _ _ => rfl⟩
  | cons t ts ih =>
    rw [dealOut] at h
    split at h
    · nomatch h
    · rename_i hzero
      simp only [Option.bind_eq_bind, Option.bind_eq_some_iff, Option.pure_def] at h
      obtain ⟨rest, hrest, hout⟩ := h
      obtain rfl := Option.some.inj hout
      obtain ⟨as, rfl, htargets, hwidths, hliterals, hwrites⟩ := ih hrest
      refine ⟨(t, ofValue l (unsigned (v >>> size (w - t.width Γ)) (t.width Γ)) (t.type Γ)) :: as, rfl,
        by rw [map_cons, htargets], forall_mem_cons.mpr ⟨hzero, hwidths⟩, forall_mem_cons.mpr ⟨⟨_, rfl⟩, hliterals⟩, ?_⟩
      intro hts hadds hw ω st cur
      rw [forall_mem_cons] at hts
      have hwidth := hadds.width t mem_cons_self
      have hpositive : 0 < (t.type Γ).width := Int64.lt_of_le_of_ne hwidth (Ne.symm hzero)
      -- what is left of the width is that of the later parts
      have hleft : (w - t.width Γ).toInt = bitsList Γ ts := by
        have hspan := hadds.span
        have hbits := bitsList_eq_span hadds.width
        have hsize := size_eq hwidth
        rw [bitsList_cons, bits] at hw hbits
        rw [toInt_sub] <;> omega
      have hshift : size (w - t.width Γ) = bitsList Γ ts := by
        rw [size, hleft]
        exact Int.toNat_natCast _
      have hexact := exact_of_sized hts.1.1 hts.1.2 hzero
      rw [flatMap_cons, cut, cut, cut, singleton_append, writes_cons, writes_cons, hwrites hts.2 hadds.tail hleft,
        hexact ω st cur _ (v >>> bitsList Γ ts)]
      rw [bitsList_nil, Int.shiftRight_zero, hshift]
      refine (value_ofValue hpositive l _).trans ?_
      rw [← values_eq, ← unsigned_eq]
      exact (unsigned_unsigned _ _).trans (unsigned_eq _ _)

theorem dealt_of_dealOut {v : Int} {w : Int64} (h : dealOut Γ l v w ts = some (stmtsOf l as)) : Dealt Γ l v w ts as := by
  obtain ⟨as', heq, hdealt⟩ := dealOut_eq_some h
  exact stmtsOf_injective l heq ▸ hdealt

/-- The literals, assigned one after the other, are the constant assigned to all targets. -/
theorem Dealt.foldl_assign {v : Int} {w : Int64} (h : Dealt Γ l v w ts as) (hsized : ∀ t ∈ ts, t.root? ≠ none ∧ t.WellSized Γ)
    (hadds : Adds Γ ts) (hw : w.toInt = bitsList Γ ts) (hdistinct : (ts.map root?).Nodup) (hlater : ts.Pairwise Later) :
    assigns ω st as = st.writeAll ω (cut Γ ts v) := by
  obtain ⟨rfl, -, hliteral, hwrites⟩ := h
  have hclosed : ∀ a ∈ as, a.2.symbols = [] := by
    intro a ha
    obtain ⟨u, hu⟩ := hliteral a ha
    rw [hu, symbols_ofValue]
  have htargets : ∀ a ∈ as, a.1.targets = [a.1] := fun a ha =>
    targets_of_not_cat (not_cat_of_root (hsized a.1 (mem_map_of_mem ha)).1)
  have hpairwise : as.Pairwise Undisturbed := by
    refine (pairwise_map.mp hlater).imp_of_mem fun {a b} ha hb hab p hp x hx => ?_
    rw [htargets a ha, mem_singleton] at hp
    refine ⟨fun q hq => ?_, by simp [hclosed b hb]⟩
    rw [htargets b hb, mem_singleton] at hq
    exact hq ▸ hab x (hp ▸ hx)
  have hfields : (as.flatMap fun a => cut Γ a.1.targets (a.2.value ω st)) =
      as.flatMap fun a => cut Γ [a.1] (a.2.value ω st) :=
    flatMap_congr fun a ha => by rw [htargets a ha]
  rw [assigns, HdlLowering.foldl_assign (fun a ha => by simp [htargets a ha]) hpairwise
    fun _ _ => ⟨fun _ _ _ _ => rfl, fun _ _ => rfl⟩, hfields, hwrites hsized hadds hw,
    writeAll_eq_writes (by rwa [map_root?_cut])]

/-! ## Replies -/

/-- Assignments that the pass puts for an assignment with an answer: the same when it is kept, those of groups, or those of the
bits of a constant. -/
inductive Replaces (Γ : SymbolTable) (l : Loc) : Expr → Expr → Reply → List (Expr × Expr) → Prop
  | same (lhs rhs : Expr) : Replaces Γ l lhs rhs .keep [(lhs, rhs)]
  | groups (lt ls : Loc) {ts ss : List Expr} {gs : List Group} {r : Reply} (h : Regrouped Γ ts ss gs) :
    Replaces Γ l (.cat lt ts) (.cat ls ss) r (groupAssigns gs)
  | constant (lt : Loc) {ts : List Expr} {rhs : Expr} {v : Int} {r : Reply} {as : List (Expr × Expr)} (hrhs : rhs.isCat = false)
    (hv : rhs.eval Γ {} = some v) (hwidth : (cat lt ts).width Γ ≠ 0)
    (h : dealOut Γ l v ((cat lt ts).width Γ) ts = some (stmtsOf l as)) : Replaces Γ l (.cat lt ts) rhs r as

/-- What the pass answers for an assignment. -/
theorem assignReply_cases (Γ : SymbolTable) (l : Loc) (lhs rhs : Expr) : ∃ r as, Answers Γ (assignReply l lhs rhs) r ∧
    (r.forest (.stmt (.assign l lhs rhs))).leaves = (stmtsOf l as).map .stmt ∧ Replaces Γ l lhs rhs r as := by
  unfold assignReply
  split
  · rename_i lt ts ls ss
    obtain ⟨o, hgroups, ho⟩ := regroup_answers Γ l ts ss
    cases o with
    | none => exact ⟨.keep, _, ho _ _ rfl, rfl, .same _ _⟩
    | some gs =>
      refine ⟨_, groupAssigns gs, ho _ _ rfl, ?_, .groups lt ls (hgroups gs rfl)⟩
      rw [stmtsOf, groupAssigns, map_map, map_map]
      exact leaves_several _ gs
  · rename_i lt ts hrhs
    have hcat : rhs.isCat = false := by
      cases rhs with
      | cat ls ss => exact absurd rfl (hrhs ls ss)
      | _ => rfl
    by_cases hdealt : (cat lt ts).width Γ ≠ 0 ∧ ∃ v out, rhs.eval Γ {} = some v ∧
        dealOut Γ l v ((cat lt ts).width Γ) ts = some out
    · obtain ⟨hwidth, v, out, hv, hdeal⟩ := hdealt
      obtain ⟨as, rfl, -⟩ := dealOut_eq_some hdeal
      refine ⟨.put (.several ((stmtsOf l as).map fun x => .node (.stmt x))), as, ?_, ?_, .constant lt hcat hv hwidth hdeal⟩
      · rintro s rfl
        rw [bind_ok (symbols_ok s)]
        simp only [hv, if_neg hwidth, hdeal]
        exact ⟨s, rfl, rfl⟩
      · exact leaves_several .stmt _
    · refine ⟨.keep, _, ?_, rfl, .same _ _⟩
      rintro s rfl
      rw [bind_ok (symbols_ok s)]
      cases hv : rhs.eval s.ctx.symbols {} with
      | none => exact ⟨s, rfl, rfl⟩
      | some v =>
        cases hdeal : (if (cat lt ts).width s.ctx.symbols = 0 then none
            else dealOut s.ctx.symbols l v ((cat lt ts).width s.ctx.symbols) ts) with
        | none => exact ⟨s, by simp only [hdeal]; rfl, rfl⟩
        | some out =>
          split at hdeal
          · nomatch hdeal
          · exact absurd ⟨‹_›, v, out, hv, hdeal⟩ hdealt
  · exact ⟨_, _, answers_pure _, rfl, .same _ _⟩

/-- Every answer does to a store what the assignment does. -/
theorem Replaces.assigns_eq {lhs rhs : Expr} {r : Reply} (h : Replaces Γ l lhs rhs r as)
    (hready : Ready Γ lhs.targets rhs) : assigns ω st as = st.assign ω lhs rhs := by
  cases h with
  | same => rfl
  | groups lt ls hgs =>
    exact (hready.split hgs).foldl_assign hready.distinct hready.source.2.1 (fun x hx => not_mem_of_overlap hgs.apart hx) lt ls
  | @constant lt ts rhs v r as _ hv _ h =>
    -- the constant has its value in every store
    have hadds : Adds Γ ts := hready.adds
    have hagrees : st.Agrees {} := fun _ h => by cases h
    rw [(dealt_of_dealOut h).foldl_assign (fun t ht => ⟨hready.root t ht, hready.sized t ht⟩) hadds (hadds.toInt_width_cat lt)
      hready.distinct hready.later, Store.assign, value_of_eval hagrees hv]
    rfl

theorem connectReply_cases (Γ : SymbolTable) (c : Connect) : ∃ r cs, Answers Γ (connectReply c) r ∧
    (r.forest (.connect c)).leaves = cs.map .connect ∧
      (r = .keep ∧ cs = [c] ∨ ∃ ls ss lt ts gs, c.source = .cat ls ss ∧ c.sinks = [.cat lt ts] ∧ Regrouped Γ ts ss gs ∧
        cs = gs.map fun g => ⟨c.loc, concat g.source, [concat g.target]⟩) := by
  obtain ⟨loc, source, sinks⟩ := c
  unfold connectReply
  dsimp only
  split
  · rename_i ls ss lt ts
    obtain ⟨o, hgroups, ho⟩ := regroup_answers Γ loc ts ss
    cases o with
    | none => exact ⟨.keep, _, ho _ _ rfl, rfl, Or.inl ⟨rfl, rfl⟩⟩
    | some gs =>
      refine ⟨_, _, ho _ _ rfl, ?_, Or.inr ⟨ls, ss, lt, ts, gs, rfl, rfl, hgroups gs rfl, rfl⟩⟩
      rw [map_map]
      exact leaves_several _ gs
  · exact ⟨_, _, answers_pure _, rfl, Or.inl ⟨rfl, rfl⟩⟩

end HdlLowering.Concatenation
