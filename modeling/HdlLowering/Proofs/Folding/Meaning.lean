import HdlLowering.Proofs.Analysis.Soundness
import HdlLowering.Proofs.Execution.Observation
import HdlLowering.Proofs.Folding.Folded
import HdlLowering.Proofs.Value.Simplification

/-!
# Folding keeps what a body does

The observer watches every statement that does something, except a stall that is recorded never to happen, which folding
removes.
-/

namespace HdlLowering

open Behaviour Stmt List

variable {Γ : SymbolTable} {base : Bindings} {all : List Stmt} {R : Records}

/-- What folding a body by its records rests on: the records can be relied on, and there are literals for the known parts of
the conditions that are reached. -/
structure Foldable (Γ : SymbolTable) (base : Bindings) (all : List Stmt) (R : Records) : Prop
    extends Analyzable Γ base all where
  literal : ∀ (i : Nat) (l : Loc) (c : Expr) (yes no : List Stmt) (b : Bindings),
    (substmtsList all)[i]? = some (.cond l c yes no) → R[i]? = some (some b) →
    ∀ x ∈ c.subterms, x.eval Γ b ≠ none → (x.type Γ).Literal

def idleStall (Γ : SymbolTable) (R : Records) (i : Nat) : Stmt → Bool
  | .stall _ c => c.eval Γ (recordAt R i) == some 0
  | _ => false

/-- The observer of a folded body watches every statement that does something. -/
def watched (ev : Event Γ) : Bool := ev.stmt.acts

/-- The observer of the body itself does not look at stalls that never happen. -/
def watchedIn (R : Records) (ev : Event Γ) : Bool := ev.stmt.acts && !idleStall Γ R ev.position ev.stmt

/-! ## Places in a list -/

section

variable {α : Type} {xs ys zs : List α} {x : α} {i : Nat}

section

variable (h : xs ++ ys <+: zs.drop i)
include h

theorem prefix_drop_left : xs <+: zs.drop i := (prefix_append xs ys).trans h

theorem prefix_drop_right : ys <+: zs.drop (i + xs.length) := by
  obtain ⟨rest, hrest⟩ := h
  refine ⟨rest, ?_⟩
  rw [← drop_drop, ← hrest, append_assoc, drop_left]

theorem prefix_drop_rest {n : Nat} (hn : xs.length = n) : ys <+: zs.drop (i + n) :=
  hn ▸ prefix_drop_right h

end

theorem prefix_drop_tail (h : x :: xs <+: zs.drop i) : xs <+: zs.drop (i + 1) :=
  prefix_drop_right ((singleton_append (x := x)).symm ▸ h)

theorem getElem?_of_prefix_drop (h : x :: xs <+: zs.drop i) : zs[i]? = some x := by
  obtain ⟨rest, hrest⟩ := h
  have hhead : (zs.drop i)[0]? = some x := by rw [← hrest]; rfl
  rwa [getElem?_drop] at hhead

theorem mem_of_prefix_drop (h : xs <+: zs.drop i) (hx : x ∈ xs) : x ∈ zs :=
  mem_of_mem_drop (h.subset hx)

end

theorem recordAt_of_prefix_drop {b : Bindings} {rs : Records} {i : Nat} (h : some b :: rs <+: R.drop i) : recordAt R i = b := by
  rw [recordAt, getElem?_of_prefix_drop h]
  rfl

/-! ## One statement -/

/-- From a store, a behaviour of a folded body shows what a behaviour of the body shows. -/
def ShowsAs (R : Records) (st : Store Γ) (p p' : Behaviour Γ) : Prop :=
  ∀ obs o st', Shows (watchedIn R) p st obs o st' ↔ Shows watched p' st obs o st'

section

variable {st st' : Store Γ} {obs : List (Stmt × Store Γ)} {o : Outcome} {i j : Nat}

theorem shows_control {s s' : Stmt} {p p' : Behaviour Γ} (hs : s.acts = false) (hs' : s'.acts = false)
    (hj : s'.Runs base j = .entering j s' p') (h : ShowsAs R st p p') :
    ShowsAs R st (.entering i s p) (RunsList base j [s']) := by
  intro obs o st'
  rw [shows_congr fun t o st' => runsList_singleton base j s', hj,
    shows_entering (by simp [watchedIn, hs]), shows_entering (by simp [watched, hs'])]
  exact h obs o st'

theorem shows_leaf {s : Stmt} {p : Behaviour Γ} (hs : idleStall Γ R i s = false) (hj : s.Runs base j = .entering j s p)
    (hp : Silent p) : ShowsAs R st (.entering i s p) (RunsList base j [s]) := by
  intro obs o st'
  have hseen : watchedIn R ⟨i, s, st⟩ = watched ⟨j, s, st⟩ := by simp [watchedIn, watched, hs]
  rw [shows_congr fun t o st' => runsList_singleton base j s, hj]
  exact ⟨shows_entering_silent hp hseen, shows_entering_silent hp hseen.symm⟩

theorem shows_ends {seen seen' : Event Γ → Bool} {o' : Outcome} (ho : o' ≠ .cut) :
    Shows seen (.ends o') st obs o st' ↔ Shows seen' (.ends o') st obs o st' := by
  have key : ∀ seen seen' : Event Γ → Bool, Shows seen (.ends o') st obs o st' → Shows seen' (.ends o') st obs o st' := by
    rintro seen seen' ⟨t, ⟨rfl, rfl, rfl⟩, rfl, -⟩
    exact ⟨[], ⟨rfl, rfl, rfl⟩, rfl, fun hoc => absurd hoc ho⟩
  exact ⟨key seen seen', key seen' seen⟩

theorem shows_branches {seen : Event Γ → Bool} {c : Expr} {p q : Behaviour Γ} :
    Shows seen (fun st t o st' => ∃ v, c.MayBe st v ∧ ((v ≠ 0 ∧ p st t o st') ∨ (v = 0 ∧ q st t o st'))) st obs o st' ↔
      ∃ v, c.MayBe st v ∧ ((v ≠ 0 ∧ Shows seen p st obs o st') ∨ (v = 0 ∧ Shows seen q st obs o st')) := by
  rw [shows_exists]
  exact exists_congr fun v => and_congr_right fun _ => shows_or

end

theorem Arm.body_succ (c : Clause) (cs : List Clause) (d : Option (List Stmt)) (arm : Arm) :
    arm.succ.body (c :: cs) d = arm.body cs d := by
  cases arm <;> rfl

/-! ## Every statement -/

mutual
theorem Stmt.shows_folded (H : Foldable Γ base all R) (s : Stmt) (i j : Nat) (b : Bindings)
    (hs : s.substmts <+: (Stmt.substmtsList all).drop i) (hr : (s.analyze Γ base b).1 <+: R.drop i) ⦃st : Store Γ⦄
    (hbase : st.Agrees base) (hb : st.Agrees b) :
    ShowsAs R st (s.Runs base i) (Stmt.RunsList base j (s.folded Γ R i)) := by
  have hmem : ∀ x ∈ s.substmts, x ∈ Stmt.substmtsList all := fun x hx => mem_of_prefix_drop hs hx
  cases s <;> rw [Stmt.Runs] <;> rw [Stmt.analyze] at hr
  case block body =>
    rw [Stmt.substmts_block] at hs
    rw [Stmt.folded]
    exact shows_control rfl rfl (by rw [Stmt.Runs])
      (Stmt.shows_foldedList H body (i + 1) (j + 1) b (prefix_drop_tail hs) (prefix_drop_tail hr) hbase hb)
  case cond l c yes no =>
    rw [Stmt.substmts_cond] at hs
    have hcond := getElem?_of_prefix_drop hs
    have hsub := prefix_drop_tail hs
    have hyes := fun j b' => Stmt.shows_foldedList H yes (i + 1) j b' (prefix_drop_left hsub)
    have hno := fun j b' => Stmt.shows_foldedList H no (i + 1 + (Stmt.substmtsList yes).length) j b' (prefix_drop_right hsub)
    rw [Stmt.folded, replacement]
    intro obs o st'
    cases hc : c.eval Γ b with
    | some v =>
      rw [hc] at hr
      rw [shows_entering rfl, shows_branches, hb.branches hc]
      by_cases hv : v ≠ 0
      · simp only [hv, ↓reduceIte, ne_eq, not_false_eq_true] at hr
        simp only [recordAt_of_prefix_drop hr, hc, hv, ↓reduceIte, ne_eq, not_false_eq_true]
        exact hyes j b (prefix_drop_left (prefix_drop_tail hr)) hbase hb obs o st'
      · simp only [hv, ↓reduceIte] at hr
        have hrest := prefix_drop_rest (prefix_drop_tail hr) (length_deadRecords ..)
        simp only [recordAt_of_prefix_drop hr, hc, hv, ↓reduceIte]
        exact hno j b hrest hbase hb obs o st'
    | none =>
      rw [hc] at hr
      have hlit := H.literal i l c yes no b hcond (getElem?_of_prefix_drop hr)
      rw [recordAt_of_prefix_drop hr, hc]
      refine shows_control rfl rfl (by rw [Stmt.Runs]) (fun obs o st' => ?_) obs o st'
      rw [shows_branches, shows_branches]
      refine exists_congr fun v => ?_
      have hval : (c.simplify Γ b).MayBe st v ↔ c.MayBe st v := by
        rw [Expr.MayBe, Expr.MayBe, Expr.valueIn_simplify hb hlit]
      rw [hval]
      refine and_congr_right fun hw => or_congr (and_congr_right fun h0 => ?_) (and_congr_right fun h0 => ?_)
      · have hc : c.MayTurnOut st true := hw.mayTurnOut (by simpa using h0)
        exact hyes _ _ (prefix_drop_left (prefix_drop_tail hr)) hbase (hb.refine hc) obs o st'
      · have hc : c.MayTurnOut st false := hw.mayTurnOut (by simpa using h0)
        have hrest := prefix_drop_rest (prefix_drop_tail hr) (Stmt.length_analyzeList ..)
        exact hno _ _ hrest hbase (hb.refine hc) obs o st'
  case case x cs d =>
    rw [substmts_case] at hs
    have hsub := prefix_drop_tail hs
    simp only [Stmt.folded, replacement, chooseArm_foldedList]
    split at hr
    · rename_i arm harm
      have hrec := prefix_drop_tail hr
      intro obs o st'
      rw [recordAt_of_prefix_drop hr, harm, shows_entering rfl, shows_exists]
      obtain ⟨v, hv, harm⟩ := Option.bind_eq_some_iff.mp harm
      let k := i + 1 + (Clause.substmtsList cs).length
      have hdefault : arm = .fallback → ShowsAs R st (Stmt.RunsDefault base k d)
          (Stmt.RunsList base j ((Stmt.foldedDefault Γ R k d).getD [])) := by
        rintro rfl
        exact Stmt.shows_foldedDefault H d _ j b (prefix_drop_right hsub) (prefix_drop_rest hrec (Clause.length_analyzeChosen ..))
          hbase hb
      have hchosen := Clause.shows_foldedChosen H cs (i + 1) j b arm (prefix_drop_left hsub) (prefix_drop_left hrec) hbase hb
        harm hdefault obs o st'
      constructor
      · rintro ⟨w, hw, h⟩
        obtain rfl := hb.eq_of_mayBe hv hw
        exact hchosen.mp h
      · intro h
        exact ⟨v, hb.mayBe hv, hchosen.mpr h⟩
    · rename_i harm
      have hrec := prefix_drop_tail hr
      have hrest := prefix_drop_rest hrec (Clause.length_analyzeList ..)
      rw [recordAt_of_prefix_drop hr, harm]
      refine shows_control rfl rfl (by rw [Stmt.Runs]) fun obs o st' => ?_
      rw [shows_exists, shows_exists]
      refine exists_congr fun v => and_congr_right fun hw => ?_
      refine Clause.shows_foldedList H cs (i + 1) _ b x (prefix_drop_left hsub) (prefix_drop_left hrec)
        hbase hb hw (fun obs o st' => ?_) obs o st'
      rw [Stmt.shows_foldedDefault H d _ (j + 1 + (Clause.substmtsList (Clause.foldedList Γ R (i + 1) cs)).length) b
        (prefix_drop_right hsub) hrest hbase hb obs o st']
      cases d <;> rfl
  case loop body =>
    rw [Stmt.substmts_loop] at hs
    rw [Stmt.folded]
    refine shows_control rfl rfl (by rw [Stmt.Runs]) fun obs o st' => ?_
    have hbody := Stmt.shows_foldedList H body (i + 1) (j + 1) (loopEntry Γ base b body) (prefix_drop_tail hs)
      (prefix_drop_tail hr)
    -- a round of the loop keeps what is known in it, and so does a folded round, which shows the same
    have hkept : ∀ (st : Store Γ) obs o st', st.Agrees base ∧ st.Agrees (loopEntry Γ base b body) →
        Shows (watchedIn R) (Stmt.RunsList base (i + 1) body) st obs o st' →
        st'.Agrees base ∧ st'.Agrees (loopEntry Γ base b body) := by
      rintro st obs o st' ⟨hbase, hin⟩ ⟨t, hrun, -⟩
      have hrec := runsList_asRecorded H.toAnalyzable body (i + 1) _ (fun x hx => hmem x (by simp [hx])) hbase hin hrun
      exact ⟨hrec.always, H.loopEntry_kept hmem hrun hrec.always hin⟩
    constructor
    · refine shows_iterated (fun st => st.Agrees base ∧ st.Agrees (loopEntry Γ base b body)) (runsList_moves base _ _)
        (fun st obs o st' hinv h => ?_) ⟨hbase, hb.loopEntry hbase body⟩
      exact ⟨(hbody hinv.1 hinv.2 obs o st').mp h, hkept st obs o st' hinv h⟩
    · refine shows_iterated (fun st => st.Agrees base ∧ st.Agrees (loopEntry Γ base b body)) (runsList_moves base _ _)
        (fun st obs o st' hinv h => ?_) ⟨hbase, hb.loopEntry hbase body⟩
      have h := (hbody hinv.1 hinv.2 obs o st').mpr h
      exact ⟨h, hkept st obs o st' hinv h⟩
  case goto | fence | assign | read | decl => exact shows_leaf rfl rfl (silent_changes _)
  case «break» | «continue» | expr | write => exact shows_leaf rfl rfl (silent_ends nofun)
  case stall l c =>
    simp only [Stmt.folded, replacement]
    by_cases hidle : c.eval Γ (recordAt R i) = some 0
    · have hhidden : watchedIn R ⟨i, .stall l c, st⟩ = false := by simp [watchedIn, idleStall, hidle]
      intro obs o st'
      rw [if_pos hidle, shows_entering hhidden]
      exact shows_ends nofun
    · rw [if_neg hidle]
      have hbusy : idleStall Γ R i (.stall l c) = false := by simp [idleStall, hidle]
      exact shows_leaf hbusy rfl (silent_ends nofun)

/-- A folded body shows what the body shows. -/
theorem Stmt.shows_foldedList (H : Foldable Γ base all R) : ∀ (ss : List Stmt) (i j : Nat) (b : Bindings),
    Stmt.substmtsList ss <+: (Stmt.substmtsList all).drop i → (Stmt.analyzeList Γ base ss (some b)).1 <+: R.drop i →
    ∀ ⦃st : Store Γ⦄, st.Agrees base → st.Agrees b →
      ShowsAs R st (Stmt.RunsList base i ss) (Stmt.RunsList base j (Stmt.foldedList Γ R i ss))
  | [], _, _, _, _, _, _, _, _ => fun _ _ _ => shows_ends nofun
  | s :: ss, i, j, b, hs, hr, st, hbase, hb => by
    rw [Stmt.substmtsList_cons] at hs
    rw [Stmt.analyzeList, Option.getD_some] at hr
    have hfirst := Stmt.shows_folded H s i j b (prefix_drop_left hs) (prefix_drop_left hr) hbase hb
    intro obs o st'
    rw [Stmt.foldedList, shows_congr fun t o st' => runsList_append base j _ _, Stmt.RunsList,
      shows_andThen (runsList_moves base _ _), shows_andThen (runsList_moves base _ _)]
    refine or_congr (and_congr_right fun _ => hfirst obs o st') (exists_congr fun obs1 => exists_congr fun obs2 =>
      exists_congr fun st1 => and_congr_right fun _ => ?_)
    rw [← hfirst obs1 .falls st1]
    refine and_congr_right fun h1 => ?_
    -- the first statement falls through, so something is known after it
    obtain ⟨t1, hrun, -⟩ := h1
    have hrec := runs_asRecorded H.toAnalyzable s i b (fun x hx => mem_of_prefix_drop (prefix_drop_left hs) hx)
      hbase hb hrun
    obtain ⟨b', hb', hst1⟩ := hrec.falls rfl
    have hrest := prefix_drop_right hr
    rw [hb', length_analyze] at hrest
    exact Stmt.shows_foldedList H ss _ _ b' (prefix_drop_right hs) hrest hrec.always hst1 obs2 o st'

theorem Stmt.shows_foldedDefault (H : Foldable Γ base all R) : ∀ (d : Option (List Stmt)) (i j : Nat) (b : Bindings),
    substmtsDefault d <+: (substmtsList all).drop i → (analyzeDefault Γ base (some b) d).1 <+: R.drop i →
    ∀ ⦃st : Store Γ⦄, st.Agrees base → st.Agrees b →
      ShowsAs R st (Stmt.RunsDefault base i d) (Stmt.RunsList base j ((foldedDefault Γ R i d).getD []))
  | none, _, _, _, _, _, _, _, _ => fun _ _ _ => shows_ends nofun
  | some body, i, j, b, hs, hr, _, hbase, hb => Stmt.shows_foldedList H body i j b hs hr hbase hb

theorem Clause.shows_foldedList (H : Foldable Γ base all R) : ∀ (cs : List Clause) (i j : Nat) (b : Bindings) (x : Expr),
    Clause.substmtsList cs <+: (substmtsList all).drop i → (Clause.analyzeList Γ base x b cs).1 <+: R.drop i →
    ∀ ⦃st : Store Γ⦄ ⦃v : Int⦄ ⦃p p' : Behaviour Γ⦄, st.Agrees base → st.Agrees b → x.MayBe st v → ShowsAs R st p p' →
      ShowsAs R st (Clause.RunsList base v i cs p) (Clause.RunsList base v j (Clause.foldedList Γ R i cs) p')
  | [], i, j, b, x, hs, hr, st, v, p, p', hbase, hb, hx, hp => hp
  | { loc, conds, body } :: cs, i, j, b, x, hs, hr, st, v, p, p', hbase, hb, hx, hp => by
    rw [Clause.substmtsList_cons] at hs
    rw [Clause.analyzeList] at hr
    have hrest := prefix_drop_rest hr (length_analyzeList ..)
    intro obs o st'
    rw [Clause.foldedList, Clause.RunsList, Clause.RunsList, shows_or, shows_or]
    refine or_congr (and_congr_right fun hit => ?_) (and_congr_right fun _ => ?_)
    · exact Stmt.shows_foldedList H body i j _ (prefix_drop_left hs) (prefix_drop_left hr)
        hbase (hb.clauseEntry hx hit) obs o st'
    · exact Clause.shows_foldedList H cs _ _ b x (prefix_drop_right hs) hrest hbase hb hx hp obs o st'

theorem Clause.shows_foldedChosen (H : Foldable Γ base all R) : ∀ (cs : List Clause) (i j : Nat) (b : Bindings) (arm : Arm),
    Clause.substmtsList cs <+: (substmtsList all).drop i → (Clause.analyzeChosen Γ base b arm cs).1 <+: R.drop i →
    ∀ ⦃st : Store Γ⦄ ⦃v : Int⦄ ⦃p : Behaviour Γ⦄ ⦃d' : Option (List Stmt)⦄, st.Agrees base → st.Agrees b →
      chooseArm Γ b v cs = some arm → (arm = .fallback → ShowsAs R st p (Stmt.RunsList base j (d'.getD []))) →
      ShowsAs R st (Clause.RunsList base v i cs p) (Stmt.RunsList base j (arm.body (Clause.foldedList Γ R i cs) d'))
  | [], i, j, b, arm, hs, hr, st, v, p, d', hbase, hb, harm, hp => by
    obtain rfl : Arm.fallback = arm := by simpa [chooseArm] using harm
    exact hp rfl
  | { loc, conds, body } :: cs, i, j, b, arm, hs, hr, st, v, p, d', hbase, hb, harm, hp => by
    intro obs o st'
    rw [Clause.substmtsList_cons] at hs
    rw [Clause.RunsList, shows_or]
    rw [chooseArm] at harm
    split at harm
    · nomatch harm
    · rename_i hm
      obtain rfl : Arm.clause 0 = arm := by simpa using harm
      obtain ⟨hit, hmiss⟩ := (hb.condsMatch v conds).1 hm
      rw [Clause.analyzeChosen] at hr
      have hbody := Stmt.shows_foldedList H body i j b (prefix_drop_left hs) (prefix_drop_left hr) hbase hb obs o st'
      rw [Clause.foldedList]
      constructor
      · rintro (⟨-, h⟩ | ⟨h, -⟩)
        · exact hbody.mp h
        · exact absurd h hmiss
      · exact fun h => Or.inl ⟨hit, hbody.mpr h⟩
    · rename_i hm
      obtain ⟨arm', harm', rfl⟩ := Option.map_eq_some_iff.mp harm
      obtain ⟨hmiss, hit⟩ := (hb.condsMatch v conds).2 hm
      rw [Clause.analyzeChosen_succ] at hr
      have hrest := prefix_drop_rest hr (length_deadRecords ..)
      have hcs := Clause.shows_foldedChosen H cs _ j b arm' (prefix_drop_right hs) hrest hbase hb harm'
        (fun hf => hp (by rw [hf]; rfl)) obs o st'
      rw [Clause.foldedList, Arm.body_succ]
      constructor
      · rintro (⟨h, -⟩ | ⟨-, h⟩)
        · exact absurd h hit
        · exact hcs.mp h
      · exact fun h => Or.inr ⟨hmiss, hcs.mpr h⟩
end

end HdlLowering
