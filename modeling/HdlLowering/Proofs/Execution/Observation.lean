import HdlLowering.Proofs.Execution.Frame

/-!
# What is seen of a run

An observer watches some of the statements that control reaches and does not know their positions. Two pieces of a body that
show the same (`Behaviour.Shows`) cannot be told apart by it, neither by runs that end nor by what is seen up to any point of
one that does not.
-/

namespace HdlLowering

open List Behaviour

variable {Γ : SymbolTable} {o : Outcome} {seen : Event Γ → Bool} {t : List (Event Γ)} {st st' : Store Γ}

/-- A statement that does something, rather than directing control. -/
def Stmt.acts : Stmt → Bool
  | .block .. | .cond .. | .case .. | .loop .. | .break .. | .continue .. => false
  | _ => true

/-- The statements that are watched, in the order control reaches them, each with the store it is reached in. -/
def observed (seen : Event Γ → Bool) (t : List (Event Γ)) : List (Stmt × Store Γ) :=
  (t.filter seen).map fun ev => (ev.stmt, ev.store)

theorem observed_append (seen : Event Γ → Bool) (t t' : List (Event Γ)) :
    observed seen (t ++ t') = observed seen t ++ observed seen t' := by
  simp [observed]

def EndsSeen (seen : Event Γ → Bool) (t : List (Event Γ)) : Prop := ∃ ev, t.getLast? = some ev ∧ seen ev = true

theorem endsSeen_append {t t' : List (Event Γ)} (h : t' ≠ []) : EndsSeen seen (t ++ t') ↔ EndsSeen seen t' := by
  have hlast : (t ++ t').getLast? = t'.getLast? := by
    cases hl : t'.getLast? with
    | none => exact absurd (getLast?_eq_none_iff.mp hl) h
    | some ev => rw [getLast?_append, hl, Option.some_or]
  rw [EndsSeen, EndsSeen, hlast]

theorem EndsSeen.append {t' : List (Event Γ)} (h : EndsSeen seen t') (t : List (Event Γ)) : EndsSeen seen (t ++ t') := by
  refine (endsSeen_append ?_).mpr h
  rintro rfl
  obtain ⟨ev, hev, -⟩ := h
  nomatch hev

namespace Behaviour

/-- Some run of a behaviour is seen in this way. A run that is not followed further is cut at a statement that is watched. -/
def Shows (seen : Event Γ → Bool) (p : Behaviour Γ) (st : Store Γ) (obs : List (Stmt × Store Γ)) (o : Outcome)
    (st' : Store Γ) : Prop :=
  ∃ t, p st t o st' ∧ observed seen t = obs ∧ (o = .cut → EndsSeen seen t)

variable {seen seen' : Event Γ → Bool} {p p' q : Behaviour Γ} {st st' : Store Γ} {obs : List (Stmt × Store Γ)} {o : Outcome}

theorem shows_congr (h : ∀ t o st', p st t o st' ↔ q st t o st') : Shows seen p st obs o st' ↔ Shows seen q st obs o st' := by
  unfold Shows
  exact exists_congr fun t => and_congr_left' (h t o st')

theorem shows_exists {α : Type} {P : Store Γ → α → Prop} {q : α → Behaviour Γ} :
    Shows seen (fun st t o st' => ∃ v, P st v ∧ q v st t o st') st obs o st' ↔
      ∃ v, P st v ∧ Shows seen (q v) st obs o st' := by
  constructor
  · rintro ⟨t, ⟨v, hv, h⟩, hobs⟩
    exact ⟨v, hv, t, h, hobs⟩
  · rintro ⟨v, hv, t, h, hobs⟩
    exact ⟨t, ⟨v, hv, h⟩, hobs⟩

theorem shows_or {P Q : Store Γ → Prop} :
    Shows seen (fun st t o st' => (P st ∧ p st t o st') ∨ (Q st ∧ q st t o st')) st obs o st' ↔
      (P st ∧ Shows seen p st obs o st') ∨ (Q st ∧ Shows seen q st obs o st') := by
  constructor
  · rintro ⟨t, ⟨hP, h⟩ | ⟨hQ, h⟩, hobs⟩
    · exact Or.inl ⟨hP, t, h, hobs⟩
    · exact Or.inr ⟨hQ, t, h, hobs⟩
  · rintro (⟨hP, t, h, hobs⟩ | ⟨hQ, t, h, hobs⟩)
    · exact ⟨t, Or.inl ⟨hP, h⟩, hobs⟩
    · exact ⟨t, Or.inr ⟨hQ, h⟩, hobs⟩

theorem shows_entering {i : Nat} {s : Stmt} (hs : seen ⟨i, s, st⟩ = false) :
    Shows seen (.entering i s p) st obs o st' ↔ Shows seen p st obs o st' := by
  have hobs : ∀ t, observed seen (⟨i, s, st⟩ :: t) = observed seen t := by
    intro t
    simp [observed, hs]
  -- the run is not cut at the statement itself, since that is not watched
  have hlast : ∀ t : List (Event Γ), EndsSeen seen (⟨i, s, st⟩ :: t) → EndsSeen seen t := by
    rintro t ⟨ev, hev, hseen⟩
    cases t with
    | nil =>
      obtain rfl : ⟨i, s, st⟩ = ev := Option.some.inj hev
      rw [hs] at hseen
      nomatch hseen
    | cons e t => exact ⟨ev, by rwa [getLast?_cons_cons] at hev, hseen⟩
  constructor
  · rintro ⟨t, ⟨t', rfl, ⟨rfl, rfl, rfl⟩ | h⟩, rfl, hcut⟩
    · obtain ⟨ev, hev, -⟩ := hlast [] (hcut rfl)
      nomatch hev
    · exact ⟨t', h, (hobs t').symm, fun ho => hlast t' (hcut ho)⟩
  · rintro ⟨t, h, rfl, hcut⟩
    exact ⟨_, enter h, hobs t, fun ho => (hcut ho).append [⟨i, s, st⟩]⟩

def Silent (p : Behaviour Γ) : Prop := ∀ st t o st', p st t o st' → t = [] ∧ o ≠ .cut

theorem silent_ends (ho : o ≠ .cut) : Silent (Γ := Γ) (.ends o) := by
  rintro st t o' st' ⟨rfl, rfl, -⟩
  exact ⟨rfl, ho⟩

theorem silent_changes (R : Store Γ → Store Γ → Prop) : Silent (.changes R) := by
  rintro st t o st' ⟨rfl, rfl, -⟩
  exact ⟨rfl, nofun⟩

theorem shows_entering_silent (hp : Silent p) {i j : Nat} {s : Stmt} (hs : seen ⟨i, s, st⟩ = seen' ⟨j, s, st⟩)
    (h : Shows seen (.entering i s p) st obs o st') : Shows seen' (.entering j s p) st obs o st' := by
  obtain ⟨t, ⟨t', rfl, hrun⟩, hobs, hcut⟩ := h
  obtain rfl : t' = [] := by
    rcases hrun with ⟨rfl, -, -⟩ | hrun
    · rfl
    · exact (hp _ _ _ _ hrun).1
  refine ⟨[⟨j, s, st⟩], ⟨[], rfl, hrun⟩, ?_, ?_⟩
  · rw [← hobs]
    cases h : seen' ⟨j, s, st⟩ <;> simp [observed, hs, h]
  · intro ho
    obtain ⟨ev, hev, hseen⟩ := hcut ho
    obtain rfl := Option.some.inj hev
    exact ⟨_, rfl, hs ▸ hseen⟩

/-- A run that is cut has reached something. -/
def Moves (p : Behaviour Γ) : Prop := ∀ st st', ¬ p st [] .cut st'

theorem Moves.iterated (hp : Moves p) : Moves (.Iterated p) := by
  have key : ∀ {st : Store Γ} {t : List (Event Γ)} {o : Outcome} {st' : Store Γ}, Iterated p st t o st' →
      t = [] → o ≠ .cut := by
    intro st t o st' h
    induction h with
    | leave _ => exact fun _ => nofun
    | cut h =>
      rintro rfl
      exact absurd h (hp _ _)
    | again _ _ _ ih => exact fun ht => ih (append_eq_nil_iff.mp ht).2
  exact fun st st' h => key h rfl rfl

theorem shows_andThen (hq : Moves q) :
    Shows seen (.andThen p q) st obs o st' ↔
      (o ≠ .falls ∧ Shows seen p st obs o st') ∨
        ∃ obs1 obs2 st1, obs = obs1 ++ obs2 ∧ Shows seen p st obs1 .falls st1 ∧ Shows seen q st1 obs2 o st' := by
  constructor
  · rintro ⟨t, ⟨ho, h⟩ | ⟨t1, t2, st1, rfl, h1, h2⟩, rfl, hcut⟩
    · exact Or.inl ⟨ho, t, h, rfl, hcut⟩
    · refine Or.inr ⟨_, _, st1, observed_append seen t1 t2, ⟨t1, h1, rfl, nofun⟩, t2, h2, rfl, ?_⟩
      rintro rfl
      refine (endsSeen_append ?_).mp (hcut rfl)
      rintro rfl
      exact hq _ _ h2
  · rintro (⟨ho, t, h, rfl, hcut⟩ | ⟨obs1, obs2, st1, rfl, ⟨t1, h1, rfl, -⟩, t2, h2, rfl, hcut⟩)
    · exact ⟨t, andThen_stops ho h, rfl, hcut⟩
    · exact ⟨t1 ++ t2, andThen_falls h1 h2, observed_append seen t1 t2, fun ho => (hcut ho).append t1⟩

/-- Rounds of a loop show what other rounds show, when each round does from stores that every round keeps. -/
theorem shows_iterated (Inv : Store Γ → Prop) (hp : Moves p)
    (h : ∀ st obs o st', Inv st → Shows seen p st obs o st' → Shows seen' p' st obs o st' ∧ Inv st') (hst : Inv st)
    (hrun : Shows seen (.Iterated p) st obs o st') : Shows seen' (.Iterated p') st obs o st' := by
  obtain ⟨t, hrun, rfl, hcut⟩ := hrun
  induction hrun with
  | leave hr =>
    obtain ⟨⟨t', hr', hobs, -⟩, -⟩ := h _ _ _ _ hst ⟨_, hr, rfl, nofun⟩
    exact ⟨t', .leave hr', hobs, nofun⟩
  | cut hr =>
    obtain ⟨⟨t', hr', hobs, hcut'⟩, -⟩ := h _ _ _ _ hst ⟨_, hr, rfl, hcut⟩
    exact ⟨t', .cut hr', hobs, hcut'⟩
  | again ho hr hrest ih =>
    rename_i t1 t2 o1 o
    have hround : o1 ≠ .cut := by
      rcases ho with rfl | rfl <;> nofun
    obtain ⟨⟨t1', hr', hobs, -⟩, hinv⟩ := h _ _ _ _ hst ⟨_, hr, rfl, fun hoc => absurd hoc hround⟩
    have hlast : o = .cut → EndsSeen seen t2 := by
      rintro rfl
      refine (endsSeen_append ?_).mp (hcut rfl)
      rintro rfl
      exact hp.iterated _ _ hrest
    obtain ⟨t2', hrest', hobs', hcut'⟩ := ih hinv hlast
    refine ⟨t1' ++ t2', .again ho hr' hrest', ?_, fun hoc => (hcut' hoc).append t1'⟩
    rw [observed_append, observed_append, hobs, hobs']

end Behaviour

/-! ## Statements in a row -/

variable (base : Bindings) (i : Nat)

theorem Stmt.exists_runs_eq (s : Stmt) : ∃ p : Behaviour Γ, s.Runs base i = .entering i s p := by
  cases s <;> exact ⟨_, by rw [Runs]⟩

theorem Stmt.runsList_moves (ss : List Stmt) : Moves (Γ := Γ) (RunsList base i ss) := by
  intro st st' h
  cases ss with
  | nil => nomatch h.2.1
  | cons s ss =>
    obtain ⟨p, hp⟩ := exists_runs_eq (Γ := Γ) base i s
    rw [RunsList, hp] at h
    rcases h with ⟨-, t, ht, -⟩ | ⟨t1, t2, st1, ht, ⟨t, rfl, -⟩, -⟩
    · nomatch ht
    · nomatch ht

theorem Stmt.runsList_singleton (s : Stmt) : RunsList base i [s] st t o st' ↔ s.Runs base i st t o st' := by
  rw [RunsList, RunsList]
  constructor
  · rintro (⟨-, h⟩ | ⟨t1, t2, st1, rfl, h, rfl, rfl, rfl⟩)
    · exact h
    · rwa [append_nil]
  · intro h
    by_cases ho : o = .falls
    · subst ho
      exact Or.inr ⟨t, [], st', (append_nil t).symm, h, rfl, rfl, rfl⟩
    · exact Or.inl ⟨ho, h⟩

theorem Stmt.runsList_append (ss ss' : List Stmt) : RunsList base i (ss ++ ss') st t o st' ↔
      andThen (RunsList base i ss) (RunsList base (i + (substmtsList ss).length) ss') st t o st' := by
  induction ss generalizing i st t with
  | nil =>
    rw [nil_append, RunsList]
    constructor
    · intro h
      exact Or.inr ⟨[], t, st, rfl, ⟨rfl, rfl, rfl⟩, h⟩
    · rintro (⟨ho, -, ho', -⟩ | ⟨t1, t2, st1, rfl, ⟨rfl, -, rfl⟩, h⟩)
      · exact absurd ho' ho
      · exact h
  | cons s ss ih =>
    rw [cons_append, RunsList, RunsList, substmtsList_cons, length_append, ← Nat.add_assoc]
    constructor
    · rintro (⟨ho, h⟩ | ⟨t1, t2, st1, rfl, h1, h2⟩)
      · exact Or.inl ⟨ho, Or.inl ⟨ho, h⟩⟩
      · rcases (ih _).mp h2 with ⟨ho, h2⟩ | ⟨t2, t3, st2, rfl, h2, h3⟩
        · exact Or.inl ⟨ho, andThen_falls h1 h2⟩
        · exact Or.inr ⟨t1 ++ t2, t3, st2, by rw [append_assoc], andThen_falls h1 h2, h3⟩
    · rintro (⟨ho, ⟨-, h⟩ | ⟨t1, t2, st1, rfl, h1, h2⟩⟩ | ⟨t1, t3, st2, rfl, ⟨ho, -⟩ | ⟨t1, t2, st1, rfl, h1, h2⟩, h3⟩)
      · exact Or.inl ⟨ho, h⟩
      · exact andThen_falls h1 ((ih _).mpr (Or.inl ⟨ho, h2⟩))
      · exact absurd rfl ho
      · rw [append_assoc]
        exact andThen_falls h1 ((ih _).mpr (andThen_falls h2 h3))

end HdlLowering
