import HdlLowering.Traversal.Pass
import Mathlib.Data.List.Forall2

/-!
# Steps that succeed

Rules for runs of steps: one after another, inside a pass, and for each element of a list.
-/

namespace HdlLowering

open List

section

variable {ε σ α β : Type} {s s' : σ} {f : α → EStateM ε σ β} {x : EStateM ε σ α} {P : σ → Prop} {a : α}

/-- Runs the first of two steps. -/
theorem bind_ok (h : x s = .ok a s') : (x >>= f) s = f a s' := by
  change EStateM.bind x f s = f a s'
  rw [EStateM.bind, h]

/-- Stops where the first of two steps aborts. -/
theorem bind_error {e : ε} (h : x s = .error e s') : (x >>= f) s = .error e s' := by
  change EStateM.bind x f s = .error e s'
  rw [EStateM.bind, h]

/-- Takes a run of two steps apart. -/
theorem of_bind_ok {b : β} (h : (x >>= f) s = .ok b s') : ∃ a s1, x s = .ok a s1 ∧ f a s1 = .ok b s' := by
  change EStateM.bind x f s = _ at h
  unfold EStateM.bind at h
  split at h
  · rename_i a s1 hx
    exact ⟨a, s1, hx, h⟩
  · nomatch h

theorem of_ends {x : EStateM.Result ε σ α} {P : α → σ → Prop} (h : ∃ a s, x = .ok a s ∧ P a s) (hx : x = .ok a s') :
    P a s' := by
  obtain ⟨_, _, hx', hP⟩ := h
  cases hx'.symm.trans hx
  exact hP

theorem of_done {x : EStateM.Result ε σ α} (h : ∃ s, x = .ok a s ∧ P s) (hx : x = .ok a s') : P s' := by
  obtain ⟨_, hx', hP⟩ := h
  cases hx'.symm.trans hx
  exact hP

theorem map_ok (f : α → β) (h : x s = .ok a s') : (f <$> x) s = .ok (f a) s' := by
  change EStateM.map f x s = .ok (f a) s'
  rw [EStateM.map, h]

/-- Runs a step that keeps an invariant for each element of a list. -/
theorem forM_ok {f : α → EStateM ε σ Unit} : ∀ {xs : List α},
    (∀ x ∈ xs, ∀ s, P s → ∃ s', f x s = .ok () s' ∧ P s') → ∀ s, P s → ∃ s', xs.forM f s = .ok () s' ∧ P s'
  | [], _, s, hs => ⟨s, rfl, hs⟩
  | x :: xs, h, s, hs => by
    obtain ⟨s1, hx, hs1⟩ := h x mem_cons_self s hs
    obtain ⟨s2, hxs, hs2⟩ := forM_ok (fun y hy => h y (mem_cons_of_mem _ hy)) s1 hs1
    exact ⟨s2, (bind_ok hx).trans hxs, hs2⟩

theorem mapM_ok {Q : α → β → Prop} : ∀ {xs : List α},
    (∀ x ∈ xs, ∀ s, P s → ∃ y s', f x s = .ok y s' ∧ P s' ∧ Q x y) →
      ∀ s, P s → ∃ ys s', xs.mapM f s = .ok ys s' ∧ P s' ∧ Forall₂ Q xs ys
  | [], _, s, hs => ⟨[], s, rfl, hs, .nil⟩
  | x :: xs, h, s, hs => by
    obtain ⟨y, s1, hx, hs1, hy⟩ := h x mem_cons_self s hs
    obtain ⟨ys, s2, hxs, hs2, hys⟩ := mapM_ok (fun z hz => h z (mem_cons_of_mem _ hz)) s1 hs1
    refine ⟨y :: ys, s2, ?_, hs2, .cons hy hys⟩
    rw [mapM_cons, bind_ok hx, bind_ok hxs]
    rfl

theorem of_forM_ok {f : α → EStateM ε σ Unit} : ∀ {xs : List α} {s s' : σ},
    (∀ x ∈ xs, ∀ s s', P s → f x s = .ok () s' → P s') → P s → xs.forM f s = .ok () s' → P s'
  | [], s, s', _, hs, h => by
    cases h
    exact hs
  | x :: xs, s, s', hstep, hs, h => by
    obtain ⟨⟨⟩, s1, hx, hxs⟩ := of_bind_ok h
    have hs1 := hstep x mem_cons_self s s1 hs hx
    exact of_forM_ok (fun y hy => hstep y (mem_cons_of_mem _ hy)) hs1 hxs

end

/-- Runs a step of the compilation inside a pass. -/
theorem lift_ok {σ α : Type} {x : ContextM α} {s : Session σ} {a : α} {c : Context} (h : x s.ctx = .ok a c) :
    (liftM x : PassM σ α) s = .ok a { s with ctx := c } := by
  simp only [liftM, monadLift, MonadLift.monadLift, h]

theorem of_lift_ok {σ α : Type} {x : ContextM α} {s s' : Session σ} {a : α} (h : (liftM x : PassM σ α) s = .ok a s') :
    ∃ c, x s.ctx = .ok a c ∧ s' = { s with ctx := c } := by
  cases hx : x s.ctx with
  | ok b c =>
    rw [lift_ok hx] at h
    cases h
    exact ⟨c, rfl, rfl⟩
  | error b c =>
    simp only [liftM, monadLift, MonadLift.monadLift, hx] at h
    nomatch h

theorem PassM.own_ok {σ : Type} (s : Session σ) : own s = .ok s.own s := rfl

theorem PassM.symbols_ok {σ : Type} (s : Session σ) : symbols s = .ok s.ctx.symbols s := rfl

theorem PassM.modifyOwn_ok {σ : Type} (f : σ → σ) (s : Session σ) :
    modifyOwn f s = .ok () { s with own := f s.own } := rfl

end HdlLowering
