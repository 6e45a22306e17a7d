import HdlLowering.Lowering.Sequence

/-!
# Runs of several passes

`Step.lower?` is what is left of a design after several passes, one after the other, when each of them ends without an abort and
no error was reported.
-/

namespace HdlLowering.Step

/-- The context and the design after some passes, each started afresh, when none aborts and no error is reported. -/
def lower? : List Step → Context → Root → Option (Context × Root)
  | [], c, r => some (c, r)
  | step :: steps, c, r =>
    let out := step.run {} c r
    match out.result with
    | .ok root? => if out.ctx.reporter.proceed then lower? steps out.ctx (root?.getD r) else none
    | .error _ => none

variable {c c' : Context} {r r' : Root} {step : Step} {steps : List Step}

theorem lower?_cons_eq_some : lower? (step :: steps) c r = some (c', r') ↔ ∃ root?, (step.run {} c r).result = .ok root? ∧
    (step.run {} c r).ctx.reporter.proceed = true ∧ lower? steps (step.run {} c r).ctx (root?.getD r) = some (c', r') := by
  rw [lower?]
  cases (step.run {} c r).result with
  | error a => simp
  | ok root? => simp

/-- What every pass keeps is kept by all of them. -/
theorem lower?_induction {motive : Context → Root → Prop} (hrun : lower? steps c r = some (c', r')) (hfirst : motive c r)
    (hstep : ∀ step ∈ steps, ∀ c r root?, (step.run {} c r).result = .ok root? → motive c r →
      motive (step.run {} c r).ctx (root?.getD r)) : motive c' r' := by
  induction steps generalizing c r with
  | nil =>
    obtain ⟨rfl, rfl⟩ := Prod.mk.inj (Option.some.inj hrun)
    exact hfirst
  | cons step steps ih =>
    rw [List.forall_mem_cons] at hstep
    obtain ⟨root?, hresult, -, hrest⟩ := lower?_cons_eq_some.mp hrun
    exact ih hrest (hstep.1 c r root? hresult hfirst) hstep.2

theorem proceed_of_lower? (hc : c.reporter.proceed = true) (hrun : lower? steps c r = some (c', r')) :
    c'.reporter.proceed = true := by
  induction steps generalizing c r with
  | nil =>
    obtain ⟨rfl, rfl⟩ := Prod.mk.inj (Option.some.inj hrun)
    exact hc
  | cons step steps ih =>
    obtain ⟨root?, -, hproceed, hrest⟩ := lower?_cons_eq_some.mp hrun
    exact ih hproceed hrest

theorem of_outcome_ok {σ : Type} {p : Pass σ} {own : σ} {keep : σ → PassStates} {root? : Option Root}
    (h : (outcome p own keep c r).result = .ok root?) :
    ∃ s, p.run r ⟨c, own⟩ = .ok root? s ∧ (outcome p own keep c r).ctx = s.ctx := by
  unfold outcome at h ⊢
  cases hrun : (p.run r).run ⟨c, own⟩ with
  | error a s =>
    rw [hrun] at h
    nomatch h
  | ok out s =>
    rw [hrun] at h
    obtain rfl : out = root? := by simpa using h
    exact ⟨s, hrun, rfl⟩

end HdlLowering.Step
