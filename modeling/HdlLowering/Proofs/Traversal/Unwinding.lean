import HdlLowering.Proofs.Sequence.Lasting
import HdlLowering.Proofs.Traversal.Recording

/-!
# Scope stacks after an abort

A pass that pushes a scope when it enters a node pops it when it transforms the node and when the node is unwound. The passes
that take out nested entities, replace stacks and fold statements push and pop in some nodes only; the depths of their stacks
are balanced all the same, so they can be used again after any runs (`Pass.Reused`).
-/

namespace HdlLowering

open List Scopes Context Bares Logs

variable {σ α β ν : Type} {close : Node → ν → ν} {p : Pass σ} {view : σ → ν}

def sessionLeft : EStateM.Result Abort (Session σ) α → Session σ
  | .ok _ s => s
  | .error _ s => s

/-! ## Balanced passes -/

/-- A pass opens what `view` sees when it enters a node, closes it when it transforms the node and when the node is unwound,
and touches it nowhere else. -/
def Pass.Balanced (p : Pass σ) (view : σ → ν) (close : Node → ν → ν) : Prop := p.Steady (fun _ => True) view close

/-- The scope stack is as it was wherever a run ends or aborts. -/
theorem Pass.Balanced.run (h : p.Balanced view close) (r : Root)
    (s : Session σ) : view (sessionLeft (p.run r s)).own = view s.own := by
  have hs := Pass.Steady.run h r (view s.own) s ⟨trivial, rfl⟩
  cases hrun : p.run r s <;> rw [hrun] at hs <;> exact hs.2

/-- A pass that pushes one scope when it enters a node, pops one when the node is transformed or unwound, and leaves the stack
alone otherwise; an abort comes before the push and before the pop. -/
structure Pass.KeepsScopes (p : Pass σ) (scopes : σ → Scopes α) : Prop where
  skip : ∀ n s, scopes (sessionLeft (p.skip n s)).own = scopes s.own
  enter : ∀ n s, match p.enter n s with
    | .ok _ s' => ∃ scope, scopes s'.own = (scopes s.own).push scope
    | .error _ s' => scopes s'.own = scopes s.own
  transform : ∀ n s, match p.transform n s with
    | .ok _ s' => scopes s'.own = (scopes s.own).pop
    | .error _ s' => scopes s'.own = scopes s.own
  unwind : ∃ unwind, p.unwind = some unwind ∧ ∀ n st, scopes (unwind n st) = (scopes st).pop
  defaultCheck : ∀ r r' s, scopes (sessionLeft (p.defaultCheck r r' s)).own = scopes s.own
  finalCheck : ∀ r s, scopes (sessionLeft (p.finalCheck r s)).own = scopes s.own

theorem Pass.KeepsScopes.balanced {scopes : σ → Scopes α} (h : p.KeepsScopes scopes) :
    p.Balanced scopes fun _ => pop := by
  have hleft {β : Type} {x : PassM σ β} (hx : ∀ s, scopes (sessionLeft (x s)).own = scopes s.own) (v : Scopes α) :
      Upholds (Sees (fun _ => True) scopes v) x := by
    intro s hs
    have hs' := (hx s).trans hs.2
    cases hr : x s <;> rw [hr] at hs' <;> exact ⟨trivial, hs'⟩
  refine ⟨fun _ _ _ => rfl, fun n => hleft (h.skip n), fun n v s hv => ?_, fun n v s hv => ?_, fun n st => ?_,
    fun r r' => hleft (h.defaultCheck r r'), fun r => hleft (h.finalCheck r), fun _ _ _ => trivial, fun _ _ _ => trivial⟩
  · have hs := h.enter n s
    cases henter : p.enter n s with
    | ok a s' =>
      rw [henter] at hs
      obtain ⟨scope, hscope⟩ := hs
      exact ⟨trivial, (congrArg pop hscope).trans hv.2⟩
    | error e s' =>
      rw [henter] at hs
      exact ⟨trivial, hs.trans hv.2⟩
  · have hs := h.transform n s
    cases htransform : p.transform n s with
    | ok a s' =>
      rw [htransform] at hs
      exact ⟨trivial, hs.trans (congrArg pop hv.2)⟩
    | error e s' =>
      rw [htransform] at hs
      exact ⟨trivial, congrArg pop (hs.trans hv.2)⟩
  · obtain ⟨unwind, hunwind, hview⟩ := h.unwind
    rw [hunwind]
    exact hview n st

theorem Scopes.eq_empty {s : Scopes α} (h : s.size = 0) : s = {} := by
  obtain ⟨items⟩ := s
  exact congrArg mk (eq_nil_of_length_eq_zero h)

/-- The states of a pass that is made anew or used again after runs on any designs, each of which may have aborted. -/
inductive Pass.Reused (p : Pass σ) (start : σ) : σ → Prop
  | new : Reused p start start
  | again {st : σ} (h : Reused p start st) (c : Context) (r : Root) : Reused p start (sessionLeft (p.run r ⟨c, st⟩)).own

theorem Pass.Balanced.reused (h : p.Balanced view close) {start st : σ} (hst : p.Reused start st) : view st = view start := by
  induction hst with
  | new => rfl
  | again _ c r ih => exact (h.run r _).trans ih

theorem Stack.pass_balanced : pass.Balanced Stack.State.depths closeDepth := pass_steady lasting_true

theorem Nesting.pass_balanced : pass.Balanced Nesting.State.depth closeEntity :=
  pass_steady lasting_true ⟨fun _ _ _ => trivial, fun _ _ _ _ => trivial⟩

theorem Folding.pass_balanced : pass.Balanced Folding.State.depths closeDepth := pass_steady lasting_true

/-! ## Records of runs -/

theorem Bares.lift (x : ContextM α) : Bares (liftM x : PassM (Recorded σ) α) (liftM x) := by
  intro s
  change bareResult ((liftM x : PassM (Recorded σ) α) s) = (liftM x : PassM σ α) ⟨s.ctx, s.own.own⟩
  simp only [liftM, monadLift, MonadLift.monadLift]
  cases x s.ctx <;> rfl

theorem Logs.lift {x : ContextM α} {ended : α → List PassEvent → Prop} {aborted : List PassEvent → Prop}
    (hended : ∀ a, ended a []) (haborted : aborted []) : Logs (liftM x : PassM (Recorded σ) α) ended aborted := by
  intro s
  simp only [liftM, monadLift, MonadLift.monadLift]
  cases x s.ctx with
  | ok a c => exact ⟨[], (append_nil _).symm, hended a⟩
  | error e c => exact ⟨[], (append_nil _).symm, haborted⟩

namespace Pass

variable (p : Pass σ) (r : Root) (out : Option Root)

theorem bares_checked : Bares (p.recorded.checked r out) (p.checked r out) := by
  intro s
  have hchecks : Bares (do
      p.recorded.defaultCheck r (out.getD r)
      p.recorded.finalCheck (out.getD r)
      return out) (do
      p.defaultCheck r (out.getD r)
      p.finalCheck (out.getD r)
      return out) :=
    (unrecorded _).bind fun _ => (unrecorded _).bind fun _ => .pure out
  rw [checked_eq, checked_eq, show s.bare.ctx = s.ctx from rfl]
  split
  · exact hchecks s
  · rfl

theorem run_recorded : Bares (p.recorded.run r) (p.run r) := by
  refine (Bares.lift _).bind fun _ => (Node.walk_relates p.relates_recorded (.root r)).bind fun out => ?_
  split
  · exact p.bares_checked r none
  · exact p.bares_checked r (some _)
  · exact (Bares.lift _).bind fun out => p.bares_checked r out

theorem checked_logs :
    Logs (p.recorded.checked r out) (fun _ _ => True) fun es => Leaves es [] := by
  intro s
  have hchecks : Logs (do
      p.recorded.defaultCheck r (out.getD r)
      p.recorded.finalCheck (out.getD r)
      return out) (fun _ _ => True) fun es => Leaves es [] :=
    .unrecorded_bind .nil fun _ => .unrecorded_bind .nil fun _ => .pure trivial
  rw [checked_eq]
  by_cases hask : s.ctx.checkTrees = true
  · rw [if_pos hask]
    exact hchecks s
  · rw [if_neg hask]
    exact ⟨[], (append_nil _).symm, trivial⟩

theorem run_logs : Logs (p.recorded.run r) (fun _ _ => True) p.Unwinds := by
  have hchecked (out : Option Root) {es : List PassEvent} (hes : Leaves es []) :
      Logs (p.recorded.checked r out) (fun _ _ => True) fun es' => p.Unwinds (es ++ es') :=
    (p.checked_logs r out).mono (fun _ _ h => h) fun es' h => p.unwinds_of_leaves (by simpa using hes.append h)
  refine bind (lift (fun _ => rfl) (p.unwinds_of_leaves .nil) : Logs _ (fun _ es => es = []) p.Unwinds) ?_
  rintro - _ rfl
  refine (Node.walk_relates p.relates_logs (.root r)).bind fun out es ⟨hes, _⟩ => ?_
  split
  · exact hchecked none hes
  · exact hchecked (some _) hes
  · refine bind (lift (fun _ => rfl) (p.unwinds_of_leaves (by simpa using hes)) :
      Logs _ (fun _ es' => es' = []) fun es' => p.Unwinds ([] ++ (es ++ es'))) ?_
    rintro out _ rfl
    exact hchecked out (by simpa using hes)

end Pass

/-- The passes that replace stacks, take out nested entities and fold statements have no scope open after any runs. -/
theorem Pass.Reused.no_scope : (∀ st, Stack.pass.Reused {} st → st.owners = {} ∧ st.pending = {}) ∧
    (∀ st, Nesting.pass.Reused {} st → st.frames = {}) ∧
    ∀ st, Folding.pass.Reused {} st → st.analyses = {} ∧ st.bindings = {} := by
  refine ⟨fun st hst => ?_, fun st hst => Scopes.eq_empty (Nesting.pass_balanced.reused hst), fun st hst => ?_⟩
  · have hdepths := Stack.pass_balanced.reused hst
    exact ⟨Scopes.eq_empty (congrArg Prod.fst hdepths), Scopes.eq_empty (congrArg Prod.snd hdepths)⟩
  · have hdepths := Folding.pass_balanced.reused hst
    exact ⟨Scopes.eq_empty (congrArg Prod.fst hdepths), Scopes.eq_empty (congrArg Prod.snd hdepths)⟩

/-- Scope stacks survive aborts. A pass that pushes and pops one scope for each node leaves its stack as it was, whether its run
ends or aborts; a run that aborts has unwound just the nodes that were entered and not completed, the innermost first. The
passes that replace stacks, take out nested entities and fold statements have no scope open after any runs. -/
theorem Pass.KeepsScopes.survive {p : Pass σ} {scopes : σ → Scopes α} (h : p.KeepsScopes scopes) (r : Root)
    (s : Session (Recorded σ)) :
    scopes (sessionLeft (p.run r s.bare)).own = scopes s.bare.own ∧
      bareResult (p.recorded.run r s) = p.run r s.bare ∧
      (∀ e s', p.recorded.run r s = .error e s' → ∃ calls, (∀ n, .unwind n ∉ calls) ∧
        s'.own.events = s.own.events ++ calls ++ (openNodes calls).map .unwind) ∧
      (∀ st, Stack.pass.Reused {} st → st.owners = {} ∧ st.pending = {}) ∧
      (∀ st, Nesting.pass.Reused {} st → st.frames = {}) ∧
      ∀ st, Folding.pass.Reused {} st → st.analyses = {} ∧ st.bindings = {} := by
  refine ⟨h.balanced.run r s.bare, p.run_recorded r s, fun e s' hrun => ?_, Reused.no_scope⟩
  have hlogs := p.run_logs r s
  rw [hrun] at hlogs
  obtain ⟨_, hevents, calls, opened, rfl, hleaves⟩ := hlogs
  obtain ⟨unwind, hunwind, -⟩ := h.unwind
  refine ⟨calls, hleaves.unwound, ?_⟩
  rw [hevents, hleaves.openNodes_eq, ← append_assoc]
  simp [Pass.unwound, hunwind]

namespace Script

theorem pass_keepsScopes (name : String) {rules : List Rule} (hrules : ∀ r ∈ rules, r.action ≠ .fatalEnter) :
    (pass name rules true).KeepsScopes Trace.scopes where
  skip n s := by
    change (sessionLeft ((if _ then _ else _ : PassM Trace Bool) s)).own.scopes = _
    split <;> rfl
  enter n s := by
    have henter : (pass name rules true).enter n s = (if (choose rules n _).isSome then
        ContextM.fatal n.loc (.note ("fatal entering " ++ n.variant)) else pure () : PassM Trace Unit)
        ⟨s.ctx, { s.own with scopes := s.own.scopes.push n.variant }.note ("enter " ++ nodeLine n)⟩ := rfl
    rw [henter, if_neg]
    · exact ⟨_, rfl⟩
    · rw [Bool.not_eq_true, Option.isSome_eq_false_iff, Option.isNone_iff_eq_none]
      refine findSome?_eq_none_iff.mpr fun r hr => ?_
      have hr := hrules r hr
      cases h : r.action <;> simp_all
  transform n s := by
    simp only [pass]
    cases (choose rules n _ : Option Alarm) with
    | none => rfl
    | some a => cases a <;> rfl
  unwind := ⟨_, rfl, fun _ _ => rfl⟩
  defaultCheck _ _ _ := rfl
  finalCheck r s := by
    change (sessionLeft ((if _ then _ else _ : PassM Trace Unit) ⟨s.ctx, s.own.note "final_check"⟩)).own.scopes = _
    split <;> rfl

def fenced : Root :=
  { entities := [{ loc := default, symbol := ⟨0⟩, stmts := [.loop default [.fence default, .break default]] }] }

def stopping : Pass Trace := pass "stop" [⟨"StmtFence", 0, .alarm .fatal⟩] true

def isUnwind : PassEvent → Bool
  | .unwind _ => true
  | _ => false

/-- The abort at the fence unwinds the fence, the loop, the entity and the design, and no scope is left. -/
theorem fence_survives : ∃ e s', stopping.recorded.run fenced ⟨{}, ⟨{}, []⟩⟩ = .error e s' ∧ s'.own.own.scopes = {} ∧
    ∃ calls, s'.own.events = calls ++ (openNodes calls).map .unwind ∧ (openNodes calls).length = 4 := by
  have hkeeps : stopping.KeepsScopes Trace.scopes := pass_keepsScopes "stop" (by decide)
  obtain ⟨hscopes, hbare, hunwinds, -⟩ := hkeeps.survive fenced ⟨{}, ⟨{}, []⟩⟩
  have haborts : (match stopping.recorded.run fenced ⟨{}, ⟨{}, []⟩⟩ with
      | .error _ s => s.own.events.countP isUnwind
      | .ok _ _ => 0) = 4 := by decide +kernel
  cases hrun : stopping.recorded.run fenced ⟨{}, ⟨{}, []⟩⟩ with
  | ok a s =>
    rw [hrun] at haborts
    nomatch haborts
  | error e s =>
    rw [hrun] at haborts hbare
    rw [← hbare] at hscopes
    obtain ⟨calls, hcalls, hevents⟩ := hunwinds e s hrun
    refine ⟨e, s, rfl, hscopes, calls, hevents, ?_⟩
    have hnone : calls.countP isUnwind = 0 := by
      refine countP_eq_zero.mpr fun event hevent hunwind => ?_
      cases event with
      | unwind n => exact hcalls n hevent
      | _ => nomatch hunwind
    simpa [hevents, hnone, countP_map, Function.comp_def, isUnwind] using haborts

end Script

end HdlLowering
