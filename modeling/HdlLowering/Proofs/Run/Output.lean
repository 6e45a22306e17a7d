import HdlLowering.Host.World
import HdlLowering.Proofs.Interchange.Acceptance
import HdlLowering.Proofs.Run.Recorded
import HdlLowering.Proofs.Sequence.Lasting
import HdlLowering.Proofs.Sequence.Runs

/-!
# Output of a run

A run lowers a design by the passes up to the one after which it is to stop, and puts the result out. Nothing is put out when a
pass before that one aborts or reports an error (`output_after_lowering`). When that very pass does, the design it was given is
put out all the same (`StopAtFault.output_written`).
-/

namespace HdlLowering.Run

open Step World Host Context Netlist Progress Course

/-! ## Courses -/

def upTo (stopAfter : String) : List Step → List Step
  | [] => []
  | step :: steps => step :: if step.name = stopAfter then [] else upTo stopAfter steps

/-- How the passes of a course can end: all up to the one after which it is to stop are done without an abort or an error, or one
of them aborts or reports an error. -/
inductive Ends (stopAfter : String) (steps : List Step) (c : Context) (r : Root) (course : Course) : Prop where
  | lowered (h : lower? (upTo stopAfter steps) c r = some (course.ctx, course.root))
  | stopped {before after : List Step} {step : Step} {c1 : Context} {r1 : Root} (hsteps : steps = before ++ step :: after)
    (hbefore : lower? before c r = some (c1, r1)) (hstep : lower? [step] c1 r1 = none)
    (hending : course.ending = .failed step.name ∨ ∃ a, course.ending = .aborted step.name a)

theorem name_ne_empty (step : Step) : step.name ≠ "" := by cases step <;> decide

variable {stopAfter : String} {step : Step} {steps : List Step} {c c' : Course} {o : Options} {w : World} {α β : Type}
  {f : α → Recorder (StateM World) β} {g : α → StateM World β} {R : β → Prop}

theorem Ends.cons {root? : Option Root} (hresult : (step.run {} c.ctx c.root).result = .ok root?)
    (hproceed : (step.run {} c.ctx c.root).ctx.reporter.proceed = true) (hname : step.name ≠ stopAfter)
    (h : Ends stopAfter steps (step.run {} c.ctx c.root).ctx (root?.getD c.root) c') :
    Ends stopAfter (step :: steps) c.ctx c.root c' := by
  cases h with
  | lowered h =>
    refine .lowered ?_
    rw [upTo, if_neg hname, lower?_cons_eq_some]
    exact ⟨root?, hresult, hproceed, h⟩
  | stopped hsteps hbefore hstep hending =>
    subst hsteps
    refine .stopped (List.cons_append ..).symm (lower?_cons_eq_some.mpr ⟨root?, hresult, hproceed, hbefore⟩) hstep hending

/-! ## Steps in a world -/

/-- A step gives something, and the environment stays as it is. With a record it does the same, and puts nothing out. -/
def Gives (E : List (String × String)) (x : Recorder (StateM World) α) (y : StateM World α) (Q : α → Prop) : Prop :=
  ∀ deeds w, w.environment = E → x deeds w = (((y w).1, deeds), (y w).2) ∧ Q (y w).1 ∧ (y w).2.environment = E

variable {E : List (String × String)}

namespace Gives

variable {Q : α → Prop} {x : Recorder (StateM World) α} {y : StateM World α}

theorem pure {a : α} (h : Q a) : Gives E (pure a) (pure a) Q := fun _ _ hw => ⟨rfl, h, hw⟩

theorem bind (hx : Gives E x y Q) (hf : ∀ a, Q a → Gives E (f a) (g a) R) : Gives E (x >>= f) (y >>= g) R := by
  intro deeds w hw
  obtain ⟨hrun, ha, hw1⟩ := hx deeds w hw
  change (fun p => f p.1.1 p.1.2 p.2) (x deeds w) = _ ∧ _
  rw [hrun]
  exact hf _ ha deeds _ hw1

theorem imp {R : α → Prop} (hx : Gives E x y Q) (h : ∀ a, Q a → R a) : Gives E x y R :=
  fun deeds w hw => (hx deeds w hw).imp_right (And.imp_left (h _))

theorem next (hx : Gives E x y fun _ => True)
    (hf : ∀ a, Gives E (f a) (g a) R) : Gives E (x >>= f) (y >>= g) R := hx.bind fun a _ => hf a

theorem attempt {operation : World → Except FileError World}
    (h : ∀ w w', operation w = .ok w' → w'.environment = w.environment) :
    Gives E (liftM (World.attempt operation)) (World.attempt operation) fun _ => True := by
  intro deeds w hw
  refine ⟨rfl, trivial, ?_⟩
  unfold World.attempt
  cases hop : operation w with
  | ok w' => simpa [modifyGet, MonadStateOf.modifyGet, StateT.modifyGet, hop, Pure.pure] using (h w w' hop).trans hw
  | error e => simpa [modifyGet, MonadStateOf.modifyGet, StateT.modifyGet, hop, Pure.pure] using hw

theorem clock : Gives E clock clock fun _ => True := fun _ _ hw => ⟨rfl, trivial, hw⟩

theorem log (text : String) : Gives E (log text) (log text) fun _ => True := fun _ _ hw => ⟨rfl, trivial, hw⟩

theorem read (path : String) : Gives E (read path) (read path) fun _ => True := fun _ _ hw => ⟨rfl, trivial, hw⟩

theorem freshName : Gives E freshName freshName fun _ => True := fun _ _ hw => ⟨rfl, trivial, hw⟩

theorem environment (name : String) : Gives E (environment name) (environment name) (· = (E.lookup name).getD "") :=
  fun _ _ hw => ⟨rfl, by rw [← hw]; rfl, hw⟩

theorem compute (f : Unit → α) : Gives E (compute f) (compute f) (· = f ()) := fun _ _ hw => ⟨rfl, rfl, hw⟩

theorem environment_putFile (w : World) (p : Place) (text : String) : (w.putFile p text).environment = w.environment := by
  unfold putFile
  split <;> rfl

theorem append (path text : String) : Gives E (append path text) (append path text) fun _ => True := by
  refine attempt fun w w' h => ?_
  unfold change at h
  split at h
  · rw [← Except.ok.inj h, environment_putFile]
  · nomatch h

theorem bind_eq_ok {ε β : Type} {x : Except ε α} {f : α → Except ε β} {b : β} (h : x >>= f = .ok b) :
    ∃ a, x = .ok a ∧ f a = .ok b := by
  cases x with
  | error e => nomatch h
  | ok a => exact ⟨a, rfl, h⟩

theorem environment_makeDirectories : ∀ {fuel : Nat} {w w' : World} {path : String},
    makeDirectories fuel w path = .ok w' → w'.environment = w.environment
  | 0, w, w', path, h => by rw [← Except.ok.inj h]
  | fuel + 1, w, w', path, h => by
    have hone : ∀ {w w' : World}, w.makeOne path = .ok w' → w'.environment = w.environment := by
      intro w w' h
      unfold makeOne at h
      split at h
      · nomatch h
      · split at h
        · nomatch h
        · rw [← Except.ok.inj h]
    rw [makeDirectories] at h
    split at h
    · rw [← Except.ok.inj h]
    · nomatch h
    · dsimp only at h
      split at h
      · obtain ⟨w1, hbelow, h⟩ := bind_eq_ok h
        rw [hone h, Except.ok.inj hbelow]
      · obtain ⟨w1, hbelow, h⟩ := bind_eq_ok h
        rw [hone h, environment_makeDirectories hbelow]

theorem makeDirectory (path : String) : Gives E (makeDirectory path) (makeDirectory path) fun _ => True :=
  attempt fun _ _ h => environment_makeDirectories h

theorem replace (path text : String) : Gives E (replace path text) (replace path text) fun _ => True := by
  refine attempt fun w w' h => ?_
  unfold World.replace at h
  dsimp only at h
  split at h
  · nomatch h
  · nomatch h
  · nomatch h
  · rw [← Except.ok.inj h, environment_putFile]

end Gives

theorem record_gives (log : Option TimingLog) (e : TimingEvent) : Gives E (record log e) (record log e) fun _ => True := by
  cases log with
  | none => exact .pure trivial
  | some l =>
    refine Gives.next ?_ fun _ => .pure trivial
    unfold TimingLog.record
    split
    · exact .pure trivial
    · refine Gives.next (.append _ _) fun r => ?_
      cases r <;> exact .pure trivial

theorem recordStage_gives (log : Option TimingLog) (phase status : String) (start : Nat) :
    Gives E (recordStage log phase status start) (recordStage log phase status start) fun _ => True :=
  .next .clock fun _ => record_gives _ _

theorem openTiming_gives (s : Settings) (start : Nat) : Gives E (openTiming s start) (openTiming s start) fun _ => True := by
  refine Gives.next (.bind (.environment _) fun _ _ => .pure trivial) fun path => ?_
  split
  · exact .pure trivial
  · refine Gives.next (.append _ _) fun r => ?_
    cases r with
    | error e => exact .pure trivial
    | ok _ => exact .next .freshName fun _ => .pure trivial

theorem runPasses_gives (o : Options) (design : String) : ∀ (steps : List Step) (c : Course),
    Gives E (runPasses o design steps c) (runPasses o design steps c) (Ends o.settings.stopAfter steps c.ctx c.root)
  | [], c => .pure (.lowered rfl)
  | step :: steps, c => by
    rw [runPasses, runPasses]
    refine .next .clock fun start => .bind (.compute _) fun out hout => .next .clock fun now => ?_
    refine .next ?_ fun _ => .next (record_gives _ _) fun timing => ?_
    · unfold showNew
      split
      · exact .pure trivial
      · exact .log _
    subst hout
    have hrest {c' : Course}
        (hc' : c' = { c.after step (step.run {} c.ctx c.root) o.settings.stopAfter (now - start) with timing }) :
        (c'.ending = .finished → Gives E (runPasses o design steps c') (runPasses o design steps c')
          (Ends o.settings.stopAfter (step :: steps) c.ctx c.root)) ∧
        (c'.ending ≠ .finished → Ends o.settings.stopAfter (step :: steps) c.ctx c.root c') := by
      subst hc'
      cases hresult : (step.run {} c.ctx c.root).result with
      | error a =>
        simp only [after, hresult]
        exact ⟨by simp, fun _ => .stopped (List.nil_append _).symm rfl (by rw [Step.lower?, hresult]) (.inr ⟨a, rfl⟩)⟩
      | ok root? =>
        have hone : Step.lower? [step] c.ctx c.root = if (step.run {} c.ctx c.root).ctx.reporter.proceed then
            some ((step.run {} c.ctx c.root).ctx, root?.getD c.root) else none := by
          rw [Step.lower?, hresult]
          rfl
        cases hproceed : (step.run {} c.ctx c.root).ctx.reporter.proceed with
        | false =>
          simp only [after, hresult, hproceed, Bool.not_false, if_true]
          exact ⟨by simp, fun _ => .stopped (List.nil_append _).symm rfl (by rw [hone, hproceed]; rfl) (.inl rfl)⟩
        | true =>
          by_cases hname : step.name = o.settings.stopAfter
          · have hstop : o.settings.stopAfter ≠ "" ∧ o.settings.stopAfter = step.name := ⟨hname ▸ name_ne_empty step, hname.symm⟩
            simp only [after, hresult, hproceed, Bool.not_true, Bool.false_eq_true, if_false, if_pos hstop]
            refine ⟨by simp, fun _ => .lowered ?_⟩
            rw [upTo, if_pos hname, hone, hproceed]
            rfl
          · have hgo : ¬ (o.settings.stopAfter ≠ "" ∧ o.settings.stopAfter = step.name) := fun h => hname h.2.symm
            simp only [after, hresult, hproceed, Bool.not_true, Bool.false_eq_true, if_false, if_neg hgo]
            exact ⟨fun _ => (runPasses_gives o design steps _).imp fun _ hends => hends.cons hresult hproceed hname, by simp⟩
    generalize hc' : ({ c.after step (step.run {} c.ctx c.root) o.settings.stopAfter (now - start) with timing } : Course) = c'
    obtain ⟨hgo, hstop⟩ := hrest hc'.symm
    dsimp only
    split
    · refine .next (.log _) fun _ => ?_
      cases hending : c'.ending with
      | finished => exact hgo hending
      | _ => exact .pure (hstop (by simp [hending]))
    · cases hending : c'.ending with
      | finished => exact hgo hending
      | _ => exact .pure (hstop (by simp [hending]))

/-! ## Outcomes -/

def contextIn (E : List (String × String)) (s : Settings) : Context :=
  new s.separator (s.checkTrees || isOnWord ((E.lookup "FSM_LOWER_CHECK_TREES").getD ""))

theorem startContext_gives (s : Settings) : Gives E (startContext s) (startContext s) (· = contextIn E s) :=
  .bind (.environment _) fun word hword => .pure (by rw [hword]; rfl)

def Outcome.Reports (out : Outcome) (report : Report) : Prop := ∃ r, out.report = some r ∧ r.root = report.root ∧
  r.symbols = report.symbols ∧ r.diagnostics = report.diagnostics ∧ r.stoppedAt = report.stoppedAt

theorem Progress.finish_gives (p : Progress) (error : Option Error) : Gives E (p.finish error) (p.finish error) fun out =>
    out.Reports p.report ∧ (error.isSome → out.error.isSome) := by
  refine .next (recordStage_gives _ _ _ _) fun timing => .pure ⟨⟨_, rfl, rfl, rfl, rfl, rfl⟩, fun herror => ?_⟩
  cases error with
  | none => nomatch herror
  | some e => rfl

theorem compareSnapshot_gives (directory design : String) (t : Tables) :
    Gives E (compareSnapshot directory design t) (compareSnapshot directory design t) fun _ => True := by
  refine .next (.next (.read _) fun r => ?_) fun old => .next (.next (.makeDirectory _) fun r => ?_) fun saved => .pure trivial
  · cases r with
    | error e => exact .pure trivial
    | ok text =>
      dsimp only
      split <;> exact .pure trivial
  · cases r with
    | error e => exact .pure trivial
    | ok _ =>
      refine .next (.replace _ _) fun r => ?_
      cases r <;> exact .pure trivial

theorem Progress.emit_gives (p : Progress) (o : Options) : Gives E (p.emit o) (p.emit o) fun out => out.Reports p.report := by
  have hcompare (q : Progress) (t : Tables) : Gives E (q.compare o.settings t) (q.compare o.settings t) fun q' =>
      ∃ delta, q'.report = { q.report with delta } := by
    unfold compare
    split
    · exact .pure ⟨_, rfl⟩
    · exact .next .clock fun _ => .next (compareSnapshot_gives _ _ _) fun _ => .next (recordStage_gives _ _ _ _) fun _ =>
        .pure ⟨_, rfl⟩
  have hevaluate (q : Progress) (t : Tables) : Gives E (q.evaluate o.settings t) (q.evaluate o.settings t) fun q' =>
      ∃ rules, q'.report = { q.report with rules } := by
    unfold evaluate
    split
    · exact .pure ⟨_, rfl⟩
    · exact .next .clock fun _ => .next (recordStage_gives _ _ _ _) fun _ => .pure ⟨_, rfl⟩
  unfold emit
  refine .next .clock fun start => ?_
  split
  · exact (p.finish_gives _).imp fun _ h => h.1
  · refine .next (recordStage_gives _ _ _ _) fun timing => .next .clock fun start => ?_
    split
    · exact (finish_gives _ _).imp fun _ h => h.1
    · refine .next (recordStage_gives _ _ _ _) fun timing => .bind (hcompare _ _) fun q ⟨delta, hq⟩ => ?_
      refine .bind (hevaluate _ _) fun q' ⟨rules, hq'⟩ => .bind (q'.finish_gives _) fun out hout => ?_
      have hreports : out.Reports p.report := by
        obtain ⟨⟨r, hr, hroot, hsymbols, hdiagnostics, hstopped⟩, -⟩ := hout
        rw [hq', hq] at hroot hsymbols hdiagnostics hstopped
        exact ⟨r, hr, hroot, hsymbols, hdiagnostics, hstopped⟩
      split
      · exact .next .clock fun _ => .next (.log _) fun _ => .pure hreports
      · exact .pure hreports

def Course.report (c : Course) (name : String) : Report :=
  { design := name, root := c.root, symbols := c.ctx.symbols, passes := c.passes, stoppedAt := c.ending.stoppedAt
    diagnostics := c.ctx.reporter.diagnostics }

/-- Lowers a design that has been read, in a run that began at a time and had some trouble so far. -/
def lowerRead {m : Type → Type} [Monad m] [Host m] (o : Options) (name : String) (troubles : List Trouble) (start : Nat)
    (timing : Option TimingLog) (root : Root) (ctx : Context) : m Outcome := do
  let c ← runPasses o name (lowering o.settings.rounds) { root, ctx, timing }
  let p : Progress := { report := c.report name, timing := c.timing, troubles, start }
  match c.ending with
  | .finished => p.emit o
  | .aborted pass a => p.finish (some (.aborted pass a))
  | .failed pass => p.finish (some (.stopped pass c.ctx.reporter.errorCount))
  | .requested _ => p.finish none

/-- The outcome of lowering a design: a course of the passes gives the design that is reported, with an error when the course
was stopped. -/
def Outcome.Lowers (out : Outcome) (o : Options) (name : String) (c : Context) (r : Root) : Prop :=
  ∃ course, Ends o.settings.stopAfter (lowering o.settings.rounds) c r course ∧ out.Reports (course.report name) ∧
    ((∃ pass, course.ending = .failed pass) ∨ (∃ pass a, course.ending = .aborted pass a) → out.error.isSome)

theorem lowerRead_gives (o : Options) (name : String) (troubles : List Trouble) (start : Nat) (timing : Option TimingLog)
    (r : Root) (c : Context) : Gives E (lowerRead o name troubles start timing r c) (lowerRead o name troubles start timing r c)
      (·.Lowers o name c r) := by
  refine .bind (runPasses_gives _ _ _ _) fun course hends => ?_
  dsimp only
  split
  · rename_i hending
    refine (emit_gives _ _).imp fun out hout => ⟨course, hends, hout, ?_⟩
    simp [hending]
  · exact (finish_gives _ _).imp fun out hout => ⟨course, hends, hout.1, fun _ => hout.2 rfl⟩
  · exact (finish_gives _ _).imp fun out hout => ⟨course, hends, hout.1, fun _ => hout.2 rfl⟩
  · rename_i hending
    refine (finish_gives _ _).imp fun out hout => ⟨course, hends, hout.1, ?_⟩
    simp [hending]

theorem lower_gives (o : Options) (name text : String) : Gives E (lower o name text) (lower o name text) fun out =>
    out.report = none ∨ ∃ r c, readDesign (contextIn E o.settings) name text = .ok (r, c) ∧ out.Lowers o name c r := by
  unfold lower
  refine .next .clock fun start => .next (openTiming_gives _ _) fun opened => ?_
  dsimp only
  split
  · exact .pure (.inl rfl)
  · refine .next (recordStage_gives _ _ _ _) fun timing => .next .clock fun readStart => ?_
    refine .bind (startContext_gives _) fun ctx hctx => ?_
    subst hctx
    split
    · exact .pure (.inl rfl)
    · rename_i r c hread
      refine .next (recordStage_gives _ _ _ _) fun timing => ?_
      exact (lowerRead_gives o name _ start timing r c).imp fun out hout => .inr ⟨r, c, hread, hout⟩

theorem lowerFile_lowers (o : Options) (path : String) (w : World) :
    ∃ out w', (lowerFile o path : StateM World _) w = (out, w') ∧
      (lowerFile o path : Recorder (StateM World) _) [] w = ((out, []), w') ∧
      (out.report = none ∨ ∃ text r c, w.read path = .ok text ∧
        readDesign (contextIn w.environment o.settings) (Path.base path) text = .ok (r, c) ∧ out.Lowers o (Path.base path) c r) := by
  have hread : (read path : StateM World _) w = (w.read path, w) := rfl
  have hrecorded : (read path : Recorder (StateM World) _) [] w = ((w.read path, []), w) := rfl
  simp only [lowerFile, bind, StateT.bind, hread, hrecorded]
  cases w.read path with
  | error e => exact ⟨_, _, rfl, rfl, .inl rfl⟩
  | ok text =>
    obtain ⟨hsilent, hout, -⟩ := lower_gives o (Path.base path) text [] w rfl
    refine ⟨_, _, rfl, hsilent, hout.imp_right ?_⟩
    rintro ⟨r, c, hread, hlowers⟩
    exact ⟨text, r, c, rfl, hread, hlowers⟩

/-! ## Output -/

theorem reporter_of_readDesign {s : Settings} {name text : String} {r : Root} {c : Context}
    (h : readDesign (contextIn E s) name text = .ok (r, c)) : c.reporter = {} := by
  unfold readDesign at h
  split at h
  · nomatch h
  · split at h
    · rename_i hbuild
      obtain rfl := Except.ok.inj h
      obtain ⟨-, -, -, rfl⟩ := Interchange.File.build_eq_ok.mp hbuild
      rfl
    · nomatch h

theorem no_error_of_lower? {c c' : Context} {r r' : Root} (hreporter : c.reporter = {})
    (h : lower? steps c r = some (c', r')) : ∀ d ∈ c'.reporter.diagnostics, d.severity.isError = false := by
  have htallied : c'.Tallied := by
    refine lower?_induction (motive := fun c _ => c.Tallied) h ?_ fun step _ _ r _ _ hc =>
      run_retains lasting_tallied (fun _ => trivial) ⟨fun _ _ h => h, fun _ _ h _ => h⟩ step {} hc r
    rw [Tallied, hreporter]
    exact Nat.le_refl _
  exact htallied.no_error (proceed_of_lower? (by rw [hreporter]; rfl) h)

/-- A report is of the design that the passes up to the one after which the run is to stop make of a design, none of which
aborts or reports an error. -/
def Report.OfLowering (report : Report) (o : Options) (c : Context) (r : Root) : Prop :=
  ∃ c', lower? (upTo o.settings.stopAfter (lowering o.settings.rounds)) c r = some (c', report.root) ∧
    report.symbols = c'.symbols ∧ report.diagnostics = c'.reporter.diagnostics ∧
    ∀ d ∈ report.diagnostics, d.severity.isError = false

/-- The pass after which the run is to stop aborts or reports an error, and the passes before it do not. -/
def StopFails (o : Options) (c : Context) (r : Root) : Prop :=
  ∃ before step after c1 r1, lowering o.settings.rounds = before ++ step :: after ∧ step.name = o.settings.stopAfter ∧
    lower? before c r = some (c1, r1) ∧ lower? [step] c1 r1 = none

theorem deeds_of_lowers (hjson : o.json = false) {out : Outcome} {name : String} {c : Context} {r : Root}
    (hreporter : c.reporter = {}) (hout : out.Lowers o name c r) : o.deeds out = [] ∨
      ∃ report : Report, (report.OfLowering o c r ∨ StopFails o c r) ∧ o.deeds out = [report.deed o.settings] := by
  obtain ⟨course, hends, ⟨report, hreport, hroot, hsymbols, hdiagnostics, hstopped⟩, herror⟩ := hout
  unfold Options.deeds
  rw [hreport, hjson]
  dsimp only
  rw [if_neg Bool.false_ne_true]
  split
  · rename_i hput
    refine .inr ⟨report, ?_, rfl⟩
    cases hends with
    | lowered h =>
      refine .inl ⟨course.ctx, by rw [h, hroot]; rfl, hsymbols, hdiagnostics, ?_⟩
      rw [hdiagnostics]
      exact no_error_of_lower? hreporter h
    | stopped hsteps hbefore hstep hending =>
      -- An error was given, so the output is put out only because the course ended where it is to stop.
      refine .inr ⟨_, _, _, _, _, hsteps, ?_, hbefore, hstep⟩
      have hsome : out.error.isSome := herror (hending.imp (fun h => ⟨_, h⟩) fun ⟨a, h⟩ => ⟨_, a, h⟩)
      rcases hput with hnone | hrequest
      · rw [Option.isNone_iff_eq_none.mp hnone] at hsome
        nomatch hsome
      · rw [Report.stoppedOnRequest, hstopped] at hrequest
        rcases hending with hending | ⟨a, hending⟩ <;> simpa [Course.report, hending, Ending.stoppedAt] using hrequest
  · exact .inl rfl

/-- In a run in text, the output is written only when the passes up to the one after which the run is to stop lowered the design,
without an abort and without an error among the diagnostics; or when that very pass aborted or reported an error. -/
theorem output_after_lowering (settings : Settings) (verbose dump : Bool) (path : String) (w : World) :
    let o : Options := { settings, verbose, json := false, dump }
    ∃ error deeds w', (run o path : Recorder (StateM World) _) [] w = ((error, deeds), w') ∧
      (run o path : StateM World _) w = (error, w') ∧
      (deeds = [] ∨ ∃ text r c, ∃ report : Report, w.read path = .ok text ∧
        readDesign (contextIn w.environment settings) (Path.base path) text = .ok (r, c) ∧
        (report.OfLowering o c r ∨ StopFails o c r) ∧ deeds = [report.deed settings]) := by
  intro o
  obtain ⟨out, w1, hlower, hrecorded, hout⟩ := lowerFile_lowers o path w
  have hrun : (run o path : StateM World _) w = (conclude o out : StateM World _) w1 := by
    change (fun p => (conclude o p.1 : StateM World _) p.2) ((lowerFile o path : StateM World _) w) = _
    rw [hlower]
  refine ⟨_, o.deeds out, _, ?_, hrun, ?_⟩
  · change (fun p => (conclude o p.1.1 : Recorder (StateM World) _) p.1.2 p.2)
      ((lowerFile o path : Recorder (StateM World) _) [] w) = _
    rw [hrecorded]
    exact congrFun (conclude_does (m := StateM World) o out []) w1
  · rcases hout with hnone | ⟨text, r, c, hread, hdesign, hlowers⟩
    · exact .inl (by rw [Options.deeds, hnone])
    · refine (deeds_of_lowers rfl (reporter_of_readDesign hdesign) hlowers).imp_right ?_
      rintro ⟨report, hcases, hdeeds⟩
      exact ⟨text, r, c, report, hread, hdesign, hcases, hdeeds⟩

/-! ## A pass that fails where the run is to stop -/

namespace StopAtFault

/-- A pipeline with one stage, which reads although there is no stage before it. -/
def file : Interchange.File :=
  { version := 1
    symbols := [
      { id := 1, name := "v", cls := "term", type := some { kind := "pipeline", elem := some { kind := "uint", width := 4 } } },
      { id := 2, name := "s", cls := "type", type := some { kind := "entity" } },
      { id := 3, name := "top", cls := "type", type := some { kind := "entity" } }]
    entities := [some
      { symbol := 3
        decls := [some { symbol := 1 }]
        entities := [some { symbol := 2, stmts := [some { stmt := "read" }] }] }] }

def stopping (pass : String) : Options := { settings := { stopAfter := pass } }

def written (pass : String) (r : Root) (c : Context) : List Deed :=
  (stopping pass).deeds ((lowerRead (stopping pass) "" [] 0 none r c : StateM World _) {}).1

/-- The pass over pipelines aborts. The design is put out when the run is to stop after it, and not when it is to stop later. -/
theorem output_written : ∃ r c, file.build {} = .ok (r, c) ∧ StopFails (stopping "LowerPipeline") c r ∧
    (written "LowerPipeline" r c).length = 1 ∧ written "LowerStacks" r c = [] := by
  refine ⟨_, _, rfl, ⟨[], .pipeline, _, _, _, rfl, rfl, rfl, rfl⟩, rfl, rfl⟩

end StopAtFault

end HdlLowering.Run
