import HdlLowering.Run

/-!
# Runs with a record of what they put out

`Recorder` is a host that hands everything on to another one and keeps a record of what is printed and which files are made.
-/

namespace HdlLowering.Run

open Host

variable {m : Type → Type} [Monad m] [Host m] {α β : Type} {g : α → m β}

/-- Something that is put out: a text that is printed, or a file that is made. -/
inductive Deed where
  | print (text : String)
  | write (path text : String)
  deriving DecidableEq

/-- A host that keeps a record of what is put out through it. -/
abbrev Recorder (m : Type → Type) := StateT (List Deed) m

def note (d : Deed) : Recorder m Unit := modify (· ++ [d])

instance : Host (Recorder m) where
  kind path := liftM (kind path : m _)
  read path := liftM (read path : m _)
  write path text := do
    note (.write path text)
    liftM (write path text : m _)
  append path text := liftM (append path text : m _)
  makeDirectory path := liftM (makeDirectory path : m _)
  replace path text := liftM (replace path text : m _)
  filesBelow path := liftM (filesBelow path : m _)
  workingDirectory := liftM (workingDirectory : m _)
  environment name := liftM (environment name : m _)
  print text := do
    note (.print text)
    liftM (print text : m _)
  log text := liftM (log text : m _)
  readLine := liftM (readLine : m _)
  clock := liftM (clock : m _)
  freshName := liftM (freshName : m _)
  compute f := liftM (compute f : m _)

/-! ## Steps that put nothing out -/

variable [LawfulMonad m]

def Does (ds : List Deed) (x : Recorder m α) (y : m α) : Prop := ∀ deeds, x.run deeds = (fun a => (a, deeds ++ ds)) <$> y

abbrev Silent (x : Recorder m α) (y : m α) : Prop := Does [] x y

section

omit [Host m]

theorem Does.bind {ds ds' : List Deed} {x : Recorder m α} {y : m α} {f : α → Recorder m β} (hx : Does ds x y)
    (hf : ∀ a, Does ds' (f a) (g a)) : Does (ds ++ ds') (x >>= f) (y >>= g) := by
  intro deeds
  rw [StateT.run_bind, hx deeds]
  simp [hf _ _]

theorem note_does (d : Deed) (y : m α) : Does [d] (do note d; liftM y : Recorder m α) y := by
  intro deeds
  simp [note, liftM, monadLift, MonadLift.monadLift]

namespace Silent

theorem pure (a : α) : Silent (pure a : Recorder m α) (pure a) := fun deeds => by simp

theorem lift (y : m α) : Silent (liftM y : Recorder m α) y := fun deeds => by simp [liftM, monadLift, MonadLift.monadLift]

theorem bind {x : Recorder m α} {y : m α} {f : α → Recorder m β} (hx : Silent x y) (hf : ∀ a, Silent (f a) (g a)) :
    Silent (x >>= f) (y >>= g) := Does.bind hx hf

end Silent

end

/-! ## What a run puts out -/

def Report.deed (r : Report) (s : Settings) : Deed :=
  if s.outputPath.isEmpty then .print (r.outputText s.format) else .write s.outputPath (r.outputText s.format)

def Options.deeds (o : Options) (out : Outcome) : List Deed :=
  match out.report with
  | none => []
  | some r =>
    if o.json then [.print (r.json.indented ++ "\n")]
    else if out.error.isNone ∨ r.stoppedOnRequest o.settings then [r.deed o.settings]
    else []

def conclude (o : Options) (out : Outcome) : m (Option Error) := do
  match out.report with
  | none => return out.error
  | some r =>
    if o.json then
      print (r.json.indented ++ "\n")
      return out.error
    else
      if let some (.aborted _ a) := out.error then
        log a.display
      let written ← if out.error.isNone ∨ r.stoppedOnRequest o.settings then writeOutput o.settings r else pure none
      match written with
      | some e => return some e
      | none =>
        log r.summaryText
        return out.error

theorem writeOutput_does (s : Settings) (r : Report) : Does [r.deed s] (writeOutput s r : Recorder m _) (writeOutput s r) := by
  unfold writeOutput Report.deed
  dsimp only
  split
  · exact (note_does _ _).bind fun _ => Silent.pure _
  · refine (note_does _ _).bind fun r => (?_ : Silent _ _)
    cases r <;> exact .pure _

/-- What a run puts out after the lowering is decided by the outcome of the lowering. -/
theorem conclude_does (o : Options) (out : Outcome) : Does (o.deeds out) (conclude o out : Recorder m _) (conclude o out) := by
  obtain ⟨report, error⟩ := out
  unfold conclude Options.deeds
  cases report with
  | none => exact Silent.pure _
  | some r =>
    dsimp only
    split
    · exact (note_does _ _).bind fun _ => Silent.pure _
    · have hlast (written : Option Error) : Silent
          (match written with
            | some e => pure (some e)
            | none => do
              log r.summaryText
              return error : Recorder m (Option Error))
          (match written with
            | some e => pure (some e)
            | none => do
              log r.summaryText
              return error : m (Option Error)) := by
        cases written with
        | some e => exact .pure _
        | none => exact .bind (.lift _) fun _ => .pure _
      -- The output is written or not, and before that an abort is shown or not.
      split
      · have hwrite := (writeOutput_does (m := m) o.settings r).bind hlast
        split
        · exact Does.bind (Silent.lift _) fun _ => hwrite
        · exact hwrite
      · split
        · exact Silent.bind (.lift _) fun _ => .bind (.pure _) hlast
        · exact Silent.bind (.pure _) hlast

end HdlLowering.Run
