import HdlLowering.Host
import HdlLowering.Run.Duration
import HdlLowering.Settings

/-!
# The timing log

A run may add a line of JSON for each of its stages and passes to a file. Once a line cannot be written, none is tried.
-/

namespace HdlLowering.Run

open Settings Duration Host

variable {m : Type → Type} [Monad m] [Host m]

/-- A timing log that has been opened: its path, the name and the start of the run, and why a line could not be
written. -/
structure TimingLog where
  path : String
  run : String
  start : Nat
  fault : Option FileError := none

structure TimingEvent where
  kind : String
  phase : String
  design : String := ""
  status : String := ""
  start : Nat
  duration : Nat

def TimingEvent.line (e : TimingEvent) (run : String) (origin : Nat) : String :=
  (Json.obj ([("run", .str run), ("kind", .str e.kind), ("phase", .str e.phase)] ++
    textMember .str "design" e.design ++ textMember .str "status" e.status ++
    [("start_ms", .num (millis (e.start - origin))),
      ("duration_ms", .num (millis e.duration))])).compact ++ "\n"

def timingPath (s : Settings) : m String := do
  let path ← environment "FSM_LOWER_TIMING_JSONL"
  return if path.isEmpty then s.timingPath else path

def openTiming (s : Settings) (start : Nat) : m (Except FileError (Option TimingLog)) := do
  let path ← timingPath s
  if path.isEmpty then return .ok none
  else match ← append path "" with
    | .error e => return .error e
    | .ok _ => return .ok (some { path, run := ← freshName, start })

def TimingLog.record (log : TimingLog) (e : TimingEvent) : m TimingLog := do
  if log.fault.isSome then return log
  else match ← append log.path (e.line log.run log.start) with
    | .ok _ => return log
    | .error fault => return { log with fault := some fault }

def record (log : Option TimingLog) (e : TimingEvent) : m (Option TimingLog) :=
  match log with
  | none => return none
  | some l => do return some (← l.record e)

def recordStage (log : Option TimingLog) (phase status : String) (start : Nat) : m (Option TimingLog) := do
  let now ← clock
  record log { kind := "stage", phase, status, start, duration := now - start }

end HdlLowering.Run
