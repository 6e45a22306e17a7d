import HdlLowering.Contract.Design
import HdlLowering.Contract.Netlist
import HdlLowering.Lowering.Sequence
import HdlLowering.Netlist.Snapshot
import HdlLowering.Run.Report
import HdlLowering.Run.Timing

/-!
# Running the lowering

`Run.lower` takes the text of a design through its contract, the passes in order, the netlist and its contract, the
difference to the run before, and the design rules; `Run.run` also writes the result and a summary. The passes end early when
one is aborted, when one reports an error, or when the settings ask for it.
-/

namespace HdlLowering.Run

open Host Path Netlist.Snapshot Netlist

variable {m : Type → Type} [Monad m] [Host m]

structure Options where
  settings : Settings := {}
  verbose : Bool := false
  json : Bool := false
  dump : Bool := false

structure Outcome where
  report : Option Report := none
  error : Option Error := none

inductive Ending where
  | finished
  | aborted (pass : String) (a : Abort)
  | failed (pass : String)
  | requested (pass : String)
  deriving DecidableEq

def Ending.stoppedAt : Ending → Option String
  | .finished => none
  | .aborted pass _ => some pass
  | .failed pass => some pass
  | .requested pass => some pass

/-- The passes that were run, and the design, the context and the timing log after them. -/
structure Course where
  root : Root
  ctx : Context
  timing : Option TimingLog
  passes : List PassReport := []
  ending : Ending := .finished

def showNew (o : Options) (before after : Context) : m Unit := do
  unless o.json do
    log (String.join ((after.reporter.diagnostics.drop before.reporter.diagnostics.length).map (·.display)))

def Course.after (c : Course) (step : Step) (out : Step.Outcome) (stopAfter : String) (duration : Nat) : Course :=
  let report (changed : Bool) : PassReport :=
    { name := step.name, changed, errors := out.ctx.reporter.errorCount - c.ctx.reporter.errorCount, duration }
  match out.result with
  | .error a => { c with ctx := out.ctx, passes := c.passes ++ [report false], ending := .aborted step.name a }
  | .ok root? =>
    let ending : Ending :=
      if !out.ctx.reporter.proceed then .failed step.name
      else if stopAfter ≠ "" ∧ stopAfter = step.name then .requested step.name
      else .finished
    { c with root := root?.getD c.root, ctx := out.ctx, passes := c.passes ++ [report root?.isSome], ending }

def passStatus : Except Abort (Option Root) → String
  | .error _ => "aborted"
  | .ok none => "unchanged"
  | .ok (some _) => "ok"

def runPasses (o : Options) (design : String) : List Step → Course → m Course
  | [], c => return c
  | step :: steps, c => do
    let start ← clock
    let out ← compute fun _ => step.run {} c.ctx c.root
    let duration := (← clock) - start
    showNew o c.ctx out.ctx
    let timing ← record c.timing { kind := "pass", phase := step.name, design, status := passStatus out.result, start, duration }
    let c' := { c.after step out o.settings.stopAfter duration with timing }
    if o.dump ∧ out.result.toOption.isSome then
      log ("=== after " ++ step.name ++ " ===\n" ++ c'.root.text c'.ctx.symbols ++ "\n")
    match c'.ending with
    | .finished => runPasses o design steps c'
    | _ => return c'

def readDesign (c : Context) (name text : String) : Except Error (Root × Context) :=
  match Interchange.File.parse text with
  | none => .error (.parsing name)
  | some file =>
    match file.build c with
    | .ok x => .ok x
    | .error e => .error (.decoding name e)

def isOnWord (word : String) : Bool := ["1", "true", "yes", "on"].contains (Text.trim word).toLower

def startContext (s : Settings) : m Context := do
  let word ← environment "FSM_LOWER_CHECK_TREES"
  return Context.new s.separator (s.checkTrees || isOnWord word)

def snapshotPath (directory design : String) : String :=
  join [directory, base design ++ suffix]

def loadSnapshot (directory design : String) : m (Except Trouble (Option Tables)) := do
  match ← read (snapshotPath directory design) with
  | .error e => return if e.fault = .notFound then .ok none else .error (.snapshotRead e)
  | .ok text =>
    match parse text with
    | none => return .error .snapshotParse
    | some s => return .ok (s.tablesOf? design)

def saveSnapshot (directory design : String) (t : Tables) : m (Except Trouble Unit) := do
  let path := snapshotPath directory design
  match ← makeDirectory (dir path) with
  | .error e => return .error (.snapshotDirectory e)
  | .ok _ =>
    match ← replace path (ofTables design t).text with
    | .error e => return .error (.snapshotWrite e)
    | .ok _ => return .ok ()

def troubleOf {α : Type} : Except Trouble α → List Trouble
  | .ok _ => []
  | .error t => [t]

/-- What changed since the netlist that was kept, and the trouble with keeping the new one. -/
def compareSnapshot (directory design : String) (t : Tables) : m (Option Delta × List Trouble) := do
  let old ← loadSnapshot directory design
  let saved ← saveSnapshot directory design t
  let delta := match old with
    | .ok (some kept) => some (Netlist.Delta.between kept t)
    | _ => none
  return (delta, troubleOf old ++ troubleOf saved)

/-- A run that is under way: its report, its timing log and its trouble so far. -/
structure Progress where
  report : Report
  timing : Option TimingLog
  troubles : List Trouble
  start : Nat

def Progress.finish (p : Progress) (error : Option Error) : m Outcome := do
  let timing ← recordStage p.timing "total" "" p.start
  let troubles := p.troubles ++ ((timing.bind (·.fault)).map Trouble.timingFailed).toList
  let trouble := if troubles.isEmpty then none else some (.troubles troubles)
  return { report := some p.report, error := error.or trouble }

def Progress.compare (p : Progress) (s : Settings) (t : Tables) : m Progress := do
  if s.snapshotDir.isEmpty then return p
  else
    let start ← clock
    let (delta, troubles) ← compareSnapshot s.snapshotDir p.report.design t
    let timing ← recordStage p.timing "delta" (if delta.isSome then "delta" else "initial") start
    return { p with report := { p.report with delta }, timing, troubles := p.troubles ++ troubles }

def Progress.evaluate (p : Progress) (s : Settings) (t : Tables) : m Progress := do
  if !s.rulesEnabled then return p
  else
    let start ← clock
    let rules := DesignRules.evaluate t s.severity
    let timing ← recordStage p.timing "policy" "" start
    return { p with report := { p.report with rules }, timing }

def Progress.emit (p : Progress) (o : Options) : m Outcome := do
  let start ← clock
  match Netlist.Tables.ofRoot p.report.symbols p.report.root with
  | .error e => p.finish (some (.netlist e))
  | .ok t =>
    let timing ← recordStage p.timing "netlist" "" start
    let p := { p with report := { p.report with netlist := some t }, timing }
    let start ← clock
    if !Contract.netlistAdmits t.json.compact then p.finish (some .netlistContract)
    else
      let timing ← recordStage p.timing "validate_netlist" "" start
      let p ← { p with timing }.compare o.settings t
      let p ← p.evaluate o.settings t
      let out ← p.finish none
      if o.verbose ∧ !o.json then
        log (p.report.timingText ((← clock) - p.start))
      return out

def lower (o : Options) (name text : String) : m Outcome := do
  let start ← clock
  let opened ← openTiming o.settings start
  let troubles := match opened with
    | .ok _ => []
    | .error e => [.timingDisabled e]
  if !Contract.designAdmits text then return { error := some .designContract }
  else
    let timing ← recordStage (opened.toOption.getD none) "validate_design" "" start
    let readStart ← clock
    let ctx ← startContext o.settings
    match readDesign ctx name text with
    | .error e => return { error := some e }
    | .ok (root, ctx) =>
      let timing ← recordStage timing "decode" "" readStart
      let c ← runPasses o name (Step.lowering o.settings.rounds) { root, ctx, timing }
      let report : Report :=
        { design := name, root := c.root, symbols := c.ctx.symbols, passes := c.passes, stoppedAt := c.ending.stoppedAt
          diagnostics := c.ctx.reporter.diagnostics }
      let p : Progress := { report, timing := c.timing, troubles, start }
      match c.ending with
      | .finished => p.emit o
      | .aborted pass a => p.finish (some (.aborted pass a))
      | .failed pass => p.finish (some (.stopped pass c.ctx.reporter.errorCount))
      | .requested _ => p.finish none

def lowerFile (o : Options) (path : String) : m Outcome := do
  match ← read path with
  | .error e => return { error := some (.reading e) }
  | .ok text => lower o (base path) text

def writeOutput (s : Settings) (r : Report) : m (Option Error) := do
  let text := r.outputText s.format
  if s.outputPath.isEmpty then
    print text
    return none
  else match ← write s.outputPath text with
    | .ok _ => return none
    | .error e => return some (.output e)

def Report.stoppedOnRequest (r : Report) (s : Settings) : Bool := r.stoppedAt.any (· = s.stopAfter)

/-- Lowers the design in a file, writes the result and a summary, and gives the error. -/
def run (o : Options) (path : String) : m (Option Error) := do
  let out ← lowerFile o path
  match out.report with
  | none => return out.error
  | some r =>
    if o.json then
      print (r.json.indented ++ "\n")
      return out.error
    else
      if let some (.aborted _ a) := out.error then
        log a.display
      let written ← if out.error.isNone ∨ r.stoppedOnRequest o.settings then writeOutput o.settings r else pure none
      match written with
      | some e => return some e
      | none =>
        log r.summaryText
        return out.error

end HdlLowering.Run
