import HdlLowering.Host
import HdlLowering.Interchange.Build
import HdlLowering.Netlist.Delta
import HdlLowering.Run.Duration
import HdlLowering.Settings

/-!
# What a run reports

A `Report` has the passes that were run, the diagnostics, the design as it was left and, if every pass was run, its netlist
with what changed and which design rules it breaks. A run may also give an `Error`. Trouble with the timing and snapshot files
(`Trouble`) does not stop it and is one error at the end.
-/

namespace HdlLowering.Run

open Netlist Settings Duration

structure PassReport where
  name : String
  changed : Bool
  errors : Nat
  duration : Nat
  deriving DecidableEq

structure Report where
  design : String
  root : Root
  symbols : SymbolTable
  passes : List PassReport := []
  stoppedAt : Option String := none
  diagnostics : List Diagnostic := []
  netlist : Option Tables := none
  delta : Option Delta := none
  rules : RuleReport := {}

inductive Trouble where
  | timingDisabled (e : FileError)
  | timingFailed (e : FileError)
  | snapshotRead (e : FileError)
  | snapshotParse
  | snapshotDirectory (e : FileError)
  | snapshotWrite (e : FileError)
  deriving DecidableEq

def Trouble.message : Trouble → String
  | .timingDisabled e => "timing output disabled: " ++ e.message
  | .timingFailed e => "timing output failed: " ++ e.message
  | .snapshotRead e => "netlist snapshot load failed: read netlist snapshot: " ++ e.message
  | .snapshotParse => "netlist snapshot load failed: parse netlist snapshot"
  | .snapshotDirectory e => "netlist snapshot save failed: write netlist snapshot: snapshot dir: " ++ e.message
  | .snapshotWrite e =>
    let stage := if e.action = "rename" then "rename snapshot file: " else "temp snapshot file: "
    "netlist snapshot save failed: write netlist snapshot: " ++ stage ++ e.message

inductive Error where
  | reading (e : FileError)
  | designContract
  | parsing (design : String)
  | decoding (design : String) (e : Interchange.BuildError)
  | aborted (pass : String) (a : Abort)
  | stopped (pass : String) (errors : Nat)
  | netlist (e : NestedEntity)
  | netlistContract
  | troubles (ts : List Trouble)
  | output (e : FileError)

def Error.message : Error → String
  | .reading e => "reading design: " ++ e.message
  | .designContract => "CRITICAL: design contract violation (upstream -> fsm-lower mismatch)"
  | .parsing design => "decoding " ++ design ++ ": parsing design"
  | .decoding design e => "decoding " ++ design ++ ": " ++ e.message
  | .aborted pass a => pass ++ ": " ++ a.message
  | .stopped pass errors => s!"lowering stopped after {pass}: {errors} error(s)"
  | .netlist e => "building netlist: " ++ e.message
  | .netlistContract => "CRITICAL: netlist contract violation (lowering -> emission mismatch)"
  | .troubles ts => "pipeline errors:\n" ++ String.intercalate "\n" (ts.map fun t => "- " ++ t.message)
  | .output e => "creating output: " ++ e.message

/-! ### As JSON -/

def locJson (l : Loc) : Json :=
  .obj (textMember .str "file" l.file ++ intMember .int "line" l.line ++ intMember .int "col" l.col)

def diagnosticJson (d : Diagnostic) : Json :=
  .obj ([("severity", .nat d.severity.rank)] ++ textMember .str "pass" d.pass ++
    [("loc", locJson d.loc), ("message", .str d.message)])

def PassReport.json (p : PassReport) : Json :=
  .obj [("name", .str p.name), ("changed", .bool p.changed), ("errors", .nat p.errors),
    ("duration_ms", .num (millis p.duration))]

def violationJson (v : Violation) : Json :=
  .obj [("rule", .str v.rule), ("severity", .str v.severity), ("entity", .str v.entity), ("file", .str v.file),
    ("line", .int64 v.line), ("message", .str v.message)]

def summaryJson (s : RuleSummary) : Json :=
  .obj [("total_violations", .nat s.total), ("errors", .nat s.errors), ("warnings", .nat s.warnings), ("info", .nat s.info)]

def rulesMembers (r : RuleReport) : List (String × Json) :=
  [("violations", .arr (r.violations.map violationJson)), ("summary", summaryJson r.summary)]

/-- A report as JSON; no diagnostics are `null`. -/
def Report.json (r : Report) : Json :=
  .obj ([("design", .str r.design), ("passes", .arr (r.passes.map PassReport.json))] ++
    (r.stoppedAt.map fun pass => ("stopped_at", Json.str pass)).toList ++
    [("diagnostics", if r.diagnostics.isEmpty then .null else .arr (r.diagnostics.map diagnosticJson))] ++
    (r.netlist.map fun t => ("netlist", t.json)).toList ++ (r.delta.map fun d => ("delta", d.json)).toList ++
    rulesMembers r.rules)

/-! ### As text -/

def violationLine (v : Violation) : String :=
  let icon := if v.severity = "error" then "✗" else if v.severity = "warning" then "⚠" else "ℹ"
  s!"{icon} [{v.rule}] {v.file}:{v.line.toInt} - {v.message}\n"

def netlistText (t : Tables) (delta : Option Delta) : String :=
  s!"\n=== Netlist Summary ===\n  Entities:  {t.entities.length}\n  Ports:     {t.ports.length}\n" ++
    s!"  Instances: {t.instances.length}\n  Connects:  {t.connects.length}\n" ++
    (delta.map fun d => s!"  Changed:   +{d.added.size} -{d.removed.size} rows\n").getD ""

def Report.summaryText (r : Report) : String :=
  let errors := (r.diagnostics.filter (·.severity.isError)).length + r.rules.summary.errors
  let warnings := (r.diagnostics.filter (!·.severity.isError)).length + r.rules.summary.warnings
  (if r.rules.violations.isEmpty then ""
    else "\n=== Design Rule Violations ===\n" ++ String.join (r.rules.violations.map violationLine)) ++
  (r.netlist.map fun t => netlistText t r.delta).getD "" ++
  s!"\n=== Lowering Summary ===\n  Passes:   {r.passes.length}\n" ++
  (r.stoppedAt.map fun pass => s!"  Stopped:  after {pass}\n").getD "" ++
  s!"  Errors:   {errors}\n  Warnings: {warnings}\n"

def timingLine (label : String) (duration : Nat) (mark : String) : String :=
  let padded := label ++ String.ofList (List.replicate (22 - label.length) ' ')
  "  " ++ padded ++ " " ++ text (rounded duration) ++ mark ++ "\n"

def Report.timingText (r : Report) (total : Nat) : String :=
  "\n=== Timing Summary ===\n" ++
  String.join (r.passes.map fun p => timingLine (p.name ++ ":") p.duration (if p.changed then "" else " (unchanged)")) ++
  timingLine "total:" total ""

def Report.treeText (r : Report) : String := r.root.text r.symbols

/-- What a run writes: the netlist if the settings ask for it and there is one, and otherwise the lowered
design. -/
def Report.outputText (r : Report) (format : String) : String :=
  match format, r.netlist with
  | "json", some t => t.json.indented ++ "\n"
  | _, _ => r.treeText

end HdlLowering.Run
