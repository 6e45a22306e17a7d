import HdlLowering.Command.Flags
import HdlLowering.Run
import HdlLowering.Settings.Search

/-!
# The command that writes netlists

`fsm-netlist` writes the netlist of a design or of some of its entities, and perhaps what changed since an earlier one.
-/

namespace HdlLowering.Command.Export

open Host Netlist

variable {m : Type → Type} [Monad m] [Host m]

def usage : String :=
  "Usage: fsm-netlist [--output file] [--entities a,b] [--delta-from prev.json --delta-out delta.json] <design.json>\n"

def flags : List Flag :=
  [⟨"delta-from", .text, "previous netlist JSON to compute delta from"⟩,
    ⟨"delta-out", .text, "write delta JSON to file (requires --delta-from)"⟩,
    ⟨"entities", .text, "comma-separated entity names to keep"⟩,
    ⟨"o", .text, "write netlist JSON to file (shorthand)"⟩,
    ⟨"output", .text, "write netlist JSON to file (default: stdout)"⟩]

/-- The file that the netlist goes to: the flag has two names, and the last one given counts. -/
def outputPath (a : Arguments) : String := ((a.given.find? fun (name, _) => name = "o" ∨ name = "output").map (·.2)).getD ""

def keptEntities (a : Arguments) : Option (List String) :=
  let names := a.text "entities"
  if names.isEmpty then none else some (((names.splitOn ",").map Text.trim).filter (!·.isEmpty))

def document (j : Json) : String := j.indented ++ "\n"

def failWith (message : String) : m UInt8 := do
  log ("Error" ++ message ++ "\n")
  return 1

def readTables (path : String) : m (Except String Tables) := do
  match ← read path with
  | .error e => return .error (": " ++ e.message)
  | .ok text => return ((Json.parseFirst text).bind fun (j, _) => Netlist.Tables.read j).elim (.error "") .ok

def writeDelta (source target : String) (keep : Option (List String)) (t : Tables) : m UInt8 := do
  if source.isEmpty ∧ target.isEmpty then return 0
  else if source.isEmpty ∨ target.isEmpty then failWith ": --delta-from and --delta-out must be used together"
  else match ← readTables source with
    | .error e => failWith (" reading delta-from" ++ e)
    | .ok old =>
      let delta := Netlist.Delta.between old t
      let kept := (keep.map delta.ofEntities).getD delta
      match ← write target (document kept.json) with
      | .ok _ => return 0
      | .error e => failWith (" writing delta: " ++ e.message)

def writeNetlist (a : Arguments) (t : Tables) : m UInt8 := do
  let keep := keptEntities a
  let text := document ((keep.map t.ofEntities).getD t).json
  let path := outputPath a
  let written ← if path.isEmpty then Except.ok <$> print text else write path text
  match written with
  | .error e => failWith (" writing netlist: " ++ e.message)
  | .ok _ => writeDelta (a.text "delta-from") (a.text "delta-out") keep t

def lowerPath (a : Arguments) (path : String) : m UInt8 := do
  match ← Settings.load path with
  | .error e => failWith (" loading config: " ++ e.message)
  | .ok s =>
    let out ← Run.lowerFile { settings := { s with stopAfter := "", snapshotDir := "" } } path
    match out.error, out.report.bind (·.netlist) with
    | some e, _ => failWith (": " ++ e.message)
    | none, some t => writeNetlist a t
    | none, none => return 0

def run (arguments : List String) : m UInt8 := do
  match parseFlags flags [] arguments with
  | .error e =>
    log (e.message ++ "Usage of fsm-netlist:\n" ++ usageLines flags)
    return e.exitCode
  | .ok a =>
    match a.rest with
    | [] =>
      log usage
      return 1
    | path :: _ => lowerPath a path

end HdlLowering.Command.Export
