import HdlLowering.Command.Flags
import HdlLowering.Command.Notice
import HdlLowering.Run
import HdlLowering.Settings.Inputs
import HdlLowering.Settings.Search

/-!
# The command that lowers designs

`fsm-lower` lowers a design file or all design files of a directory; `fsm-lower init` writes the usual settings.
-/

namespace HdlLowering.Command.Lower

open Run Host Text Settings Step Path Notice

variable {m : Type → Type} [Monad m] [Host m]

/-- How a command ends: with an exit code, or by watching files that are lowered again when they change. -/
inductive Ending where
  | exit (code : UInt8)
  | watch (options : Options) (files : List String)

def usage : String :=
"Usage: fsm-lower [options] <design.json | dir>
       fsm-lower init [config.json | config.toml]

Options:
  -v                 Print per-pass timing
  -c <file>          Use this config file
  --json             Write the full result (passes, diagnostics, netlist) as JSON
  --dump             Print the tree after every pass
  --watch            Lower again whenever an input file changes
  --stop-after <p>   Stop after pass p
  --format <f>       \"text\" (lowered tree) or \"json\" (netlist tables)
  -o <file>          Write output to file

Configuration:
  fsm-lower looks for configuration in:
    1. ./fsm_lower.json, ./.fsm_lower.json, ./fsm_lower.toml
    2. the same names under <dir>
    3. ~/.config/fsm_lower/config.json

Environment:
  FSM_LOWER_CHECK_TREES=1       Run invariant checks after every pass
  FSM_LOWER_TIMING_JSONL=<file> Append per-pass timing events
"

def flags : List Flag :=
  [⟨"v", .switch, ""⟩, ⟨"c", .text, ""⟩, ⟨"json", .switch, ""⟩, ⟨"dump", .switch, ""⟩, ⟨"watch", .switch, ""⟩,
    ⟨"stop-after", .text, ""⟩, ⟨"format", .text, ""⟩, ⟨"o", .text, ""⟩]

def writeSettings (path : String) : m UInt8 := do
  let agreed ← do
    if (← kind path).toOption.isNone then pure true
    else
      print ("Config file " ++ path ++ " already exists. Overwrite? [y/N]: ")
      let word := firstWord (← readLine)
      pure (decide (word = "y" ∨ word = "Y"))
  if !agreed then
    print "Aborted.\n"
    return 0
  else match ← save {} path with
    | .error e =>
      log ("Error creating config: " ++ e.message ++ "\n")
      return 1
    | .ok _ =>
      print (success.text ("Created " ++ path) ++
        "\nEdit this file to configure:\n  - Design file patterns\n  - Pass pipeline options\n  - Design rule severities\n")
      return 0

/-- The settings for a design or a directory. Settings that are asked for must be there; others that cannot be
loaded are passed over. -/
def loadSettings (file path : String) : m (Except Settings.Error Settings) := do
  if !file.isEmpty then Settings.loadFile file
  else match ← Settings.load path with
    | .ok s => return .ok s
    | .error e =>
      Host.print (warning.text ("Could not load config: " ++ e.message ++ " (using defaults)"))
      return .ok {}

/-- The settings with what the flags say; the pass to stop after must be known. -/
def withFlags (s : Settings) (a : Arguments) : Except String Settings :=
  let chosen (flag old : String) : String := if (a.text flag).isEmpty then old else a.text flag
  let stop := a.text "stop-after"
  if stop.isEmpty ∨ (ofName? stop).isSome then
    .ok { s with
      stopAfter := chosen "stop-after" s.stopAfter, format := chosen "format" s.format
      outputPath := chosen "o" s.outputPath }
  else
    .error ("unknown pass " ++ quoted stop ++ " (passes: [" ++ String.intercalate " " (all.map (·.name)) ++ "])")

def placeSnapshots (s : Settings) (path : String) : m Settings := do
  if s.snapshotDir.isEmpty ∨ isAbsolute s.snapshotDir then return s
  else
    let root := if ← isDirectory path then path else dir path
    return { s with snapshotDir := join [root, s.snapshotDir] }

def inputs (s : Settings) (path : String) : m (Except String (List String)) := do
  match ← kind path with
  | .error e => return .error e.message
  | .ok .file => return .ok [path]
  | .ok .directory =>
    let files ← s.resolve path
    return if files.isEmpty then .error ("no design files under " ++ path) else .ok files

def lowerAll (o : Run.Options) (several : Bool) : List String → m Bool
  | [] => return true
  | file :: files => do
    if several ∧ !o.json then
      Host.print (Notice.info.text ("Lowering " ++ file))
    let error ← Run.run o file
    if let some e := error then
      Host.print (Notice.error.text (file ++ ": " ++ e.message))
    let rest ← lowerAll o several files
    return error.isNone && rest

def stop (message : String) (code : UInt8) : m Ending := do
  log message
  return .exit code

def lowerPath (a : Arguments) (path : String) : m Ending := do
  match ← loadSettings (a.text "c") path with
  | .error e => stop ("Error loading config: " ++ e.message ++ "\n") 1
  | .ok s =>
    match withFlags s a with
    | .error e => stop ("Error: " ++ e ++ "\n") 1
    | .ok s =>
      let settings ← placeSnapshots s path
      match ← inputs settings path with
      | .error e => stop ("Error: " ++ e ++ "\n") 1
      | .ok files =>
        let o : Options := { settings, verbose := a.isOn "v", json := a.isOn "json", dump := a.isOn "dump" }
        let ok ← lowerAll o (decide (files.length > 1)) files
        return if a.isOn "watch" then .watch o files else .exit (if ok then 0 else 1)

def run (arguments : List String) : m Ending := do
  match arguments with
  | "init" :: rest => return .exit (← writeSettings (rest.headD "fsm_lower.json"))
  | _ =>
    match parseFlags flags [] arguments with
    | .error e => stop (e.message ++ usage) e.exitCode
    | .ok a =>
      match a.rest with
      | [] => stop usage 1
      | path :: _ => lowerPath a path

end HdlLowering.Command.Lower
