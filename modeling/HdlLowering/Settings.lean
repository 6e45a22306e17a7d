import HdlLowering.DesignRules
import HdlLowering.Json.Reader
import HdlLowering.Json.Writer
import HdlLowering.Path
import HdlLowering.Toml.Document
import HdlLowering.Toml.Writer

/-!
# Settings

Which design files are lowered, how, where the result goes, which design rules count, and what is kept of a run. Settings are
read from JSON or TOML, told apart by the extension of the file. `SettingsFile` is what a file says, and
`SettingsFile.settings` fills in what is left out, empty or not positive.
-/

namespace HdlLowering

open Json

structure Settings where
  files : List String := ["*.fsm.json", "**/*.fsm.json"]
  exclude : List String := []
  separator : String := "__"
  checkTrees : Bool := false
  rounds : Int64 := 2
  stopAfter : String := ""
  format : String := "text"
  outputPath : String := ""
  rulesEnabled : Bool := true
  severities : List (String × String) := []
  timingPath : String := ""
  parallel : Int64 := 0
  snapshotDir : String := ".fsm_lower_cache"
  deriving DecidableEq

structure SettingsFile where
  files : List String := []
  exclude : List String := []
  separator : String := ""
  checkTrees : Option Bool := none
  rounds : Int64 := 0
  stopAfter : String := ""
  format : String := ""
  outputPath : String := ""
  rulesEnabled : Option Bool := none
  severities : List (String × String) := []
  timingPath : String := ""
  parallel : Int64 := 0
  snapshotDir : String := ""
  deriving DecidableEq

namespace SettingsFile

def orElse (value default : String) : String := if value.isEmpty then default else value

def settings (f : SettingsFile) : Settings :=
  let d : Settings := {}
  { files := if f.files.isEmpty then d.files else f.files
    exclude := f.exclude
    separator := orElse f.separator d.separator
    checkTrees := f.checkTrees.getD d.checkTrees
    rounds := if f.rounds ≤ 0 then d.rounds else f.rounds
    stopAfter := f.stopAfter
    format := orElse f.format d.format
    outputPath := f.outputPath
    rulesEnabled := f.rulesEnabled.getD d.rulesEnabled
    severities := f.severities
    timingPath := f.timingPath
    parallel := f.parallel
    snapshotDir := orElse f.snapshotDir d.snapshotDir }

def putSeverity (severities : List (String × String)) (rule severity : String) : List (String × String) :=
  severities.filter (·.1 != rule) ++ [(rule, severity)]

/-! ### JSON -/

/-- Reads the severities of rules; `null` is none, and a rule set to `null` has an empty one. -/
def readSeverities (values : List Json) : Option (List (String × String)) :=
  values.foldlM (fun old v => match v with
    | .obj ms => ms.foldlM (fun acc (rule, v) => (readString [v]).map (putSeverity acc rule)) old
    | .null => some []
    | _ => none) []

def readMembers (ms : Members) : Option SettingsFile := do
  let inputs ← ms.record some "inputs"
  let lowering ← ms.record some "lowering"
  let output ← ms.record some "output"
  let policy ← ms.record some "policy"
  let analysis ← ms.record some "analysis"
  return {
    files := ← inputs.list readString "files"
    exclude := ← inputs.list readString "exclude"
    separator := ← lowering.text "separator"
    checkTrees := ← readBool? (lowering.values "checktrees")
    rounds := ← lowering.int "normalizerounds"
    stopAfter := ← lowering.text "stopafter"
    format := ← output.text "format"
    outputPath := ← output.text "path"
    rulesEnabled := ← readBool? (policy.values "enabled")
    severities := ← readSeverities (policy.values "rules")
    timingPath := ← analysis.text "timingpath"
    parallel := ← analysis.int "maxparallelentities"
    snapshotDir := ← analysis.text "snapshotdir" }

def ofJson (j : Json) : Option SettingsFile := readRecord readMembers [j]

/-! ### TOML -/

open Toml (Value)

/-- A member of a table by its name, or by its name in capital letters. -/
def member? (name : String) : Value → Option Value
  | .table _ members => (members.lookup name).or (members.lookup name.toUpper)
  | _ => none

/-- Reads a member, or keeps the value where there is none. -/
def tomlMember {α : Type} (read : Value → Option α) (name : String) (old : α) (t : Value) : Option α :=
  match member? name t with
  | some v => read v
  | none => some old

/-- Reads a text. An integer beyond a signed word is taken for the code of a character, which it is not. -/
def tomlText : Value → Option String
  | .string s => some s
  | .integer n => if n ≥ Word.limit then some "\ufffd" else none
  | _ => none

def tomlTexts : Value → Option (List String)
  | .array items => items.mapM tomlText
  | _ => none

/-- Reads a number; one beyond a signed word loses its high bits. -/
def tomlInt : Value → Option Int64
  | .integer n => some (Word.low n)
  | _ => none

def tomlBool : Value → Option (Option Bool)
  | .boolean b => some (some b)
  | _ => none

def tomlTable : Value → Option Value
  | .table closed members => some (.table closed members)
  | _ => none

def tomlSeverities : Value → Option (List (String × String))
  | .table _ members => members.mapM fun (rule, v) => (tomlText v).map fun s => (rule, s)
  | _ => none

def ofToml (t : Value) : Option SettingsFile := do
  let empty : Value := .table false []
  let inputs ← tomlMember tomlTable "inputs" empty t
  let lowering ← tomlMember tomlTable "lowering" empty t
  let output ← tomlMember tomlTable "output" empty t
  let policy ← tomlMember tomlTable "policy" empty t
  let analysis ← tomlMember tomlTable "analysis" empty t
  let f : SettingsFile := {}
  return {
    files := ← tomlMember tomlTexts "files" f.files inputs
    exclude := ← tomlMember tomlTexts "exclude" f.exclude inputs
    separator := ← tomlMember tomlText "separator" f.separator lowering
    checkTrees := ← tomlMember tomlBool "check-trees" f.checkTrees lowering
    rounds := ← tomlMember tomlInt "normalize-rounds" f.rounds lowering
    stopAfter := ← tomlMember tomlText "stop-after" f.stopAfter lowering
    format := ← tomlMember tomlText "format" f.format output
    outputPath := ← tomlMember tomlText "path" f.outputPath output
    rulesEnabled := ← tomlMember tomlBool "enabled" f.rulesEnabled policy
    severities := ← tomlMember tomlSeverities "rules" f.severities policy
    timingPath := ← tomlMember tomlText "timing-path" f.timingPath analysis
    parallel := ← tomlMember tomlInt "max-parallel-entities" f.parallel analysis
    snapshotDir := ← tomlMember tomlText "snapshot-dir" f.snapshotDir analysis }

end SettingsFile

namespace Settings

def isToml (path : String) : Bool := Text.equalFold (Path.extension path) ".toml"

def parse (path text : String) : Except Text.Fault Settings := do
  let file ←
    if isToml path then (Toml.parse text).bind fun t => Text.readable (SettingsFile.ofToml t)
    else Text.readable ((Json.parse text).bind SettingsFile.ofJson)
  return file.settings

variable (s : Settings)

def orderedSeverities : List (String × String) :=
  s.severities.mergeSort fun a b => decide (a.1 ≤ b.1)

def textMember {α : Type} (write : String → α) (key value : String) : List (String × α) :=
  if value.isEmpty then [] else [(key, write value)]

def textsMember {α : Type} (write : List String → α) (key : String) (values : List String) : List (String × α) :=
  if values.isEmpty then [] else [(key, write values)]

def intMember {α : Type} (write : Int → α) (key : String) (value : Int64) : List (String × α) :=
  if value = 0 then [] else [(key, write value.toInt)]

def json : Json :=
  let rules := s.orderedSeverities
  .obj [
    ("inputs", .obj (textsMember strings "files" s.files ++ textsMember strings "exclude" s.exclude)),
    ("lowering", .obj (textMember .str "separator" s.separator ++ [("checkTrees", .bool s.checkTrees)] ++
      intMember .int "normalizeRounds" s.rounds ++ textMember .str "stopAfter" s.stopAfter)),
    ("output", .obj (textMember .str "format" s.format ++ textMember .str "path" s.outputPath)),
    ("policy", .obj (("enabled", .bool s.rulesEnabled) ::
      if rules.isEmpty then [] else [("rules", .obj (rules.map fun (rule, severity) => (rule, .str severity)))])),
    ("analysis", .obj (textMember .str "timingPath" s.timingPath ++ intMember .int "maxParallelEntities" s.parallel ++
      textMember .str "snapshotDir" s.snapshotDir))]

def toml : String :=
  let rules := s.orderedSeverities
  Toml.render [
    ("analysis", .table (intMember .integer "max-parallel-entities" s.parallel ++ textMember .string "snapshot-dir" s.snapshotDir ++
      textMember .string "timing-path" s.timingPath)),
    ("inputs", .table (textsMember .strings "exclude" s.exclude ++ textsMember .strings "files" s.files)),
    ("lowering", .table ([("check-trees", .boolean s.checkTrees)] ++ intMember .integer "normalize-rounds" s.rounds ++
      textMember .string "separator" s.separator ++ textMember .string "stop-after" s.stopAfter)),
    ("output", .table (textMember .string "format" s.format ++ textMember .string "path" s.outputPath)),
    ("policy", .table (("enabled", .boolean s.rulesEnabled) ::
      if rules.isEmpty then [] else [("rules", .table (rules.map fun (rule, severity) => (rule, .string severity)))]))]

def fileText (path : String) : String := if isToml path then s.toml else s.json.indented

def severity (rule : Rule) : String := (s.severities.lookup rule.name).getD rule.defaultSeverity

def isOn (rule : Rule) : Bool := s.severities.lookup rule.name ≠ some "off"

end Settings

end HdlLowering
