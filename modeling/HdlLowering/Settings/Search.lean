import HdlLowering.Host
import HdlLowering.Settings

/-!
# Finding and keeping settings

Settings are looked for in the working directory, in the directory that is lowered, and in the home directory. The first file
that is there decides, even if it cannot be read.
-/

namespace HdlLowering.Settings

open Host Path

variable {m : Type → Type} [Monad m] [Host m]

inductive Error where
  | reading (e : FileError)
  | parsing (f : Text.Fault)
  | writing (e : FileError)
  deriving DecidableEq

def Error.message : Error → String
  | .reading e => "reading config file: " ++ e.message
  | .parsing f => "parsing config file: " ++ f.message
  | .writing e => "writing config file: " ++ e.message

def fileNames : List String := ["fsm_lower.json", ".fsm_lower.json", "fsm_lower.toml"]

def loadFile (path : String) : m (Except Error Settings) := do
  match ← read path with
  | .error e => return .error (.reading e)
  | .ok text => return (parse path text).mapError .parsing

def isDirectory (path : String) : m Bool := do return (← kind path).toOption = some .directory

def absolute (path : String) : m String := do
  if isAbsolute path then return clean path
  else return join [← workingDirectory, path]

def searchPaths (path : String) : m (List String) := do
  let here ← workingDirectory
  let there ← isDirectory path
  let place ← absolute path
  let home ← environment "HOME"
  return fileNames.map (fun name => join [here, name]) ++
    (if there ∧ place ≠ here then fileNames.map (fun name => join [path, name]) else []) ++
    (if home.isEmpty then [] else [join [home, ".config", "fsm_lower", "config.json"]])

def loadFirst : List String → m (Except Error Settings)
  | [] => return .ok {}
  | path :: paths => do
    match ← kind path with
    | .ok _ => loadFile path
    | .error _ => loadFirst paths

def load (path : String) : m (Except Error Settings) := do loadFirst (← searchPaths path)

def save (s : Settings) (path : String) : m (Except Error Unit) := do
  match ← write path (s.fileText path) with
  | .ok _ => return .ok ()
  | .error e => return .error (.writing e)

end HdlLowering.Settings
