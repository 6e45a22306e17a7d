import HdlLowering.Glob
import HdlLowering.Host
import HdlLowering.Settings

/-!
# Design files

The JSON files below a directory that a pattern of the settings matches and no excluding one, by their path from the
directory on.
-/

namespace HdlLowering.Settings

/-- The text of a path below a directory is matched by one of some patterns. -/
def anyAccepts (patterns : List String) (path : String) : Bool :=
  patterns.any fun p => (Glob.parse p).any (Glob.accepts · path)

def selects (s : Settings) (path : String) : Bool :=
  Text.equalFold (Path.extension path) ".json" ∧ anyAccepts s.files path ∧ ¬anyAccepts s.exclude path

def designFiles (s : Settings) (directory : String) (files : List (List String)) : List String :=
  let chosen := (files.map (String.intercalate "/" ·)).filter s.selects
  (chosen.map fun path => Path.join [directory, path]).mergeSort fun a b => decide (a ≤ b)

def resolve {m : Type → Type} [Monad m] [Host m] (s : Settings) (directory : String) : m (List String) := do
  return s.designFiles directory (← Host.filesBelow directory)

end HdlLowering.Settings
