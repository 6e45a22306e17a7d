/-!
# The surroundings of a run

What a run needs of its surroundings: files, two streams, the working directory, the environment and the time. The same
program runs in the outside world and in a world that is a value. A failed file operation says what was tried, on which path,
and why.
-/

namespace HdlLowering

inductive FileFault where
  | notFound
  | notDirectory
  | isDirectory
  | present
  | other (text : String)
  deriving DecidableEq

def FileFault.message : FileFault → String
  | .notFound => "no such file or directory"
  | .notDirectory => "not a directory"
  | .isDirectory => "is a directory"
  | .present => "file exists"
  | .other text => text

structure FileError where
  action : String
  path : String
  fault : FileFault
  deriving DecidableEq

def FileError.message (e : FileError) : String := e.action ++ " " ++ e.path ++ ": " ++ e.fault.message

inductive EntryKind where
  | file
  | directory
  deriving DecidableEq

def isHidden (name : String) : Bool := name.startsWith "."

class Host (m : Type → Type) where
  kind : String → m (Except FileError EntryKind)
  read : String → m (Except FileError String)
  /-- Makes a file with a text, in place of the file that was there. -/
  write : String → String → m (Except FileError Unit)
  /-- Adds a text at the end of a file, which is made if it is missing. -/
  append : String → String → m (Except FileError Unit)
  makeDirectory : String → m (Except FileError Unit)
  /-- Makes a file with a text under another name and then gives it its name. -/
  replace : String → String → m (Except FileError Unit)
  /-- The files below a directory by their components, without those below a hidden directory. -/
  filesBelow : String → m (List (List String))
  workingDirectory : m String
  /-- The value of an environment variable, empty if it is not set. -/
  environment : String → m String
  print : String → m Unit
  log : String → m Unit
  /-- Reads a line of input, with its line end if it has one. -/
  readLine : m String
  clock : m Nat
  /-- A name for a run that no other run has. -/
  freshName : m String
  /-- Computes a value, before anything that comes after it is done. -/
  compute : {α : Type} → (Unit → α) → m α

end HdlLowering
