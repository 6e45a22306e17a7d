import HdlLowering.Host
import HdlLowering.Path

/-!
# A world that is a value

A `World` holds files and directories, a working directory, an environment, the input that is left and what was printed.
`StateM World` is a host in which time stands still. A path is followed one component at a time, and each but the last must be
a directory, also before `..`.
-/

namespace HdlLowering

open Path

abbrev Place := List String

structure World where
  files : List (Place × String) := []
  directories : List Place := []
  current : Place := []
  environment : List (String × String) := []
  input : List Char := []
  printed : String := ""
  logged : String := ""

inductive WorldEntry where
  | file (text : String)
  | directory
  deriving DecidableEq

namespace World

variable (w : World)

/-- The entry at a place; the root is a directory. -/
def entry? (p : Place) : Option WorldEntry :=
  if p.isEmpty ∨ w.directories.contains p then some .directory else (w.files.lookup p).map .file

def step (p : Place) (component : String) : Except FileFault Place :=
  match w.entry? p with
  | none => .error .notFound
  | some (.file _) => .error .notDirectory
  | some .directory =>
    if component.isEmpty ∨ component = "." then .ok p
    else if component = ".." then .ok p.dropLast
    else .ok (p ++ [component])

variable (path : String)

/-- The place a path leads to, where nothing need be yet. -/
def locate : Except FileFault Place :=
  if path.isEmpty then .error .notFound
  else (path.splitOn "/").foldlM w.step (if isAbsolute path then [] else w.current)

def find : Except FileFault WorldEntry := do
  match w.entry? (← w.locate path) with
  | some e => .ok e
  | none => .error .notFound

def kind : Except FileError EntryKind :=
  match w.find path with
  | .ok .directory => .ok .directory
  | .ok (.file _) => .ok .file
  | .error fault => .error ⟨"stat", path, fault⟩

def read : Except FileError String :=
  match w.find path with
  | .ok (.file text) => .ok text
  | .ok .directory => .error ⟨"read", path, .isDirectory⟩
  | .error fault => .error ⟨"open", path, fault⟩

def putFile (p : Place) (text : String) : World :=
  if (w.files.lookup p).isSome then { w with files := w.files.map fun (q, old) => (q, if q = p then text else old) }
  else { w with files := w.files ++ [(p, text)] }

/-- The place where a path makes a file. A path with a slash at its end names a directory. -/
def target : Except FileFault Place := do
  let p ← w.locate (if path.all (· = '/') then path else trimSlashes path)
  if path.endsWith "/" ∨ w.entry? p = some .directory then .error .isDirectory else .ok p

def change (f : String → String) : Except FileError World :=
  match w.target path with
  | .ok p => .ok (w.putFile p (f ((w.files.lookup p).getD "")))
  | .error fault => .error ⟨"open", path, fault⟩

def makeOne : Except FileError World :=
  match w.locate (trimSlashes path) with
  | .error fault => .error ⟨"mkdir", path, fault⟩
  | .ok p =>
    if (w.entry? p).isSome then .error ⟨"mkdir", path, .present⟩
    else .ok { w with directories := w.directories ++ [p] }

def parent : String := String.ofList ((trimSlashes path).toList.reverse.dropWhile (· ≠ '/')).reverse

def makeDirectories : Nat → World → String → Except FileError World
  | 0, w, _ => .ok w
  | fuel + 1, w, path =>
    match w.find path with
    | .ok .directory => .ok w
    | .ok (.file _) => .error ⟨"mkdir", path, .notDirectory⟩
    | .error _ => do
      let w ← if (parent path).isEmpty then .ok w else makeDirectories fuel w (parent path)
      w.makeOne path

/-- The name under which a file is made before it gets its own. -/
def temporaryName : String := ".tmp-0.json"

def replace (path text : String) : Except FileError World :=
  let temporary := join [dir path, temporaryName]
  match w.target temporary, w.target path with
  | .error fault, _ => .error ⟨"open", temporary, fault⟩
  | _, .error .isDirectory => .error ⟨"rename", temporary ++ " " ++ path, .present⟩
  | _, .error fault => .error ⟨"rename", temporary ++ " " ++ path, fault⟩
  | _, .ok p => .ok (w.putFile p text)

def filesBelow : List Place :=
  match w.locate path with
  | .error _ => []
  | .ok p => (w.files.filterMap fun (q, _) => if p.isPrefixOf q then some (q.drop p.length) else none).filter
      fun rest => ¬rest.isEmpty ∧ ¬rest.dropLast.any isHidden

def nextLine : List Char → List Char × List Char
  | [] => ([], [])
  | '\n' :: cs => (['\n'], cs)
  | c :: cs =>
    let (line, rest) := nextLine cs
    (c :: line, rest)

/-- Takes the world that an operation gives, or leaves the world as it is where the operation fails. -/
def attempt (operation : World → Except FileError World) : StateM World (Except FileError Unit) :=
  modifyGet fun w =>
    match operation w with
    | .ok w' => (.ok (), w')
    | .error e => (.error e, w)

def withFile (p : Place) (text : String) : World :=
  let above := (List.range p.length).map fun n => p.take n
  { w.putFile p text with directories := w.directories ++ above.filter fun d => ¬d.isEmpty ∧ ¬w.directories.contains d }

end World

instance : Host (StateM World) where
  kind path := do return (← get).kind path
  read path := do return (← get).read path
  write path text := World.attempt (·.change path fun _ => text)
  append path text := World.attempt (·.change path (· ++ text))
  makeDirectory path := World.attempt fun w => World.makeDirectories (path.length + 1) w path
  replace path text := World.attempt (·.replace path text)
  filesBelow path := do return (← get).filesBelow path
  workingDirectory := do return "/" ++ String.intercalate "/" (← get).current
  environment name := do return ((← get).environment.lookup name).getD ""
  print text := modify fun w => { w with printed := w.printed ++ text }
  log text := modify fun w => { w with logged := w.logged ++ text }
  readLine := modifyGet fun w =>
    let (line, rest) := World.nextLine w.input
    (String.ofList line, { w with input := rest })
  clock := return 0
  freshName := return ""
  compute f := return f ()

end HdlLowering
