import HdlLowering.Command.Export
import HdlLowering.Command.Lower

/-!
# The programs

The outside world is a host. Called as `fsm-netlist` the program writes netlists, under any other name it is `fsm-lower`.
Files are watched by the times at which they were changed.
-/

namespace HdlLowering.Main

open Text Path Command.Notice Command.Lower

def faultOf : IO.Error → FileFault
  | .noFileOrDirectory .. => .notFound
  | .alreadyExists .. => .present
  | .permissionDenied .. => .other "permission denied"
  | .inappropriateType _ code _ => if code = 21 then .isDirectory else .notDirectory
  | .noSuchThing _ code details => if code = 20 then .notDirectory else .other details
  | e => .other (toString e)

def attempt {α : Type} (action path : String) (x : IO α) : IO (Except FileError α) := do
  try
    return .ok (← x)
  catch e =>
    return .error ⟨action, path, faultOf e⟩

def kindOf (path : String) : IO EntryKind := do
  return if ← (← IO.FS.realPath path).isDir then .directory else .file

def readText (path : String) : IO (Except FileError String) := do
  match ← attempt "open" path (kindOf path) with
  | .error e => return .error e
  | .ok .directory => return .error ⟨"read", path, .isDirectory⟩
  | .ok .file => attempt "open" path do return ofBytes (← IO.FS.readBinFile path).toList

def makeDirectory (path : String) : IO (Except FileError Unit) := do
  match ← attempt "mkdir" path (kindOf path) with
  | .ok .directory => return .ok ()
  | .ok .file => return .error ⟨"mkdir", path, .notDirectory⟩
  | .error _ => attempt "mkdir" path (IO.FS.createDirAll path)

def replaceFile (path text : String) : IO (Except FileError Unit) := do
  let temporary := join [dir path, s!".tmp-{← IO.monoNanosNow}.json"]
  match ← attempt "open" temporary (IO.FS.writeFile temporary text) with
  | .error e => return .error e
  | .ok _ => attempt "rename" (temporary ++ " " ++ path) (IO.FS.rename temporary path)

/-- The files below a directory by their components, without those below a hidden directory. -/
partial def filesBelow (path : String) : IO (List (List String)) := do
  let entries ← try (← IO.FS.realPath path).readDir catch _ => pure #[]
  let below ← entries.toList.mapM fun e => do
    let place := path ++ "/" ++ e.fileName
    match (← attempt "stat" place (kindOf place)).toOption with
    | some .directory => if isHidden e.fileName then return [] else return (← filesBelow place).map (e.fileName :: ·)
    | _ => return [[e.fileName]]
  return below.flatten

def randomName : IO String := do
  let bytes ← IO.getRandomBytes 16
  let digits := bytes.toList.flatMap fun b => hexDigits 2 b.toNat
  let groups := [digits.take 8, (digits.drop 8).take 4, '4' :: (digits.drop 13).take 3, 'a' :: (digits.drop 17).take 3,
    digits.drop 20]
  return String.intercalate "-" (groups.map String.ofList)

instance : Host IO where
  kind path := attempt "stat" path (kindOf path)
  read := readText
  write path text := attempt "open" path (IO.FS.writeFile path text)
  append path text := attempt "open" path do
    let file ← IO.FS.Handle.mk path .append
    file.putStr text
  makeDirectory := makeDirectory
  replace := replaceFile
  filesBelow := filesBelow
  workingDirectory := do return (← IO.currentDir).toString
  environment name := do return (← IO.getEnv name).getD ""
  print text := do
    let out ← IO.getStdout
    out.putStr text
    out.flush
  log text := do
    let out ← IO.getStderr
    out.putStr text
    out.flush
  readLine := do (← IO.getStdin).getLine
  clock := IO.monoNanosNow
  freshName := randomName
  compute := IO.lazyPure

def changedAt (path : String) : IO (Option (Int × UInt32)) := do
  try
    let time := (← (← IO.FS.realPath path).metadata).modified
    return some (time.sec, time.nsec)
  catch _ =>
    return none

/-- Lowers files again whenever they change. -/
partial def watch (o : Run.Options) (files : List (String × Option (Int × UInt32))) : IO Unit := do
  IO.sleep 50
  let files ← files.mapM fun (file, before) => do
    let now ← changedAt file
    if now.isSome ∧ now ≠ before then
      IO.print (info.text (file ++ " changed"))
      discard (lowerAll (m := IO) o false [file])
    return (file, now)
  watch o files

def runLower (arguments : List String) : IO UInt8 := do
  match ← run (m := IO) arguments with
  | .exit code => return code
  | .watch o files =>
    let paths ← files.mapM (Settings.absolute (m := IO))
    IO.print (info.text s!"Watching {files.length} file(s), Ctrl-C to stop")
    watch o (← paths.mapM fun file => do return (file, ← changedAt file))
    return 0

end HdlLowering.Main

def main (arguments : List String) : IO UInt32 := do
  let code ← if (← IO.appPath).fileName = some "fsm-netlist" then HdlLowering.Command.Export.run (m := IO) arguments
    else HdlLowering.Main.runLower arguments
  return code.toUInt32
