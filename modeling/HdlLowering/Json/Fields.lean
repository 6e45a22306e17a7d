import HdlLowering.Json.Value
import HdlLowering.Word

/-!
# Reading typed fields

Keys are matched up to letter case, and unknown ones are passed over. A key may be repeated: of plain values the last one
counts and `null` changes nothing, a record is completed by further objects, and a list is as long as its last value, with
items read like the values of a field. What may be absent is absent after `null` and starts afresh behind it, as a list does
after an empty one.

A reader takes all values of a field, and gives nothing when one of them has the wrong form.
-/

namespace HdlLowering.Text

/-- The ASCII lower case letter a character is a form of, or the character itself. -/
def foldChar (c : Char) : Char :=
  if c = '\u212a' then 'k' else if c = '\u017f' then 's' else c.toLower

def fold (s : String) : String := String.ofList (s.toList.map foldChar)

def equalFold (a b : String) : Bool := fold a == fold b

end HdlLowering.Text

namespace HdlLowering.Json

def digitsValue (ds : List Char) : Nat := ds.foldl (fun n d => n * 10 + (d.toNat - '0'.toNat)) 0

/-- An integer written with ASCII digits and at most a sign in front. -/
def decimal? (cs : List Char) : Option Int :=
  match cs with
  | '-' :: ds => if ds ≠ [] ∧ ds.all Char.isDigit then some (-(digitsValue ds : Int)) else none
  | '+' :: ds => if ds ≠ [] ∧ ds.all Char.isDigit then some (digitsValue ds : Int) else none
  | ds => if ds ≠ [] ∧ ds.all Char.isDigit then some (digitsValue ds : Int) else none

/-! ### Plain values -/

def readInt (values : List Json) : Option Int64 :=
  values.foldlM (fun old v => match v with
    | .num t => (decimal? t.toList).bind Word.ofInt?
    | .null => some old
    | _ => none) 0

def readString (values : List Json) : Option String :=
  values.foldlM (fun old v => match v with
    | .str s => some s
    | .null => some old
    | _ => none) ""

def readBool (values : List Json) : Option Bool :=
  values.foldlM (fun old v => match v with
    | .bool b => some b
    | .null => some old
    | _ => none) false

def readBool? (values : List Json) : Option (Option Bool) :=
  values.foldlM (fun _ v => match v with
    | .bool b => some (some b)
    | .null => some none
    | _ => none) none

/-! ### Records -/

abbrev Members := List (String × Json)

def joined (values : List Json) : Option Members :=
  values.foldlM (fun ms v => match v with
    | .obj more => some (ms ++ more)
    | .null => some ms
    | _ => none) []

def readRecord {α : Type} (read : Members → Option α) (values : List Json) : Option α := (joined values).bind read

/-! ### Lists and what may be absent -/

/-- Some values cut where one of them starts afresh. There is always a last run, which may be empty. -/
def runs (fresh : Json → Bool) : List Json → List (List Json)
  | [] => [[]]
  | v :: vs =>
    match runs fresh vs with
    | r :: rs => if fresh v then [] :: r :: rs else (v :: r) :: rs
    | [] => [[v]]

def readOptional {α : Type} (read : Members → Option α) (values : List Json) : Option (Option α) := do
  let read ← (runs (· == .null) values).mapM fun run =>
    if run.isEmpty then some none else (readRecord read run).map some
  return read.getLastD none

def items? : Json → Option (List Json)
  | .arr items => some items
  | _ => none

/-- The values given to each place of a list, with those of a further list added. -/
def addItems : List (List Json) → List Json → List (List Json)
  | [], vs => vs.map fun v => [v]
  | places, [] => places
  | p :: ps, v :: vs => (p ++ [v]) :: addItems ps vs

def readList {α : Type} (read : List Json → Option α) (values : List Json) : Option (List α) := do
  let lists ← (runs (fun v => v == .null || v == .arr []) values).mapM fun run => do
    let lists ← run.mapM items?
    let items ← (lists.foldl addItems []).mapM read
    return items.take (lists.getLastD []).length
  return lists.getLastD []

/-! ### Fields by name -/

namespace Members

/-- The values given to a key, which is written in lower case. -/
def values (ms : Members) (key : String) : List Json :=
  ms.filterMap fun (k, v) => if Text.fold k = key then some v else none

def int (ms : Members) (key : String) : Option Int64 := readInt (ms.values key)

def text (ms : Members) (key : String) : Option String := readString (ms.values key)

def truth (ms : Members) (key : String) : Option Bool := readBool (ms.values key)

def record {α : Type} (ms : Members) (read : Members → Option α) (key : String) : Option α :=
  readRecord read (ms.values key)

def optional {α : Type} (ms : Members) (read : Members → Option α) (key : String) : Option (Option α) :=
  readOptional read (ms.values key)

def list {α : Type} (ms : Members) (read : List Json → Option α) (key : String) : Option (List α) :=
  readList read (ms.values key)

def optionals {α : Type} (ms : Members) (read : Members → Option α) (key : String) : Option (List (Option α)) :=
  ms.list (readOptional read) key

end Members

end HdlLowering.Json
