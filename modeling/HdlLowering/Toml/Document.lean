import HdlLowering.Toml.Token

/-!
# TOML documents

Statements fill a table: `key = value` adds to the table of the last header, `[table]` opens a table and `[[table]]` starts a
further table of a list. A path goes through the last table of a list and makes missing tables. No key, header or anything
below a table in braces is said twice, but inside braces a later field replaces an earlier one of its name.
-/

namespace HdlLowering.Toml

open Text (Fault readable)

/-- A value. A table that was written in braces is closed. -/
inductive Value where
  | string (text : String)
  | integer (value : Int)
  | boolean (value : Bool)
  | other
  | array (items : List Value)
  | table (closed : Bool) (members : List (String × Value))
  | tables (elements : List Value)

/-- The parts of a key or a header, from a place where a part may start. Blanks around parts do not count, and quotes end a part
without a dot behind them. -/
def partsFrom : Nat → List Char → Except Fault (List String)
  | 0, _ => .error .malformed
  | fuel + 1, cs =>
    match cs.dropWhile isBlank with
    | [] => .ok []
    | '.' :: rest =>
      match rest with
      | [] => .error .malformed
      | c :: _ => if isBare c ∨ c = '\'' ∨ c = '"' ∨ c = ' ' then partsFrom fuel rest else .error .malformed
    | c :: rest =>
      if isBare c then do
        let name := c :: rest.takeWhile isBare
        let next := (rest.dropWhile isBare).dropWhile isBlank
        if next.isEmpty ∨ next.head? = some '.' then return String.ofList name :: (← partsFrom fuel next)
        else .error (faultAt next)
      else if c = '\'' ∨ c = '"' then
        match rest.dropWhile (· ≠ c) with
        | _ :: after => do return String.ofList (rest.takeWhile (· ≠ c)) :: (← partsFrom fuel after)
        | [] => .error .malformed
      else .error (.unexpected c)

def parts (text : List Char) : Except Fault (List String) :=
  match partsFrom (text.length + 1) text with
  | .ok [] => .error .malformed
  | ps => ps

namespace Value

def put (members : List (String × Value)) (key : String) (v : Value) : List (String × Value) :=
  if (members.lookup key).isSome then members.map fun (k, old) => (k, if k = key then v else old) else members ++ [(key, v)]

/-- The value at a path below a table; a path goes through the last table of a list. -/
def get? : List String → Value → Option Value
  | [], v => some v
  | k :: ks, .table _ members => (members.lookup k).bind fun v =>
    match ks, v with
    | [], v => some v
    | ks, .tables elements => elements.getLast?.bind (get? ks)
    | ks, v => get? ks v
  | _, _ => none

/-- Changes the table at a path below a table. Tables on the way that are missing are made, closed if the one
around them is. -/
def within (change : Value → Option Value) : List String → Value → Option Value
  | [], v => change v
  | k :: ks, .table closed members =>
    match members.lookup k with
    | none => (within change ks (.table closed [])).map fun v => .table closed (put members k v)
    | some (.table c inner) => (within change ks (.table c inner)).map fun v => .table closed (put members k v)
    | some (.tables elements) =>
      match elements.reverse with
      | [] => none
      | last :: before => (within change ks last).map fun v => .table closed (put members k (.tables (before.reverse ++ [v])))
    | some _ => none
  | _, _ => none

def add (key : String) (v : Value) : Value → Option Value
  | .table false members => if (members.lookup key).isSome then none else some (.table false (members ++ [(key, v)]))
  | _ => none

/-- Sets the value at a path below a table. A step through a value that is no table stays where it is. -/
def setField (v : Value) : List String → Value → Value
  | [key], .table closed members => .table closed (put members key v)
  | key :: keys, .table closed members =>
    match members.lookup key with
    | none => .table closed (put members key (setField v keys (.table false [])))
    | some (.table c inner) => .table closed (put members key (setField v keys (.table c inner)))
    | some (.tables elements) =>
      match elements.reverse with
      | [] => .table closed members
      | last :: before => .table closed (put members key (.tables (before.reverse ++ [setField v keys last])))
    | some _ => setField v keys (.table closed members)
  | _, t => t

def isTable : Value → Bool
  | .table .. => true
  | _ => false

/-- The value of a list in brackets: tables alone are a list of tables. -/
def ofItems (items : List Value) : Value :=
  if ¬items.isEmpty ∧ items.all isTable then .tables items else .array items

def close : Value → Value
  | .table _ members => .table true members
  | v => v

end Value

def daysOf (year month : Nat) : Nat :=
  if month = 2 then if year % 4 = 0 ∧ (year % 100 ≠ 0 ∨ year % 400 = 0) then 29 else 28
  else if month = 4 ∨ month = 6 ∨ month = 9 ∨ month = 11 then 30
  else 31

def isDate (year month day : Nat) : Bool := 1 ≤ month ∧ month ≤ 12 ∧ 1 ≤ day ∧ day ≤ daysOf year month

def isTime (hour minute second : Nat) : Bool := hour < 24 ∧ minute < 60 ∧ second < 60

mutual
/-- Reads a value off some tokens; `fuel` bounds their number. A time behind a date belongs to it. -/
def valueFrom : Nat → List Token → Except Fault (Value × List Token)
  | fuel + 1, .leftBracket :: ts => do
    let (items, rest) ← itemsFrom fuel ts
    return (.ofItems items, rest)
  | fuel + 1, .leftBrace :: ts => do
    let (t, rest) ← fieldsFrom fuel true (.table false []) ts
    return (t.close, rest)
  | _, .string text :: ts => .ok (.string (String.ofList text), ts)
  | _, .integer v :: ts => .ok (.integer v, ts)
  | _, .boolean b :: ts => .ok (.boolean b, ts)
  | _, .number :: ts => .ok (.other, ts)
  | _, .date y m d :: .time h n s :: .offset oh om :: ts =>
    if isDate y m d ∧ isTime h n s ∧ oh ≤ 24 ∧ om ≤ 60 then .ok (.other, ts) else .error .malformed
  | _, .date y m d :: .time h n s :: ts => if isDate y m d ∧ isTime h n s then .ok (.other, ts) else .error .malformed
  | _, .date y m d :: ts => if isDate y m d then .ok (.other, ts) else .error .malformed
  | _, .time h n s :: ts => if isTime h n s then .ok (.other, ts) else .error .malformed
  | _, .broken f :: _ => .error f
  | _, _ => .error .malformed

def itemsFrom : Nat → List Token → Except Fault (List Value × List Token)
  | _, .rightBracket :: ts => .ok ([], ts)
  | fuel + 1, ts => do
    let (item, rest) ← valueFrom fuel ts
    match rest with
    | .comma :: rest =>
      let (items, rest) ← itemsFrom fuel rest
      return (item :: items, rest)
    | .rightBracket :: rest => return ([item], rest)
    | _ => .error .malformed
  | 0, _ => .error .malformed

/-- Reads the fields of a table up to its closing brace into a table; the last has no comma behind it. -/
def fieldsFrom : Nat → Bool → Value → List Token → Except Fault (Value × List Token)
  | _, true, t, .rightBrace :: ts => .ok (t, ts)
  | fuel + 1, _, t, .key text :: .equals :: ts => do
    let keys ← parts text
    let (v, rest) ← valueFrom fuel ts
    let t := Value.setField v keys t
    match rest with
    | .comma :: rest => fieldsFrom fuel false t rest
    | .rightBrace :: rest => return (t, rest)
    | .broken f :: _ => .error f
    | _ => .error .malformed
  | _, _, _, .broken f :: _ => .error f
  | _, _, _, _ => .error .malformed
end

/-- A document that is being read: the table so far, the path of the last header, and the texts of all headers.
-/
structure Draft where
  root : Value := .table false []
  current : List String := []
  headers : List (List Char) := []

def Draft.openTable (d : Draft) (text : List Char) : Except Fault Draft := do
  let keys ← parts text
  if d.headers.contains text then .error .malformed
  else
    let root ← readable (d.root.within some keys)
    match root.get? keys with
    | some (.table true _) => .error .malformed
    | _ => return { root, current := keys, headers := text :: d.headers }

/-- Starts a further table of a list; headers below the list may be repeated for it. -/
def Draft.openElement (d : Draft) (text : List Char) : Except Fault Draft := do
  let keys ← parts text
  let before ← match d.root.get? keys with
    | none => .ok []
    | some (.tables elements) => .ok elements
    | some _ => .error .malformed
  let root := (d.root.within some keys.dropLast).getD d.root
  return {
    root := Value.setField (.tables (before ++ [.table false []])) keys root
    current := keys
    headers := text :: d.headers.filter fun h => ¬(text ++ ['.']).isPrefixOf h }

def Draft.assign (d : Draft) (keys : List String) (v : Value) : Except Fault Draft := do
  let root ← readable (d.root.within (Value.add (keys.getLastD "") v) (d.current ++ keys.dropLast))
  return { d with root }

def statements : Nat → Draft → List Token → Except Fault Draft
  | _, d, [] => .ok d
  | fuel + 1, d, .header text :: ts => do statements fuel (← d.openTable text) ts
  | fuel + 1, d, .arrayHeader text :: ts => do statements fuel (← d.openElement text) ts
  | fuel + 1, d, .key text :: .equals :: ts => do
    let keys ← parts text
    let (v, rest) ← valueFrom (ts.length + 1) ts
    statements fuel (← d.assign keys v) rest
  | _, _, .broken f :: _ => .error f
  | _, _, _ => .error .malformed

def parse (text : String) : Except Fault Value :=
  let ts := tokens text
  (statements ts.length {} ts).map Draft.root

end HdlLowering.Toml
