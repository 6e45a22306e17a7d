import HdlLowering.Contract.Function.Texts

/-!
# Functions on lists and records

An open list or record may get more items or fields, so a test for a least number does not fail there.
-/

namespace HdlLowering.Contract.Function

open Decimal Work Evaluator

variable (E : Evaluator)

/-- The items of the lists that are in a list, so deep; without end for a negative number. -/
def flattened : Nat → Int → List Nat → Attempt (List Nat)
  | 0, _, ids => return ids
  | fuel + 1, depth, ids => do
    if depth = 0 then return ids
    else
      let mut found := []
      for id in ids do
        match ← E.ground (.node id) with
        | .list inner => found := found ++ (← flattened fuel (depth - 1) (← E.items inner))
        | _ => found := found ++ [id]
      return found

def numbersFrom (step limit : Decimal) : Nat → Decimal → List Decimal
  | 0, _ => []
  | fuel + 1, d =>
    let done := if step.isNegative then d.compare limit != .gt else d.compare limit != .lt
    if done then [] else d :: numbersFrom step limit fuel (d.add step)

def rangeLimit : Nat := 100000

def anyEqual (g : Ground) : List Nat → Attempt Bool
  | [] => return false
  | id :: ids => do
    match ← E.ground (.node id) with
    | .vague _ => anyEqual g ids
    | h => if ← E.equal 64 g h then return true else anyEqual g ids

def allDifferent : List Nat → Attempt Bool
  | [] => return true
  | id :: ids => do
    match ← E.ground (.node id) with
    | .vague _ => allDifferent ids
    | g => if ← anyEqual E g ids then return false else allDifferent ids

/-- An order as a record with two values and whether the first is less. -/
def ordering (o : Operator) : Term :=
  let kind : Term := .binary .choose (.name "number") (.name "string")
  .record [.field none (.regular "T") true .member kind, .field none (.regular "x") true .member (.name "T"),
    .field none (.regular "y") true .member (.name "T"),
    .field none (.regular "less") true .member (.binary o (.name "x") (.name "y"))]

def isLess (order : Nat) (a b : Nat) : Attempt Bool := do
  let field (name : String) (id : Nat) : Entry := .field none (.regular name) false .member (.node id)
  let both : Term := .record [field "x" a, field "y" b]
  match ← E.groundTerm 0 [] (.select (.binary .meet (.node order) both) (.regular "less")) with
  | .scalar (.truth b) => return b
  | .vague _ => throw .incomplete
  | _ => throw .conflict

/-- Puts an item into a sorted list behind those that are not greater. -/
def inserted (less : Nat → Nat → Attempt Bool) (a : Nat) : List Nat → Attempt (List Nat)
  | [] => return [a]
  | b :: rest => do
    if ← less a b then return a :: b :: rest else return b :: (← inserted less a rest)

def isSorted (less : Nat → Nat → Attempt Bool) : List Nat → Attempt Bool
  | a :: b :: rest => do
    if ← less b a then return false else isSorted less (b :: rest)
  | _ => return true

def sorting : Function where
  params := [.list, .record]
  truth := false
  apply E
    | [.list id, .record order] => do
      let sorted ← (← E.items id).foldlM (fun found a => inserted (isLess E order) a found) []
      return listOfNodes sorted
    | _ => throw .conflict

def textsInOrder (a b : String) : Bool := Scalar.compare? (.text a) (.text b) != some .gt

def ofListAndWhole (f : Evaluator → List Nat → Int → Attempt (List Nat)) : Function :=
  ofList [.list, .whole] fun E ids rest => do
    match ← result (rest.mapM (·.whole?)) with
    | [n] => return listOfNodes (← f E ids n)
    | _ => throw .conflict

def ofListAndCount (f : List Nat → Nat → List Nat) : Function :=
  ofListAndWhole fun _ ids n => if n < 0 then throw .conflict else return f ids n.toNat

def ofNumbers (f : Decimal → List Decimal → Decimal) : Function :=
  ofList [.list] fun E ids _ => do
    match ← numberItems E ids with
    | [] => throw .conflict
    | d :: ds => return .scalar (number (f d ds))

/-- The one of some numbers that is first in an order. -/
def extreme (o : Ordering) : Function := ofNumbers (List.foldl fun m d => if d.compare m == o then d else m)

/-- A test for a least number of items or fields, which can still come as long as there is no end to them. -/
def atLeast (n count : Int) (isClosed : Bool) : Attempt Bool :=
  if n ≤ count then return true
  else if isClosed then return false
  else throw .incomplete

def lists : List (String × Function) :=
  [("Drop", ofListAndCount fun ids n => ids.drop n), ("Take", ofListAndCount fun ids n => ids.take n),
    ("Slice", ofList [.list, .whole, .whole] fun _ ids rest => do
      match ← result (rest.mapM (·.whole?)) with
      | [i, j] => return listOfNodes (← result (slice? ids i j))
      | _ => throw .conflict),
    ("Repeat", ofListAndCount fun ids n => (List.replicate n ids).flatten),
    ("Reverse", ofList [.list] fun _ ids _ => return listOfNodes ids.reverse),
    ("Concat", ofList [.list] fun E ids _ => do
      let parts ← ids.mapM fun id => do
        match ← E.settledGround (.node id) with
        | .list inner => (E.items inner : Work _)
        | _ => throw .conflict
      return listOfNodes parts.flatten),
    ("FlattenN", ofListAndWhole fun E ids n => flattened E 1000 n ids),
    ("Sum", ofList [.list] fun E ids _ => do
      return .scalar (number ((← numberItems E ids).foldl add (.ofInt 0)))),
    ("Product", ofList [.list] fun E ids _ => do
      return .scalar (number ((← numberItems E ids).foldl multiply (.ofInt 1)))),
    ("Avg", ofNumbers fun d ds => (ds.foldl add ((ofInt 0).add d)).divide (.ofInt (ds.length + 1))),
    ("Max", extreme .gt), ("Min", extreme .lt),
    ("Range", listOfScalars [.numbers, .numbers, .numbers] fun
      | [.number _ start, .number _ limit, .number _ step] =>
        if step.isZero then none
        else if start.compare limit == if step.isNegative then .lt else .gt then none
        else some ((numbersFrom step limit rangeLimit start).map number)
      | _ => none),
    ("SortStrings", ofList [.list] fun E ids _ => do
      let sorted := (← textItems E ids).mergeSort textsInOrder
      return .list (sorted.map fun s => .embedded (.scalar (.text s))) none),
    ("IsSortedStrings", testOfList [.list] fun E ids => do
      let texts ← textItems E ids
      return (texts.zip (texts.drop 1)).all fun (a, b) => textsInOrder a b),
    ("Sort", sorting), ("SortStable", sorting),
    ("IsSorted", test [.list, .record] fun
      | E, .list id, .record order => do isSorted (isLess E order) (← E.items id)
      | _, _, _ => throw .conflict),
    ("UniqueItems", testOfList [.list] allDifferent),
    ("Contains", test [.list, .all] fun
      | E, .list id, g => do anyEqual E g (← E.items id)
      | _, _, _ => throw .conflict),
    ("MinItems", test [.list, .whole] fun
      | _, .list id, .scalar n => do
        let list ← node id
        atLeast (← result n.whole?) (length list) (isClosedList list)
      | _, _, _ => throw .conflict),
    ("MaxItems", test [.list, .whole] fun
      | _, .list id, .scalar n => do return (length (← node id) : Int) ≤ (← result n.whole?)
      | _, _, _ => throw .conflict)]

def fieldCount (n : Node) : Int := (n.arcs.filter (·.label.isRegular)).size

def records : List (String × Function) :=
  [("MinFields", test [.record, .whole] fun
      | _, .record id, .scalar n => do
        let found ← node id
        atLeast (← result n.whole?) (fieldCount found) !found.closings.isEmpty
      | _, _, _ => throw .conflict),
    ("MaxFields", test [.record, .whole] fun
      | _, .record id, .scalar n => do return fieldCount (← node id) ≤ (← result n.whole?)
      | _, _, _ => throw .conflict)]

end HdlLowering.Contract.Function
