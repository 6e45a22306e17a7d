import HdlLowering.Contract.Term
import HdlLowering.Text.Regex

/-!
# Ranges of plain values

What is known about a plain value: its categories, the value itself, bounds, and further relations. Ranges get narrower, or
end in a contradiction. Bounds that leave one value give that value; whether they do hangs on whether fractions are
possible.
-/

namespace HdlLowering.Contract

namespace Scalar

/-- A plain value is in the relation that an operator names to another one: `none` if the two cannot be related. -/
def relates (o : Operator) (a b : Scalar) : Option Bool :=
  match o, a, b with
  | .equal, a, b => some (a.equals b)
  | .unequal, a, b => some !(a.equals b)
  | .less, a, b => (a.compare? b).map (· == .lt)
  | .atMost, a, b => (a.compare? b).map (· != .gt)
  | .greater, a, b => (a.compare? b).map (· == .gt)
  | .atLeast, a, b => (a.compare? b).map (· != .lt)
  | .alike, .text s, .text pattern => (Text.Regex.parse pattern).map (·.accepts s)
  | .unlike, .text s, .text pattern => (Text.Regex.parse pattern).map fun r => !r.accepts s
  | _, _, _ => none

end Scalar

structure Bound where
  relation : Operator
  limit : Scalar
  deriving DecidableEq

namespace Bound

def categories (b : Bound) : Categories :=
  match b.relation, b.limit with
  | .unequal, .null => .notNull
  | _, .number _ _ => .numbers
  | _, s => s.categories

def holds (b : Bound) (s : Scalar) : Bool := (s.relates b.relation b.limit).getD false

def tighter (a b : Bound) : Bound :=
  let test := match a.relation with
    | .greater => Operator.atLeast
    | .atLeast => .greater
    | .less => .atMost
    | _ => .less
  if (a.limit.relates test b.limit).getD false then a else b

end Bound

/-- What a lower and an upper bound leave. -/
inductive Between where
  | many
  | one (s : Scalar)
  | nothing

/-- What a lower and an upper bound on numbers leave, where fractions are possible or not. -/
def numbersBetween (as : Categories) (lower upper : Bound) (lo hi : Decimal) : Between :=
  let whole := !as.has .fraction
  let lo := if whole then .ofInt (if lower.relation = .atLeast then lo.ceiling else lo.floor) else lo
  let hi := if whole then .ofInt (if upper.relation = .atMost then hi.floor else hi.ceiling) else hi
  let gap := hi.subtract lo
  let value (d : Decimal) : Between := .one (.number (as.meet .numbers) d)
  let closed := lower.relation = .atLeast ∧ upper.relation = .atMost
  if gap.isNegative then .nothing
  else if gap.isZero then if closed then value lo else .nothing
  else if ¬whole then .many
  else if gap.compare (.ofInt 1) = .eq then
    match lower.relation, upper.relation with
    | .atLeast, .less => value lo
    | .greater, .atMost => value hi
    | .greater, .less => .nothing
    | _, _ => .many
  else if gap.compare (.ofInt 2) = .eq ∧ lower.relation = .greater ∧ upper.relation = .less then value (lo.add (.ofInt 1))
  else .many

def between (as : Categories) (lower upper : Bound) : Between :=
  match lower.limit, upper.limit with
  | .number _ lo, .number _ hi => numbersBetween as lower upper lo hi
  | lo, hi =>
    match lo.compare? hi with
    | some .lt | none => .many
    | some .eq => if lower.relation = .atLeast ∧ upper.relation = .atMost then .one lo else .nothing
    | some .gt => .nothing

structure Range where
  categories : Categories := .all
  scalar : Option Scalar := none
  lower : Option Bound := none
  upper : Option Bound := none
  others : List Bound := []
  deriving DecidableEq

namespace Range

variable (r : Range)

def bounds : List Bound := r.lower.toList ++ r.upper.toList ++ r.others

def checked : Option Range :=
  if r.categories.isEmpty then none
  else match r.scalar with
    | some s => if r.bounds.all (·.holds s) then some r else none
    | none => some r

def withScalar (s : Scalar) : Option Range :=
  let both := r.categories.meet s.categories
  let s : Scalar := match s with
    | .number _ d => .number both d
    | s => s
  match r.scalar with
  | some t => if t.equals s then checked { r with categories := both, scalar := some s } else none
  | none => checked { r with categories := both, scalar := some s }

/-- A range whose lower and upper bound may leave one value or none. -/
def closed : Option Range :=
  match r.scalar, r.lower, r.upper with
  | none, some lower, some upper =>
    match between r.categories lower upper with
    | .many => some r
    | .one s => { r with lower := none, upper := none }.withScalar s
    | .nothing => none
  | _, _, _ => some r

def withCategories (cs : Categories) : Option Range := do
  let r ← checked { r with categories := r.categories.meet cs }
  match r.scalar with
  | some s => r.withScalar s
  | none => r.closed

def withBound (b : Bound) : Option Range := do
  let r := { r with categories := r.categories.meet b.categories }
  let r := match b.relation with
    | .greater | .atLeast => { r with lower := some ((r.lower.map b.tighter).getD b) }
    | .less | .atMost => { r with upper := some ((r.upper.map b.tighter).getD b) }
    | _ => if r.others.contains b then r else { r with others := r.others ++ [b] }
  (← checked r).closed

def admits (s : Scalar) : Bool := (r.withScalar s).isSome

end Range

end HdlLowering.Contract
