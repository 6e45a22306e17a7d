/-!
# Decimal numbers

An integer times a power of ten. Results are kept to `Decimal.precision` digits, a half rounded away from zero; comparison is
exact.
-/

namespace HdlLowering.Contract

/-- The number `coefficient` times ten to the power of `exponent`. -/
structure Decimal where
  coefficient : Int
  exponent : Int := 0
  deriving DecidableEq

namespace Decimal

def precision : Nat := 34

def digitCount (n : Nat) : Nat := (Nat.toDigits 10 n).length

def ofInt (n : Int) : Decimal := ⟨n, 0⟩

variable (d : Decimal)

def isZero : Bool := d.coefficient == 0

def isNegative : Bool := d.coefficient < 0

def negate : Decimal := { d with coefficient := -d.coefficient }

def coefficientAt (exponent : Int) : Int := d.coefficient * (Nat.pow 10 (d.exponent - exponent).toNat : Nat)

/-- How far the digits of a number that is not zero reach in front of its point. -/
def reach : Int := digitCount d.coefficient.natAbs + d.exponent

def compare (a b : Decimal) : Ordering :=
  let sign (d : Decimal) : Int := d.coefficient.sign
  if sign a ≠ sign b then Ord.compare (sign a) (sign b)
  else if a.isZero then .eq
  else if a.reach ≠ b.reach then
    if a.isNegative then Ord.compare b.reach a.reach else Ord.compare a.reach b.reach
  else
    let e := min a.exponent b.exponent
    Ord.compare (a.coefficientAt e) (b.coefficientAt e)

def rounded : Decimal :=
  let n := d.coefficient.natAbs
  let count := digitCount n
  if count ≤ precision then d
  else
    let unit := Nat.pow 10 (count - precision)
    let q := n / unit + if 2 * (n % unit) < unit then 0 else 1
    let (q, extra) := if q = Nat.pow 10 precision then (q / 10, 1) else (q, 0)
    ⟨if d.coefficient < 0 then -(q : Int) else q, d.exponent + (count - precision : Nat) + extra⟩

def add (a b : Decimal) : Decimal :=
  let e := min a.exponent b.exponent
  rounded ⟨a.coefficientAt e + b.coefficientAt e, e⟩

def subtract (a b : Decimal) : Decimal := a.add b.negate

def multiply (a b : Decimal) : Decimal := rounded ⟨a.coefficient * b.coefficient, a.exponent + b.exponent⟩

/-- A number without zeros at the end of its coefficient; `fuel` bounds how many there are. -/
def trimmed : Nat → Decimal → Decimal
  | 0, d => d
  | fuel + 1, d =>
    if d.coefficient = 0 then ⟨0, 0⟩
    else if d.coefficient % 10 = 0 then trimmed fuel ⟨d.coefficient / 10, d.exponent + 1⟩
    else d

/-- A number without zeros at its end, where one that had digits behind its point keeps one of them. -/
def reduced : Decimal :=
  let r := trimmed (digitCount d.coefficient.natAbs) d
  if d.exponent < 0 ∧ 0 ≤ r.exponent then ⟨r.coefficient * 10, r.exponent - 1⟩ else r

def divide (a b : Decimal) : Decimal :=
  let n := a.coefficient.natAbs
  let d := b.coefficient.natAbs
  let shift := precision + 1 + digitCount d - digitCount n
  let scaled := n * Nat.pow 10 shift
  let sign : Int := a.coefficient.sign * b.coefficient.sign
  let e := a.exponent - b.exponent - shift
  reduced (if scaled % d = 0 then rounded ⟨sign * (scaled / d : Nat), e⟩
    else rounded ⟨sign * (scaled / d * 10 + 1 : Nat), e - 1⟩)

def floor : Int :=
  if 0 ≤ d.exponent then d.coefficient * (Nat.pow 10 d.exponent.toNat : Nat)
  else d.coefficient.fdiv (Nat.pow 10 (-d.exponent).toNat : Nat)

def ceiling : Int := -d.negate.floor

def whole? : Option Int := if d.floor = d.ceiling then some d.floor else none

def digitText (n : Nat) : String := String.ofList (Nat.toDigits 10 n)

/-- A number as it is written: with a point where that takes no more than six places behind it, and with an exponent
otherwise. -/
def text : String :=
  let sign := if d.coefficient < 0 then "-" else ""
  let digits := Nat.toDigits 10 d.coefficient.natAbs
  let adjusted := d.exponent + digits.length - 1
  if d.exponent ≤ 0 ∧ -6 ≤ adjusted then
    let places := (-d.exponent).toNat
    if places = 0 then sign ++ String.ofList digits
    else
      let padded := List.replicate (places + 1 - digits.length) '0' ++ digits
      sign ++ String.ofList (padded.take (padded.length - places)) ++ "." ++
        String.ofList (padded.drop (padded.length - places))
  else
    let fraction := digits.tail
    sign ++ String.ofList (digits.take 1) ++ (if fraction.isEmpty then "" else "." ++ String.ofList fraction) ++ "E" ++
      (if adjusted < 0 then "-" else "+") ++ digitText adjusted.natAbs

end Decimal

end HdlLowering.Contract
