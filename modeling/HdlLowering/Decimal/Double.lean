/-!
# Integers kept as doubles

A double keeps 53 bits: an integer is rounded to the nearest double, a tie to the even one, and written with the fewest digits
that name it, filled up with zeros.
-/

namespace HdlLowering.Decimal

/-- A double that is a large integer: `mantissa * 2 ^ exponent`, with a mantissa of 53 bits. -/
structure Double where
  mantissa : Nat
  exponent : Nat
  deriving DecidableEq

namespace Double

def leastMantissa : Nat := 0x10000000000000

def value (d : Double) : Nat := d.mantissa * Nat.pow 2 d.exponent

def nearest (n : Nat) : Double :=
  let e := n.log2 - 52
  let m := n / Nat.pow 2 e
  let rest := n % Nat.pow 2 e
  let half := Nat.pow 2 (e - 1)
  let up := half < rest || (rest == half && m % 2 == 1)
  let m := if up then m + 1 else m
  if m = 2 * leastMantissa then ⟨leastMantissa, e + 1⟩ else ⟨m, e⟩

/-- Whether a number is nearer to a double than to its neighbours; the middle belongs to an even mantissa. -/
def names (d : Double) (c : Nat) : Bool :=
  let unit := Nat.pow 2 d.exponent
  let below := if d.mantissa = leastMantissa then unit else 2 * unit
  let (low, high) := (4 * d.value - below, 4 * d.value + 2 * unit)
  if d.mantissa % 2 = 0 then low ≤ 4 * c && 4 * c ≤ high else low < 4 * c && 4 * c < high

/-- The number with the given count of trailing zeros that names a double, the nearer one of two. -/
def onGrid? (d : Double) (zeros : Nat) : Option Nat :=
  let grid := Nat.pow 10 zeros
  let lower := d.value / grid * grid
  let upper := lower + grid
  match d.names lower, d.names upper with
  | true, true => some (if d.value - lower ≤ upper - d.value then lower else upper)
  | true, false => some lower
  | false, true => some upper
  | false, false => none

/-- The number with the most trailing zeros that names a double, with at most the given count of them. -/
def shortest (d : Double) : Nat → Nat
  | 0 => d.value
  | zeros + 1 => (d.onGrid? (zeros + 1)).getD (shortest d zeros)

end Double

def natThroughDouble (n : Nat) : Nat :=
  if n < 2 * Double.leastMantissa then n
  else
    let d := Double.nearest n
    d.shortest (Nat.toDigits 10 d.value).length

def throughDouble : Int → Int
  | .ofNat n => natThroughDouble n
  | .negSucc n => -(natThroughDouble (n + 1) : Int)

end HdlLowering.Decimal
