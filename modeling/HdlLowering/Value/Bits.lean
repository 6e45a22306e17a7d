import HdlLowering.Kind

/-!
# Bits of integers

Bit operations see integers in two's complement with the sign repeated forever. A value of a type with a width is cut to it and
read as signed or unsigned; one of a type without a width is left as it is.
-/

namespace HdlLowering.Bits

def and : Int → Int → Int
  | .ofNat m, .ofNat n => .ofNat (m &&& n)
  | .ofNat m, .negSucc n => .ofNat (m - (m &&& n))
  | .negSucc m, .ofNat n => .ofNat (n - (m &&& n))
  | .negSucc m, .negSucc n => .negSucc (m ||| n)

def or (x y : Int) : Int := ~~~(and (~~~x) (~~~y))

def xor : Int → Int → Int
  | .ofNat m, .ofNat n => .ofNat (m ^^^ n)
  | .ofNat m, .negSucc n => .negSucc (m ^^^ n)
  | .negSucc m, .ofNat n => .negSucc (m ^^^ n)
  | .negSucc m, .negSucc n => .ofNat (m ^^^ n)

def bit (v : Int) (i : Nat) : Int := (v >>> i) % 2

/-- The number of bits of a width; a width that is not positive has none. -/
def size (w : Int64) : Nat := w.toInt.toNat

/-- The number of values of a width: two to the power of its bits. -/
def values (w : Int64) : Int := Int.ofNat (Nat.pow 2 (size w))

/-- The lowest bits of a value, read as unsigned. Zero is its own at every width, however many values that has. -/
def unsigned (v : Int) (w : Int64) : Int := if v = 0 then 0 else v % values w

def mask (w : Int64) : Int := values w - 1

/-- Whether an odd number of the lowest bits is set, as zero or one. -/
def parity (v : Int) (w : Int64) : Int :=
  (List.range (size w)).foldl (fun p i => (p + bit v i) % 2) 0

def ofBool (b : Bool) : Int := if b then 1 else 0

end HdlLowering.Bits

namespace HdlLowering

/-- A value as a value of a type: cut to its width and read with its sign. -/
def Kind.normalize (k : Kind) (v : Int) : Int :=
  if k.width = 0 then v
  else
    let r := Bits.unsigned v k.width
    if k.signed && Bits.values k.width ≤ 2 * r then r - Bits.values k.width else r

end HdlLowering
