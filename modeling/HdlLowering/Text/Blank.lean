/-!
# Blanks and digits

The characters with the Unicode property White_Space, and characters by hexadecimal codes in several notations.
-/

namespace HdlLowering.Text

def isBlank (c : Char) : Bool :=
  let n := c.toNat
  (0x09 ≤ n ∧ n ≤ 0x0d) ∨ n = 0x20 ∨ n = 0x85 ∨ n = 0xa0 ∨ n = 0x1680 ∨ (0x2000 ≤ n ∧ n ≤ 0x200a) ∨ n = 0x2028 ∨ n = 0x2029 ∨
    n = 0x202f ∨ n = 0x205f ∨ n = 0x3000

def trim (s : String) : String :=
  String.ofList (((s.toList.dropWhile isBlank).reverse.dropWhile isBlank).reverse)

/-- The first word of a line; a line that starts with a line end has none. -/
def firstWord (line : String) : String :=
  let cs := line.toList.dropWhile fun c => isBlank c ∧ c ≠ '\n'
  String.ofList (cs.takeWhile fun c => !isBlank c)

def hexValue? (c : Char) : Option Nat :=
  if c.isDigit then some (c.toNat - '0'.toNat)
  else if 'a' ≤ c ∧ c ≤ 'f' then some (c.toNat - 'a'.toNat + 10)
  else if 'A' ≤ c ∧ c ≤ 'F' then some (c.toNat - 'A'.toNat + 10)
  else none

def hexNumber? (ds : List Char) : Option Nat := (ds.mapM hexValue?).map fun codes => codes.foldl (fun n d => n * 16 + d) 0

end HdlLowering.Text
