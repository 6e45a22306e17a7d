/-!
# 64-bit words

An integer either fits in a word or is cut to its low 64 bits.
-/

namespace HdlLowering.Word

/-- The number of values of a word that are not negative: two to the power of 63. -/
def limit : Int := 0x8000000000000000

def ofInt? (v : Int) : Option Int64 :=
  if -limit ≤ v ∧ v < limit then some (Int64.ofInt v) else none

/-- The low 64 bits of an integer, as a signed word. -/
def low (v : Int) : Int64 := Int64.ofInt v

end HdlLowering.Word
