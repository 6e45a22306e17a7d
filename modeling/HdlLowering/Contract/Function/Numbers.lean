import HdlLowering.Contract.Function

/-!
# Functions on numbers
-/

namespace HdlLowering.Contract.Function

def towardsZero (d : Decimal) : Int := if d.isNegative then d.ceiling else d.floor

/-- The nearest whole number, and the one away from zero of two. -/
def nearest (d : Decimal) : Int :=
  let half : Decimal := ⟨5, -1⟩
  if d.isNegative then (d.subtract half).ceiling else (d.add half).floor

/-- The nearest whole number, and the even one of two. -/
def nearestEven (d : Decimal) : Int :=
  let n := nearest d
  let isTie := (d.subtract (.ofInt d.floor)).compare ⟨5, -1⟩ == .eq
  if isTie then if d.floor % 2 = 0 then d.floor else d.ceiling else n

def ofNumber (f : Decimal → Scalar) : Function :=
  ofScalars [.numbers] fun
    | [.number _ d] => some (f d)
    | _ => none

def rounding (f : Decimal → Int) : Function := ofNumber fun d => .whole (f d)

def power (d : Decimal) : Nat → Decimal
  | 0 => .ofInt 1
  | n + 1 => (power d n).multiply d

def numbers : List (String × Function) :=
  [("Floor", rounding Decimal.floor), ("Ceil", rounding Decimal.ceiling), ("Trunc", rounding towardsZero),
    ("Round", rounding nearest), ("RoundToEven", rounding nearestEven),
    ("Abs", ofNumber fun d => number (if d.isNegative then d.negate else d)),
    ("MultipleOf", testOfScalars [.numbers, .numbers] fun
      | [.number _ x, .number _ y] => if y.isZero then none else some (x.divide y).whole?.isSome
      | _ => none),
    ("Pow", { params := [.numbers, .numbers], truth := false, apply := fun
      | _, [.scalar (.number _ x), .scalar (.number _ y)] =>
        match y.whole? with
        | some n => if 0 ≤ n ∧ n ≤ 1000 then return .scalar (number (power x n.toNat)) else throw .incomplete
        | none => throw .incomplete
      | _, _ => throw .conflict }),
    ("Signbit", ofNumber fun d => .truth d.isNegative),
    ("Dim", ofScalars [.numbers, .numbers] fun
      | [.number _ x, .number _ y] => some (number (if x.compare y == .lt then .ofInt 0 else x.subtract y))
      | _ => none)]

def constants : List (String × Decimal) :=
  [("E", ⟨271828182845904523536028747135266249775724709369995957496696763, -62⟩),
    ("Pi", ⟨314159265358979323846264338327950288419716939937510582097494459, -62⟩),
    ("Phi", ⟨161803398874989484820458683436563811772030917980576286213544862, -62⟩),
    ("Sqrt2", ⟨141421356237309504880168872420969807856967187537694807317667974, -62⟩),
    ("SqrtE", ⟨164872127070012814684865078781416357165377610071014801157507931, -62⟩),
    ("SqrtPi", ⟨177245385090551602729816748334114518279754945612238712821380779, -62⟩),
    ("SqrtPhi", ⟨127201964951406896425242246173749149171560804184009624861664038, -62⟩),
    ("Ln2", ⟨693147180559945309417232121458176568075500134360255254120680009, -63⟩),
    ("Log2E", ⟨144269504088896340735992468100189213742664595415298593413544940, -62⟩),
    ("Ln10", ⟨230258509299404568401799145468436420760110148862877297603332790, -62⟩),
    ("Log10E", ⟨434294481903251827651128918916605082294397005803666566114453783, -63⟩)]

end HdlLowering.Contract.Function
