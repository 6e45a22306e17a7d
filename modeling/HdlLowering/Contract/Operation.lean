import HdlLowering.Contract.Range
import HdlLowering.Text.Utf8

/-!
# Operators on plain values

`none` where the operands are of the wrong kind or there is no result. A quotient is never whole; other results of whole
numbers are. Division of whole numbers leaves a remainder that is not negative, or goes towards zero.
-/

namespace HdlLowering.Contract

namespace Scalar

def resultCategories (as bs : Categories) : Categories :=
  if as.meets bs then as.meet bs else .ofList [.fraction]

/-- A text that is repeated; `none` for a negative number. -/
def repeated (s : String) (n : Int) : Option String :=
  if n < 0 then none else some (String.join (List.replicate n.toNat s))

def repeatedBytes (bs : List UInt8) (n : Int) : Option (List UInt8) :=
  if n < 0 then none else some (List.replicate n.toNat bs).flatten

def whole? : Scalar → Option Int
  | .number as d => if as.has .whole then d.whole? else none
  | _ => none

def divided (o : Operator) (a b : Int) : Option Scalar :=
  if b = 0 then none
  else match o with
    | .euclidDiv => some (.whole (a / b))
    | .euclidMod => some (.whole (a % b))
    | .truncDiv => some (.whole (a.tdiv b))
    | .truncMod => some (.whole (a.tmod b))
    | _ => none

def times (a b : Scalar) : Option Scalar :=
  match a, b with
  | .text s, n => do (← n.whole?) |> repeated s |>.map .text
  | .bytes s, n => do (← n.whole?) |> repeatedBytes s |>.map .bytes
  | _, _ => none

def calculate (o : Operator) (a b : Scalar) : Option Scalar :=
  match o, a, b with
  | .add, .number as x, .number bs y => some (.number (resultCategories as bs) (x.add y))
  | .add, .text s, .text t => some (.text (s ++ t))
  | .add, .bytes s, .bytes t => some (.bytes (s ++ t))
  | .subtract, .number as x, .number bs y => some (.number (resultCategories as bs) (x.subtract y))
  | .multiply, .number as x, .number bs y => some (.number (resultCategories as bs) (x.multiply y))
  | .multiply, .number as x, b => times b (.number as x)
  | .multiply, a, b => times a b
  | .divide, .number _ x, .number _ y => if y.isZero then none else some (.fraction (x.divide y))
  | .euclidDiv, a, b | .euclidMod, a, b | .truncDiv, a, b | .truncMod, a, b => do divided o (← a.whole?) (← b.whole?)
  | _, _, _ => none

def front (o : Operator) (a : Scalar) : Option Scalar :=
  match o, a with
  | .subtract, .number as x => some (.number as x.negate)
  | .add, .number as x => some (.number as x)
  | .not, .truth b => some (.truth !b)
  | _, _ => none

def frontCategories (o : Operator) : Categories :=
  match o with
  | .not => .ofList [.truth]
  | _ => .numbers

def insertable : Categories := .ofList [.text, .bytes, .truth, .whole, .fraction]

def inText : Scalar → Option String
  | .text s => some s
  | .bytes bs => some (Text.ofBytes bs)
  | .truth b => some (if b then "true" else "false")
  | .number _ d => some d.text
  | .null => none

def inBytes : Scalar → Option (List UInt8)
  | .bytes bs => some bs
  | s => s.inText.map (·.toUTF8.toList)

end Scalar

end HdlLowering.Contract
