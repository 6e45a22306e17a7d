import HdlLowering.Contract.Number

/-!
# Plain values

Null, truth values, numbers, texts and strings of bytes. Whole numbers and fractions are different categories even where they
are equal: `1` is whole and `1.0` is not.
-/

namespace HdlLowering.Contract

inductive Category where
  | null | truth | whole | fraction | text | bytes | function | list | record
  deriving DecidableEq

def Category.bit : Category → UInt16
  | .null => 1
  | .truth => 2
  | .whole => 4
  | .fraction => 8
  | .text => 16
  | .bytes => 32
  | .function => 64
  | .list => 128
  | .record => 256

structure Categories where
  bits : UInt16
  deriving DecidableEq

namespace Categories

def ofList (cs : List Category) : Categories := ⟨cs.foldl (fun bits c => bits ||| c.bit) 0⟩

def all : Categories := ⟨511⟩

def whole : Categories := .ofList [.whole]

def numbers : Categories := .ofList [.whole, .fraction]

def text : Categories := .ofList [.text]

def record : Categories := .ofList [.record]

def list : Categories := .ofList [.list]

def notNull : Categories := ⟨510⟩

def meet (a b : Categories) : Categories := ⟨a.bits &&& b.bits⟩

def isEmpty (a : Categories) : Bool := a.bits == 0

def meets (a b : Categories) : Bool := !(a.meet b).isEmpty

def has (a : Categories) (c : Category) : Bool := (a.bits &&& c.bit) != 0

end Categories

/-- A plain value. A number says which categories of numbers it may stand for. -/
inductive Scalar where
  | null
  | truth (b : Bool)
  | number (as : Categories) (d : Decimal)
  | text (s : String)
  | bytes (bs : List UInt8)
  deriving DecidableEq

namespace Scalar

def whole (n : Int) : Scalar := .number .whole (.ofInt n)

def fraction (d : Decimal) : Scalar := .number (.ofList [.fraction]) d

def categories : Scalar → Categories
  | .null => .ofList [.null]
  | .truth _ => .ofList [.truth]
  | .number as _ => as
  | .text _ => .text
  | .bytes _ => .ofList [.bytes]

/-- How two plain values stand in order, if they are both numbers, texts or bytes. -/
def compare? (a b : Scalar) : Option Ordering :=
  match a, b with
  | .text s, .text t => some (compare s.toUTF8.toList t.toUTF8.toList)
  | .bytes s, .bytes t => some (compare s t)
  | .number _ x, .number _ y => some (x.compare y)
  | _, _ => none

def equals (a b : Scalar) : Bool :=
  match a, b with
  | .null, .null => true
  | .truth x, .truth y => x == y
  | .text s, .text t => s == t
  | .bytes s, .bytes t => s == t
  | .number _ x, .number _ y => x.compare y == .eq
  | _, _ => false

end Scalar

end HdlLowering.Contract
