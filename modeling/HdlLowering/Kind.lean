import HdlLowering.Expr

/-!
# Kinds

The kind of a symbol: a value of some type, a port with its handshake and storage, a constant, a variable that a pipeline
carries, a stack, an entity with its ports, or an instance. Widths and sizes are 64-bit words, and sums of widths wrap.
`Kind.same` compares kinds part by part, and symbols and stack depths in them by identity.
-/

namespace HdlLowering

inductive FlowControl where
  | none | valid | ready
  deriving DecidableEq, Repr

inductive SliceKind where
  | forward | backward | bubble
  deriving DecidableEq, Repr

inductive Storage where
  | reg
  | wire
  | slices (chain : List SliceKind)
  deriving DecidableEq, Repr

/-- The depth of a stack: an expression, and which of the depths written in the design it is. Copies of a kind
share it. -/
structure Depth where
  occurrence : Nat
  expr : Expr
  deriving Repr, BEq

inductive Kind where
  | uint (width : Int64)
  | sint (width : Int64)
  | num (signed : Bool)
  | void
  | struct (name : String) (fields : List (String × Kind))
  | array (elem : Kind) (size : Int64)
  | input (value : Kind) (flow : FlowControl)
  | output (value : Kind) (flow : FlowControl) (storage : Storage)
  | const (value : Kind)
  | pipeline (value : Kind)
  | stack (elem : Kind) (depth : Depth)
  | entity (ports : List Symbol)
  | inst (entity : Symbol)
  deriving Repr, Inhabited, BEq

namespace Kind

/-- The value carried, without the port, constant and pipeline wrappers. -/
def underlying : Kind → Kind
  | .input k _ => underlying k
  | .output k _ _ => underlying k
  | .const k => underlying k
  | .pipeline k => underlying k
  | k => k

mutual
/-- The number of bits of a value, and zero when the kind has no fixed width. -/
def width : Kind → Int64
  | .uint w => w
  | .sint w => w
  | .struct _ fs => widthFields fs
  | .array e n => width e * n
  | .input k _ => width k
  | .output k _ _ => width k
  | .const k => width k
  | .pipeline k => width k
  | _ => 0

def widthFields : List (String × Kind) → Int64
  | [] => 0
  | (_, k) :: fs => width k + widthFields fs
end

def signed (k : Kind) : Bool :=
  match k.underlying with
  | .sint _ => true
  | .num s => s
  | _ => false

def packed (k : Kind) : Bool := 0 < k.width

def isPort : Kind → Bool
  | .input .. | .output .. => true
  | _ => false

def isConst : Kind → Bool
  | .const _ => true
  | _ => false

def isPipeline : Kind → Bool
  | .pipeline _ => true
  | _ => false

def isStack : Kind → Bool
  | .stack .. => true
  | _ => false

def ports : Kind → List Symbol
  | .entity ps => ps
  | _ => []

def instanceOf? : Kind → Option Symbol
  | .inst e => some e
  | _ => Option.none

mutual
def clone : Kind → Kind
  | .struct n fs => .struct n (cloneFields fs)
  | .array e n => .array (clone e) n
  | .input k f => .input (clone k) f
  | .output k f st => .output (clone k) f st
  | .const k => .const (clone k)
  | .pipeline k => .pipeline (clone k)
  | .stack e d => .stack (clone e) d
  | k => k

def cloneFields : List (String × Kind) → List (String × Kind)
  | [] => []
  | (n, k) :: fs => (n, clone k) :: cloneFields fs
end

mutual
/-- Whether two kinds are the same, part by part; symbols and stack depths are compared by identity. -/
def same : Kind → Kind → Bool
  | .uint w, .uint w' => w == w'
  | .sint w, .sint w' => w == w'
  | .num s, .num s' => s == s'
  | .void, .void => true
  | .struct n fs, .struct n' fs' => n == n' && sameFields fs fs'
  | .array e n, .array e' n' => n == n' && same e e'
  | .input k f, .input k' f' => f == f' && same k k'
  | .output k f st, .output k' f' st' => f == f' && st == st' && same k k'
  | .const k, .const k' => same k k'
  | .pipeline k, .pipeline k' => same k k'
  | .stack e d, .stack e' d' => d.occurrence == d'.occurrence && same e e'
  | .entity ps, .entity ps' => ps == ps'
  | .inst e, .inst e' => e == e'
  | _, _ => false

def sameFields : List (String × Kind) → List (String × Kind) → Bool
  | [], [] => true
  | (n, k) :: fs, (n', k') :: fs' => n == n' && same k k' && sameFields fs fs'
  | _, _ => false
end

end Kind

end HdlLowering
