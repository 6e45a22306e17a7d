import HdlLowering.Loc

/-!
# Expressions

Expressions refer to entries of the symbol table, never to names, and hold no types (`HdlLowering.Typing`). Operators with a
meaning are constructors of their own; any other text is kept as `other`, which has a type but no value.
-/

namespace HdlLowering

/-- A symbol: its position in the symbol table. Two references are to the same thing exactly when their symbols
are equal. -/
structure Symbol where
  index : Nat
  deriving DecidableEq, Repr, Inhabited, BEq, ReflBEq, LawfulBEq, Hashable

inductive UnaryOp where
  | plus | minus | complement | not | allOnes | anyOne | parity
  | other (text : String)
  deriving DecidableEq, Repr

def UnaryOp.ofText : String → UnaryOp
  | "+" => .plus
  | "-" => .minus
  | "~" => .complement
  | "!" => .not
  | "&" => .allOnes
  | "|" => .anyOne
  | "^" => .parity
  | s => .other s

def UnaryOp.text : UnaryOp → String
  | .plus => "+"
  | .minus => "-"
  | .complement => "~"
  | .not => "!"
  | .allOnes => "&"
  | .anyOne => "|"
  | .parity => "^"
  | .other s => s

inductive BinaryOp where
  | add | sub | mul | div | rem
  | and | or | xor
  | shiftLeft | shiftRight | shiftRightSigned
  | eq | ne | lt | le | gt | ge
  | both | either
  | other (text : String)
  deriving DecidableEq, Repr

def BinaryOp.ofText : String → BinaryOp
  | "+" => .add
  | "-" => .sub
  | "*" => .mul
  | "/" => .div
  | "%" => .rem
  | "&" => .and
  | "|" => .or
  | "^" => .xor
  | "<<" => .shiftLeft
  | ">>" => .shiftRight
  | ">>>" => .shiftRightSigned
  | "==" => .eq
  | "!=" => .ne
  | "<" => .lt
  | "<=" => .le
  | ">" => .gt
  | ">=" => .ge
  | "&&" => .both
  | "||" => .either
  | s => .other s

def BinaryOp.text : BinaryOp → String
  | .add => "+"
  | .sub => "-"
  | .mul => "*"
  | .div => "/"
  | .rem => "%"
  | .and => "&"
  | .or => "|"
  | .xor => "^"
  | .shiftLeft => "<<"
  | .shiftRight => ">>"
  | .shiftRightSigned => ">>>"
  | .eq => "=="
  | .ne => "!="
  | .lt => "<"
  | .le => "<="
  | .gt => ">"
  | .ge => ">="
  | .both => "&&"
  | .either => "||"
  | .other s => s

/-- An expression. A concatenation has its most significant part first; a slice holds the bits `msb` down to
`lsb`; a selection names a struct field, an instance port or a method of a port or stack. -/
inductive Expr where
  | ref (loc : Loc) (symbol : Symbol)
  | num (loc : Loc) (signed : Bool) (value : Int)
  | int (loc : Loc) (signed : Bool) (width : Int64) (value : Int)
  | unary (loc : Loc) (op : UnaryOp) (operand : Expr)
  | binary (loc : Loc) (op : BinaryOp) (lhs rhs : Expr)
  | ternary (loc : Loc) (cond yes no : Expr)
  | cat (loc : Loc) (parts : List Expr)
  | rep (loc : Loc) (count operand : Expr)
  | index (loc : Loc) (base idx : Expr)
  | slice (loc : Loc) (base msb lsb : Expr)
  | select (loc : Loc) (base : Expr) (field : String)
  | call (loc : Loc) (func : Expr) (args : List Expr)
  deriving Repr, Inhabited, BEq

namespace Expr

def loc : Expr → Loc
  | .ref l .. | .num l .. | .int l .. | .unary l .. | .binary l .. | .ternary l .. | .cat l .. | .rep l ..
  | .index l .. | .slice l .. | .select l .. | .call l .. => l

def ofSymbol (s : Symbol) : Expr := .ref .synthetic s

def ofInt (v : Int) : Expr := .num .synthetic (decide (v < 0)) v

def ofUInt (width : Int64) (v : Int) : Expr := .int .synthetic false width v

def dot (e : Expr) (field : String) : Expr := .select .synthetic e field

def method (e : Expr) (name : String) (args : List Expr) : Expr := .call .synthetic (e.dot name) args

def concat : List Expr → Expr
  | [e] => e
  | parts => .cat .synthetic parts

def literal? : Expr → Option Int
  | .num _ _ v => some v
  | .int _ _ _ v => some v
  | _ => none

def isLiteral (e : Expr) : Bool := e.literal?.isSome

def symbol? : Expr → Option Symbol
  | .ref _ s => some s
  | _ => none

mutual
/-- An expression and everything below it, outer ones first and from left to right. -/
def subterms : Expr → List Expr
  | e@(.ref ..) => [e]
  | e@(.num ..) => [e]
  | e@(.int ..) => [e]
  | .unary l op x => .unary l op x :: subterms x
  | .binary l op x y => .binary l op x y :: (subterms x ++ subterms y)
  | .ternary l c x y => .ternary l c x y :: (subterms c ++ subterms x ++ subterms y)
  | .cat l ps => .cat l ps :: subtermsList ps
  | .rep l n x => .rep l n x :: (subterms n ++ subterms x)
  | .index l x i => .index l x i :: (subterms x ++ subterms i)
  | .slice l x m n => .slice l x m n :: (subterms x ++ subterms m ++ subterms n)
  | .select l x f => .select l x f :: subterms x
  | .call l f as => .call l f as :: (subterms f ++ subtermsList as)

def subtermsList : List Expr → List Expr
  | [] => []
  | e :: es => subterms e ++ subtermsList es
end

mutual
def roots : Expr → List Symbol
  | .ref _ s => [s]
  | .index _ x _ => roots x
  | .slice _ x _ _ => roots x
  | .select _ x _ => roots x
  | .cat _ ps => rootsList ps
  | _ => []

def rootsList : List Expr → List Symbol
  | [] => []
  | e :: es => roots e ++ rootsList es
end

end Expr

end HdlLowering
