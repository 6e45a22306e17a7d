import HdlLowering.SymbolTable
import HdlLowering.Word

/-!
# The types of expressions

The type of an expression follows from how it is built and from the kinds of its symbols, without port, constant and pipeline
wrappers. The width of a replication or a slice is computed from the low 64 bits of its literal bounds and wraps.
-/

namespace HdlLowering

open Word

/-- The type of an arithmetic or bitwise operation. An operand without a width takes the type of the other one.
-/
def Kind.join (a b : Kind) : Kind :=
  match a, b with
  | .num s, .num s' => .num (s || s')
  | .num _, b => b
  | a, .num _ => a
  | a, b =>
    let w := if a.width < b.width then b.width else a.width
    if a.signed && b.signed then .sint w
    else if !a.packed then a
    else .uint w

variable (Γ : SymbolTable)

def Kind.fieldType (base : Kind) (field : String) : Kind :=
  let own : Option Kind := match base with
    | .struct _ fs => (fs.find? (·.1 == field)).map (·.2)
    | .inst e => (Γ.portNamed? e field).map fun p => (Γ.kind p).underlying
    | .stack e _ =>
      match field with
      | "top" => some e
      | "full" | "empty" => some (.uint 1)
      | _ => none
    | _ => none
  match own with
  | some k => k
  | none =>
    match field with
    | "valid" | "ready" | "space" | "move" => .uint 1
    | _ => .void

def Kind.methodType (base : Kind) (method : String) : Kind :=
  match method with
  | "read" => base
  | "pop" =>
    match base with
    | .stack e _ => e
    | _ => .void
  | "top" => base.fieldType Γ "top"
  | _ => .void

mutual
def Expr.type : Expr → Kind
  | .ref _ s => (Γ.kind s).underlying
  | .num _ signed _ => .num signed
  | .int _ signed w _ => if signed then .sint w else .uint w
  | .unary _ op e =>
    match op with
    | .not | .allOnes | .anyOne | .parity => .uint 1
    | _ => type e
  | .binary _ op x y =>
    match op with
    | .eq | .ne | .lt | .le | .gt | .ge | .both | .either => .uint 1
    | .shiftLeft | .shiftRight | .shiftRightSigned => type x
    | _ => (type x).join (type y)
  | .ternary _ _ x y => (type x).join (type y)
  | .cat _ ps => .uint (widths ps)
  | .rep _ n e =>
    match n.literal? with
    | some count => .uint (low count * (type e).width)
    | none => .uint 0
  | .index _ e _ =>
    match type e with
    | .array elem _ => elem
    | _ => .uint 1
  | .slice _ _ m l =>
    match m.literal?, l.literal? with
    | some msb, some lsb => .uint (low msb - low lsb + 1)
    | _, _ => .uint 0
  | .select _ e f => (type e).fieldType Γ f
  | .call _ (.select _ e f) _ => (type e).methodType Γ f
  | .call .. => .void

def Expr.widths : List Expr → Int64
  | [] => 0
  | e :: es => (type e).width + widths es
end

def Expr.width (e : Expr) : Int64 := (e.type Γ).width

end HdlLowering
