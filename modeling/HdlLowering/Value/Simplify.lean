import HdlLowering.Value.Eval

/-!
# Simplification

`Expr.simplify?` replaces the largest subexpressions with a known value by literals, below unary, binary and conditional
operators, if there are any.
-/

namespace HdlLowering

variable (Γ : SymbolTable)

/-- The literal of a known value in place of an expression that is not a literal already. -/
def Expr.folded? (b : Bindings) (e : Expr) : Option Expr :=
  (e.eval Γ b).map fun v => .ofValue e.loc v (e.type Γ)

/-- An expression with its known parts replaced by literals, or nothing when no part is known. -/
def Expr.simplify? (b : Bindings) : Expr → Option Expr
  | .num .. => none
  | .int .. => none
  | .unary l op x =>
    match (unary l op x).folded? Γ b with
    | some e => some e
    | none => (simplify? b x).map (.unary l op)
  | .binary l op x y =>
    match (binary l op x y).folded? Γ b with
    | some e => some e
    | none =>
      match simplify? b x, simplify? b y with
      | none, none => none
      | x', y' => some (.binary l op (x'.getD x) (y'.getD y))
  | .ternary l c x y =>
    match (ternary l c x y).folded? Γ b with
    | some e => some e
    | none =>
      match simplify? b c, simplify? b x, simplify? b y with
      | none, none, none => none
      | c', x', y' => some (.ternary l (c'.getD c) (x'.getD x) (y'.getD y))
  | e => e.folded? Γ b

/-- The parts of an expression that are evaluated when it is simplified. -/
def Expr.examined (b : Bindings) : Expr → List Expr
  | .num .. => []
  | .int .. => []
  | .unary l op x => .unary l op x :: if ((unary l op x).eval Γ b).isSome then [] else examined b x
  | .binary l op x y => .binary l op x y :: if ((binary l op x y).eval Γ b).isSome then [] else examined b x ++ examined b y
  | .ternary l c x y => .ternary l c x y ::
      if ((ternary l c x y).eval Γ b).isSome then [] else examined b c ++ examined b x ++ examined b y
  | e => [e]

/-- The simplification of an expression, until an evaluation stops. Its answer is `Expr.simplify?`. -/
def Expr.simplified (b : Bindings) (e : Expr) : Except Crash (Option Expr) := do
  (e.examined Γ b).forM fun x => discard (x.evaluate Γ b)
  return e.simplify? Γ b

def Expr.simplify (b : Bindings) (e : Expr) : Expr := (e.simplify? Γ b).getD e

end HdlLowering
