import HdlLowering.Typing
import HdlLowering.Value.Bindings

/-!
# Evaluation

`Expr.eval` gives the value of an expression, cut to its type, where the known values of symbols decide it; a part of the
operands may decide `&&`, `||` and the conditional. Shifts, bit positions and replications are evaluated up to `maxShift` bits,
where the size of a replication is a product of 64-bit words. `Expr.evaluate` is the evaluation as it runs: it stops at a value
that is to be cut to a negative width.
-/

namespace HdlLowering

open Bits

/-- The largest shift, bit position or replication that is evaluated. -/
def maxShift : Int := 65536

def inShiftRange (v : Int) : Bool := 0 ≤ v && v ≤ maxShift

def UnaryOp.apply (op : UnaryOp) (w : Int64) (v : Int) : Option Int :=
  match op with
  | .plus => some v
  | .minus => some (-v)
  | .complement => some (~~~v)
  | .not => some (Bits.ofBool (v == 0))
  | .allOnes => if w = 0 then none else some (Bits.ofBool (Bits.unsigned v w == Bits.mask w))
  | .anyOne => some (Bits.ofBool (v != 0))
  | .parity => if w = 0 then none else some (Bits.parity (Bits.unsigned v w) w)
  | .other _ => none

def BinaryOp.apply (op : BinaryOp) (w : Int64) (x y : Int) : Option Int :=
  match op with
  | .add => some (x + y)
  | .sub => some (x - y)
  | .mul => some (x * y)
  | .div => if y = 0 then none else some (x.tdiv y)
  | .rem => if y = 0 then none else some (x.tmod y)
  | .and => some (Bits.and x y)
  | .or => some (Bits.or x y)
  | .xor => some (Bits.xor x y)
  | .shiftLeft => if inShiftRange y then some (x <<< y.toNat) else none
  | .shiftRight =>
    if inShiftRange y then some ((if 0 < w then Bits.unsigned x w else x) >>> y.toNat) else none
  | .shiftRightSigned => if inShiftRange y then some (x >>> y.toNat) else none
  | .eq => some (Bits.ofBool (x == y))
  | .ne => some (Bits.ofBool (x != y))
  | .lt => some (Bits.ofBool (x < y))
  | .le => some (Bits.ofBool (x ≤ y))
  | .gt => some (Bits.ofBool (x > y))
  | .ge => some (Bits.ofBool (x ≥ y))
  | .both => some (Bits.ofBool (x != 0 && y != 0))
  | .either => some (Bits.ofBool (x != 0 || y != 0))
  | .other _ => none

/-- The value of a binary operation; one known operand decides a conjunction that is false and a disjunction
that is true. -/
def BinaryOp.eval (op : BinaryOp) (w : Int64) (x y : Option Int) : Option Int :=
  match op, x, y with
  | .both, some 0, _ => some 0
  | .both, _, some 0 => some 0
  | .either, some x, some y => BinaryOp.apply .either w x y
  | .either, some x, none => if x = 0 then none else some 1
  | .either, none, some y => if y = 0 then none else some 1
  | op, some x, some y => op.apply w x y
  | _, _, _ => none

/-- The value of a conditional; when the condition is unknown both branches must agree. -/
def ternaryValue (c x y : Option Int) : Option Int :=
  match c with
  | some c => if c = 0 then y else x
  | none =>
    match x, y with
    | some x, some y => if x = y then some x else none
    | _, _ => none

def repeatBits (count : Nat) (part : Int) (w : Int64) : Int :=
  if part = 0 then 0 else count.repeat (fun acc => acc * values w + part) 0

/-- The value of a replication of an operand of a width. The product that bounds it is one of 64-bit words. -/
def repValue (w : Int64) (count v : Option Int) : Option Int :=
  match count, v with
  | some n, some v =>
    match Word.ofInt? n with
    | some n64 =>
      if w = 0 || n < 0 || maxShift < (n64 * w).toInt then none
      else some (repeatBits n.toNat (unsigned v w) w)
    | none => none
  | _, _ => none

def indexValue (v i : Option Int) : Option Int :=
  match v, i with
  | some v, some i => if inShiftRange i then some (bit v i.toNat) else none
  | _, _ => none

def sliceValue (v m l : Option Int) : Option Int :=
  match v, m, l with
  | some v, some m, some l => if inShiftRange l && l ≤ m then some (v >>> l.toNat) else none
  | _, _, _ => none

variable (Γ : SymbolTable)

def Expr.fit (e : Expr) (v : Option Int) : Option Int := v.map (e.type Γ).normalize

mutual
/-- The value of an expression before it is cut to the type of the expression. -/
def Expr.raw (b : Bindings) : Expr → Option Int
  | .ref _ s => b.get? s
  | .num _ _ v => some v
  | .int _ _ _ v => some v
  | .unary _ op x => (x.fit Γ (raw b x)).bind (op.apply (x.width Γ))
  | .binary _ op x y => op.eval (x.width Γ) (x.fit Γ (raw b x)) (y.fit Γ (raw b y))
  | .ternary _ c x y =>
    ternaryValue (c.fit Γ (raw b c)) (x.fit Γ (raw b x)) (y.fit Γ (raw b y))
  | .cat _ ps => rawParts b 0 ps
  | .rep _ n x => repValue (x.width Γ) (n.fit Γ (raw b n)) (x.fit Γ (raw b x))
  | .index _ x i =>
    match x.type Γ with
    | .array .. => none
    | _ => indexValue (x.fit Γ (raw b x)) (i.fit Γ (raw b i))
  | .slice _ x m l =>
    sliceValue (x.fit Γ (raw b x)) (m.fit Γ (raw b m)) (l.fit Γ (raw b l))
  | .select .. => none
  | .call .. => none

def Expr.rawParts (b : Bindings) (acc : Int) : List Expr → Option Int
  | [] => some acc
  | p :: ps =>
    match p.fit Γ (raw b p) with
    | some v =>
      if p.width Γ = 0 then none
      else rawParts b (acc * values (p.width Γ) + unsigned v (p.width Γ)) ps
    | none => none
end

def Expr.eval (b : Bindings) (e : Expr) : Option Int := e.fit Γ (e.raw Γ b)

/-! ## Evaluation as it runs -/

/-- Why an evaluation stops without an answer: no value can be cut to a negative number of bits. -/
inductive Crash where
  | negativeWidth
  deriving DecidableEq

/-- Whether the left operand of a conjunction or a disjunction decides it. -/
def BinaryOp.decided : BinaryOp → Option Int → Bool
  | .both, some v => v = 0
  | .either, some v => v ≠ 0
  | _, _ => false

def Expr.fitted (e : Expr) (v : Option Int) : Except Crash (Option Int) :=
  if v.isSome && e.width Γ < 0 then throw .negativeWidth else return e.fit Γ v

/-- Records the value of a symbol, cut to its kind, unless that has a negative width. -/
def Bindings.bound (b : Bindings) (s : Symbol) (v : Int) : Except Crash Bindings :=
  if (Γ.kind s).width < 0 then throw .negativeWidth else return b.bind Γ s v

mutual
/-- The evaluation of an expression, operand by operand as far as they are needed, until it stops. Its answer is `Expr.eval`. -/
def Expr.evaluate (b : Bindings) : Expr → Except Crash (Option Int)
  | .unary l op x => do fitted Γ (.unary l op x) ((← evaluate b x).bind (op.apply (x.width Γ)))
  | .binary l op x y => do
    let v ← evaluate b x
    let u ← if op.decided v then pure none else evaluate b y
    fitted Γ (.binary l op x y) (op.eval (x.width Γ) v u)
  | .ternary l c x y => do
    match ← evaluate b c with
    | some v => fitted Γ (.ternary l c x y) (← if v = 0 then evaluate b y else evaluate b x)
    | none => fitted Γ (.ternary l c x y) (ternaryValue none (← evaluate b x) (← evaluate b y))
  | .cat l ps => do fitted Γ (.cat l ps) (← evaluateParts b 0 ps)
  | .rep l n x => do fitted Γ (.rep l n x) (repValue (x.width Γ) (← evaluate b n) (← evaluate b x))
  | .index l x i => do
    match x.type Γ with
    | .array .. => return none
    | _ => fitted Γ (.index l x i) (indexValue (← evaluate b x) (← evaluate b i))
  | .slice l x m n => do fitted Γ (.slice l x m n) (sliceValue (← evaluate b x) (← evaluate b m) (← evaluate b n))
  | e => fitted Γ e (e.raw Γ b)

def Expr.evaluateParts (b : Bindings) (acc : Int) : List Expr → Except Crash (Option Int)
  | [] => return some acc
  | p :: ps => do
    match ← evaluate b p with
    | some v =>
      if p.width Γ = 0 then return none
      else evaluateParts b (acc * values (p.width Γ) + unsigned v (p.width Γ)) ps
    | none => return none
end

def Expr.ofValue (loc : Loc) (v : Int) (k : Kind) : Expr :=
  if 0 < k.width then .int loc k.signed k.width (k.normalize v) else .num loc (decide (v < 0)) v

end HdlLowering
