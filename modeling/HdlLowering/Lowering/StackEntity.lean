import HdlLowering.Context
import HdlLowering.Tree.Text
import HdlLowering.Value.Eval

/-!
# Generated stack entities

A stack has control inputs `en`, `push`, `pop` and `set`, a data input `d`, a data output `q` and the flags `empty` and
`full`. A stack of one element is a register with a flag for whether it holds a value, and its flags are wires. A deeper one
is an array of registers with a pointer to the top, and its flags are registers.
-/

namespace HdlLowering.StackEntity

open ContextM Expr

def controlPorts : List String := ["en", "push", "pop", "set"]

/-- A stack in the making: its place, and the ports and declarations so far. -/
structure Draft where
  loc : Loc
  ports : List Symbol := []
  decls : List Decl := []

abbrev DraftM := StateT Draft ContextM

def reg (name : String) (kind : Kind) (init : Option Expr) : DraftM Symbol := do
  let loc := (← get).loc
  let s ← newTerm name loc kind
  modify fun u => { u with decls := u.decls ++ [{ loc, symbol := s, init }] }
  if init.isSome then
    setInit s init
  return s

def port (name : String) (kind : Kind) (init : Option Expr) : DraftM Symbol := do
  let s ← reg name kind init
  modify fun u => { u with ports := u.ports ++ [s] }
  return s

def assign (lhs rhs : Expr) : Stmt := .assign .synthetic lhs rhs

def complement (e : Expr) : Expr := .unary .synthetic .complement e

def binary (op : BinaryOp) (lhs rhs : Expr) : Expr := .binary .synthetic op lhs rhs

structure Ports where
  en : Expr
  push : Expr
  pop : Expr
  d : Expr
  q : Expr
  empty : Expr
  full : Expr

def wire (loc : Loc) (source sink : Expr) : Connect := ⟨loc, source, [sink]⟩

def single (p : Ports) (elem : Kind) : DraftM (List Connect × List Stmt) := do
  let loc := (← get).loc
  let store ← reg "s" elem.clone none
  let held ← reg "valid" (.uint 1) (some (.ofUInt 1 0))
  setRole store .stackStorage
  let s := ofSymbol store
  let valid := ofSymbol held
  let body := [
    assign s p.d,
    assign valid (binary .and (complement p.pop) (binary .or valid p.push))]
  return ([wire loc s p.q, wire loc (complement valid) p.empty, wire loc valid p.full], [.cond loc p.en body []])

/-- The number of bits needed to count up to a number. -/
def bitsFor (n : UInt64) : Int64 := if n = 0 then 0 else Int64.ofNat (n.toNat.log2 + 1)

def multi (p : Ports) (elem : Kind) (depth : Int64) : DraftM (List Connect × List Stmt) := do
  let loc := (← get).loc
  let w := bitsFor (depth - 1).toUInt64
  let pointer ← reg "ptr" (.uint w) (some (.ofUInt w 0))
  let store ← reg "s" (.array elem.clone depth) none
  setRole store .stackStorage
  let ptr := ofSymbol pointer
  let top := index .synthetic (ofSymbol store) ptr
  let onPop := [
    assign p.empty (binary .eq ptr (.ofUInt w 0)),
    assign p.full (.ofUInt 1 0),
    .cond .synthetic (complement p.empty) [assign ptr (binary .sub ptr (.ofUInt w 1))] []]
  let room := binary .and (binary .and (complement p.empty) (complement p.full)) p.push
  let onPush := [
    .cond .synthetic room [assign ptr (binary .add ptr (.ofUInt w 1))] [],
    assign top p.d,
    assign p.empty (binary .and p.empty (complement p.push)),
    assign p.full (binary .eq ptr (.ofUInt w (depth - 1).toInt))]
  return ([wire loc top p.q], [.cond loc p.en [.cond .synthetic p.pop onPop onPush] []])

def make (elem : Kind) (depth : Int64) : DraftM (List Connect × List Stmt) := do
  let control ← controlPorts.mapM fun name => port name (.input (.uint 1) .none) none
  let d ← port "d" (.input elem.clone .none) none
  let q ← port "q" (.output elem.clone .none .wire) none
  let flag (storage : Storage) : Kind := .output (.uint 1) .none storage
  let storage : Storage := if depth = 1 then .wire else .reg
  let init (v : Int) : Option Expr := if depth = 1 then none else some (.ofUInt 1 v)
  let empty ← port "empty" (flag storage) (init 1)
  let full ← port "full" (flag storage) (init 0)
  let pin (i : Nat) : Expr := ofSymbol (control.getD i default)
  let p : Ports := {
    en := pin 0, push := pin 1, pop := pin 2
    d := .ofSymbol d, q := .ofSymbol q, empty := .ofSymbol empty, full := .ofSymbol full }
  if depth = 1 then single p elem else multi p elem depth

def ofDepth (name : String) (loc : Loc) (elem : Kind) (depth : Int64) : ContextM Entity := do
  let ((connects, stmts), u) ← (make elem depth).run { loc }
  let symbol ← newEntity name loc u.ports
  return { loc, symbol, decls := u.decls, connects, stmts }

/-- The value of a depth: a positive constant. -/
def depthValue? (Γ : SymbolTable) (depth : Expr) : Option Int64 :=
  ((depth.eval Γ {}).bind Word.ofInt?).filter (0 < ·)

/-- The entity of a stack whose depth is an expression. Registers cannot be sized without a constant, so any
other depth is a broken invariant. -/
def build (name : String) (loc : Loc) (elem : Kind) (depth : Option Expr) : ContextM Entity := do
  match depth with
  | none => internal (.noDepth name)
  | some e =>
    let Γ ← symbols
    match depthValue? Γ e with
    | some n => ofDepth name loc elem n
    | none => internal (.badDepth name (e.text Γ))

end HdlLowering.StackEntity
