import HdlLowering.Lowering.StackEntity
import HdlLowering.Traversal.Scopes
import HdlLowering.Traversal.Walk
import HdlLowering.Tree.Preorder

/-!
# Stacks

The pass replaces every declared stack by a nested entity, an instance of it, and a variable for each of its ports.
Operations become assignments to these variables, and the body of the owner starts by taking back all control inputs.

The effects of pops inside expressions are collected for the innermost statement; they stand before it when its value decides
where to go, and after it otherwise.
-/

namespace HdlLowering.Stack

open Expr ContextM StackEntity

/-- What stands for a stack: its entity, the instance, and the variables wired to its ports by port name. -/
structure Info where
  symbol : Symbol
  loc : Loc
  entity : Entity
  inst : Symbol
  vars : List (String × Symbol)
  decls : List Decl
  connects : List Connect

def Info.var (i : Info) (port : String) : Expr := ofSymbol ((i.vars.lookup port).getD default)

def Info.set (i : Info) (port : String) (v : Expr) : Stmt := .assign i.loc (i.var port) v

/-- The state of the pass: all stacks met, the stacks of each open entity, and the effects of the open
statements. -/
structure State where
  known : List (Symbol × Info) := []
  owners : Scopes (List Info) := {}
  pending : Scopes (List Stmt) := {}

def State.stackOf? (st : State) (e : Expr) : Option Info := e.symbol?.bind fun s => st.known.lookup s

def makeVar (stack inst port : Symbol) : ContextM ((String × Symbol) × Decl × Connect) := do
  let Γ ← symbols
  let loc := Γ.loc stack
  let name := Γ.name port
  let v ← newTerm (Γ.name stack ++ "_" ++ name) loc (Γ.kind port).underlying.clone
  setRole v .interconnect
  setInterconnect stack name v
  let pin := (ofSymbol inst).dot name
  let connect : Connect := match Γ.kind port with
    | .input .. => ⟨loc, ofSymbol v, [pin]⟩
    | _ => ⟨loc, pin, [ofSymbol v]⟩
  return ((name, v), ⟨loc, v, none⟩, connect)

def makeInfo (stack : Symbol) (elem : Kind) (depth : Expr) : ContextM Info := do
  let Γ ← symbols
  let name := Γ.name stack
  let loc := Γ.loc stack
  let entity ← build name loc elem (some depth)
  let inst ← newTerm (name ++ "_inst") loc (.inst entity.symbol)
  let made ← ((← symbols).entityPorts entity.symbol).mapM (makeVar stack inst)
  return { symbol := stack, loc, entity, inst, vars := made.map (·.1), decls := made.map (·.2.1), connects := made.map (·.2.2) }

def enterDecls : List Decl → PassM State (List Info)
  | [] => return []
  | d :: ds => do
    match (← PassM.symbols).kind d.symbol with
    | .stack elem depth =>
      let info ← makeInfo d.symbol elem depth.expr
      PassM.modifyOwn fun st => { st with known := (d.symbol, info) :: st.known }
      return info :: (← enterDecls ds)
    | _ => enterDecls ds

def one : Expr := .ofUInt 1 1

def Info.defaults (Γ : SymbolTable) (i : Info) : List Stmt :=
  let elem := (Γ.kind ((i.vars.lookup "d").getD default)).underlying
  controlPorts.map (fun p => i.set p (.ofUInt 1 0)) ++ [i.set "d" (ofValue i.loc 0 elem)]

/-- What stands for a selection: the value on top and the flags are variables. -/
def selectReply (st : State) (base : Expr) (field : String) : Reply :=
  match st.stackOf? base, field with
  | some i, "top" => .put (.node (.expr (i.var "q")))
  | some i, "full" => .put (.node (.expr (i.var "full")))
  | some i, "empty" => .put (.node (.expr (i.var "empty")))
  | _, _ => .keep

/-- What stands for a call: a pop is the value on top, and its effects are left to the statement. -/
def callReply (loc : Loc) (func : Expr) (args : List Expr) : PassM State Reply := do
  let st ← PassM.own
  let Γ ← PassM.symbols
  match func with
  | .ref l s =>
    if args.isEmpty && Γ.role s == .interconnect then
      return .put (.node (.expr (.ref l s)))
    else return .keep
  | .select _ base "pop" =>
    match st.stackOf? base with
    | none => return .keep
    | some i =>
      match st.pending.top? with
      | none =>
        error loc (.popOutsideStatement (Γ.name i.symbol))
        return .keep
      | some effects =>
        let effects := effects ++ [i.set "en" one, i.set "pop" one]
        PassM.modifyOwn fun st => { st with pending := st.pending.pop.push effects }
        return .put (.node (.expr (i.var "q")))
  | _ => return .keep

def operation : Expr → PassM State (Option (List Stmt))
  | .call loc (.select _ base field) args => do
    match (← PassM.own).stackOf? base with
    | none => return none
    | some i =>
      if field == "push" || field == "set" then
        match args with
        | [v] => return some [i.set "en" one, i.set field one, i.set "d" v]
        | _ =>
          error loc (.oneArgument ((← PassM.symbols).name i.symbol) field)
          return none
      else return none
  | _ => return none

/-- The value of a statement decides where to go, so effects stand before it. -/
def effectsFirst : Stmt → Bool
  | .cond .. | .case .. | .stall .. => true
  | _ => false

/-- What stands for a statement: the operation it is, with the effects of its expressions. -/
def stmtReply (s : Stmt) : PassM State Reply := do
  let effects := ((← PassM.own).pending.top?).getD []
  PassM.modifyOwn fun st => { st with pending := st.pending.pop }
  let ops ← match s with
    | .expr _ e => operation e
    | _ => pure none
  let Γ ← PassM.symbols
  let bare : Bool := match s with
    | .expr _ (.ref _ v) => Γ.role v == .interconnect && !effects.isEmpty
    | _ => false
  let self : Forest := match ops with
    | some ops => .ofStmts ops
    | none => .node (.stmt s)
  if bare then
    return .put (.ofStmts effects)
  else if effects.isEmpty then
    return match ops with
      | some _ => .put self
      | none => .keep
  else
    let after := effects.map fun a => Forest.node (.stmt a)
    return .put (.several (if effectsFirst s then after ++ [self] else self :: after))

def entityReply (e : Entity) : PassM State Reply := do
  let infos := ((← PassM.own).owners.top?).getD []
  PassM.modifyOwn fun st => { st with owners := st.owners.pop }
  if infos.isEmpty then
    return .keep
  let st ← PassM.own
  let Γ ← PassM.symbols
  return .put (.node (.entity { e with
    decls := e.decls.filter (fun d => (st.known.lookup d.symbol).isNone) ++ infos.flatMap (·.decls)
    entities := e.entities ++ infos.map (·.entity)
    instances := e.instances ++ infos.map fun i => ⟨i.loc, i.inst, i.entity.symbol⟩
    connects := e.connects ++ infos.flatMap (·.connects)
    stmts := infos.flatMap (·.defaults Γ) ++ e.stmts }))

def check (Γ : SymbolTable) : List Node → ContextM Unit
  | [] => return ()
  | .decl d :: ns => do
    if (Γ.kind d.symbol).isStack then
      internal (.stackLeft (Γ.name d.symbol))
    check Γ ns
  | _ :: ns => check Γ ns

def pass : Pass State where
  name := "LowerStacks"
  enter
    | .entity e => do
      let infos ← enterDecls e.decls
      PassM.modifyOwn fun st => { st with owners := st.owners.push infos }
    | .stmt _ => PassM.modifyOwn fun st => { st with pending := st.pending.push [] }
    | _ => return ()
  transform
    | .entity e => entityReply e
    | .expr (.select _ base field) => return selectReply (← PassM.own) base field
    | .expr (.call l f as) => callReply l f as
    | .stmt s => stmtReply s
    | _ => return .keep
  unwind := some fun n st =>
    match n with
    | .entity _ => { st with owners := st.owners.pop }
    | .stmt _ => { st with pending := st.pending.pop }
    | _ => st
  finalCheck r := do
    let st ← PassM.own
    if !st.owners.isEmpty || !st.pending.isEmpty then
      internal .stackScopesLeft
    check (← PassM.symbols) r.nodes

end HdlLowering.Stack
