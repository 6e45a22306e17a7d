import HdlLowering.Traversal.Scopes
import HdlLowering.Traversal.Substitution

/-!
# Nested entities

The pass takes nested entities out of their parents, behind which they then stand under the joined names. For each port or
constant of the entities around it that a nested entity refers to, it gets an alias: a port of the same kind, which the
parent wires to every instance, or a copy of the constant and of those its value depends on. A parent that does not declare
the port itself gets an alias too, and so on outwards.

An output that nested entities drive becomes a wire. Two nested entities that drive one output, or consume one input with
back pressure, are an error, reported when the outermost entity is done.
-/

namespace HdlLowering.Nesting

open ContextM Node Expr

/-- A wire that a parent owes to every instance of a nested entity: from or to its port. -/
structure Obligation where
  child : Symbol
  port : Symbol
  source : Symbol
  deriving DecidableEq

/-- An open entity: what it declares, the aliases it has got by outer symbol in the order they were made, and
what it owes to the entities nested in it. -/
structure Frame where
  inputs : SymbolSet := {}
  outputs : SymbolSet := {}
  consts : SymbolSet := {}
  aliases : List (Symbol × Symbol) := []
  obligations : List Obligation := []
  deriving Inhabited

/-- The state of the pass: the open entities, and the nested entities that use each outer port which allows one
user only. -/
structure State where
  frames : Scopes Frame := {}
  users : List (Symbol × List Symbol) := []

variable (Γ : SymbolTable)

def Frame.declare (f : Frame) (s : Symbol) : Frame :=
  match Γ.kind s with
  | .input .. => { f with inputs := f.inputs.insert (Γ.member s) }
  | .output .. => { f with outputs := f.outputs.insert (Γ.member s) }
  | .const _ => { f with consts := f.consts.insert (Γ.member s) }
  | _ => f

def Frame.declares (f : Frame) (s : Symbol) : Bool :=
  let m := Γ.member s
  f.inputs.has m || f.outputs.has m || f.consts.has m

def recordInit (d : Decl) : ContextM Unit := do
  let Γ ← symbols
  if (Γ.kind d.symbol).isConst && d.init.isSome && (Γ.init d.symbol).isNone then
    setInit d.symbol d.init

def newFrame (e : Entity) : ContextM Frame := do
  e.decls.forM recordInit
  let Γ ← symbols
  return (e.decls.map (·.symbol)).foldl (Frame.declare Γ) {}

def isOuter (frames : Scopes Frame) (s : Symbol) : Bool := frames.items.any (·.declares Γ s)

def dependencies (s : Symbol) : List Use :=
  if (Γ.kind s).isConst then
    match Γ.init s with
    | some init => (uses init.nodes).filter fun u => (Γ.kind u.symbol).isConst
    | none => []
  else []

def addUses (outer : Symbol → Bool) (uses : List Use) (new : List Use) : List Use :=
  new.foldl (fun acc u => if outer u.symbol && !acc.any (·.symbol == u.symbol) then acc ++ [u] else acc) uses

/-- Adds the uses that the constants among some depend on, from a position on. The fuel bounds the number of
symbols. -/
def closeUses (outer : Symbol → Bool) : Nat → Nat → List Use → List Use
  | 0, _, uses => uses
  | fuel + 1, i, uses =>
    match uses[i]? with
    | none => uses
    | some u => closeUses outer fuel (i + 1) (addUses outer uses (dependencies Γ u.symbol))

/-- The outer symbols that an entity refers to, with the constants they depend on, by place of first use. -/
def outerUses (frames : Scopes Frame) (e : Entity) : List Use :=
  let outer := isOuter Γ frames
  let direct := addUses outer [] (references e.ownNodes)
  (closeUses Γ outer (Γ.entries.size + 1) 0 direct).mergeSort fun a b => !b.loc.before a.loc

/-- A port that allows one user only: an output, or an input with back pressure. -/
def isExclusive : Kind → Bool
  | .output .. => true
  | .input _ flow => flow == .ready
  | _ => false

def addUser (users : List (Symbol × List Symbol)) (port entity : Symbol) : List (Symbol × List Symbol) :=
  if users.any (·.1 == port) then users.map fun (p, es) => if p == port then (p, es ++ [entity]) else (p, es)
  else users ++ [(port, [entity])]

def makeAlias (entity : Symbol) (u : Use) : PassM State (Symbol × Symbol) := do
  let own ← symbolLike u.symbol
  setLiftedFrom own u.symbol
  if isExclusive ((← PassM.symbols).kind u.symbol) then
    PassM.modifyOwn fun st => { st with users := addUser st.users u.symbol entity }
  return (u.symbol, own)

def enterEntity (e : Entity) : PassM State Unit := do
  let f ← newFrame e
  let frames := (← PassM.own).frames
  let aliases ←
    if frames.isEmpty then pure []
    else (outerUses (← PassM.symbols) frames e).mapM (makeAlias e.symbol)
  PassM.modifyOwn fun st => { st with frames := st.frames.push { f with aliases } }

def asWire : Kind → Kind
  | .output k flow _ => .output k flow .wire
  | k => k

/-- The alias that the parent has of an outer symbol; it is made when it is missing, and an output only passed
through is a wire. -/
def parentAlias (outer : Symbol) : PassM State Symbol := do
  let parent := ((← PassM.own).frames.level? 1).getD {}
  match parent.aliases.lookup outer with
  | some a => return a
  | none =>
    let a ← symbolLike outer
    setKind a (asWire ((← PassM.symbols).kind a))
    setLiftedFrom a outer
    PassM.modifyOwn fun st =>
      { st with frames := st.frames.modifyLevel 1 fun f => { f with aliases := f.aliases ++ [(outer, a)] } }
    return a

/-- Hands the wire to a new port of an entity over to its parent. -/
def oblige (child : Symbol) (outer port : Symbol) : PassM State Unit := do
  let Γ ← PassM.symbols
  setKind outer (asWire (Γ.kind outer))
  let parent := ((← PassM.own).frames.level? 1).getD {}
  let source ← if parent.declares Γ outer then pure outer else parentAlias outer
  PassM.modifyOwn fun st =>
    { st with frames := st.frames.modifyLevel 1 fun f => { f with obligations := f.obligations ++ [⟨child, port, source⟩] } }

/-- Declares an alias in its entity; the copy of a constant gets the value of the constant in terms of the other
aliases. -/
def declareAlias (loc : Loc) (aliases : Substitution) (outer own : Symbol) : PassM State Decl := do
  let Γ ← PassM.symbols
  if (Γ.kind outer).isConst then
    let init ← match Γ.init outer with
      | some e => some <$> aliases.applyExpr e
      | none => pure none
    setInit own init
    return ⟨loc, own, init⟩
  else return ⟨loc, own, none⟩

/-- The wires that a parent owes, one for each instance. -/
def obligedConnects (instances : List Instance) (o : Obligation) : List Connect :=
  (instances.filter (·.entity == o.child)).map fun i =>
    let pin := (ref i.loc i.symbol).dot (Γ.name o.port)
    let source := ref i.loc o.source
    match Γ.kind o.port with
    | .input .. => ⟨i.loc, source, [pin]⟩
    | _ => ⟨i.loc, pin, [source]⟩

def reportConflicts : PassM State Unit := do
  let st ← PassM.own
  if st.frames.isEmpty then
    st.users.forM fun (port, users) => do
      let Γ ← PassM.symbols
      if 2 ≤ users.length then
        let names := users.map Γ.name
        match Γ.kind port with
        | .output .. => error (Γ.loc port) (.severalDrivers (Γ.name port) names)
        | _ => error (Γ.loc port) (.severalConsumers (Γ.name port) names)
    PassM.modifyOwn fun st => { st with users := [] }

def closeFrame : PassM State Unit := PassM.modifyOwn fun st => { st with frames := st.frames.pop }

def renameChild (parent : String) (child : Entity) : PassM State Unit := do
  rename child.symbol (parent ++ (← PassM.symbols).name child.symbol)

/-- What stands for an entity: itself with its aliases and wires, and the entities that were nested in it. -/
def entityReply (e : Entity) : PassM State Reply := do
  let f := ((← PassM.own).frames.top?).getD {}
  if f.aliases.isEmpty && f.obligations.isEmpty && e.entities.isEmpty then
    closeFrame
    reportConflicts
    return .keep
  let decls ← f.aliases.mapM fun (outer, own) => declareAlias e.loc f.aliases outer own
  let Γ ← PassM.symbols
  let ports := f.aliases.filter fun (outer, _) => !(Γ.kind outer).isConst
  addPorts e.symbol (ports.map (·.2))
  let connects := f.obligations.flatMap (obligedConnects (← PassM.symbols) e.instances)
  if 2 ≤ (← PassM.own).frames.size then
    ports.forM fun (outer, port) => oblige e.symbol outer port
  closeFrame
  let parent := (← PassM.symbols).name e.symbol ++ (← get).ctx.separator
  e.entities.forM (renameChild parent)
  reportConflicts
  let flat : Entity := { e with decls := e.decls ++ decls, entities := [], connects := e.connects ++ connects }
  return .put (.several (.node (.entity flat) :: e.entities.map fun c => .node (.entity c)))

def declared (e : Entity) : List Symbol :=
  e.decls.map (·.symbol) ++ e.instances.map (·.symbol) ++ e.nodes.filterMap fun
    | .stmt (.decl _ d) => some d.symbol
    | _ => none

/-- Every entity is flat and refers only to what it declares. -/
def check (e : Entity) : ContextM Unit := do
  unless e.entities.isEmpty do
    internal (.nestedLeft (Γ.name e.symbol) e.entities.length)
  let own := Γ.setOf (declared e)
  match (references e.nodes).find? fun u => !own.has (Γ.member u.symbol) with
  | some u => internal (.undeclared (Γ.name e.symbol) (Γ.name u.symbol))
  | none => return ()

def pass : Pass State where
  name := "LiftEntities"
  enter
    | .entity e => enterEntity e
    | _ => return ()
  transform
    | .expr (.ref l s) => do
      match (((← PassM.own).frames.top?).getD {}).aliases.lookup s with
      | some a => return .put (.node (.expr (.ref l a)))
      | none => return .keep
    | .entity e => entityReply e
    | _ => return .keep
  unwind := some fun n st =>
    match n with
    | .entity _ =>
      let frames := st.frames.pop
      { st with frames, users := if frames.isEmpty then [] else st.users }
    | _ => st
  finalCheck r := do
    let left := (← PassM.own).frames.size
    if left ≠ 0 then
      internal (.entityScopesLeft left)
    r.entities.forM fun e => do check (← PassM.symbols) e

end HdlLowering.Nesting
