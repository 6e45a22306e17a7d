import HdlLowering.Traversal.Walk
import HdlLowering.Tree.Preorder

/-!
# Pipelines

In an entity with pipeline variables the nested entities are stages, and connections between their instances say which stage
follows which. The pass removes the variables: every stage from the first to the last that uses a variable gets a local copy
of it, and stages that follow each other get an output and an input port whose value is a struct of the variables carried
between them. Reading and writing the pipeline becomes a transfer between the copies and these ports.

Stages must form chains: branches and rings are errors, and the entity stays as it is.
-/

namespace HdlLowering.Pipeline

open ContextM Expr Kind

def inputName : String := "pipeline_i"

def outputName : String := "pipeline_o"

/-- A connection from a stage to the next one. -/
structure Link where
  source : Symbol
  target : Symbol
  deriving DecidableEq

variable (Γ : SymbolTable)

/-- The stage that an expression names: it is an instance of one of the nested entities. -/
def stageOf? (stages : List Symbol) (x : Expr) : Option Symbol :=
  (x.symbol?.bind Γ.instanceEntity?).filter stages.contains

/-- The link that a connection makes: it has one sink, and both ends are stages. -/
def linkOf? (stages : List Symbol) (c : Connect) : Option Link :=
  match c.sinks with
  | [sink] => do
    let source ← stageOf? Γ stages c.source
    let target ← stageOf? Γ stages sink
    return ⟨source, target⟩
  | _ => none

/-- Reports every link that gives a stage a second successor or predecessor, and says whether there is none. -/
def checkLinks (met : List Link) : List (Loc × Link) → ContextM Bool
  | [] => return true
  | (loc, l) :: rest => do
    let Γ ← symbols
    let forks := (met.find? (·.source == l.source)).any (·.target != l.target)
    let joins := (met.find? (·.target == l.target)).any (·.source != l.source)
    if forks then
      error loc (.severalSuccessors (Γ.name l.source))
    if joins then
      error loc (.severalPredecessors (Γ.name l.target))
    let ok ← checkLinks (l :: met) rest
    return !forks && !joins && ok

def chainFrom (links : List Link) : Nat → Symbol → List Symbol
  | 0, _ => []
  | fuel + 1, s =>
    s :: match links.find? (·.source == s) with
      | some l => chainFrom links fuel l.target
      | none => []

/-- The chains of stages: one for each stage that follows none. -/
def chains (links : List Link) (stages : List Symbol) : List (List Symbol) :=
  (stages.filter fun s => !links.any (·.target == s)).map (chainFrom links stages.length)

/-- For each stage of a chain, given the variables it uses, the variables alive in it: those it uses, and those
that the stage before has and a later one uses. -/
def alive (before : Option SymbolSet) : List SymbolSet → List SymbolSet
  | [] => []
  | used :: rest =>
    let later : SymbolSet := rest.foldr (fun u acc => acc.union u) {}
    let here := match before with
      | some b => used.union (later.inter b)
      | none => used
    here :: alive (some here) rest

/-- The value carried between two stages: a struct with a field for each variable. -/
def carrier (stage : Symbol) (suffix : String) (vars : List Symbol) : Kind :=
  .struct (Γ.name stage ++ "_" ++ suffix ++ "_t") (vars.map fun v => (Γ.name v, (Γ.kind v).underlying.clone))

structure Carried where
  port : Symbol
  vars : List Symbol
  deriving DecidableEq

/-- How a stage is taken out of the pipeline: its local copies of the variables and its ports to the neighbours.
-/
structure Stage where
  symbol : Symbol
  locals : List (Symbol × Symbol) := []
  input : Option Carried := none
  output : Option Carried := none
  deriving DecidableEq

/-- The local copies of some variables side by side. -/
def Stage.pack (st : Stage) (vars : List Symbol) : Expr :=
  concat (vars.map fun v => ofSymbol ((st.locals.lookup v).getD v))

/-- The pass over one stage: variables become local copies, and reading and writing become transfers through the
ports. -/
def stagePass (st : Stage) : Pass Unit where
  name := "LowerPipeline"
  transform
    | .expr (.ref l s) =>
      match st.locals.lookup s with
      | some t => return .put (.node (.expr (.ref l t)))
      | none => return .keep
    | .stmt (.read l) => do
      match st.input with
      | some c => return .put (.node (.stmt (.assign l (st.pack c.vars) ((Expr.ofSymbol c.port).method "read" []))))
      | none => fatal l (.nothingToRead ((← PassM.symbols).name st.symbol))
    | .stmt (.write l) => do
      match st.output with
      | some c => return .put (.node (.stmt (.expr l ((Expr.ofSymbol c.port).method "write" [st.pack c.vars]))))
      | none => fatal l (.nothingToWrite ((← PassM.symbols).name st.symbol))
    | _ => return .keep

def newLocal (v : Symbol) : ContextM (Symbol × Symbol) := do
  let Γ ← symbols
  let l ← newTerm (Γ.name v) (Γ.loc v) (Γ.kind v).underlying.clone
  setRole l .pipelineLocal
  return (v, l)

/-- The port that a stage reads the variables of its predecessor from, if there are any. -/
def newInput (stage : Entity) (vars : Option SymbolSet) : ContextM (Option Carried) := do
  match vars with
  | some vs =>
    if vs.isEmpty then
      return none
    else
      let kind := input (carrier (← symbols) stage.symbol "in" vs.symbols) .ready
      let port ← newTerm inputName stage.loc kind
      setRole port .pipelineIn
      return some ⟨port, vs.symbols⟩
  | none => return none

def newOutput (stage : Entity) (vars : Option SymbolSet) : ContextM (Option Carried) := do
  match vars with
  | some vs =>
    if vs.isEmpty then
      return none
    else
      let kind := output (carrier (← symbols) stage.symbol "out" vs.symbols) .ready (.slices [.forward])
      let port ← newTerm outputName stage.loc kind
      setRole port .pipelineOut
      return some ⟨port, vs.symbols⟩
  | none => return none

def walked (stage : Entity) : Option Forest → Entity
  | some (.node (.entity e)) => e
  | _ => stage

/-- Takes one stage out of the pipeline, given the variables alive in it and those shared with its neighbours.
-/
def lowerStage (stage : Entity) (here : SymbolSet) (before after : Option SymbolSet) : PassM Unit (Stage × Entity) := do
  let vars ← here.symbols.mapM fun v => (newLocal v : ContextM _)
  let input ← newInput stage before
  let output ← newOutput stage after
  let st : Stage := { symbol := stage.symbol, locals := vars, input, output }
  let body := walked stage (← stage.walk (stagePass st))
  let Γ ← PassM.symbols
  let ports := input.toList ++ output.toList
  let decls := ports.map (fun c => { loc := stage.loc, symbol := c.port : Decl }) ++ body.decls ++
    vars.map fun (v, l) => { loc := Γ.loc v, symbol := l : Decl }
  addPorts stage.symbol (ports.map (·.port))
  return (st, { body with decls })

/-- Takes the stages of a chain out of the pipeline, given the variables alive in each and in the stage before.
-/
def lowerChain (before : Option SymbolSet) : List (Entity × SymbolSet) → PassM Unit (List (Stage × Entity))
  | [] => return []
  | (stage, here) :: rest => do
    let after := rest.head?.map fun (_, next) => here.inter next
    let first ← lowerStage stage here (before.map fun b => b.inter here) after
    return first :: (← lowerChain (some here) rest)

def carried (e : Entity) : SymbolSet :=
  Γ.setOf ((e.decls.map (·.symbol)).filter fun s => (Γ.kind s).isPipeline)

def used (vars : SymbolSet) (stage : Entity) : SymbolSet :=
  Γ.setOf ((Node.refs stage.nodes).filter fun s => vars.has (Γ.member s))

def nested? (e : Entity) (s : Symbol) : Option Entity := e.entities.reverse.find? (·.symbol == s)

/-- The nested entities with the stages in their new form; of several with one symbol, only the last one is a
stage. -/
def replaced (lowered : List (Stage × Entity)) : List Entity → List Entity
  | [] => []
  | child :: rest =>
    let new := (lowered.reverse.find? fun (st, _) => st.symbol == child.symbol).map (·.2)
    (if rest.any (·.symbol == child.symbol) then child else new.getD child) :: replaced lowered rest

/-- A connection between two stages in its new form: from the output of the one to the input of the other. -/
def rewired (lowered : List (Stage × Entity)) (c : Connect) (l : Link) : Option Connect := do
  let stage (s : Symbol) : Option Stage := (lowered.reverse.find? fun (st, _) => st.symbol == s).map (·.1)
  let source ← (stage l.source).bind (·.output)
  let target ← (stage l.target).bind (·.input)
  return { loc := c.loc, source := c.source.dot (Γ.name source.port)
           sinks := c.sinks.map fun sink => sink.dot (Γ.name target.port) }

/-- The chains of stages nested in an entity, or nothing when they do not form chains, which is reported. -/
def stageChains (e : Entity) : ContextM (Option (List (List Symbol))) := do
  let Γ ← symbols
  let stages := e.entities.map (·.symbol)
  let links := e.connects.filterMap fun c => (linkOf? Γ stages c).map fun l => (c.loc, l)
  if ← checkLinks [] links then
    let found := chains (links.map (·.2)) stages
    match e.entities.find? fun child => !found.any (·.contains child.symbol) with
    | some child =>
      error child.loc (.stageCycle (Γ.name e.symbol) (Γ.name child.symbol))
      return none
    | none => return some found
  else return none

def lowerEntity (e : Entity) (vars : SymbolSet) : PassM Unit Reply := do
  match ← stageChains e with
  | none => return .keep
  | some found =>
    let Γ ← PassM.symbols
    let lowered ← found.flatMapM fun chain => do
      let stages := chain.filterMap (nested? e)
      lowerChain none (stages.zip (alive none (stages.map (used (← PassM.symbols) vars))))
    let stages := e.entities.map (·.symbol)
    let Γ' ← PassM.symbols
    let connects := e.connects.filterMap fun c =>
      match linkOf? Γ stages c with
      | some l => rewired Γ' lowered c l
      | none => some c
    return .put (.node (.entity { e with
      decls := e.decls.filter fun d => !vars.has (Γ.member d.symbol)
      entities := replaced lowered e.entities
      connects }))

def check : List Node → ContextM Unit
  | [] => return ()
  | n :: ns => do
    match n with
    | .stmt (.read l) => internal (.pipelineStmtLeft l)
    | .stmt (.write l) => internal (.pipelineStmtLeft l)
    | .decl d =>
      if (Γ.kind d.symbol).isPipeline then
        internal (.pipelineVarLeft (Γ.name d.symbol))
    | .expr (.ref l s) =>
      if (Γ.kind s).isPipeline then
        internal (.pipelineRefLeft (Γ.name s) l)
    | _ => pure ()
    check ns

def pass : Pass Unit where
  name := "LowerPipeline"
  skip
    | .root _ | .entity _ => return false
    | _ => return true
  transform
    | .entity e => do
      let vars := carried (← PassM.symbols) e
      if vars.isEmpty then return .keep else lowerEntity e vars
    | _ => return .keep
  finalCheck r := do
    if (← get).ctx.reporter.proceed then
      check (← PassM.symbols) r.nodes

end HdlLowering.Pipeline
