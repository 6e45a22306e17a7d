import HdlLowering.Context
import HdlLowering.Interchange.Reading
import HdlLowering.Text.Quoted
import HdlLowering.Tree

/-!
# From a design file to a design

`File.build` resolves the numbers of symbols to entries of the symbol table and moves the counter for new symbols above them.
Every defect of the file is listed in the order it is met, and a file with a defect gives no design.
-/

namespace HdlLowering.Interchange

open Text

inductive Defect where
  | declaredTwice (id : Int64) (name : String)
  | unknownClass (name cls : String)
  | unknownSymbol (id : Int64)
  | missingType
  | badWidth (kind : String) (width : Int64)
  | badSize (size : Int64)
  | noDepth
  | unknownKind (kind : String)
  | unknownFlow (flow : String)
  | noSlices
  | unknownSlice (slice : String)
  | unknownStorage (storage : String)
  | notEntity (name : String)
  | noSinks
  | missingExpr
  | badLiteral (value : String)
  | literalWidth
  | emptyCat
  | unknownOp (op : String)
  | noDecl
  | unknownStmt (stmt : String)
  deriving DecidableEq

def Defect.message : Defect → String
  | .declaredTwice id name => s!"symbol {id.toInt} ({name}) declared twice"
  | .unknownClass name cls => s!"symbol {name}: unknown class " ++ quoted cls
  | .unknownSymbol id => s!"unknown symbol {id.toInt}"
  | .missingType => "missing type"
  | .badWidth kind w => s!"{kind} width must be positive, got {w.toInt}"
  | .badSize n => s!"array size must be positive, got {n.toInt}"
  | .noDepth => "stack without depth"
  | .unknownKind k => "unknown type kind " ++ quoted k
  | .unknownFlow f => "unknown flow control " ++ quoted f
  | .noSlices => "slice storage needs at least one slice"
  | .unknownSlice s => "unknown slice kind " ++ quoted s
  | .unknownStorage s => "unknown storage " ++ quoted s
  | .notEntity name => s!"{name} is not an entity symbol"
  | .noSinks => "connection without sinks"
  | .missingExpr => "missing expression"
  | .badLiteral v => "bad integer literal " ++ quoted v
  | .literalWidth => "sized literal needs a positive width"
  | .emptyCat => "empty concatenation"
  | .unknownOp op => "unknown expression op " ++ quoted op
  | .noDecl => "declaration statement without declaration"
  | .unknownStmt s => "unknown statement " ++ quoted s

inductive BuildError where
  | version (found : Int64)
  | defects (found : List (Loc × Defect))
  deriving DecidableEq

def supportedVersion : Int64 := 1

def BuildError.message : BuildError → String
  | .version v => s!"unsupported design version {v.toInt} (want {supportedVersion.toInt})"
  | .defects ds => String.intercalate "\n" (ds.map fun (l, d) => l.text ++ ": " ++ d.message)

/-- What has been built so far: the symbol table, the symbols by number, the number of stack depths met and the
defects. -/
structure Builder where
  symbols : SymbolTable := {}
  numbers : List (Int64 × Symbol) := []
  depths : Nat := 0
  defects : List (Loc × Defect) := []

abbrev BuildM := StateM Builder

namespace BuildM

def defect (loc : Loc) (d : Defect) : BuildM Unit := modify fun b => { b with defects := b.defects ++ [(loc, d)] }

def push (e : SymbolEntry) : BuildM Symbol :=
  modifyGet fun b =>
    let (s, Γ) := b.symbols.push e
    (s, { b with symbols := Γ })

/-- The symbol of a number; for an unknown number a symbol that stands for nothing. -/
def resolve (loc : Loc) (id : Int64) : BuildM Symbol := do
  match (← get).numbers.lookup id with
  | some s => return s
  | none =>
    defect loc (.unknownSymbol id)
    push { id, name := s!"<unknown {id.toInt}>", loc }

def depth (e : Expr) : BuildM Depth :=
  modifyGet fun b => (⟨b.depths, e⟩, { b with depths := b.depths + 1 })

end BuildM

open BuildM EntitySpec

def buildLiteral (loc : Loc) (value : String) : BuildM Int := do
  match Json.decimal? value.toList with
  | some v => return v
  | none =>
    defect loc (.badLiteral value)
    return 0

mutual
def ExprSpec.build : ExprSpec → BuildM Expr
  | { op, loc, symbol, value, signed, width, operator, expr, lhs, rhs, cond, yes, no, parts, count, index, msb, lsb, field,
      func, args } => do
    match op with
    | "ref" => return .ref loc (← resolve loc symbol)
    | "num" => return .num loc signed (← buildLiteral loc value)
    | "int" =>
      if width ≤ 0 then defect loc .literalWidth
      return .int loc signed width (← buildLiteral loc value)
    | "unary" => return .unary loc (.ofText operator) (← ExprSpec.buildAt loc expr)
    | "binary" =>
      let x ← ExprSpec.buildAt loc lhs
      let y ← ExprSpec.buildAt loc rhs
      return .binary loc (.ofText operator) x y
    | "ternary" =>
      let c ← ExprSpec.buildAt loc cond
      let x ← ExprSpec.buildAt loc yes
      let y ← ExprSpec.buildAt loc no
      return .ternary loc c x y
    | "cat" =>
      if parts.isEmpty then defect loc .emptyCat
      return .cat loc (← ExprSpec.buildList parts)
    | "rep" =>
      let n ← ExprSpec.buildAt loc count
      let x ← ExprSpec.buildAt loc expr
      return .rep loc n x
    | "index" =>
      let x ← ExprSpec.buildAt loc expr
      let i ← ExprSpec.buildAt loc index
      return .index loc x i
    | "slice" =>
      let x ← ExprSpec.buildAt loc expr
      let m ← ExprSpec.buildAt loc msb
      let l ← ExprSpec.buildAt loc lsb
      return .slice loc x m l
    | "select" => return .select loc (← ExprSpec.buildAt loc expr) field
    | "call" =>
      let f ← ExprSpec.buildAt loc func
      let as ← ExprSpec.buildList args
      return .call loc f as
    | _ =>
      defect loc (.unknownOp op)
      return .ofInt 0

def ExprSpec.buildAt (loc : Loc) : Option ExprSpec → BuildM Expr
  | some e => ExprSpec.build e
  | none => do
    defect loc .missingExpr
    return .ofInt 0

def ExprSpec.buildList : List (Option ExprSpec) → BuildM (List Expr)
  | [] => return []
  | some e :: es => do
    let x ← ExprSpec.build e
    let xs ← ExprSpec.buildList es
    return x :: xs
  | none :: es => do
    let xs ← ExprSpec.buildList es
    return .ofInt 0 :: xs
end

def buildWidth (loc : Loc) (kind : String) (width : Int64) : BuildM Int64 := do
  if width ≤ 0 then
    defect loc (.badWidth kind width)
    return 1
  return width

def buildFlow (loc : Loc) (flow : String) : BuildM FlowControl := do
  match flow with
  | "" | "none" => return .none
  | "valid" => return .valid
  | "ready" => return .ready
  | _ =>
    defect loc (.unknownFlow flow)
    return .none

def buildSlices (loc : Loc) : List String → BuildM (List SliceKind)
  | [] => return []
  | s :: ss => do
    let k : SliceKind ← match s with
      | "fslice" => pure .forward
      | "bslice" => pure .backward
      | "bubble" => pure .bubble
      | _ => do
        defect loc (.unknownSlice s)
        pure .forward
    return k :: (← buildSlices loc ss)

def buildStorage (loc : Loc) (storage : String) (slices : List String) : BuildM Storage := do
  match storage with
  | "" | "reg" => return .reg
  | "wire" => return .wire
  | "slices" =>
    if slices.isEmpty then
      defect loc .noSlices
      return .reg
    return .slices (← buildSlices loc slices)
  | _ =>
    defect loc (.unknownStorage storage)
    return .reg

def resolveList (loc : Loc) : List Int64 → BuildM (List Symbol)
  | [] => return []
  | id :: ids => do
    let s ← resolve loc id
    return s :: (← resolveList loc ids)

mutual
def TypeSpec.build (loc : Loc) : TypeSpec → BuildM Kind
  | { kind, width, signed, name, fields, elem, size, flow, storage, slices, depth, ports, entity } => do
    match kind with
    | "uint" => return .uint (← buildWidth loc kind width)
    | "sint" => return .sint (← buildWidth loc kind width)
    | "num" => return .num signed
    | "void" => return .void
    | "struct" => return .struct name (← FieldSpec.buildList loc fields)
    | "array" =>
      if size ≤ 0 then defect loc (.badSize size)
      return .array (← TypeSpec.buildAt loc elem) size
    | "in" =>
      let k ← TypeSpec.buildAt loc elem
      return .input k (← buildFlow loc flow)
    | "out" =>
      let k ← TypeSpec.buildAt loc elem
      let f ← buildFlow loc flow
      return .output k f (← buildStorage loc storage slices)
    | "const" => return .const (← TypeSpec.buildAt loc elem)
    | "pipeline" => return .pipeline (← TypeSpec.buildAt loc elem)
    | "stack" =>
      match depth with
      | none =>
        defect loc .noDepth
        let k ← TypeSpec.buildAt loc elem
        return .stack k (← BuildM.depth (.ofInt 1))
      | some d =>
        let k ← TypeSpec.buildAt loc elem
        return .stack k (← BuildM.depth (← d.build))
    | "entity" => return .entity (← resolveList loc ports)
    | "instance" => return .inst (← resolve loc entity)
    | _ =>
      defect loc (.unknownKind kind)
      return .void

def TypeSpec.buildAt (loc : Loc) : Option TypeSpec → BuildM Kind
  | some t => TypeSpec.build loc t
  | none => do
    defect loc .missingType
    return .void

def FieldSpec.buildList (loc : Loc) : List FieldSpec → BuildM (List (String × Kind))
  | [] => return []
  | { name, type } :: fs => do
    let k ← TypeSpec.buildAt loc type
    return (name, k) :: (← FieldSpec.buildList loc fs)
end

def DeclSpec.build (d : DeclSpec) : BuildM Decl := do
  let s ← resolve d.loc d.symbol
  match d.init with
  | some e => return ⟨d.loc, s, some (← e.build)⟩
  | none => return ⟨d.loc, s, none⟩

/-- A statement list as the default arm of a case statement: an empty one is absent. -/
def fallbackOf (ss : List Stmt) : Option (List Stmt) := if ss.isEmpty then none else some ss

mutual
def StmtSpec.build : StmtSpec → BuildM (Option Stmt)
  | { stmt, loc, body, cond, yes, no, expr, clauses, fallback, target, lhs, rhs, decl } => do
    match stmt with
    | "block" => return some (.block loc (← StmtSpec.buildList body))
    | "if" =>
      let c ← ExprSpec.buildAt loc cond
      let t ← StmtSpec.buildList yes
      let e ← StmtSpec.buildList no
      return some (.cond loc c t e)
    | "case" =>
      let x ← ExprSpec.buildAt loc expr
      let d ← StmtSpec.buildList fallback
      let cs ← ClauseSpec.buildList clauses
      return some (.case loc x cs (fallbackOf d))
    | "loop" => return some (.loop loc (← StmtSpec.buildList body))
    | "goto" => return some (.goto loc target)
    | "fence" => return some (.fence loc)
    | "break" => return some (.break loc)
    | "continue" => return some (.continue loc)
    | "assign" =>
      let x ← ExprSpec.buildAt loc lhs
      let y ← ExprSpec.buildAt loc rhs
      return some (.assign loc x y)
    | "expr" => return some (.expr loc (← ExprSpec.buildAt loc expr))
    | "read" => return some (.read loc)
    | "write" => return some (.write loc)
    | "decl" =>
      match decl with
      | none =>
        defect loc .noDecl
        return none
      | some d => return some (.decl loc (← d.build))
    | "stall" => return some (.stall loc (← ExprSpec.buildAt loc cond))
    | _ =>
      defect loc (.unknownStmt stmt)
      return none

def StmtSpec.buildList : List (Option StmtSpec) → BuildM (List Stmt)
  | [] => return []
  | some s :: ss => do
    let x ← StmtSpec.build s
    let xs ← StmtSpec.buildList ss
    return x.toList ++ xs
  | none :: ss => StmtSpec.buildList ss

def ClauseSpec.buildList : List (Option ClauseSpec) → BuildM (List Clause)
  | [] => return []
  | some { loc, conds, body } :: cs => do
    let es ← ExprSpec.buildList conds
    let b ← StmtSpec.buildList body
    let rest ← ClauseSpec.buildList cs
    return ⟨loc, es, b⟩ :: rest
  | none :: cs => ClauseSpec.buildList cs
end

def InstanceSpec.build (i : InstanceSpec) : BuildM Instance := do
  let s ← resolve i.loc i.symbol
  let e ← resolve i.loc i.entity
  return ⟨i.loc, s, e⟩

def ConnectSpec.build (c : ConnectSpec) : BuildM Connect := do
  let source ← ExprSpec.buildAt c.loc c.lhs
  if c.rhs.isEmpty then defect c.loc .noSinks
  let sinks ← ExprSpec.buildList c.rhs
  return ⟨c.loc, source, sinks⟩

def buildAll {α β : Type} (build : α → BuildM β) (xs : List (Option α)) : BuildM (List β) :=
  xs.reduceOption.mapM build

def isEntitySymbol (e : SymbolEntry) : Bool :=
  match e.kind, e.cls with
  | .entity _, .type => true
  | _, _ => false

mutual
def EntitySpec.build : EntitySpec → BuildM Entity
  | { symbol, loc, decls, entities, instances, connects, stmts } => do
    let s ← resolve loc symbol
    let entry := (← get).symbols.entry s
    unless isEntitySymbol entry do defect loc (.notEntity entry.name)
    let decls ← buildAll DeclSpec.build decls
    let entities ← buildList entities
    let instances ← buildAll InstanceSpec.build instances
    let connects ← buildAll ConnectSpec.build connects
    let stmts ← StmtSpec.buildList stmts
    return { loc, symbol := s, decls, entities, instances, connects, stmts }

def EntitySpec.buildList : List (Option EntitySpec) → BuildM (List Entity)
  | [] => return []
  | some e :: es => do
    let x ← build e
    return x :: (← buildList es)
  | none :: es => buildList es
end

def SymbolSpec.declare (s : SymbolSpec) : BuildM Unit := do
  if ((← get).numbers.lookup s.id).isSome then
    defect s.loc (.declaredTwice s.id s.name)
  else
    let cls ← match s.cls with
      | "term" => pure SymbolClass.term
      | "type" => pure SymbolClass.type
      | _ => do
        defect s.loc (.unknownClass s.name s.cls)
        pure SymbolClass.term
    let sym ← push { id := s.id, name := s.name, loc := s.loc, cls }
    modify fun b => { b with numbers := b.numbers ++ [(s.id, sym)] }

/-- Gives the symbols of a table their kinds, each number once. -/
def SymbolSpec.defineList (done : List Int64) : List SymbolSpec → BuildM Unit
  | [] => return ()
  | s :: ss => do
    unless done.contains s.id do
      let sym ← resolve s.loc s.id
      let kind ← TypeSpec.buildAt s.loc s.type
      modify fun b => { b with symbols := b.symbols.modify sym fun e => { e with kind } }
    SymbolSpec.defineList (s.id :: done) ss

def File.buildRoot (f : File) : BuildM Root := do
  f.symbols.forM SymbolSpec.declare
  SymbolSpec.defineList [] f.symbols
  return { entities := ← buildList f.entities }

/-- The counter after every number in a list has been reserved. -/
def reserveAll (next : Int64) (ids : List Int64) : Int64 :=
  ids.foldl (fun next id => if id < next then next else id + 1) next

/-- Builds the design of a file in a new context: its symbol table becomes the one of the context, and new
symbols get numbers above those in the file. -/
def File.build (c : Context) (f : File) : Except BuildError (Root × Context) :=
  if f.version ≠ supportedVersion then .error (.version f.version)
  else
    let (root, b) := f.buildRoot.run {}
    if b.defects.isEmpty then
      .ok (root, { c with symbols := b.symbols, nextId := reserveAll c.nextId (f.symbols.map (·.id)) })
    else .error (.defects b.defects)

end HdlLowering.Interchange
