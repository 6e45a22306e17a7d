import HdlLowering.Json.Value
import HdlLowering.Tree.Preorder
import HdlLowering.Tree.Text
import HdlLowering.Typing

/-!
# Netlist tables

A lowered design as flat tables: entities, ports, other declarations, instances, connections and drivers. A connection has a
row for each sink. A driver row says that a connection or the body drives a signal; a port of an instance is named with the
instance, anything else by the variable.
-/

namespace HdlLowering.Netlist

structure EntityRow where
  name : String := ""
  file : String := ""
  line : Int64 := 0
  deriving DecidableEq

structure PortRow where
  entity : String := ""
  name : String := ""
  direction : String := ""
  type : String := ""
  width : Int64 := 0
  flow : String := ""
  storage : String := ""
  file : String := ""
  line : Int64 := 0
  deriving DecidableEq

structure DeclRow where
  entity : String := ""
  name : String := ""
  kind : String := ""
  type : String := ""
  width : Int64 := 0
  init : String := ""
  file : String := ""
  line : Int64 := 0
  deriving DecidableEq

structure InstanceRow where
  entity : String := ""
  name : String := ""
  target : String := ""
  file : String := ""
  line : Int64 := 0
  deriving DecidableEq

structure ConnectRow where
  entity : String := ""
  source : String := ""
  sink : String := ""
  file : String := ""
  line : Int64 := 0
  deriving DecidableEq

structure DriverRow where
  entity : String := ""
  signal : String := ""
  kind : String := ""
  file : String := ""
  line : Int64 := 0
  deriving DecidableEq

structure Tables where
  entities : List EntityRow := []
  ports : List PortRow := []
  decls : List DeclRow := []
  instances : List InstanceRow := []
  connects : List ConnectRow := []
  drivers : List DriverRow := []
  deriving DecidableEq

def Tables.size (t : Tables) : Nat :=
  t.entities.length + t.ports.length + t.decls.length + t.instances.length + t.connects.length + t.drivers.length

def Tables.append (t u : Tables) : Tables where
  entities := t.entities ++ u.entities
  ports := t.ports ++ u.ports
  decls := t.decls ++ u.decls
  instances := t.instances ++ u.instances
  connects := t.connects ++ u.connects
  drivers := t.drivers ++ u.drivers

def flowName : FlowControl → String
  | .none => "none"
  | .valid => "valid"
  | .ready => "ready"

def declKind : Kind → String
  | .const _ => "const"
  | .array .. => "array"
  | .pipeline _ => "pipeline"
  | .stack .. => "stack"
  | .inst _ => "instance"
  | _ => "var"

variable (Γ : SymbolTable) (entity : String)

def portRow? (d : Decl) : Option PortRow :=
  let row (direction : String) (value : Kind) (flow : FlowControl) (storage : String) : PortRow :=
    { entity, name := Γ.name d.symbol, direction, type := value.text Γ, width := value.width, flow := flowName flow, storage
      file := d.loc.file, line := d.loc.line }
  match Γ.kind d.symbol with
  | .input k flow => some (row "in" k flow "")
  | .output k flow storage => some (row "out" k flow storage.text)
  | _ => none

def declRow? (d : Decl) : Option DeclRow :=
  let k := Γ.kind d.symbol
  if k.isPort then none
  else some {
    entity, name := Γ.name d.symbol, kind := declKind k, type := k.underlying.text Γ, width := k.width
    init := (d.init.map (·.text Γ)).getD "", file := d.loc.file, line := d.loc.line }

def instanceRow (i : Instance) : InstanceRow :=
  { entity, name := Γ.name i.symbol, target := Γ.name i.entity, file := i.loc.file, line := i.loc.line }

mutual
/-- The signals that an assignment to an expression drives: a port of an instance with the instance, anything
else by its variables. -/
def drivenSignals : Expr → List String
  | .select _ (.ref _ s) field =>
    if (Γ.instanceEntity? s).isSome then [Γ.name s ++ "." ++ field] else [Γ.name s]
  | .cat _ ps => drivenSignalsList ps
  | e => e.roots.map Γ.name

def drivenSignalsList : List Expr → List String
  | [] => []
  | e :: es => drivenSignals e ++ drivenSignalsList es
end

def connectRows (c : Connect) : List ConnectRow :=
  c.sinks.map fun sink =>
    { entity, source := c.source.text Γ, sink := sink.text Γ, file := c.loc.file, line := c.loc.line }

def connectDrivers (c : Connect) : List DriverRow :=
  (c.sinks.flatMap (drivenSignals Γ)).map fun signal =>
    { entity, signal, kind := "connect", file := c.loc.file, line := c.loc.line }

/-- The signals that a node of a body drives, with its place: those assigned, and the receiver of a write. -/
def nodeDrives : Node → List (String × Loc)
  | .stmt (.assign l lhs _) => (drivenSignals Γ lhs).map (·, l)
  | .expr (.call l (.select _ base "write") _) => (drivenSignals Γ base).map (·, l)
  | _ => []

/-- The first entry for each signal. -/
def firstDrives (seen : List String) : List (String × Loc) → List (String × Loc)
  | [] => []
  | (s, l) :: rest => if seen.contains s then firstDrives seen rest else (s, l) :: firstDrives (s :: seen) rest

def assignDrivers (body : List Stmt) : List DriverRow :=
  (firstDrives [] ((Stmt.nodesList body).flatMap (nodeDrives Γ))).map fun (signal, l) =>
    { entity, signal, kind := "assign", file := l.file, line := l.line }

def Tables.ofEntity (e : Entity) : Tables :=
  let name := Γ.name e.symbol
  { entities := [{ name, file := e.loc.file, line := e.loc.line }]
    ports := e.decls.filterMap (portRow? Γ name)
    decls := e.decls.filterMap (declRow? Γ name)
    instances := e.instances.map (instanceRow Γ name)
    connects := e.connects.flatMap (connectRows Γ name)
    drivers := e.connects.flatMap (connectDrivers Γ name) ++ assignDrivers Γ name e.stmts }

/-- A design that cannot be written as tables: an entity has others nested in it. -/
structure NestedEntity where
  entity : String
  deriving DecidableEq

def NestedEntity.message (e : NestedEntity) : String := s!"entity {e.entity} still has nested entities"

/-- The tables of a design. Entities are sorted by name; all other rows stand in the order of the design. -/
def Tables.ofRoot (r : Root) : Except NestedEntity Tables :=
  match r.entities.find? fun e => !e.entities.isEmpty with
  | some e => .error ⟨Γ.name e.symbol⟩
  | none =>
    let t := (r.entities.map (Tables.ofEntity Γ)).foldl Tables.append {}
    .ok { t with entities := t.entities.mergeSort fun a b => a.name ≤ b.name }

end HdlLowering.Netlist
