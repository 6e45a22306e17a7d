import HdlLowering.Kind

/-!
# The symbol table

The table says of each symbol its number, name, place, class and kind. Passes change kinds and names there, and every
reference sees the change. Symbols made by a pass also say what they are for, what they were lifted from, and the value they
start with.
-/

namespace HdlLowering

/-- Values are terms, entities are types. -/
inductive SymbolClass where
  | term | type
  deriving DecidableEq, Repr

/-- What a symbol made by a pass is for. Roles are numbered, and a number that names none is kept. -/
inductive Role where
  | none | pipelineIn | pipelineOut | pipelineLocal | interconnect | lifted | stackStorage
  | unnamed (number : Int)
  deriving DecidableEq, Repr

def Role.text : Role → String
  | .none => "none"
  | .pipelineIn => "pipeline-in"
  | .pipelineOut => "pipeline-out"
  | .pipelineLocal => "pipeline-local"
  | .interconnect => "interconnect"
  | .lifted => "lifted"
  | .stackStorage => "stack-storage"
  | .unnamed _ => "none"

def Role.ofNumber : Int → Role
  | 0 => .none
  | 1 => .pipelineIn
  | 2 => .pipelineOut
  | 3 => .pipelineLocal
  | 4 => .interconnect
  | 5 => .lifted
  | 6 => .stackStorage
  | n => .unnamed n

/-- What is known of a symbol beside its kind: its initial value, its role, the outer symbol it is an alias of, and for a stack
the variables wired to its ports. -/
structure Attributes where
  init : Option Expr := none
  role : Role := .none
  liftedFrom : Option Symbol := none
  interconnect : List (String × Symbol) := []
  deriving Repr

structure SymbolEntry where
  id : Int64 := 0
  name : String := ""
  loc : Loc := {}
  cls : SymbolClass := .term
  kind : Kind := .void
  attrs : Option Attributes := none
  deriving Repr

/-- The entry of a value, with nothing known beside its kind. -/
@[reducible] def SymbolEntry.value (id : Int64) (name : String) (kind : Kind) : SymbolEntry := { id, name, kind }

/-- The entry of an entity. -/
@[reducible] def SymbolEntry.entity (id : Int64) (name : String) (ports : List Symbol) : SymbolEntry :=
  { id, name, cls := .type, kind := .entity ports }

structure SymbolTable where
  entries : Array SymbolEntry := #[]
  deriving Repr

namespace SymbolTable

variable (Γ : SymbolTable) (s : Symbol)

def entry : SymbolEntry := Γ.entries.getD s.index {}

def id : Int64 := (Γ.entry s).id

def name : String := (Γ.entry s).name

def loc : Loc := (Γ.entry s).loc

def kind : Kind := (Γ.entry s).kind

def attrs : Attributes := (Γ.entry s).attrs.getD {}

def init : Option Expr := (Γ.attrs s).init

def role : Role := (Γ.attrs s).role

def liftedFrom : Option Symbol := (Γ.attrs s).liftedFrom

def text : String := Γ.name s ++ "@" ++ toString (Γ.id s).toInt

def entityPorts : List Symbol := (Γ.kind s).ports

def portNamed? (entity : Symbol) (name : String) : Option Symbol :=
  (Γ.entityPorts entity).find? fun p => Γ.name p == name

def instanceEntity? : Option Symbol := (Γ.kind s).instanceOf?

def push (e : SymbolEntry) : Symbol × SymbolTable :=
  (⟨Γ.entries.size⟩, ⟨Γ.entries.push e⟩)

def modify (f : SymbolEntry → SymbolEntry) : SymbolTable :=
  ⟨Γ.entries.modify s.index f⟩

end SymbolTable

end HdlLowering
