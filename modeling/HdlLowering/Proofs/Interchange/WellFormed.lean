import HdlLowering.Interchange.Spec
import Mathlib.Data.List.ReduceOption

/-!
# Well-formed design files

Which files stand for a design (`File.WellFormed`). What a node is decides which of its fields count: `ExprSpec.required` and
its like list the parts that a node needs, and the other fields may hold anything. Entries of a list may be absent, and then
count for nothing.
-/

namespace HdlLowering.Interchange

/-- Every part is present and such that `p`. -/
def AllPresent {α : Type} (p : α → Prop) (parts : List (Option α)) : Prop := none ∉ parts ∧ ∀ x, some x ∈ parts → p x

def AllSome {α : Type} (p : α → Prop) (parts : List (Option α)) : Prop := ∀ x, some x ∈ parts → p x

/-! ## Expressions -/

/-- An integer in decimal: digits, at least one, with or without a sign. -/
def IsDecimal (text : List Char) : Prop :=
  ∃ sign digits, text = sign ++ digits ∧ sign ∈ [[], ['+'], ['-']] ∧ digits ≠ [] ∧ ∀ d ∈ digits, d.isDigit

@[simp] def exprOps : List String :=
  ["ref", "num", "int", "unary", "binary", "ternary", "cat", "rep", "index", "slice", "select", "call"]

namespace ExprSpec

@[simp] def required (e : ExprSpec) : List (Option ExprSpec) :=
  match e.op with
  | "unary" | "select" => [e.expr]
  | "binary" => [e.lhs, e.rhs]
  | "ternary" => [e.cond, e.yes, e.no]
  | "rep" => [e.count, e.expr]
  | "index" => [e.expr, e.index]
  | "slice" => [e.expr, e.msb, e.lsb]
  | "call" => [e.func]
  | _ => []

@[simp] def listed (e : ExprSpec) : List (Option ExprSpec) :=
  match e.op with
  | "cat" => e.parts
  | "call" => e.args
  | _ => []

inductive WellFormed (ids : List Int64) : ExprSpec → Prop where
  | intro {e : ExprSpec} (op : e.op ∈ exprOps) (symbol : e.op = "ref" → e.symbol ∈ ids)
    (literal : e.op ∈ ["num", "int"] → IsDecimal e.value.toList) (width : e.op = "int" → 0 < e.width)
    (parts : e.op = "cat" → e.parts ≠ []) (present : none ∉ e.required)
    (operands : ∀ x, some x ∈ e.required ++ e.listed → WellFormed ids x) : WellFormed ids e

end ExprSpec

/-! ## Kinds -/

@[simp] def typeKinds : List String :=
  ["uint", "sint", "num", "void", "struct", "array", "in", "out", "const", "pipeline", "stack", "entity", "instance"]

def StorageKnown (storage : String) (slices : List String) : Prop :=
  storage ∈ ["", "reg", "wire"] ∨ storage = "slices" ∧ slices ≠ [] ∧ ∀ s ∈ slices, s ∈ ["fslice", "bslice", "bubble"]

namespace TypeSpec

@[simp] def required (t : TypeSpec) : List (Option TypeSpec) :=
  match t.kind with
  | "struct" => t.fields.map (·.type)
  | "array" | "in" | "out" | "const" | "pipeline" | "stack" => [t.elem]
  | _ => []

inductive WellFormed (ids : List Int64) : TypeSpec → Prop where
  | intro {t : TypeSpec} (kind : t.kind ∈ typeKinds) (width : t.kind ∈ ["uint", "sint"] → 0 < t.width)
    (size : t.kind = "array" → 0 < t.size)
    (flow : t.kind ∈ ["in", "out"] → t.flow ∈ ["", "none", "valid", "ready"])
    (storage : t.kind = "out" → StorageKnown t.storage t.slices)
    (depth : t.kind = "stack" → ∃ d, t.depth = some d ∧ d.WellFormed ids)
    (ports : t.kind = "entity" → ∀ id ∈ t.ports, id ∈ ids) (entity : t.kind = "instance" → t.entity ∈ ids)
    (present : none ∉ t.required) (parts : ∀ x, some x ∈ t.required → WellFormed ids x) : WellFormed ids t

end TypeSpec

/-! ## Statements -/

def DeclSpec.WellFormed (ids : List Int64) (d : DeclSpec) : Prop :=
  d.symbol ∈ ids ∧ ∀ e, d.init = some e → e.WellFormed ids

@[simp] def stmtNames : List String :=
  ["block", "if", "case", "loop", "goto", "fence", "break", "continue", "assign", "expr", "read", "write", "decl", "stall"]

namespace StmtSpec

variable (s : StmtSpec)

@[simp] def required : List (Option ExprSpec) :=
  match s.stmt with
  | "if" | "stall" => [s.cond]
  | "case" | "expr" => [s.expr]
  | "assign" => [s.lhs, s.rhs]
  | _ => []

@[simp] def arms : List ClauseSpec := if s.stmt = "case" then s.clauses.reduceOption else []

@[simp] def nested : List (Option StmtSpec) :=
  match s.stmt with
  | "block" | "loop" => s.body
  | "if" => s.yes ++ s.no
  | "case" => s.fallback ++ s.arms.flatMap (·.body)
  | _ => []

inductive WellFormed (ids : List Int64) : StmtSpec → Prop where
  | intro {s : StmtSpec} (name : s.stmt ∈ stmtNames) (exprs : AllPresent (·.WellFormed ids) s.required)
    (conds : AllSome (·.WellFormed ids) (s.arms.flatMap (·.conds)))
    (decl : s.stmt = "decl" → ∃ d, s.decl = some d ∧ d.WellFormed ids)
    (nested : ∀ x, some x ∈ s.nested → WellFormed ids x) : WellFormed ids s

end StmtSpec

/-! ## Entities and files -/

def InstanceSpec.WellFormed (ids : List Int64) (i : InstanceSpec) : Prop := i.symbol ∈ ids ∧ i.entity ∈ ids

def ConnectSpec.WellFormed (ids : List Int64) (c : ConnectSpec) : Prop :=
  (∃ e, c.lhs = some e ∧ e.WellFormed ids) ∧ c.rhs ≠ [] ∧ AllSome (·.WellFormed ids) c.rhs

/-- An entity over the symbols with some numbers, of which some stand for entities. -/
inductive EntitySpec.WellFormed (ids : List Int64) (isEntity : Int64 → Prop) : EntitySpec → Prop where
  | intro {e : EntitySpec} (symbol : isEntity e.symbol) (decls : AllSome (·.WellFormed ids) e.decls)
    (entities : ∀ x, some x ∈ e.entities → WellFormed ids isEntity x) (instances : AllSome (·.WellFormed ids) e.instances)
    (connects : AllSome (·.WellFormed ids) e.connects) (stmts : AllSome (·.WellFormed ids) e.stmts) :
    WellFormed ids isEntity e

namespace File

def ids (f : File) : List Int64 := f.symbols.map (·.id)

def IsEntity (f : File) (id : Int64) : Prop :=
  ∃ s ∈ f.symbols, s.id = id ∧ s.cls = "type" ∧ ∃ t, s.type = some t ∧ t.kind = "entity"

/-- A file that stands for a design: of the right version, with symbols that numbers tell apart, all of a known class and with a
well-formed kind, and with well-formed entities. -/
structure WellFormed (f : File) : Prop where
  version : f.version = 1
  numbers : f.ids.Nodup
  classes : ∀ s ∈ f.symbols, s.cls ∈ ["term", "type"]
  kinds : ∀ s ∈ f.symbols, ∃ t, s.type = some t ∧ t.WellFormed f.ids
  entities : AllSome (·.WellFormed f.ids f.IsEntity) f.entities

end File

end HdlLowering.Interchange
