import HdlLowering.Diagnostic
import HdlLowering.SymbolTable

/-!
# The compilation context

A compilation has a symbol table, a counter for new symbols, a reporter and two options: the text between the names of a
parent and a child entity, and whether passes check their results. A step in `ContextM` that aborts keeps what was changed
before. Numbers of symbols are 64-bit words and the counter wraps.
-/

namespace HdlLowering

structure Context where
  symbols : SymbolTable := {}
  nextId : Int64 := 0
  reporter : Reporter := {}
  separator : String := "__"
  checkTrees : Bool := false
  deriving Inhabited

namespace Context

def defaultSeparator : String := "__"

/-- A context with options; an empty separator is the default one. -/
def new (separator : String) (checkTrees : Bool) : Context :=
  { separator := if separator.isEmpty then defaultSeparator else separator, checkTrees }

end Context

abbrev ContextM := EStateM Abort Context

namespace ContextM

def symbols : ContextM SymbolTable := return (← get).symbols

def modifySymbols (f : SymbolTable → SymbolTable) : ContextM Unit :=
  modify fun c => { c with symbols := f c.symbols }

/-- Makes sure that new symbols get a number above the given one. -/
def reserve (id : Int64) : ContextM Unit :=
  modify fun c => if id < c.nextId then c else { c with nextId := id + 1 }

def allocId : ContextM Int64 :=
  modifyGet fun c => (c.nextId, { c with nextId := c.nextId + 1 })

def push (e : SymbolEntry) : ContextM Symbol :=
  modifyGet fun c =>
    let (s, Γ) := c.symbols.push e
    (s, { c with symbols := Γ })

def newSymbol (cls : SymbolClass) (name : String) (loc : Loc) (kind : Kind) : ContextM Symbol := do
  push { id := ← allocId, name, loc, cls, kind }

def newTerm (name : String) (loc : Loc) (kind : Kind) : ContextM Symbol := newSymbol .term name loc kind

def newEntity (name : String) (loc : Loc) (ports : List Symbol) : ContextM Symbol :=
  newSymbol .type name loc (.entity ports)

def symbolLike (s : Symbol) : ContextM Symbol := do
  let e := (← symbols).entry s
  newSymbol e.cls e.name e.loc e.kind.clone

def setKind (s : Symbol) (kind : Kind) : ContextM Unit := modifySymbols (·.modify s fun e => { e with kind })

def rename (s : Symbol) (name : String) : ContextM Unit := modifySymbols (·.modify s fun e => { e with name })

def addPorts (entity : Symbol) (ports : List Symbol) : ContextM Unit := do
  unless ports.isEmpty do
    setKind entity (.entity ((← symbols).entityPorts entity ++ ports))

def modifyAttrs (s : Symbol) (f : Attributes → Attributes) : ContextM Unit :=
  modifySymbols (·.modify s fun e => { e with attrs := some (f (e.attrs.getD {})) })

def setInit (s : Symbol) (init : Option Expr) : ContextM Unit := modifyAttrs s fun a => { a with init }

def setRole (s : Symbol) (role : Role) : ContextM Unit := modifyAttrs s fun a => { a with role }

def setLiftedFrom (s outer : Symbol) : ContextM Unit :=
  modifyAttrs s fun a => { a with liftedFrom := some outer, role := .lifted }

def setInterconnect (s : Symbol) (port : String) (v : Symbol) : ContextM Unit :=
  modifyAttrs s fun a => { a with interconnect := a.interconnect.filter (·.1 != port) ++ [(port, v)] }

def setPass (name : String) : ContextM Unit :=
  modify fun c => { c with reporter := { c.reporter with pass := name } }

def report (severity : Severity) (loc : Loc) (problem : Problem) : ContextM Unit :=
  modify fun c => { c with reporter := c.reporter.add severity loc problem }

def error (loc : Loc) (problem : Problem) : ContextM Unit := report .error loc problem

def warning (loc : Loc) (problem : Problem) : ContextM Unit := report .warning loc problem

def fatal {α : Type} (loc : Loc) (problem : Problem) : ContextM α := do
  report .fatal loc problem
  throw (.fatal ⟨.fatal, (← get).reporter.pass, loc, problem⟩)

def internal {α : Type} (problem : Problem) : ContextM α := do
  modify fun c => { c with reporter := { c.reporter with errorCount := c.reporter.errorCount + 1 } }
  throw (.internal (← get).reporter.pass problem)

end ContextM

end HdlLowering
