import HdlLowering.Loc
import HdlLowering.Text.Markup

/-!
# Diagnostics

A `Problem` is a cause, and `Problem.message` its wording. Warnings and errors are collected and the pass goes on; a fatal
error or a broken invariant aborts it (`Abort`). A broken invariant counts as an error but is no diagnostic.
-/

namespace HdlLowering

open Text

inductive Problem where
  /- of pipelines -/
  | severalSuccessors (stage : String)
  | severalPredecessors (stage : String)
  | stageCycle (owner stage : String)
  | nothingToRead (stage : String)
  | nothingToWrite (stage : String)
  /- of stacks -/
  | popOutsideStatement (stack : String)
  | oneArgument (stack operation : String)
  | noDepth (stack : String)
  | badDepth (stack depth : String)
  /- of nested entities -/
  | severalDrivers (port : String) (users : List String)
  | severalConsumers (port : String) (users : List String)
  /- of statements and expressions -/
  | widthMismatch (assigned source : Int64)
  | stallForever (condition : String)
  /- of a pass that returns what cannot stand there -/
  | replacedRoot (pass found : String)
  | replacedLocal (pass found : String)
  | replacedExpr (pass expr found : String)
  | misplaced (pass found wanted : String)
  /- of a tree that is not what a pass promises -/
  | pipelineStmtLeft (loc : Loc)
  | pipelineVarLeft (name : String)
  | pipelineRefLeft (name : String) (loc : Loc)
  | stackScopesLeft
  | stackLeft (name : String)
  | entityScopesLeft (count : Nat)
  | nestedLeft (entity : String) (count : Nat)
  | undeclared (entity name : String)
  | foldScopesLeft (analyses bindings : Nat)
  | blockLeft (loc : Loc)
  /- of anything else -/
  | note (text : String)
  deriving DecidableEq, Repr, Inhabited

def Problem.message : Problem → String
  | .severalSuccessors s => s!"pipeline stage {s} has more than one successor"
  | .severalPredecessors s => s!"pipeline stage {s} has more than one predecessor"
  | .stageCycle e s => s!"pipeline stages of {e} form a cycle through {s}"
  | .nothingToRead s => s!"read in pipeline stage {s} which has no preceding stage to read from"
  | .nothingToWrite s => s!"write in pipeline stage {s} which has no following stage to write to"
  | .popOutsideStatement s => s!"{s}.pop() used outside a statement"
  | .oneArgument s op => s!"{s}.{op} takes one argument"
  | .noDepth s => s!"stack {s} has no depth"
  | .badDepth s d => s!"stack {s} depth {d} is not a positive constant"
  | .severalDrivers p us =>
    s!"output port {p} is driven by multiple nested entities: " ++ String.intercalate ", " us
  | .severalConsumers p us =>
    s!"input port {p} with ready flow control is consumed by multiple nested entities: " ++ String.intercalate ", " us
  | .widthMismatch d s => s!"concatenation widths differ: {d.toInt} bits assigned from {s.toInt} bits"
  | .stallForever c => s!"stall condition {c} is always true"
  | .replacedRoot p t => s!"{p} replaced the root with {t}"
  | .replacedLocal p t => s!"{p} replaced a local declaration with {t}"
  | .replacedExpr p e t => s!"{p} replaced expression {e} with {t}"
  | .misplaced p t w => s!"{p} produced {t} where {w} was expected"
  | .pipelineStmtLeft l => s!"pipeline statement at {l.text} survived"
  | .pipelineVarLeft n => s!"pipeline variable {n} survived"
  | .pipelineRefLeft n l => s!"reference to pipeline variable {n} survived at {l.text}"
  | .stackScopesLeft => "scope stacks not empty"
  | .stackLeft n => s!"stack {n} survived"
  | .entityScopesLeft n => s!"{n} entity scopes left on the stack"
  | .nestedLeft e n => s!"entity {e} still has {n} nested entities"
  | .undeclared e n => s!"entity {e} references {n} which it does not declare"
  | .foldScopesLeft a b => s!"scope stacks not empty: {a} analyses, {b} bindings"
  | .blockLeft l => s!"block statement at {l.text} survived"
  | .note t => t

inductive Severity where
  | warning | error | fatal
  deriving DecidableEq, Repr, Inhabited

namespace Severity

def text : Severity → String
  | .warning => "warning"
  | .error => "error"
  | .fatal => "fatal"

def banner : Severity → String
  | .warning => "WARNING"
  | .error => "ERROR"
  | .fatal => "FATAL"

def rank : Severity → Nat
  | .warning => 0
  | .error => 1
  | .fatal => 2

/-- Errors and worse stop the compilation after the pass. -/
def isError (s : Severity) : Bool := s ≠ .warning

end Severity

/-- A message about a place in the design, with the pass that found it. -/
structure Diagnostic where
  severity : Severity
  pass : String
  loc : Loc
  problem : Problem
  deriving DecidableEq, Repr, Inhabited

namespace Diagnostic

def message (d : Diagnostic) : String := d.problem.message

def text (d : Diagnostic) : String :=
  d.loc.text ++ ": " ++ d.severity.text ++ (if d.pass.isEmpty then "" else " [" ++ d.pass ++ "]") ++ ": " ++ d.message

/-- A diagnostic as it is shown while compiling: a banner, the place and the wording. -/
def display (d : Diagnostic) : String :=
  let banner := " " ++ d.severity.banner ++ (if d.pass.isEmpty then "" else " in " ++ d.pass) ++ " "
  shown banner ++ " " ++ shown d.loc.text ++ " " ++ shown d.message ++ "\n"

end Diagnostic

inductive Abort where
  | fatal (diagnostic : Diagnostic)
  | internal (pass : String) (problem : Problem)
  deriving DecidableEq, Repr, Inhabited

namespace Abort

def message : Abort → String
  | .fatal d => d.text
  | .internal pass p =>
    "internal compiler error" ++ (if pass.isEmpty then "" else " in " ++ pass) ++ ": " ++ p.message

def display : Abort → String
  | .fatal d => d.display
  | .internal pass p =>
    " ICE  " ++ shown (Abort.internal pass p).message ++
      "\nThis error was not supposed to happen: the lowered tree is invalid.\n"

end Abort

def displayFailure (message : String) : String := " ERROR  " ++ shown message ++ "\n"

/-- The diagnostics of a compilation, the number of errors and the pass that is running. -/
structure Reporter where
  diagnostics : List Diagnostic := []
  errorCount : Nat := 0
  pass : String := ""
  deriving Repr

namespace Reporter

def add (r : Reporter) (severity : Severity) (loc : Loc) (problem : Problem) : Reporter :=
  { r with
    diagnostics := r.diagnostics ++ [⟨severity, r.pass, loc, problem⟩]
    errorCount := if severity.isError then r.errorCount + 1 else r.errorCount }

def errors (r : Reporter) : List Diagnostic := r.diagnostics.filter (·.severity.isError)

def warnings (r : Reporter) : List Diagnostic := r.diagnostics.filter (!·.severity.isError)

def proceed (r : Reporter) : Bool := r.errorCount = 0

def summary (r : Reporter) : String :=
  let errs := r.errors.length
  let warns := r.warnings.length
  if errs = 0 then s!" OK  {warns} warning(s)\n" else s!" FAILED  {errs} error(s), {warns} warning(s)\n"

end Reporter

end HdlLowering
