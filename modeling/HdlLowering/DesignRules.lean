import HdlLowering.Decimal.Double
import HdlLowering.Netlist.Tables

/-!
# Design rules

Four rules on a netlist: a signal has one driver, an output is driven, an instance is of a known entity, and its inputs are
connected. The severity of a rule can be chosen, and `off` switches it off. Violations are listed by entity, line and
message. Rules see numbers as doubles, so a line above 2^53 may come out rounded.
-/

namespace HdlLowering

open Netlist

inductive Rule where
  | multipleDrivers | undrivenOutput | danglingInstance | unconnectedInput
  deriving DecidableEq

namespace Rule

def all : List Rule := [.multipleDrivers, .undrivenOutput, .danglingInstance, .unconnectedInput]

def name : Rule → String
  | .multipleDrivers => "multiple_drivers"
  | .undrivenOutput => "undriven_output"
  | .danglingInstance => "dangling_instance"
  | .unconnectedInput => "unconnected_input"

def defaultSeverity : Rule → String
  | .unconnectedInput => "warning"
  | _ => "error"

end Rule

structure Violation where
  rule : String
  severity : String
  entity : String
  file : String
  line : Int64
  message : String
  deriving DecidableEq

namespace Violation

def compareText (a b : String) : Ordering := if a < b then .lt else if a = b then .eq else .gt

def compareLine (a b : Int64) : Ordering := if a < b then .lt else if a = b then .eq else .gt

/-- The order of violations: by entity, line and message, and then by file, rule and severity. -/
def order (a b : Violation) : Ordering :=
  (compareText a.entity b.entity).then <| (compareLine a.line b.line).then <| (compareText a.message b.message).then <|
    (compareText a.file b.file).then <| (compareText a.rule b.rule).then <| compareText a.severity b.severity

def le (a b : Violation) : Bool := a.order b != .gt

end Violation

structure RuleSummary where
  total : Nat := 0
  errors : Nat := 0
  warnings : Nat := 0
  info : Nat := 0
  deriving DecidableEq

structure RuleReport where
  violations : List Violation := []
  summary : RuleSummary := {}
  deriving DecidableEq

namespace DesignRules

variable (t : Tables)

def driversOf (entity signal : String) : List DriverRow :=
  t.drivers.filter fun d => d.entity == entity && d.signal == signal

def driven (entity signal : String) : Bool := !(driversOf t entity signal).isEmpty

structure Finding where
  entity : String
  file : String
  line : Int64
  message : String
  deriving DecidableEq

/-- Signals with several drivers, reported at the first one. -/
def multipleDrivers : List Finding :=
  t.drivers.filterMap fun d =>
    let all := driversOf t d.entity d.signal
    if 1 < all.length && all.head? == some d then
      let kinds := String.intercalate ", " (all.map (·.kind))
      some ⟨d.entity, d.file, d.line, s!"{d.entity}.{d.signal} has {all.length} drivers ({kinds})"⟩
    else none

def undrivenOutputs : List Finding :=
  t.ports.filterMap fun p =>
    if p.direction == "out" && !driven t p.entity p.name then
      some ⟨p.entity, p.file, p.line, s!"output port {p.entity}.{p.name} is never driven"⟩
    else none

def danglingInstances : List Finding :=
  t.instances.filterMap fun i =>
    if t.entities.any (·.name == i.target) then none
    else some ⟨i.entity, i.file, i.line, s!"instance {i.name} in {i.entity} refers to unknown entity {i.target}"⟩

def unconnectedInputs : List Finding :=
  t.instances.flatMap fun i =>
    t.ports.filterMap fun p =>
      if p.entity == i.target && p.direction == "in" && !driven t i.entity (i.name ++ "." ++ p.name) then
        some ⟨i.entity, i.file, i.line, s!"input port {p.name} of instance {i.name} in {i.entity} is not connected"⟩
      else none

def findings : Rule → List Finding
  | .multipleDrivers => multipleDrivers t
  | .undrivenOutput => undrivenOutputs t
  | .danglingInstance => danglingInstances t
  | .unconnectedInput => unconnectedInputs t

def violationsOf (severity : Rule → String) (r : Rule) : List Violation :=
  if severity r == "off" then []
  else (findings t r).map fun f => ⟨r.name, severity r, f.entity, f.file, f.line, f.message⟩

def seenLine (line : Int64) : Int64 :=
  Int64.ofInt (max (-Word.limit) (min (Word.limit - 1) (Decimal.throughDouble line.toInt)))

def seen : Tables :=
  { t with
    ports := t.ports.map fun r => { r with line := seenLine r.line }
    instances := t.instances.map fun r => { r with line := seenLine r.line }
    drivers := t.drivers.map fun r => { r with line := seenLine r.line } }

def evaluate (severity : Rule → String) : RuleReport :=
  let t := seen t
  let found := (Rule.all.flatMap (violationsOf t severity)).mergeSort Violation.le
  let violations := found.eraseReps
  let count (s : String) : Nat := violations.countP (·.severity == s)
  { violations
    summary := {
      total := violations.length, errors := count "error", warnings := count "warning", info := count "info" } }

end DesignRules

end HdlLowering
