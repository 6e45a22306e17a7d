import HdlLowering.Traversal.Scopes
import HdlLowering.Traversal.Walk

/-!
# Scripted passes

A scripted pass follows rules and records every step, so the order of a walk can be seen from outside. A rule is about nodes
of a form and perhaps a line; the first rule about a node that can act in a step decides. The forms of open nodes stand on a
scope stack.
-/

namespace HdlLowering.Script

open PassM ContextM

inductive Alarm where
  | fatal | internal | error | warning
  deriving DecidableEq

inductive Change where
  | remove | twice | nothing | itself | nest | seven | fence | block
  deriving DecidableEq

inductive Action where
  | skip
  | fatalEnter
  | alarm (a : Alarm)
  | change (c : Change)
  | idle
  deriving DecidableEq

def Action.ofText : String → Action
  | "skip" => .skip
  | "fatal_enter" => .fatalEnter
  | "fatal" => .alarm .fatal
  | "ice" => .alarm .internal
  | "error" => .alarm .error
  | "warning" => .alarm .warning
  | "remove" => .change .remove
  | "dup" => .change .twice
  | "empty" => .change .nothing
  | "single" => .change .itself
  | "nest" => .change .nest
  | "num" => .change .seven
  | "fence" => .change .fence
  | "block" => .change .block
  | _ => .idle

/-- A rule: the form of the nodes it is about, their line unless it is zero, and what it does. -/
structure Rule where
  on : String
  line : Int64 := 0
  action : Action
  deriving DecidableEq

def Rule.about (r : Rule) (n : Node) : Bool := r.on == n.variant && (r.line == 0 || r.line == n.loc.line)

/-- The first action about a node that can act in a step. -/
def choose {α : Type} (rules : List Rule) (n : Node) (pick : Action → Option α) : Option α :=
  rules.findSome? fun r => if r.about n then pick r.action else none

structure Trace where
  steps : List String := []
  scopes : Scopes String := {}

def Trace.note (t : Trace) (step : String) : Trace := { t with steps := t.steps ++ [step] }

def nodeLine (n : Node) : String := n.variant ++ " " ++ n.loc.text

def note (step : String) : PassM Trace Unit := modifyOwn (·.note step)

def raise (n : Node) : Alarm → PassM Trace Unit
  | .fatal => fatal n.loc (.note ("fatal at " ++ n.variant))
  | .internal => internal (.note ("ice at " ++ n.variant))
  | .error => error n.loc (.note ("error at " ++ n.variant))
  | .warning => warning n.loc (.note ("warning at " ++ n.variant))

def Change.reply (n : Node) : Change → Reply
  | .remove => .put .nothing
  | .twice => .put (.several [.node n, .node n])
  | .nothing => .put (.several [])
  | .itself => .keep
  | .nest => .put (.several [.several [.node n, .nothing], .several [], .node n])
  | .seven => .put (.node (.expr (.num n.loc false 7)))
  | .fence => .put (.node (.stmt (.fence n.loc)))
  | .block =>
    match n with
    | .stmt s => .put (.node (.stmt (.block n.loc [s])))
    | _ => .keep

/-- The pass that follows some rules. With `unwinds` it closes the open nodes when it aborts. -/
def pass (name : String) (rules : List Rule) (unwinds : Bool) : Pass Trace where
  name
  skip n := do
    let skips := choose rules n fun
      | .skip => some ()
      | _ => none
    if skips.isSome then
      note ("skip " ++ nodeLine n)
    return skips.isSome
  enter n := do
    modifyOwn fun t => { t with scopes := t.scopes.push n.variant }
    note ("enter " ++ nodeLine n)
    let aborts := choose rules n fun
      | .fatalEnter => some ()
      | _ => none
    if aborts.isSome then
      fatal n.loc (.note ("fatal entering " ++ n.variant))
  transform n := do
    let outer := ((← own).scopes.level? 1).getD ""
    note ("transform " ++ nodeLine n ++ " in " ++ outer)
    let alarm := choose rules n fun
      | .alarm a => some a
      | _ => none
    match alarm with
    | some a => raise n a
    | none => pure ()
    modifyOwn fun t => { t with scopes := t.scopes.pop }
    let change := choose rules n fun
      | .change c => some c
      | _ => none
    return (change.map (Change.reply n)).getD .keep
  unwind :=
    if unwinds then
      some fun n t => { t.note ("unwind " ++ nodeLine n ++ " " ++ t.scopes.top?.getD "") with scopes := t.scopes.pop }
    else none
  defaultCheck _ _ := note "default_check"
  finalCheck _ := do
    note "final_check"
    let left := (← own).scopes.size
    if left ≠ 0 then
      internal (.note s!"{left} scopes left")

end HdlLowering.Script
