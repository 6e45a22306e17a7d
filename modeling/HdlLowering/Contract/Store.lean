import HdlLowering.Contract.Binding
import HdlLowering.Contract.Range

/-!
# The store of values

Every value is a node of a store. A node collects conjuncts, terms with the surroundings of their names, which expansion
turns into what they say: a range of plain values, entries of records, items of lists, and tasks.

What comes from a definition carries the number of a group. A field must be admitted by an entry of that group, or of a record
in which the definition is embedded, apart from what is embedded along with it.
-/

namespace HdlLowering.Contract

/-- Where names have a meaning: in a record that a node has taken over, or in a clause or another name that binds them to nodes. A
local definition does not see itself. -/
inductive Frame where
  | record (entries : List Entry) (node : Nat) (definitions : List (String × Nat)) (without : Option String)
  | values (bound : List (String × Nat))

abbrev Surroundings := List Frame

/-- Where something is embedded: the number of the record, and the number of all that is embedded in one place of it. -/
structure Embedding where
  record : Nat
  part : Nat

/-- What comes with all that a conjunct describes: its groups, the records it is embedded in, the references that led to it, and
whether they go in a circle. -/
structure Origin where
  groups : List Nat := []
  embeddedIn : List Embedding := []
  trail : List (Nat × Nat) := []
  circular : Bool := false

structure Conjunct where
  term : Term
  around : Surroundings := []
  origin : Origin := {}

/-- Why a value is missing: it contradicts itself, it hangs on something that is not given, or it hangs on itself. -/
inductive Problem where
  | conflict
  | incomplete
  | circular
  deriving DecidableEq

def Problem.missing (possible : Bool) : Problem := if possible then .incomplete else .conflict

def Problem.worse : Option Problem → Problem → Problem
  | none, p => p
  | some .conflict, _ | _, .conflict => .conflict
  | some .incomplete, _ | _, .incomplete => .incomplete
  | _, _ => .circular

/-- How an alternative of a choice is marked: as one that counts when nothing decides, as one that does not, or not at
all, where no alternative is marked. -/
inductive Standing where
  | preferred
  | neutral
  | secondary
  deriving DecidableEq

/-- How alternatives of two choices together are marked. -/
def Standing.both : Standing → Standing → Standing
  | .secondary, _ | _, .secondary => .secondary
  | .preferred, _ | _, .preferred => .preferred
  | .neutral, .neutral => .neutral

/-- How far a node is expanded. A node that hung on one that was being expanded is expanded again. -/
inductive Stage where
  | fresh
  | expanding
  | expanded
  | unsteady
  deriving DecidableEq

/-- A record that a node has taken over, with its own frame around its entries. -/
structure Literal where
  entries : List Entry
  around : Surroundings
  origin : Origin

/-- A list that a node has taken over: how many items it has, and what it says about those behind them. -/
structure Items where
  count : Nat
  more : Option Term
  around : Surroundings
  origin : Origin

/-- A field or item of a node. Its node is made when it is first needed, from the conjuncts of the field and what `seen`
records and lists say about it. -/
structure Arc where
  label : Label
  conjuncts : List Conjunct
  node : Option Nat := none
  seen : Nat := 0

/-- A group that closes a record, the records in which it is embedded, and whether it closes what is inside, too. -/
structure Closing where
  group : Nat
  embeddedIn : List Embedding
  deep : Bool

/-- A value: a plain one, the value of a node, a function or a package. -/
inductive Val where
  | scalar (s : Scalar)
  | node (number : Nat)
  | function (name : String)
  | package (path : String)

structure Test where
  function : String
  args : List Val

/-- An alternative of a choice: its place, whether it is marked, and its term. -/
structure Alternative where
  place : Nat
  marked : Bool
  term : Term

/-- What is left to do for a node: references to follow, fields with computed names, comprehensions with the record they
stand in, expressions, and choices. -/
structure Tasks where
  references : List Conjunct := []
  circular : List (Conjunct × Nat) := []
  keyed : List (Entry × Literal) := []
  repeated : List (List Clause × List Entry × Literal) := []
  expressions : List Conjunct := []
  choices : List (List Alternative × Conjunct) := []

/-- A node. `home` is the outermost node around it, and `same` the one that it is a variant of, with the alternatives `picked`. It
is `hasty` if it has taken over something incomplete, and `untested` if its functions are left out. The groups that are `covered`
close it through another group. -/
structure Node where
  parent : Option Nat := none
  home : Nat := 0
  same : Nat := 0
  label : Label := .place 0
  picked : List Nat := []
  conjuncts : List Conjunct := []
  stage : Stage := .fresh
  attempts : Nat := 0
  hasty : Bool := false
  untested : Bool := false
  range : Range := {}
  limits : List (Operator × Nat) := []
  tests : List Test := []
  function : Option String := none
  literals : Array Literal := #[]
  lists : Array Items := #[]
  arcs : Array Arc := #[]
  closings : List Closing := []
  covered : List Nat := []
  grounded : Bool := false
  tasks : Tasks := {}
  choiceCount : Nat := 0
  problem : Option Problem := none
  variants : List (Standing × Nat) := []
  settled : Bool := false
  faulty : Bool := false

def Node.unexpanded (n : Node) : Node :=
  { parent := n.parent, home := n.home, same := n.same, label := n.label, picked := n.picked, conjuncts := n.conjuncts,
    attempts := n.attempts, untested := n.untested }

/-- The number of times that a node that hangs on incomplete ones is expanded. -/
def Node.patience : Nat := 3

structure Store where
  nodes : Array Node := #[]
  fresh : Nat := 0

abbrev Work := StateM Store

abbrev Attempt := ExceptT Problem Work

def Attempt.tried {α : Type} (a : Attempt α) : Attempt (Except Problem α) := ExceptT.lift (ExceptT.run a)

namespace Work

def node (id : Nat) : Work Node := do return ((← get).nodes[id]?).getD {}

def alter (id : Nat) (f : Node → Node) : Work PUnit := modify fun s => { s with nodes := s.nodes.modify id f }

def freshNumber : Work Nat := modifyGet fun s => (s.fresh, { s with fresh := s.fresh + 1 })

def allocate (n : Node) : Work Nat := do
  let home ← match n.parent with
    | some p => (some ·.home) <$> node p
    | none => pure none
  modifyGet fun s =>
    (s.nodes.size, { s with nodes := s.nodes.push { n with same := s.nodes.size, home := home.getD s.nodes.size } })

def allocateVariant (n : Node) : Work Nat := modifyGet fun s => (s.nodes.size, { s with nodes := s.nodes.push n })

def allocateTerm (inside : Option Nat) (t : Term) (around : Surroundings) : Work Nat :=
  allocate { parent := inside, conjuncts := [{ term := t, around }] }

def note (id : Nat) (p : Problem) : Work PUnit :=
  alter id fun n => { n with problem := some (Problem.worse n.problem p) }

def narrow (id : Nat) (f : Range → Option Range) : Work PUnit :=
  alter id fun n => match f n.range with
    | some r => { n with range := r }
    | none => { n with problem := some .conflict }

def reset (id : Nat) : Work PUnit := alter id Node.unexpanded

def addConjuncts (id : Nat) (cs : List Conjunct) : Work PUnit := do
  alter id fun n => { n with conjuncts := n.conjuncts ++ cs }
  if (← node id).stage ≠ .expanding then reset id

def isAround (outer : Nat) : Nat → Nat → Work Bool
  | 0, _ => return false
  | fuel + 1, id => do
    let n ← node id
    if n.same = outer then return true
    else match n.parent with
      | some p => isAround outer fuel p
      | none => return false

end Work

end HdlLowering.Contract
