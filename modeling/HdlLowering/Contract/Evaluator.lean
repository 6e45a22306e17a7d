import HdlLowering.Contract.Store

/-!
# Looking at nodes

An evaluator expands and settles nodes, takes conjuncts into them and evaluates terms. Here: which alternative of an expanded
node counts, what kind of value it is, and which fields it has and admits.
-/

namespace HdlLowering.Contract

/-- What evaluates terms and nodes. To expand a node is to find out what it says itself, and to settle it is to look for
contradictions inside it, too. -/
structure Evaluator where
  expand : Nat → Work PUnit
  settle : Nat → Work PUnit
  absorb : Nat → Conjunct → Work PUnit
  value : Nat → Surroundings → Term → Attempt Val

/-- A value that an operator can work with, or what is known of one that is not settled. -/
inductive Ground where
  | scalar (s : Scalar)
  | record (node : Nat)
  | list (node : Nat)
  | function (name : String)
  | vague (as : Categories)

namespace Evaluator

open Work (node alter allocate allocateTerm note addConjuncts)

/-- The node whose value counts for a node: of several alternatives the only one that is preferred. -/
def chosen : Nat → Nat → Attempt Nat
  | 0, _ => throw .incomplete
  | fuel + 1, id => do
    match (← node id).variants with
    | [] => return id
    | [(_, only)] => chosen fuel only
    | variants =>
      match variants.filter (·.1 == .preferred) with
      | [(_, only)] => chosen fuel only
      | _ => throw .incomplete

variable (E : Evaluator) (id : Nat)

def pick : Attempt Nat := do
  E.expand id
  chosen 64 id

def kindOf (n : Node) : Ground :=
  match n.range.scalar, n.function with
  | some s, _ => .scalar s
  | none, some f => .function f
  | none, none =>
    if !n.lists.isEmpty then .list id
    else if n.range.categories = .record then .record id
    else .vague n.range.categories

/-- The value of a node as far as an operator can work with it. -/
def groundNode : Attempt Ground := do
  let id ← pick E id
  let n ← node id
  match n.problem, kindOf id n with
  | some .circular, .scalar s => return .scalar s
  | some p, _ => throw p
  | none, .vague as => if n.stage = .expanding then throw .circular else return .vague as
  | none, g => return g

def ground : Val → Attempt Ground
  | .scalar s => return .scalar s
  | .node id => groundNode E id
  | .function f => return .function f
  | .package _ => return .vague .record

def groundTerm (here : Nat) (around : Surroundings) (t : Term) : Attempt Ground := do
  ground E (← E.value here around t)

def settledGround (v : Val) : Attempt Ground := do
  match ← ground E v with
  | .vague _ => throw .incomplete
  | g => return g

/-! ### Fields -/

/-- A value that says which labels a rule is for admits a name. -/
def admitsName (here : Nat) (around : Surroundings) (labels : Term) (name : String) : Work Bool := do
  let id ← allocate { parent := some here, conjuncts := [{ term := labels, around }, { term := .scalar (.text name) }] }
  E.settle id
  return !(← node id).faulty

/-- A rule of a record is for a name. Rules for all texts are the most common ones. -/
def ruleAdmits (here : Nat) (around : Surroundings) (labels : Term) (name : String) : Work Bool :=
  match labels.plain with
  | .any => return true
  | .scalar (.text s) => return s == name
  | _ => admitsName E here around labels name

/-- What a record says about a field in case it is there. -/
def Literal.extras (here : Nat) (label : Label) (l : Literal) : Work (List Conjunct) := do
  let mut found := []
  for e in l.entries do
    match e, label with
    | .field _ k _ presence value, _ =>
      if k = label ∧ presence ≠ .member then
        found := found ++ [{ term := value, around := l.around, origin := { l.origin with embeddedIn := [] } }]
    | .pattern other key labels value, .regular name =>
      if ← ruleAdmits E here l.around labels name then
        let text ← allocateTerm none (.scalar (.text name)) []
        let bound := (key.toList.map fun w => (w, text)) ++ other.toList.map fun w => (w, here)
        found := found ++ [{ term := value, around := .values bound :: l.around, origin := { l.origin with embeddedIn := [] } }]
    | _, _ => pure ()
  return found

variable (label : Label)

/-- What a list says about an item behind its own ones. -/
def Items.extras (l : Items) : List Conjunct :=
  match label, l.more with
  | .place i, some t => if l.count ≤ i then [{ term := t, around := l.around, origin := l.origin }] else []
  | _, _ => []

/-- What the records and lists of a node say about a field, apart from the first of them. -/
def extras (seen : Nat) : Work (List Conjunct) := do
  let n ← node id
  let mut found := []
  for l in n.literals.toList.drop seen do
    found := found ++ (← Literal.extras E id label l)
  for l in n.lists.toList do
    found := found ++ Items.extras label l
  return found

def arcNode : Work (Option Nat) := do
  let n ← node id
  match n.arcs.findIdx? (·.label = label) with
  | none => return none
  | some i =>
    let arc := (n.arcs[i]?).getD { label, conjuncts := [] }
    match arc.node with
    | none =>
      let conjuncts := arc.conjuncts ++ (← extras E id label 0)
      let child ← allocate { parent := some id, label, conjuncts }
      alter id fun n => { n with arcs := n.arcs.modify i fun a => { a with node := some child, seen := n.literals.size } }
      return some child
    | some child =>
      if arc.seen < n.literals.size then
        let more ← extras E id label arc.seen
        alter id fun n => { n with arcs := n.arcs.modify i fun a => { a with seen := n.literals.size } }
        unless more.isEmpty do
          addConjuncts child more
      return some child

def addField (c : Conjunct) : Work PUnit := do
  let n ← node id
  match n.arcs.findIdx? (·.label = label) with
  | none => alter id fun n => { n with arcs := n.arcs.push { label, conjuncts := [c] } }
  | some i =>
    alter id fun n => { n with arcs := n.arcs.modify i fun a => { a with conjuncts := a.conjuncts ++ [c] } }
    match (n.arcs[i]?).bind (·.node) with
    | some child => addConjuncts child [c]
    | none => pure ()

def entryAdmits (here : Nat) (around : Surroundings) (label : Label) : Entry → Work Bool
  | .field _ k _ _ _ => return k == label
  | .open => return true
  | .pattern _ _ labels _ =>
    match label with
    | .regular name => ruleAdmits E here around labels name
    | _ => return false
  | _ => return false

/-- A group that closes a record has some entries, or the entries stand in a record in which the group is embedded. -/
def Closing.covers (c : Closing) (o : Origin) : Bool :=
  o.groups.contains c.group || c.embeddedIn.any fun e => o.groups.contains e.record && !o.groups.contains e.part

def closingAdmits (n : Node) (label : Label) (c : Closing) : Work Bool := do
  for l in n.literals do
    if Closing.covers c l.origin then
      for e in l.entries do
        if ← entryAdmits E id l.around label e then return true
  return false

/-- A node admits a label: fields that are hidden and definitions are always admitted. -/
def admits : Work Bool := do
  let n ← node id
  if ¬label.isRegular then return true
  else
    for c in n.closings do
      unless ← closingAdmits E id n label c do return false
    return true

def insideDefinition : Nat → Nat → Work Bool
  | 0, _ => return false
  | fuel + 1, id => do
    let n ← node id
    if n.label.isDefinition then return true
    else match n.parent with
      | some p => insideDefinition fuel p
      | none => return false

def anyLiteralAdmits : Work Bool := do
  for l in (← node id).literals do
    for e in l.entries do
      if ← entryAdmits E id l.around label e then return true
  return false

/-- A field could still come to be in a node. What is written in a definition has the fields that it says and no others. -/
def mayHave : Work Bool := do
  if ← admits E id label then
    if label.isRegular && (← insideDefinition (id + 1) id) then anyLiteralAdmits E id label else return true
  else return false

def length (n : Node) : Nat := n.lists.foldl (fun m l => max m l.count) 0

def isClosedList (n : Node) : Bool := n.lists.any (·.more.isNone)

def fields : Work (List (String × Nat)) := do
  let mut found := []
  for a in (← node id).arcs do
    match a.label with
    | .regular name => found := found ++ ((← arcNode E id a.label).map (name, ·)).toList
    | _ => pure ()
  return found

def items : Work (List Nat) := do
  let mut found := []
  for i in List.range (length (← node id)) do
    found := found ++ (← arcNode E id (.place i)).toList
  return found

def lookup : Attempt Nat := do
  match ← arcNode E id label with
  | some child => return child
  | none =>
    let n ← node id
    if n.stage = .expanding then throw .circular
    else match label with
      | .place _ => throw (if isClosedList n then .conflict else .incomplete)
      | _ => if ← mayHave E id label then throw .incomplete else throw .conflict

def select (v : Val) (label : Label) : Attempt Val := do
  let found ← match v with
    | .node id => do
      let id ← pick E id
      (arcNode E id label : Work _)
    | _ => pure none
  match found with
  | some child => return .node child
  | none =>
    match ← ground E v, label with
    | .record _, .place _ => throw .conflict
    | .record id, label => return .node (← lookup E id label)
    | .list id, .place i => return .node (← lookup E id (.place i))
    | .list id, .special s => return .node (← lookup E id (.special s))
    | .vague as, .place _ => throw (.missing (as.has .list))
    | .vague _, .special _ => throw .incomplete
    | .vague as, _ => throw (.missing (as.has .record))
    | _, _ => throw .conflict

/-! ### Names -/

def labelOf? (w : String) (entries : List Entry) : Option Label :=
  entries.findSome? fun
    | .field other label byName _ _ =>
      if other = some w ∨ (byName ∧ (label = .regular w ∨ label = .special w)) then some label else none
    | _ => none

def packageOf? (w : String) (entries : List Entry) : Option String :=
  entries.findSome? fun
    | .imported v path => if v = w then some path else none
    | _ => none

/-- The term for the label of the field that a name means in a record. -/
def keyOf? (w : String) (entries : List Entry) : Option Term :=
  entries.findSome? fun
    | .computed (some v) key _ _ => if v = w then some key else none
    | _ => none

/-- What a name means in some surroundings; `none` if nothing there has it. -/
def meaning? (here : Nat) (w : String) : Surroundings → Attempt (Option Val)
  | [] => return none
  | .values bound :: outer =>
    match bound.lookup w with
    | some id => return some (.node id)
    | none => meaning? here w outer
  | .record entries id definitions without :: outer =>
    match if without = some w then none else definitions.lookup w with
    | some d => return some (.node d)
    | none =>
      match labelOf? w entries, packageOf? w entries, keyOf? w entries with
      | some label, _, _ => do
        match ← (arcNode E id label : Work _) with
        | some child => return some (.node child)
        | none => throw .incomplete
      | none, some path, _ => return some (.package path)
      | none, none, some key => do
        match ← groundTerm E here (.record entries id definitions without :: outer) key with
        | .scalar (.text s) => return some (.node (← lookup E id (.regular s)))
        | _ => throw .incomplete
      | none, none, none => meaning? here w outer

/-! ### Comparison -/

/-- Two nodes that are settled have the same value, as far as that can be seen; the fuel bounds their depth. -/
def sameValue : Nat → Nat → Nat → Work Bool
  | 0, _, _ => return false
  | fuel + 1, a, b => do
    let n ← node a
    let m ← node b
    if a = b then return true
    else if n.problem.isSome ∨ m.problem.isSome ∨ !n.variants.isEmpty ∨ !m.variants.isEmpty then return false
    else if n.range ≠ m.range ∨ n.lists.isEmpty ≠ m.lists.isEmpty ∨ n.tests.length ≠ m.tests.length ∨
        n.limits.length ≠ m.limits.length ∨ n.function ≠ m.function then
      match n.range.scalar, m.range.scalar with
      | some s, some t => return s.equals t && n.range.categories == m.range.categories
      | _, _ => return false
    else if !n.tests.isEmpty ∨ !n.limits.isEmpty then return false
    else if isClosedList n ≠ isClosedList m ∨ n.arcs.size ≠ m.arcs.size ∨ n.closings.isEmpty ≠ m.closings.isEmpty then
      return false
    else
      for arc in n.arcs do
        match ← arcNode E a arc.label, ← arcNode E b arc.label with
        | some x, some y => unless ← sameValue fuel x y do return false
        | _, _ => return false
      return true

/-- Two values are equal: of different kinds they never are, lists and records are if their parts are. -/
def equal : Nat → Ground → Ground → Attempt Bool
  | 0, _, _ => throw .incomplete
  | fuel + 1, a, b => do
    match a, b with
    | .scalar s, .scalar t => return s.equals t
    | .list x, .list y =>
      let xs ← items E x
      let ys ← items E y
      if xs.length ≠ ys.length then return false
      else
        for (i, j) in xs.zip ys do
          unless ← equal fuel (← settledGround E (.node i)) (← settledGround E (.node j)) do return false
        return true
    | .record x, .record y =>
      let fs ← fields E x
      let gs ← fields E y
      if fs.length ≠ gs.length then return false
      else
        for (name, i) in fs do
          match gs.lookup name with
          | some j => unless ← equal fuel (← settledGround E (.node i)) (← settledGround E (.node j)) do return false
          | none => return false
        return true
    | _, _ => return false

end Evaluator

end HdlLowering.Contract
