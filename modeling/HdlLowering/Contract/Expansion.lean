import HdlLowering.Contract.Valuation

/-!
# Expansion of nodes

Expanding a node takes its conjuncts in. What a conjunct says plainly goes into the node at once, and what hangs on other
nodes becomes a task: references first, since they bring further conjuncts, then computed names, comprehensions and
expressions, and choices at the end, by settling variants of the node.

A reference back to a node around it, or one followed before on the way, is followed only where something else grounds the
node; else it is a contradiction.
-/

namespace HdlLowering.Contract.Evaluator

open Work (node alter freshNumber allocate allocateVariant allocateTerm note narrow addConjuncts reset isAround)

section

variable (v : Nat)

def addTask (f : Tasks → Tasks) : Work PUnit := alter v fun n => { n with tasks := f n.tasks }

def markGrounded (o : Origin) : Work PUnit := do
  unless o.circular do alter v fun n => { n with grounded := true }

def markHasty (parent : Option Nat) : Work PUnit := do
  match parent with
  | some p => if (← node p).stage = .expanding then alter v fun n => { n with hasty := true }
  | none => pure ()

/-- What is done with the result of an attempt for a node; a problem of the attempt is one of the node. -/
def noting {α : Type} (v : Nat) (a : Attempt α) (f : α → Work PUnit) : Work PUnit := do
  match ← a.run with
  | .ok x => f x
  | .error p => note v p

/-! ### Plain conjuncts -/

def absorbScalar (c : Conjunct) (s : Scalar) : Work PUnit := do
  narrow v (·.withScalar s)
  markGrounded v c.origin

def addTest (t : Test) : Work PUnit := do
  match Function.find? t.function with
  | some f => narrow v (·.withCategories (f.params.headD .all))
  | none => pure ()
  alter v fun n => { n with tests := n.tests ++ [t] }

/-- Takes a function into a node. A test that needs no further arguments is one for the node. -/
def absorbFunction (name : String) : Work PUnit := do
  match Function.find? name with
  | some f =>
    if f.truth ∧ f.params.length = 1 then addTest v ⟨name, []⟩ else plain
  | none => plain
where
  plain : Work PUnit := do
    narrow v (·.withCategories (.ofList [.function]))
    match (← node v).function with
    | some g => if g = name then pure () else note v .conflict
    | none => alter v fun n => { n with function := some name }

def absorbEverywhere (w : String) : Work PUnit := do
  match everywhere? w with
  | none => note v .conflict
  | some w =>
    match namedCategories.lookup w, namedRanges.lookup w with
    | some cs, _ => narrow v (·.withCategories cs)
    | none, some (whole, lo, hi) =>
      let number (d : Decimal) : Scalar := .number .numbers d
      narrow v (·.withCategories (if whole then .whole else .numbers))
      narrow v (·.withBound ⟨.atLeast, number lo⟩)
      match hi with
      | some hi => narrow v (·.withBound ⟨.atMost, number hi⟩)
      | none => pure ()
    | none, none => absorbFunction v w

def bindsIn (w : String) : Frame → Bool
  | .values bound => bound.any (·.1 == w)
  | .record entries _ definitions without =>
    (without != some w && definitions.any (·.1 == w)) || (labelOf? w entries).isSome || (packageOf? w entries).isSome ||
      (keyOf? w entries).isSome

/-! ### Records and lists -/

/-- An entry whose content the record takes over. -/
def isEmbedding : Entry → Bool
  | .embedded _ | .comprehension _ _ => true
  | _ => false

def needsRecord : Entry → Bool
  | .field _ label _ _ _ => label.isRegular
  | .computed _ _ presence _ => presence = .member
  | _ => false

def define (entries : List Entry) (around : Surroundings) : Work (List (String × Nat)) := do
  let terms := Term.definitions entries
  let mut ids := []
  for (w, _) in terms do
    ids := ids ++ [(w, ← allocate { parent := some v })]
  let defs := ids
  for ((w, t), (_, id)) in terms.zip ids do
    let conjunct : Conjunct := { term := t, around := .record entries v defs (some w) :: around }
    alter id fun n => { n with conjuncts := [conjunct] }
  return ids

def embed (own : List Nat) (o : Origin) : Work Origin := do
  let part ← freshNumber
  return { o with groups := part :: o.groups, embeddedIn := own.map (⟨·, part⟩) ++ o.embeddedIn }

end

variable (E : Evaluator) (v : Nat) (c : Conjunct)

def absorbRecord (entries : List Entry) : Work PUnit := do
  let own ← if entries.any isEmbedding then List.singleton <$> freshNumber else pure []
  let defs ← define v entries c.around
  let around := .record entries v defs none :: c.around
  let origin := { c.origin with groups := own ++ c.origin.groups }
  let inner := { origin with embeddedIn := [] }
  let literal : Literal := { entries, around, origin }
  alter v fun n => { n with literals := n.literals.push literal }
  if entries.any needsRecord || !(entries.any isEmbedding) then narrow v (·.withCategories .record)
  markGrounded v c.origin
  for e in entries do
    match e with
    | .field _ label _ .member value => addField v label { term := value, around, origin := inner }
    | .computed _ _ _ _ => addTask v fun t => { t with keyed := t.keyed ++ [(e, literal)] }
    | .embedded t => E.absorb v { term := t, around, origin := ← embed own origin }
    | .comprehension clauses inside =>
      let literal := { literal with origin := ← embed own origin }
      addTask v fun t => { t with repeated := t.repeated ++ [(clauses, inside, literal)] }
    | _ => pure ()

def absorbItems (items : List (Term × Surroundings)) (more : Option Term) : Work PUnit := do
  let origin := { c.origin with embeddedIn := [] }
  narrow v (·.withCategories .list)
  markGrounded v c.origin
  for ((t, around), i) in items.zipIdx do
    addField v (.place i) { term := t, around, origin }
  let list : Items := { count := items.length, more, around := c.around, origin }
  for arc in (← node v).arcs do
    match arc.node, Items.extras arc.label list with
    | some child, c :: cs =>
      addConjuncts child (c :: cs)
    | _, _ => pure ()
  alter v fun n => { n with lists := n.lists.push list }

/-! ### Comprehensions -/

/-- The surroundings that the clauses of a comprehension give its entries, once for each time they stand there. -/
def rounds (here : Nat) : List Clause → Surroundings → Attempt (List Surroundings)
  | [], around => return [around]
  | .provided t :: clauses, around => do
    match ← groundTerm E here around t with
    | .scalar (.truth true) => rounds here clauses around
    | .scalar (.truth false) => return []
    | .vague as => throw (.missing (as.has .truth))
    | _ => throw .conflict
  | .given w t :: clauses, around => do
    let id ← allocateTerm (some here) t around
    rounds here clauses (.values [(w, id)] :: around)
  | .each key value t :: clauses, around => do
    let pairs : List (Nat × Nat) ← match ← groundTerm E here around t with
      | .list id => do
        if (← node id).stage = .expanding then throw .circular
        (← items E id).zipIdx.mapM fun (child, i) => do
          return (← allocateTerm none (.scalar (.whole i)) [], child)
      | .record id => do
        if (← node id).stage = .expanding then throw .circular
        (← fields E id).mapM fun (name, child) => do
          return (← allocateTerm none (.scalar (.text name)) [], child)
      | .vague as => throw (.missing (as.has .record || as.has .list))
      | _ => throw .conflict
    let found ← pairs.mapM fun (k, child) =>
      rounds here clauses (.values ((value, child) :: key.toList.map fun w => (w, k)) :: around)
    return found.flatten

def listItems (here : Nat) (around : Surroundings) : List Entry → Attempt (List (Term × Surroundings))
  | [] => return []
  | .embedded t :: rest => do return (t, around) :: (← listItems here around rest)
  | .comprehension clauses inside :: rest => do
    let found ← rounds E here clauses around
    return found.map (fun around => (.record inside, around)) ++ (← listItems here around rest)
  | _ :: rest => listItems here around rest

/-! ### References -/

def outerGroups (n : Node) : Work (List Nat) := do
  match n.parent with
  | none => return []
  | some p => return ((← node p).closings.filter (·.deep)).map (·.group)

/-- The groups of a reference that have nothing else in a node, so that the group of what it leads to can stand for them. -/
def coverable (n : Node) (c : Conjunct) : List Nat :=
  if c.origin.embeddedIn.isEmpty then
    c.origin.groups.filter fun g => match n.conjuncts.filter (·.origin.groups.contains g) with
      | [only] => match only.term.plain with
        | .name _ | .select _ _ | .index _ _ => true
        | _ => false
      | _ => false
  else []

def takeOver (w : Nat) (circular : Bool) (closing : Option Bool) : Work PUnit := do
  let target ← node w
  markHasty v target.parent
  let groups ← match closing with
    | some deep => do
      let g ← freshNumber
      let n ← node v
      let outer ← outerGroups n
      let covered := if deep then (coverable n c).filter outer.contains else []
      alter v fun n =>
        { n with closings := n.closings ++ [⟨g, c.origin.embeddedIn, deep⟩], covered := n.covered ++ covered }
      pure (g :: c.origin.groups.filter (!covered.contains ·))
    | none => pure c.origin.groups
  let trail := (w, v) :: c.origin.trail.filter (·.1 ≠ w)
  let origin : Origin :=
    { groups, embeddedIn := c.origin.embeddedIn, trail, circular := circular || c.origin.circular }
  for k in target.conjuncts do
    E.absorb v { k with origin }

def isReference (n : Node) : Bool :=
  match n.conjuncts with
  | [c] => match c.term.plain with
    | .name w => c.around.any (bindsIn w)
    | .select _ _ | .index _ _ => true
    | _ => false
  | _ => false

/-- A node is nothing but a range of plain values. -/
def isPlainRange (n : Node) : Bool :=
  n.arcs.isEmpty && n.literals.isEmpty && n.lists.isEmpty && n.tests.isEmpty && n.limits.isEmpty && n.function.isNone &&
    n.problem.isNone && n.tasks.circular.isEmpty

def plainValue? (n : Node) : Option Scalar :=
  if n.stage = .expanded ∧ n.variants.isEmpty ∧ isPlainRange n then n.range.scalar else none

def absorbNode (w : Nat) : Work PUnit := do
  let n ← node v
  let target ← node w
  let closing := if c.term.refersToDefinition then some true else none
  if target.same = n.same ∨ c.origin.trail.contains (w, v) then pure ()
  else
    let back ← if target.home = n.home then isAround target.same (v + 1) v else pure false
    if back || c.origin.trail.any (·.1 == w) then
      if n.grounded then takeOver E v c w true closing
      else addTask v fun t => { t with circular := t.circular ++ [(c, w)] }
    else takeOver E v c w false closing

/-- Takes what a reference leads to into a node. A plain value needs no looking at where it comes from. -/
def absorbReference (w : Nat) : Work PUnit := do
  if isReference (← node w) then E.expand w
  match plainValue? (← node w) with
  | some s => absorbScalar v c s
  | none => absorbNode E v c w

def absorbVal : Val → Work PUnit
  | .scalar s => absorbScalar v c s
  | .node w => absorbReference E v c w
  | .function f => do
    absorbFunction v f
    markGrounded v c.origin
  | .package _ => note v .conflict

def follow : Work PUnit := noting v (resolve E v c.around c.term) (absorbVal E v c)

/-! ### Conjuncts -/

/-- Takes a choice into a node: the alternative that was picked for it, or a task. -/
def absorbChoice : Work PUnit := do
  let alternatives := c.term.alternatives false
  let n ← node v
  alter v fun n => { n with choiceCount := n.choiceCount + 1 }
  match n.picked[n.choiceCount]? with
  | some i =>
    match alternatives[i]? with
    | some (_, t) => E.absorb v { c with term := t }
    | none => note v .conflict
  | none =>
    let places : List Alternative := alternatives.zipIdx.map fun ((marked, term), place) => { place, marked, term }
    addTask v fun t => { t with choices := t.choices ++ [(places, c)] }

def absorbWith : Work PUnit := do
  match c.term with
  | .group t => E.absorb v { c with term := t }
  | .any =>
    alter v fun n => { n with literals := n.literals.push { entries := [.open], around := [], origin := c.origin } }
    markGrounded v c.origin
  | .bottom => note v .conflict
  | .scalar s => absorbScalar v c s
  | .binary .meet a b =>
    E.absorb v { c with term := a }
    E.absorb v { c with term := b }
  | .binary .choose _ _ => absorbChoice E v c
  | .record entries => absorbRecord E v c entries
  | .list items more =>
    if items.any fun e => !(e matches .embedded _) then addTask v fun t => { t with expressions := t.expressions ++ [c] }
    else absorbItems v c (items.filterMap fun
      | .embedded t => some (t, c.around)
      | _ => none) more
  | .aliased w t => E.absorb v { c with term := t, around := .values [(w, v)] :: c.around }
  | .name w =>
    if c.around.any (bindsIn w) then addTask v fun t => { t with references := t.references ++ [c] }
    else
      absorbEverywhere v w
      markGrounded v c.origin
  | .select _ _ | .index _ _ | .node _ => addTask v fun t => { t with references := t.references ++ [c] }
  | .unary _ _ | .binary _ _ _ | .template _ _ _ | .call _ _ | .slice _ _ _ =>
    addTask v fun t => { t with expressions := t.expressions ++ [c] }

/-! ### Tasks -/

def absorbRelation (o : Operator) (t : Term) : Work PUnit := do
  let isEquality := o = .equal ∨ o = .unequal
  let limit (as : Categories) (id : Nat) : Work PUnit :=
    if isEquality then do
      narrow v (·.withCategories as)
      alter v fun n => { n with limits := n.limits ++ [(o, id)] }
    else note v .conflict
  markGrounded v c.origin
  noting v (groundTerm E v c.around t) fun
  | .scalar s =>
    match s with
    | .null | .truth _ => if isEquality then narrow v (·.withBound ⟨o, s⟩) else note v .conflict
    | s => narrow v (·.withBound ⟨o, s⟩)
  | .record id => limit .record id
  | .list id => limit .list id
  | .function _ => note v .conflict
  | .vague as =>
    if Term.isNeverSettled [] t.plain ∧ !(c.around.any fun f => match t.plain with
        | .name w => bindsIn w f
        | _ => false) then note v .conflict
    else
      let mask := if isEquality then Categories.all else .ofList [.text, .bytes, .whole, .fraction]
      note v (.missing (as.meets mask))

def express : Work PUnit := do
  match c.term with
  | .list items more =>
    match ← (listItems E v c.around items).run with
    | .ok found => absorbItems v c found more
    | .error p =>
      narrow v (·.withCategories .list)
      note v p
  | .call f args =>
    noting v (call E v c.around f args) fun
      | .term t => E.absorb v { c with term := t }
      | .test t => do
        addTest v t
        markGrounded v c.origin
      | .closed id => takeOver E v c id false (some false)
  | .unary o t =>
    if o.isRelation then absorbRelation E v c o t
    else plain
  | _ => plain
where
  plain : Work PUnit := noting v (E.value v c.around c.term) (absorbVal E v c)

def addKeyed (e : Entry) (l : Literal) : Work PUnit := do
  match e with
  | .computed _ key presence value =>
    noting v (groundTerm E v l.around key) fun
      | .scalar (.text s) => do
        let literal := { l with entries := [.field none (.regular s) false presence value] }
        alter v fun n => { n with literals := n.literals.push literal }
        if presence = .member then
          addField v (.regular s) { term := value, around := l.around, origin := { l.origin with embeddedIn := [] } }
      | .vague as => note v (.missing (as.has .text))
      | _ => note v .conflict
  | _ => pure ()

def addRepeated (clauses : List Clause) (entries : List Entry) (l : Literal) : Work PUnit := do
  noting v (rounds E v clauses l.around) fun found => do
    for around in found do E.absorb v { term := .record entries, around, origin := l.origin }

/-- The next task of a node; `false` if nothing but choices is left. -/
def nextTask : Work Bool := do
  let n ← node v
  let t := n.tasks
  if n.problem = some .conflict then return false
  else match t.references, t.keyed, t.repeated, t.expressions with
    | c :: rest, _, _, _ =>
      addTask v ({ · with references := rest })
      follow E v c
      return true
    | [], keyed, repeated, expressions =>
      match if n.grounded then t.circular else [] with
      | (c, w) :: _ =>
        addTask v ({ · with circular := t.circular.drop 1 })
        takeOver E v c w true (if c.term.refersToDefinition then some true else none)
        return true
      | [] =>
        match keyed, repeated, expressions with
        | (e, l) :: rest, _, _ =>
          addTask v ({ · with keyed := rest })
          addKeyed E v e l
          return true
        | [], (clauses, entries, l) :: rest, _ =>
          addTask v ({ · with repeated := rest })
          addRepeated E v clauses entries l
          return true
        | [], [], c :: rest =>
          addTask v ({ · with expressions := rest })
          express E v c
          return true
        | [], [], [] => return false

def doTasks : Nat → Work PUnit
  | 0 => pure ()
  | fuel + 1 => do
    if ← nextTask E v then doTasks fuel

/-! ### Choices -/

/-- The plain values of alternatives; `none` if one is not plain. -/
def plainAlternatives? (alternatives : List Alternative) : Option (List (Scalar × Alternative)) :=
  alternatives.mapM fun a => match a.term.plain with
    | .scalar s => some (s, a)
    | _ => none

/-- Adds a plain alternative to others. Of two equal ones one is kept, which is marked if one of them is. -/
def addPlain (found : List (Scalar × Alternative)) (s : Scalar) (a : Alternative) : List (Scalar × Alternative) :=
  if found.any (·.1 = s) then found.map fun (t, b) => if t = s then (t, { b with marked := b.marked || a.marked }) else (t, b)
  else found ++ [(s, a)]

/-- Does the tasks of choices between plain values for a value that is known or that only one of them leaves. -/
def decidePlain : Work PUnit := do
  let choices := (← node v).tasks.choices
  for (alternatives, c) in choices do
    let n ← node v
    match plainAlternatives? alternatives with
    | some plain =>
      match n.range.scalar, plain.filter fun (s, _) => n.range.admits s with
      | _, [] => note v .conflict
      | _, [(s, _)] => absorbScalar v c s
      | some _, (s, _) :: _ => narrow v (·.withScalar s)
      | none, left => addTask v fun t => { t with choices := t.choices ++ [(left.map (·.2), c)] }
    | none => addTask v fun t => { t with choices := t.choices ++ [(alternatives, c)] }
  addTask v fun t => { t with choices := t.choices.drop choices.length }

def Alternative.standing (anyMarked : Bool) (a : Alternative) : Standing :=
  if a.marked then .preferred else if anyMarked then .secondary else .neutral

/-- Makes a variant of a node that is nothing but a range for each plain alternative. -/
def branchPlain (n : Node) (plain : List (Scalar × Alternative)) : Work PUnit := do
  let anyMarked := plain.any (·.2.marked)
  let different := plain.foldl (fun found (s, a) => addPlain found s a) []
  let mut found := []
  for (s, a) in different do
    match n.range.withScalar s with
    | some range =>
      let u ← allocateVariant { n.unexpanded with picked := n.picked ++ [a.place], range, stage := .expanded, settled := true }
      found := (Alternative.standing anyMarked a, u) :: found
    | none => pure ()
  if found.isEmpty then note v .conflict
  else
    let variants := found.reverse
    alter v fun n => { n with variants }

/-- Adds an alternative to others. Of two equal ones one is kept, with the better mark. -/
def addVariant (s : Standing) (u : Nat) : List (Standing × Nat) → Work (List (Standing × Nat))
  | [] => return [(s, u)]
  | (t, w) :: rest => do
    if ← sameValue E comparisonDepth u w then
      return (if s = .preferred ∨ t = .preferred then .preferred else if s = .neutral then s else t, w) :: rest
    else return (t, w) :: (← addVariant s u rest)

/-- Makes a variant of a node for each alternative of a choice, and keeps those that have no contradiction. -/
def branch (n : Node) (alternatives : List Alternative) : Work PUnit := do
  let anyMarked := alternatives.any (·.marked)
  let mut found := []
  for a in alternatives do
    let u ← allocateVariant { n.unexpanded with picked := n.picked ++ [a.place], attempts := 0 }
    E.settle u
    let k ← node u
    unless k.faulty do
      for (t, w) in if k.variants.isEmpty then [(.neutral, u)] else k.variants do
        found ← addVariant E ((Alternative.standing anyMarked a).both t) w found
  if found.isEmpty then note v .conflict
  else
    let variants := found
    alter v fun n => { n with variants, problem := n.problem.filter (· = .circular) }

/-- Does the task of the first choice of a node; the variants do those of the others. -/
def decide (alternatives : List Alternative) : Work PUnit := do
  let n ← node v
  match plainAlternatives? alternatives with
  | some plain => if isPlainRange n ∧ n.tasks.choices.length = 1 then branchPlain v n plain else branch E v n alternatives
  | none => branch E v n alternatives

/-! ### Checks -/

/-- The groups around a node that close what is inside, too. -/
def inherited (n : Node) : Work (List Closing) := do
  match n.parent with
  | none => return []
  | some p =>
    return (← node p).closings.filter fun c =>
      c.deep && !n.covered.contains c.group && n.conjuncts.any (·.origin.groups.contains c.group)

/-- Every field of a node is admitted by the groups that close it. -/
def checkClosings : Work PUnit := do
  let n ← node v
  unless n.closings.isEmpty do
    for a in n.arcs do
      unless ← admits E v a.label do note v .conflict

def checkLength : Work PUnit := do
  let n ← node v
  if n.lists.any fun l => l.more.isNone && l.count < length n then note v .conflict

def fitsNode (w : Nat) : Work Bool := do
  let n ← node v
  let conjuncts := n.conjuncts ++ [{ term := .node w }]
  let id ← allocate { parent := n.parent, conjuncts, picked := n.picked, untested := true }
  E.settle id
  return !(← node id).faulty

def passes (g : Ground) (t : Test) : Attempt Bool := do
  match t.function, t.args with
  | "matchN", [count, options] =>
    match ← settledGround E options with
    | .list id =>
      let mut matching := 0
      for w in ← items E id do
        if ← fitsNode E v w then matching := matching + 1
      let number ← allocate { conjuncts := [{ term := .scalar (.whole matching) }, { term := .node (← nodeOf v count) }] }
      E.settle number
      return !(← node number).faulty
    | _ => throw .conflict
  | "matchIf", [condition, first, second] =>
    if ← fitsNode E v (← nodeOf v condition) then fitsNode E v (← nodeOf v first) else fitsNode E v (← nodeOf v second)
  | name, args =>
    match Function.find? name with
    | none => throw .incomplete
    | some f =>
      let grounds := g :: (← args.mapM (ground E))
      for (param, g) in f.params.zip grounds do checkArgument param g
      match ← f.apply E grounds with
      | .scalar (.truth b) => return b
      | _ => throw .conflict

/-- A node satisfies its functions and its relations to lists and records. -/
def checkTests : Work PUnit := do
  let n ← node v
  match kindOf v n with
  | .vague _ => pure ()
  | g =>
    for t in if n.untested then [] else n.tests do
      noting v (passes E v g t) fun b => unless b do note v .conflict
    for (o, id) in n.limits do
      noting v (do equal E comparisonDepth g (← settledGround E (.node id))) fun b => do
        if b ≠ (o == .equal) then note v .conflict

def finish : Work PUnit := do
  let n ← node v
  if n.problem ≠ some .conflict then
    match n.tasks.choices with
    | (alternatives, _) :: _ => decide E v alternatives
    | [] =>
      unless n.tasks.circular.isEmpty do note v .conflict
      let outer ← inherited n
      alter v fun n => { n with closings := n.closings ++ outer }
      checkLength v
      checkClosings E v
      checkTests E v

def taskLimit : Nat := 1000000

def expandWith : Work PUnit := do
  let n ← node v
  if n.stage = .fresh ∨ n.stage = .unsteady then
    reset v
    alter v fun n => { n with stage := .expanding, attempts := n.attempts + 1 }
    markHasty v n.parent
    for c in n.conjuncts do E.absorb v c
    doTasks E v taskLimit
    decidePlain v
    finish E v
    alter v fun n =>
      let again := (n.problem = some .circular ∨ n.hasty) ∧ n.attempts < Node.patience
      { n with stage := if again then .unsteady else .expanded }

/-- Settles nodes one after the other and those inside them; gives whether one of them has a contradiction. -/
def anyFault : Nat → List Nat → Work Bool
  | 0, _ => return false
  | _, [] => return false
  | fuel + 1, id :: rest => do
    E.expand id
    let n ← node id
    if n.problem = some .conflict then return true
    else if !n.variants.isEmpty then anyFault fuel rest
    else
      let children ← n.arcs.toList.filterMapM fun a => arcNode E id a.label
      anyFault fuel (children ++ rest)

def nodeLimit : Nat := 4000000

def settleWith : Work PUnit := do
  unless (← node v).settled do
    let faulty ← anyFault E nodeLimit [v]
    alter v fun n => { n with settled := true, faulty }

end HdlLowering.Contract.Evaluator
