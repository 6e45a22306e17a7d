import HdlLowering.Contract.Function.Packages

/-!
# The values of terms

References are followed to nodes, operators and functions work on settled values, and what describes a value of its own gets
a node. A comparison with the bottom asks whether a term has a value at all.
-/

namespace HdlLowering.Contract

def Ground.categories : Ground → Categories
  | .scalar s => s.categories
  | .record _ => .record
  | .list _ => .list
  | .function _ => .ofList [.function]
  | .vague as => as

namespace Evaluator

open Work (node allocateTerm)

def both {α β : Type} (a : Attempt α) (b : Attempt β) : Attempt (α × β) := do
  match ← Attempt.tried a, ← Attempt.tried b with
  | .ok x, .ok y => return (x, y)
  | .error p, .error q => throw (Problem.worse (some p) q)
  | .error p, _ => throw p
  | _, .error q => throw q

/-- The results of some attempts; the worst problem counts. -/
def all {α : Type} : List (Attempt α) → Attempt (List α)
  | [] => return []
  | a :: rest => do
    let (x, xs) ← both a (all rest)
    return x :: xs

variable (E : Evaluator) (here : Nat) (around : Surroundings)

def operand (t : Term) : Attempt Ground := do
  settledGround E (← E.value here around t)

/-! ### References -/

def labelOfIndex (g : Ground) : Attempt Label := do
  match g with
  | .scalar (.text s) => return .regular s
  | .scalar s =>
    match s.whole? with
    | some n => if n < 0 then throw .conflict else return .place n.toNat
    | none => throw .conflict
  | .vague as => throw (.missing (as.has .text || as.has .whole))
  | _ => throw .conflict

def memberOf (v : Val) (label : Label) : Attempt Val := do
  match v, label with
  | .package path, .regular name => Function.member path name
  | .package _, _ => throw .conflict
  | v, label => select E v label

def resolve : Term → Attempt Val
  | .name w => do
    match ← meaning? E here w around, everywhere? w with
    | some v, _ => return v
    | none, some f =>
      if namedFunctions.contains f then return .function f else return .node (← allocateTerm (some here) (.name w) around)
    | none, none => throw .conflict
  | .select t label => do memberOf E (← E.value here around t) label
  | .index t i => do
    let (v, g) ← both (E.value here around t) (groundTerm E here around i)
    let label ← labelOfIndex g
    match v with
    | .package _ => throw .conflict
    | v => select E v label
  | .node id => return .node id
  | _ => throw .conflict

/-! ### Operators -/

/-- A value counts as bottom: it is missing, contradicts itself or is not settled. -/
def isBottom (t : Term) : Attempt Bool := do
  let look : Attempt Bool := do
    let v ← E.value here around t
    match v with
    | .node id => if (← node id).stage ≠ .expanding then E.settle id
    | _ => pure ()
    match ← ground E v with
    | .vague _ => return true
    | _ =>
      match v with
      | .node id => return (← node id).faulty
      | _ => return false
  match ← Attempt.tried look with
  | .ok b => return b
  | .error .circular => throw .circular
  | .error _ => return true

def comparisonDepth : Nat := 1000

def truthOf : Ground → Attempt Bool
  | .scalar (.truth b) => return b
  | _ => throw .conflict

def operate (o : Operator) (a b : Term) : Attempt Scalar := do
  match o, a.plain, b.plain with
  | .equal, .bottom, t | .equal, t, .bottom => return .truth (← isBottom E here around t)
  | .unequal, .bottom, t | .unequal, t, .bottom => return .truth !(← isBottom E here around t)
  | o, _, _ =>
    let (x, y) ← both (operand E here around a) (operand E here around b)
    match o, x, y with
    | .conjoin, x, y => if ← truthOf x then return .truth (← truthOf y) else return .truth false
    | .disjoin, x, y => if ← truthOf x then return .truth true else return .truth (← truthOf y)
    | .equal, x, y => return .truth (← equal E comparisonDepth x y)
    | .unequal, x, y => return .truth !(← equal E comparisonDepth x y)
    | o, .scalar s, .scalar t =>
      if o.isRelation then return .truth (← Function.result (s.relates o t)) else Function.result (s.calculate o t)
    | _, _, _ => throw .conflict

def operateFront (o : Operator) (t : Term) : Attempt Scalar := do
  match ← groundTerm E here around t with
  | .scalar s => Function.result (s.front o)
  | .vague as => throw (.missing (as.meets (Scalar.frontCategories o)))
  | _ => throw .conflict

def inserted (t : Term) : Attempt Scalar := do
  match ← groundTerm E here around t with
  | .scalar .null => throw .conflict
  | .scalar s => return s
  | .vague as => throw (.missing (as.meets Scalar.insertable))
  | _ => throw .conflict

def woven : List Scalar → List Scalar → List Scalar
  | p :: ps, v :: vs => p :: v :: woven ps vs
  | ps, [] => ps
  | [], vs => vs

def fill (bytes : Bool) (pieces : List Scalar) (terms : List Term) :
    Attempt Scalar := do
  let parts := woven pieces (← all (terms.map (inserted E here around)))
  if bytes then return .bytes (parts.filterMap Scalar.inBytes).flatten
  else return .text (String.join (parts.filterMap Scalar.inText))

def sliceEnd (t : Term) : Attempt Int := do
  match ← groundTerm E here around t with
  | .scalar s => Function.result s.whole?
  | .vague as => throw (.missing (as.has .whole))
  | _ => throw .conflict

def slice (t : Term) (first last : Option Term) : Attempt Val := do
  let g ← groundTerm E here around t
  let lo ← match first with
    | some i => sliceEnd E here around i
    | none => pure 0
  let hi (length : Nat) : Attempt Int := match last with
    | some j => sliceEnd E here around j
    | none => pure length
  match g with
  | .list id =>
    let ids ← items E id
    let part ← Function.result (Function.slice? ids lo (← hi ids.length))
    return .node (← allocateTerm (some here) (Function.listOfNodes part) [])
  | .scalar (.bytes bs) => return .scalar (.bytes (← Function.result (Function.slice? bs lo (← hi bs.length))))
  | _ => throw .conflict

/-! ### Calls -/

/-- What a call gives: a term, a test, or a record that is closed by it. -/
inductive Outcome where
  | term (t : Term)
  | test (t : Test)
  | closed (node : Nat)

def checkArgument (param : Categories) (g : Ground) : Attempt PUnit := do
  if !(param.meets g.categories) then throw .conflict
  else match g with
    | .vague _ => throw .incomplete
    | _ => pure ()

def checkClosable (id : Nat) : Attempt PUnit := do
  match ← groundNode E id with
  | .record _ => pure ()
  | .vague as => throw (.missing (as.has .record))
  | _ => throw .conflict

def nodeOf : Val → Work Nat
  | .node id => return id
  | .scalar s => allocateTerm (some here) (.scalar s) []
  | .function f => allocateTerm (some here) (.name f) []
  | .package _ => allocateTerm (some here) .bottom []

def functionOf (f : Term) : Attempt String := do
  let look : Attempt Ground := do ground E (← E.value here around f)
  match ← Attempt.tried look with
  | .ok (.function name) => return name
  | .error .circular => throw .circular
  | _ => throw .conflict

def call (f : Term) (args : List Term) : Attempt Outcome := do
  let name ← functionOf E here around f
  let vals ← all (args.map (E.value here around))
  match name, vals with
  | "close", [v] =>
    let id ← nodeOf here v
    checkClosable E id
    return .closed id
  | "close", _ => throw .conflict
  | "error", _ => throw .conflict
  | "matchN", [_, _] | "matchIf", [_, _, _] => return .test ⟨name, vals⟩
  | "matchN", _ | "matchIf", _ => throw .conflict
  | name, vals =>
    match Function.find? name with
    | none =>
      let _ ← all (vals.map (ground E))
      throw .incomplete
    | some fn =>
      if fn.truth ∧ vals.length + 1 = fn.params.length then
        let _ ← all (vals.map (ground E))
        return .test ⟨name, vals⟩
      else
        let grounds ← all (vals.map (ground E))
        if vals.length ≠ fn.params.length then throw .conflict
        else
          for (param, g) in fn.params.zip grounds do checkArgument param g
          return .term (← fn.apply E grounds)

/-! ### Terms -/

def valueWith (t : Term) : Attempt Val := do
  match t with
  | .scalar s => return .scalar s
  | .bottom => throw .conflict
  | .group t => E.value here around t
  | .name _ | .select _ _ | .index _ _ | .node _ => resolve E here around t
  | .template bytes pieces terms => return .scalar (← fill E here around bytes pieces terms)
  | .unary o operand =>
    if o.isRelation then return .node (← allocateTerm (some here) t around)
    else return .scalar (← operateFront E here around o operand)
  | .binary .meet _ _ | .binary .choose _ _ => return .node (← allocateTerm (some here) t around)
  | .binary o a b => return .scalar (← operate E here around o a b)
  | .slice of first last => slice E here around of first last
  | .call f args =>
    match ← call E here around f args with
    | .term (.scalar s) => return .scalar s
    | _ => return .node (← allocateTerm (some here) t around)
  | .any | .list _ _ | .record _ | .aliased _ _ => return .node (← allocateTerm (some here) t around)

end Evaluator

end HdlLowering.Contract
