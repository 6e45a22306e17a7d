import HdlLowering.Contract.Evaluator
import HdlLowering.Contract.Operation

/-!
# Functions

A function takes arguments of some categories to a term. One that gives a truth value is also a test: with one argument fewer
it describes the values for which it gives true when they stand in front.
-/

namespace HdlLowering.Contract

/-- A function: the categories of its parameters, whether it gives a truth value, and what it gives for arguments of
these categories. -/
structure Function where
  params : List Categories
  truth : Bool
  apply : Evaluator → List Ground → Attempt Term

namespace Function

/-- The plain values that arguments are; `none` if one is not plain. -/
def scalars? (args : List Ground) : Option (List Scalar) :=
  args.mapM fun
    | .scalar s => some s
    | _ => none

def result {α : Type} : Option α → Attempt α
  | some a => return a
  | none => throw .conflict

variable (params : List Categories)

def ofScalars (f : List Scalar → Option Scalar) : Function where
  params
  truth := false
  apply _ args := do return .scalar (← result ((scalars? args).bind f))

def listOfScalars (f : List Scalar → Option (List Scalar)) : Function where
  params
  truth := false
  apply _ args := do
    return .list ((← result ((scalars? args).bind f)).map fun s => .embedded (.scalar s)) none

def testOfScalars (f : List Scalar → Option Bool) : Function where
  params
  truth := true
  apply _ args := do return .scalar (.truth (← result ((scalars? args).bind f)))

def scalarItem (E : Evaluator) (id : Nat) : Attempt Scalar := do
  match ← E.settledGround (.node id) with
  | .scalar s => return s
  | _ => throw .conflict

/-- The items of a list as plain values of some form. -/
def scalarItems {α : Type} (read : Scalar → Option α) (E : Evaluator) (ids : List Nat) : Attempt (List α) := do
  result ((← ids.mapM (scalarItem E)).mapM read)

def numberItems : Evaluator → List Nat → Attempt (List Decimal) := scalarItems fun
  | .number _ d => some d
  | _ => none

def textItems : Evaluator → List Nat → Attempt (List String) := scalarItems fun
  | .text s => some s
  | _ => none

def listOfNodes (ids : List Nat) : Term := .list (ids.map fun id => .embedded (.node id)) none

def ofList (f : Evaluator → List Nat → List Scalar → Attempt Term) : Function where
  params
  truth := false
  apply E
    | .list id :: rest => do f E (← E.items id) (← result (scalars? rest))
    | _ => throw .conflict

def testOfList (f : Evaluator → List Nat → Attempt Bool) : Function where
  params
  truth := true
  apply E
    | .list id :: rest => do
      let ids ← E.items id
      let _ ← result (scalars? rest)
      return .scalar (.truth (← f E ids))
    | _ => throw .conflict

def test (f : Evaluator → Ground → Ground → Attempt Bool) : Function where
  params
  truth := true
  apply E
    | [g, h] => do return .scalar (.truth (← f E g h))
    | _ => throw .conflict

/-- A number as functions give it: whole where it can be. -/
def number (d : Decimal) : Scalar :=
  match d.whole? with
  | some n => .whole n
  | none => .fraction d

end Function

end HdlLowering.Contract
