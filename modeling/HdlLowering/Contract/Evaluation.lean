import HdlLowering.Contract.Expansion

/-!
# Evaluation

An evaluator works with less deep ones, so its depth bounds how far one evaluation hangs on another. The length of a text
bounds the depth that it needs.
-/

namespace HdlLowering.Contract

open Work

/-- The evaluator of some depth. Where it ends, nothing is known any more. -/
def evaluator : Nat → Evaluator
  | 0 =>
    { expand := fun _ => pure ()
      settle := fun _ => pure ()
      absorb := fun _ _ => pure ()
      value := fun _ _ _ => throw .incomplete }
  | depth + 1 =>
    { expand := fun id => (evaluator depth).expandWith id
      settle := fun id => (evaluator depth).settleWith id
      absorb := fun id c => (evaluator depth).absorbWith id c
      value := fun here around t => (evaluator depth).valueWith here around t }

def depthFor (text : String) : Nat := 8 * text.utf8ByteSize + 2000

def allocateRecord (entries : List Entry) : Work Nat := allocateTerm none (.record entries) []

/-- Whether the data that some entries describe stands for itself: it has a value as a whole, and no contradiction in it. -/
def standsAlone (E : Evaluator) (entries : List Entry) : Work Bool := do
  let id ← allocateRecord entries
  E.settle id
  let n ← node id
  return n.problem.isNone && !n.faulty

def agree (E : Evaluator) (schema : List Entry) (definition : String) (data : List Entry) : Work Bool := do
  let root ← allocateRecord schema
  E.expand root
  let id ← allocate
    { conjuncts := [{ term := .name definition, around := [.record schema root [] none] }, { term := .record data }] }
  E.settle id
  return !(← node id).faulty

def admitsText (schema : List Entry) (definition text : String) : Bool :=
  match Term.parse text with
  | none => false
  | some data =>
    let E := evaluator (depthFor text)
    let check : Work Bool := do return (← standsAlone E data) && (← agree E schema definition data)
    Term.isBound .plain [] (.record data) && (check.run {}).1

end HdlLowering.Contract
