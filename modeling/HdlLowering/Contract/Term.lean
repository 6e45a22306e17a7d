import HdlLowering.Contract.Token

/-!
# Terms of the contract notation

A term describes a value. The entries of a record are fields (hidden behind `_`, definitions behind `#`, required or
optional), embedded terms, local definitions, constraints on fields by name, comprehensions, and the mark that other fields
may follow. The items of a list are terms or comprehensions.
-/

namespace HdlLowering.Contract

/-- The label of a field: a regular name, a name with a mark in front that makes it hidden or a definition, or the
place of an item in a list. -/
inductive Label where
  | regular (name : String)
  | special (name : String)
  | place (index : Nat)
  deriving DecidableEq

namespace Label

def ofName (name : String) : Label :=
  if name.startsWith "_" ∨ name.startsWith "#" then .special name else .regular name

def isDefinition : Label → Bool
  | .special name => name.startsWith "#" || name.startsWith "_#"
  | _ => false

def isRegular : Label → Bool
  | .regular _ => true
  | _ => false

end Label

/-- Whether a field is there, must come to be there, or is only described in case it is. -/
inductive Presence where
  | member
  | required
  | optional
  deriving DecidableEq

mutual
/-- A term. A list has more items behind its own if `more` describes them. `aliased` gives the value of a term a name inside it.
`node` is a value that is known by its number. -/
inductive Term where
  | any
  | bottom
  | scalar (s : Scalar)
  | template (bytes : Bool) (pieces : List Scalar) (terms : List Term)
  | name (w : String)
  | group (t : Term)
  | unary (o : Operator) (operand : Term)
  | binary (o : Operator) (left right : Term)
  | list (items : List Entry) (more : Option Term)
  | record (entries : List Entry)
  | select (of : Term) (field : Label)
  | index (of place : Term)
  | slice (of : Term) (first last : Option Term)
  | call (function : Term) (args : List Term)
  | aliased (w : String) (t : Term)
  | node (number : Nat)

/-- An entry of a record. Only fields whose name is written without quotes can be referred to, and fields that are
given another name in front. -/
inductive Entry where
  | field (other : Option String) (label : Label) (byName : Bool) (presence : Presence) (value : Term)
  | computed (other : Option String) (key : Term) (presence : Presence) (value : Term)
  | pattern (other key : Option String) (labels value : Term)
  | embedded (t : Term)
  | given (name : String) (value : Term)
  | comprehension (clauses : List Clause) (entries : List Entry)
  | open
  | imported (name path : String)

inductive Clause where
  | each (key : Option String) (value : String) (source : Term)
  | provided (condition : Term)
  | given (name : String) (value : Term)
end

def Clause.binds : Clause → List String
  | .each key value _ => key.toList ++ [value]
  | .provided _ => []
  | .given w _ => [w]

def Entry.binds : Entry → List String
  | .field other label byName _ _ =>
    other.toList ++ match label, byName with
      | .regular w, true | .special w, true => [w]
      | _, _ => []
  | .computed other _ _ _ => other.toList
  | .given w _ => [w]
  | .imported w _ => [w]
  | _ => []

namespace Term

def plain : Term → Term
  | .group t => plain t
  | t => t

/-- The alternatives of a choice with the marks of those that count when nothing decides between them. -/
def alternatives (marked : Bool) : Term → List (Bool × Term)
  | .binary .choose a b => alternatives marked a ++ alternatives marked b
  | .unary .multiply t => alternatives true t
  | .group t => alternatives marked t
  | t => [(marked, t)]

def refersToDefinition : Term → Bool
  | .name w => (Label.ofName w).isDefinition
  | .select t l => l.isDefinition || refersToDefinition t
  | .index t _ => refersToDefinition t
  | .group t => refersToDefinition t
  | _ => false

end Term

end HdlLowering.Contract
