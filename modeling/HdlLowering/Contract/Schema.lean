import HdlLowering.Contract.Evaluation

/-!
# Schemas

A schema is a record of definitions, one for each form of record. A definition closes its records: data has no other regular
fields.
-/

namespace HdlLowering.Contract.Schema

def has (name : String) (t : Term) : Entry := .field none (.regular name) true .member t

def may (name : String) (t : Term) : Entry := .field none (.regular name) true .optional t

def definition (name : String) (t : Term) : Entry := .field none (.ofName name) true .member t

def form (name : String) (fields : List Entry) : Entry := definition name (.record fields)

def text (s : String) : Term := .scalar (.text s)

def meet (a b : Term) : Term := .binary .meet a b

def anyText : Term := .name "string"

def truth : Term := .name "bool"

def filledText : Term := meet anyText (.unary .unequal (text ""))

def wholeFrom (least : Int) : Term := meet (.name "int") (.unary .atLeast (.scalar (.whole least)))

def like (pattern : String) : Term := .unary .alike (text pattern)

def unlike (pattern : String) : Term := .unary .unlike (text pattern)

def oneOf : List String → Term
  | [] => .bottom
  | w :: ws => ws.foldl (fun t w => .binary .choose t (text w)) (text w)

def listOf (t : Term) : Term := .list [] (some t)

def filledListOf (t : Term) : Term := .list [.embedded t] (some t)

def whenText (name value : String) (fields : List Entry) : Entry :=
  .comprehension [.provided (.binary .equal (.name name) (text value))] fields

end HdlLowering.Contract.Schema
