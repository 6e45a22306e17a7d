import HdlLowering.Json.Reader

/-!
# Parts of a document as they are written

The text of a part as it stands there, with its escapes, for who reads it in another notation.
-/

namespace HdlLowering.Json

def taken (cs rest : List Char) : String := String.ofList (cs.take (cs.length - rest.length))

/-- The texts of the members of an object behind its opening brace, with their keys; the fuel bounds their number. -/
def memberTextsFrom : Nat → List Char → List (String × String)
  | 0, _ => []
  | fuel + 1, cs =>
    match skipBlanks cs with
    | '"' :: cs =>
      match parseText cs.length.succ [] cs with
      | some (key, cs) =>
        match skipBlanks cs with
        | ':' :: cs =>
          let cs := skipBlanks cs
          match parseValue (2 * cs.length + 2) cs with
          | some (_, rest) =>
            (key, taken cs rest) :: match skipBlanks rest with
              | ',' :: rest => memberTextsFrom fuel rest
              | _ => []
          | none => []
        | _ => []
      | none => []
    | _ => []

def memberTexts (text : String) : List (String × String) :=
  match skipBlanks text.toList with
  | '\x7b' :: cs => memberTextsFrom cs.length cs
  | _ => []

def memberText? (text key : String) : Option String := (memberTexts text).reverse.lookup key

def itemTextsFrom : Nat → List Char → List String
  | 0, _ => []
  | fuel + 1, cs =>
    let cs := skipBlanks cs
    match parseValue (2 * cs.length + 2) cs with
    | some (_, rest) =>
      taken cs rest :: match skipBlanks rest with
        | ',' :: rest => itemTextsFrom fuel rest
        | _ => []
    | none => []

def itemTexts (text : String) : List String :=
  match skipBlanks text.toList with
  | '[' :: cs => itemTextsFrom cs.length cs
  | _ => []

end HdlLowering.Json
