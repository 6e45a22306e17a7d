/-!
# Marks in text that is shown

Marks for colours, tags such as `<red>` and `</>` and escape codes, are left out: tags only of a text that closes one, codes
only of a line that has the code for the end of a colour.
-/

namespace HdlLowering.Text

def isTagChar (c : Char) : Bool := c.isAlphanum ∨ c = '_' ∨ c = '=' ∨ c = ',' ∨ c = ';'

def isCodeChar (c : Char) : Bool := c.isDigit ∨ c = ';' ∨ c = '?'

def tagLength? (cs : List Char) : Option Nat :=
  let slash := if cs.head? = some '/' then 1 else 0
  let name := (cs.drop slash).takeWhile isTagChar
  if (cs.drop (slash + name.length)).head? = some '>' then some (slash + name.length + 1) else none

def codeLength? : List Char → Option Nat
  | '[' :: cs =>
    let number := cs.takeWhile isCodeChar
    if number ≠ [] ∧ (cs.drop number.length).head? = some 'm' then some (number.length + 2) else none
  | _ => none

/-- A text without the marks that start with a character; `length?` gives the length of a mark behind its first character, and the
first `passed` characters belong to one already. -/
def withoutMarks (start : Char) (length? : List Char → Option Nat) (passed : Nat) : List Char → List Char
  | [] => []
  | c :: cs =>
    match passed with
    | n + 1 => withoutMarks start length? n cs
    | 0 =>
      match if c = start then length? cs else none with
      | some n => withoutMarks start length? n cs
      | none => c :: withoutMarks start length? 0 cs

def occursIn (part : List Char) : List Char → Bool
  | [] => part.isEmpty
  | c :: cs => part.isPrefixOf (c :: cs) || occursIn part cs

def untagged (s : String) : String :=
  if occursIn ['<', '/', '>'] s.toList then String.ofList (withoutMarks '<' tagLength? 0 s.toList) else s

def uncoded (line : String) : String :=
  if occursIn ['[', '0', 'm'] line.toList then String.ofList (withoutMarks '\x1b' codeLength? 0 line.toList) else line

/-- A text as it is shown: without tags, without codes, and without the tags that come about then. -/
def shown (s : String) : String :=
  untagged (String.intercalate "\n" (((untagged s).splitOn "\n").map uncoded))

end HdlLowering.Text
