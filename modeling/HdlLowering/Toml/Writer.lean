import HdlLowering.Text.Quoted
import HdlLowering.Toml.Token

/-!
# Writing TOML

Plain members come first, in the order of their keys, and then tables, each under a header behind an empty line and two blanks
further in. Control characters without an escape of one letter are written by their code.
-/

namespace HdlLowering.Toml

inductive Entry where
  | plain (text : String)
  | table (members : List (String × Entry))

/-- How one character is written between quotes. A character counts as a control character by the low 16 bits of
its code. -/
def escapeChar (c : Char) : List Char :=
  let code := c.toNat % 0x10000
  match Json.escapes.find? (·.2 = c) with
  | some (letter, _) => ['\\', letter]
  | none => if code < 0x1f then '\\' :: 'u' :: (Text.hexDigits 4 code).map Char.toUpper else [c]

def quote (s : String) : String := String.ofList ('"' :: s.toList.flatMap escapeChar ++ ['"'])

/-- A key, quoted like a text if it has a character that asks for it and does not stand in quotes already. -/
def keyName (key : String) : String :=
  let cs := key.toList
  if cs.all isBare ∨ (cs.length ≥ 2 ∧ cs.head? = some '"' ∧ cs.getLast? = some '"') then key else quote key

namespace Entry

def string (s : String) : Entry := .plain (quote s)

def strings (xs : List String) : Entry := .plain ("[" ++ String.intercalate ", " (xs.map quote) ++ "]")

def boolean (b : Bool) : Entry := .plain (if b then "true" else "false")

def integer (n : Int) : Entry := .plain (toString n)

mutual
def plainText (indent : String) : List (String × Entry) → String
  | [] => ""
  | (k, .plain text) :: ms => indent ++ keyName k ++ " = " ++ text ++ "\n" ++ plainText indent ms
  | (_, .table _) :: ms => plainText indent ms

def tablesText (indent path : String) : List (String × Entry) → String
  | [] => ""
  | (_, .plain _) :: ms => tablesText indent path ms
  | (k, .table inner) :: ms =>
    let full := if path.isEmpty then keyName k else path ++ "." ++ keyName k
    let inside := indent ++ "  "
    "\n" ++ indent ++ "[" ++ full ++ "]\n" ++ plainText inside inner ++ tablesText inside full inner ++ tablesText indent path ms
end

end Entry

/-- The text of a document whose members are in the order of their keys. -/
def render (members : List (String × Entry)) : String := Entry.plainText "" members ++ Entry.tablesText "" "" members

end HdlLowering.Toml
