import HdlLowering.Json.Value

/-!
# Writing JSON text

Text is quoted so that it can stand inside a web page: `<`, `>`, `&` and the two line separators are escaped too.
`Json.compact` writes one line, `Json.indented` a line for each member or item.
-/

namespace HdlLowering.Json

def hexChar (n : Nat) : Char := "0123456789abcdef".toList.getD n '0'

def unitEscape (n : Nat) : List Char :=
  ['\\', 'u', hexChar (n / 4096 % 16), hexChar (n / 256 % 16), hexChar (n / 16 % 16), hexChar (n % 16)]

def escapeChar (c : Char) : List Char :=
  match escapes.find? (·.2 = c) with
  | some (letter, _) => ['\\', letter]
  | none =>
    if c.toNat < 0x20 ∨ c = '<' ∨ c = '>' ∨ c = '&' ∨ c = '\u2028' ∨ c = '\u2029' then unitEscape c.toNat else [c]

def quote (s : String) : String := String.ofList ('"' :: s.toList.flatMap escapeChar ++ ['"'])

mutual
def compact : Json → String
  | .null => "null"
  | .bool b => if b then "true" else "false"
  | .num t => t
  | .str s => quote s
  | .arr xs => "[" ++ String.intercalate "," (compactItems xs) ++ "]"
  | .obj ms => "\x7b" ++ String.intercalate "," (compactMembers ms) ++ "\x7d"

def compactItems : List Json → List String
  | [] => []
  | x :: xs => compact x :: compactItems xs

def compactMembers : List (String × Json) → List String
  | [] => []
  | (k, v) :: ms => (quote k ++ ":" ++ compact v) :: compactMembers ms
end

def lineStart (depth : Nat) : String := "\n" ++ String.ofList (List.replicate (2 * depth) ' ')

mutual
def indentedAt (depth : Nat) : Json → String
  | .null => "null"
  | .bool b => if b then "true" else "false"
  | .num t => t
  | .str s => quote s
  | .arr [] => "[]"
  | .arr (x :: xs) =>
    "[" ++ String.intercalate "," (indentedItems (depth + 1) (x :: xs)) ++ lineStart depth ++ "]"
  | .obj [] => "\x7b\x7d"
  | .obj (m :: ms) =>
    "\x7b" ++ String.intercalate "," (indentedMembers (depth + 1) (m :: ms)) ++ lineStart depth ++ "\x7d"

def indentedItems (depth : Nat) : List Json → List String
  | [] => []
  | x :: xs => (lineStart depth ++ indentedAt depth x) :: indentedItems depth xs

def indentedMembers (depth : Nat) : List (String × Json) → List String
  | [] => []
  | (k, v) :: ms => (lineStart depth ++ quote k ++ ": " ++ indentedAt depth v) :: indentedMembers depth ms
end

/-- A value over several lines, without a newline at its end. -/
def indented (j : Json) : String := indentedAt 0 j

end HdlLowering.Json
