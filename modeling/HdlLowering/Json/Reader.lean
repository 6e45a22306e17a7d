import HdlLowering.Json.Value

/-!
# Reading JSON text

`Json.parse` accepts one value between blanks: no leading zero or plus sign, no raw control character, and nesting up to
`maxDepth`. Half of a surrogate pair on its own reads as U+FFFD.
-/

namespace HdlLowering.Json

def isBlank (c : Char) : Bool := c == ' ' || c == '\t' || c == '\n' || c == '\r'

def skipBlanks (cs : List Char) : List Char := cs.dropWhile isBlank

/-- Four hexadecimal digits at the start of a text, with the rest. -/
def hex4? : List Char → Option (Nat × List Char)
  | a :: b :: c :: d :: rest => (Text.hexNumber? [a, b, c, d]).map (·, rest)
  | _ => none

def isHighSurrogate (n : Nat) : Bool := 0xD800 ≤ n && n < 0xDC00

def isLowSurrogate (n : Nat) : Bool := 0xDC00 ≤ n && n < 0xE000

/-- The character of an escaped code unit, given the text after it: a pair of surrogates is one character, and a
surrogate without its partner is U+FFFD. -/
def unitChar (unit : Nat) (rest : List Char) : Char × List Char :=
  if isHighSurrogate unit then
    match rest with
    | '\\' :: 'u' :: rest' =>
      match hex4? rest' with
      | some (low, rest'') =>
        if isLowSurrogate low then
          (Char.ofNat (0x10000 + (unit - 0xD800) * 0x400 + (low - 0xDC00)), rest'')
        else ('�', rest)
      | none => ('�', rest)
    | _ => ('�', rest)
  else if isLowSurrogate unit then ('�', rest)
  else (Char.ofNat unit, rest)

/-- The characters of a text up to its closing quote, with what follows. The fuel bounds the number of
characters. -/
def parseText : Nat → List Char → List Char → Option (String × List Char)
  | 0, _, _ => none
  | fuel + 1, acc, cs =>
    match cs with
    | '"' :: rest => some (String.ofList acc.reverse, rest)
    | '\\' :: 'u' :: rest => do
      let (unit, rest) ← hex4? rest
      let (c, rest) := unitChar unit rest
      parseText fuel (c :: acc) rest
    | '\\' :: c :: rest =>
      match (('/', '/') :: escapes).lookup c with
      | some d => parseText fuel (d :: acc) rest
      | none => none
    | c :: rest => if c.toNat < 0x20 then none else parseText fuel (c :: acc) rest
    | [] => none

def digits1? (cs : List Char) : Option (List Char × List Char) :=
  match cs.span Char.isDigit with
  | ([], _) => none
  | (ds, rest) => some (ds, rest)

/-- The digits before the point: a zero alone, or digits that do not start with a zero. -/
def wholePart? : List Char → Option (List Char × List Char)
  | '0' :: rest => some (['0'], rest)
  | cs => digits1? cs

/-- The point and the digits after it, if there is a point. -/
def fraction? : List Char → Option (List Char × List Char)
  | '.' :: rest => (digits1? rest).map fun (ds, rest) => ('.' :: ds, rest)
  | cs => some ([], cs)

def exponent? (cs : List Char) : Option (List Char × List Char) :=
  match cs with
  | e :: rest =>
    if e = 'e' ∨ e = 'E' then
      match rest with
      | '+' :: rest' => (digits1? rest').map fun (ds, r) => (e :: '+' :: ds, r)
      | '-' :: rest' => (digits1? rest').map fun (ds, r) => (e :: '-' :: ds, r)
      | _ => (digits1? rest).map fun (ds, r) => (e :: ds, r)
    else some ([], cs)
  | [] => some ([], [])

def number? (cs : List Char) : Option (String × List Char) := do
  let (sign, cs) := match cs with
    | '-' :: rest => (['-'], rest)
    | _ => ([], cs)
  let (whole, cs) ← wholePart? cs
  let (frac, cs) ← fraction? cs
  let (exp, cs) ← exponent? cs
  return (String.ofList (sign ++ whole ++ frac ++ exp), cs)

mutual
def parseValue : Nat → List Char → Option (Json × List Char)
  | 0, _ => none
  | fuel + 1, cs =>
    match skipBlanks cs with
    | 'n' :: 'u' :: 'l' :: 'l' :: rest => some (.null, rest)
    | 't' :: 'r' :: 'u' :: 'e' :: rest => some (.bool true, rest)
    | 'f' :: 'a' :: 'l' :: 's' :: 'e' :: rest => some (.bool false, rest)
    | '"' :: rest => (parseText fuel [] rest).map fun (s, rest) => (.str s, rest)
    | '[' :: rest =>
      match skipBlanks rest with
      | ']' :: rest => some (.arr [], rest)
      | rest => (parseItems fuel rest).map fun (xs, rest) => (.arr xs, rest)
    | '\x7b' :: rest =>
      match skipBlanks rest with
      | '\x7d' :: rest => some (.obj [], rest)
      | rest => (parseMembers fuel rest).map fun (ms, rest) => (.obj ms, rest)
    | cs => (number? cs).map fun (n, rest) => (.num n, rest)

def parseItems : Nat → List Char → Option (List Json × List Char)
  | 0, _ => none
  | fuel + 1, cs => do
    let (v, cs) ← parseValue fuel cs
    match skipBlanks cs with
    | ']' :: rest => some ([v], rest)
    | ',' :: rest =>
      let (vs, rest) ← parseItems fuel rest
      return (v :: vs, rest)
    | _ => none

def parseMembers : Nat → List Char → Option (List (String × Json) × List Char)
  | 0, _ => none
  | fuel + 1, cs =>
    match skipBlanks cs with
    | '"' :: rest => do
      let (key, cs) ← parseText fuel [] rest
      match skipBlanks cs with
      | ':' :: rest =>
        let (v, cs) ← parseValue fuel rest
        match skipBlanks cs with
        | '\x7d' :: rest => some ([(key, v)], rest)
        | ',' :: rest =>
          let (ms, rest) ← parseMembers fuel rest
          return ((key, v) :: ms, rest)
        | _ => none
      | _ => none
    | _ => none
end

def maxDepth : Nat := 10000

def parseFirst (text : String) : Option (Json × List Char) :=
  let cs := text.toList
  (parseValue (2 * cs.length + 2) cs).filter fun (v, _) => v.depth ≤ maxDepth

def parse (text : String) : Option Json :=
  match parseFirst text with
  | some (v, rest) => if (skipBlanks rest).isEmpty then some v else none
  | none => none

end HdlLowering.Json
