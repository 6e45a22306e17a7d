import HdlLowering.Json.Fields

/-!
# TOML text as tokens

A file is read in two modes: where a name may stand (at the start of a line and inside braces), and where a value may stand
(behind an equals sign and inside brackets). A line end outside of brackets leads back to names. Text that is no token ends
the tokens. Keys and headers are kept with their quotes, since their parts are told apart later.
-/

namespace HdlLowering.Text

/-- Why a text could not be read. -/
inductive Fault where
  | malformed
  | unexpected (c : Char)
  deriving DecidableEq

def Fault.message : Fault → String
  | .malformed => "malformed text"
  | .unexpected c => "unexpected character: " ++ c.toString

def readable {α : Type} (result : Option α) : Except Fault α := result.elim (.error .malformed) .ok

end HdlLowering.Text

namespace HdlLowering.Toml

open Text (Fault readable hexValue?)

/-- A token. What could not be read is `broken`, and the last one. -/
inductive Token where
  | key (text : List Char)
  | header (text : List Char)
  | arrayHeader (text : List Char)
  | equals
  | comma
  | leftBracket
  | rightBracket
  | leftBrace
  | rightBrace
  | string (text : List Char)
  | integer (value : Int)
  | boolean (value : Bool)
  | number
  | date (year month day : Nat)
  | time (hour minute second : Nat)
  | offset (hours minutes : Nat)
  | broken (reason : Fault)
  deriving DecidableEq

inductive Mode where
  | names
  | values
  deriving DecidableEq

inductive Bracket where
  | square
  | curly
  deriving DecidableEq

def isBlank (c : Char) : Bool := c = ' ' ∨ c = '\t'

def isLineEnd (c : Char) : Bool := c = '\n' ∨ c = '\r'

def isBare (c : Char) : Bool := c.isAlphanum ∨ c = '_' ∨ c = '-'

/-- The character with a hexadecimal code; a code of no character gives the replacement character. -/
def hexChar? (digits : List Char) : Option Char :=
  (Text.hexNumber? digits).map fun n => if n.isValidChar then Char.ofNat n else '\ufffd'

def prepend (c : Char) (read : Option (List Char × List Char)) : Option (List Char × List Char) :=
  read.map fun (text, rest) => (c :: text, rest)

/-- Reads a text with escapes up to its closing quotes, and what follows. A backslash before a blank or a line end leaves out all
of these behind it (`skipping`). -/
def basicString (quotes : List Char) (lines skipping : Bool) : List Char → Option (List Char × List Char)
  | [] => none
  | c :: cs =>
    if skipping ∧ (isBlank c ∨ isLineEnd c) then basicString quotes lines true cs
    else if quotes.isPrefixOf (c :: cs) then some ([], (c :: cs).drop quotes.length)
    else if c ≠ '\\' then
      if c.toNat < 0x20 ∧ c ≠ '\t' ∧ ¬(lines ∧ isLineEnd c) then none
      else prepend c (basicString quotes lines false cs)
    else match cs with
      | 'u' :: a :: b :: c :: d :: cs => do prepend (← hexChar? [a, b, c, d]) (basicString quotes lines false cs)
      | 'U' :: a :: b :: c :: d :: e :: f :: g :: h :: cs => do
        prepend (← hexChar? [a, b, c, d, e, f, g, h]) (basicString quotes lines false cs)
      | c :: cs =>
        match (('/', '/') :: Json.escapes).lookup c with
        | some d => prepend d (basicString quotes lines false cs)
        | none => if isBlank c ∨ isLineEnd c then basicString quotes lines true cs else none
      | [] => none

/-- Reads a text without escapes up to its closing quotes, and gives it with what follows them. -/
def literalString (quotes : List Char) : List Char → Option (List Char × List Char)
  | [] => none
  | c :: cs =>
    if quotes.isPrefixOf (c :: cs) then some ([], (c :: cs).drop quotes.length)
    else prepend c (literalString quotes cs)

def dropLineEnd : List Char → List Char
  | '\r' :: '\n' :: cs => cs
  | '\n' :: cs => cs
  | cs => cs

/-- Reads a text behind its first quote: one with three quotes goes over lines. -/
def quotedString (quote : Char) (cs : List Char) : Option (List Char × List Char) :=
  let long := [quote, quote].isPrefixOf cs
  let quotes := if long then [quote, quote, quote] else [quote]
  let body := if long then dropLineEnd (cs.drop 2) else cs
  if quote = '"' then basicString quotes long false body else literalString quotes body

/-- Every underscore stands behind a digit and not at the end. -/
def underscoresFit (isDigit : Char → Bool) : List Char → Bool
  | c :: '_' :: cs => isDigit c ∧ ¬cs.isEmpty ∧ underscoresFit isDigit ('_' :: cs)
  | '_' :: cs => ¬cs.isEmpty ∧ underscoresFit isDigit cs
  | _ :: cs => underscoresFit isDigit cs
  | [] => true

variable (cs : List Char)

def withoutUnderscores : List Char := cs.filter (· ≠ '_')

/-- An integer that fits in 64 bits. One that is written without a sign may take all of them. -/
def wide (signed : Bool) (v : Int) : Option Token :=
  if -Word.limit ≤ v ∧ v < (if signed then 1 else 2) * Word.limit then some (.integer v) else none

def basedInteger (base : Nat) (cs : List Char) : Option (Token × List Char) :=
  let admits (c : Char) : Bool := c = '_' ∨ (hexValue? c).any (· < base)
  let digits := cs.takeWhile admits
  if digits.isEmpty ∨ digits.head? = some '_' ∨ ¬underscoresFit (fun c => (hexValue? c).isSome) digits then none
  else do
    let ds ← (withoutUnderscores digits).mapM hexValue?
    return (← wide false (ds.foldl (fun n d => n * base + d) 0 : Nat), cs.dropWhile admits)

/-- The characters of a number without base mark, and what follows. A sign belongs to it at the front and behind
the mark of an exponent. -/
def numberText (signed : Bool) : List Char → List Char × List Char
  | [] => ([], [])
  | c :: cs =>
    if c.isDigit ∨ c = '_' ∨ c = '.' ∨ c = 'e' ∨ c = 'E' ∨ (signed ∧ (c = '+' ∨ c = '-')) then
      let (text, rest) := numberText (c = 'e' ∨ c = 'E') cs
      (c :: text, rest)
    else ([], c :: cs)

def isDigits : Bool := ¬cs.isEmpty ∧ cs.all Char.isDigit

def withoutSign : List Char → List Char
  | '+' :: cs => cs
  | '-' :: cs => cs
  | cs => cs

/-- The text has the form of a number with a fraction or an exponent. -/
def isDecimal : Bool :=
  let mantissa := cs.takeWhile fun c => c ≠ 'e' ∧ c ≠ 'E'
  let exponent := cs.dropWhile fun c => c ≠ 'e' ∧ c ≠ 'E'
  let whole := mantissa.takeWhile (· ≠ '.')
  let fraction := mantissa.dropWhile (· ≠ '.')
  isDigits whole ∧ (fraction.isEmpty ∨ isDigits fraction.tail) ∧ (exponent.isEmpty ∨ isDigits (withoutSign exponent.tail))

/-- The least number that is too large for a double: half a step above the largest one. -/
def doubleLimit : Nat := (Nat.pow 2 54 - 1) * Nat.pow 2 970

/-- A number of digits times a power of ten is too large for a double. -/
def isTooLarge (digits : List Char) (scale : Int) : Bool :=
  let digits := digits.dropWhile (· = '0')
  let places := scale + digits.length
  if digits.isEmpty ∨ places < 300 then false
  else if places > 310 then true
  else doubleLimit * Nat.pow 10 (-scale).toNat ≤ Json.digitsValue digits * Nat.pow 10 scale.toNat

/-- Reads the text of a number with a fraction or an exponent, which must not be too large for a double. -/
def fractional? : Option Token :=
  let mantissa := cs.takeWhile fun c => c ≠ 'e' ∧ c ≠ 'E'
  let exponent := (cs.dropWhile fun c => c ≠ 'e' ∧ c ≠ 'E').tail
  let fraction := (mantissa.dropWhile (· ≠ '.')).tail
  let scale := if exponent.isEmpty then 0 else (Json.decimal? exponent).getD 0
  if isDecimal cs ∧ ¬isTooLarge (mantissa.filter (· ≠ '.')) (scale - fraction.length) then some .number else none

/-- Reads a number in base ten. An integer of three characters or more does not start with zero. -/
def decimalNumber : Option (Token × List Char) :=
  let (text, rest) := numberText true cs
  let plain := withoutUnderscores text
  let body := withoutSign plain
  if ¬underscoresFit Char.isDigit text ∨ text.head? = some '_' ∨ (withoutSign text).head? = some '_' then none
  else if isDigits body then
    if plain.length ≥ 3 ∧ plain.head? = some '0' then none
    else do return (← wide (plain ≠ body) (← Json.decimal? plain), rest)
  else (fractional? body).map fun token => (token, rest)

/-- Reads a number; behind a zero, a letter marks the base. -/
def numberToken : List Char → Option (Token × List Char)
  | '0' :: 'x' :: cs => basedInteger 16 cs
  | '0' :: 'o' :: cs => basedInteger 8 cs
  | '0' :: 'b' :: cs => basedInteger 2 cs
  | '0' :: c :: cs => if c.isAlpha then none else decimalNumber ('0' :: c :: cs)
  | cs => decimalNumber cs

def faultAt : List Char → Fault
  | c :: _ => .unexpected c
  | [] => .malformed

def twoDigits : Except Fault (Nat × List Char) :=
  match cs.takeWhile Char.isDigit with
  | a :: b :: _ => .ok (Json.digitsValue [a, b], cs.drop 2)
  | _ => .error (faultAt (cs.dropWhile Char.isDigit))

def expect (c : Char) : List Char → Except Fault (List Char)
  | d :: cs => if d = c then .ok cs else .error (.unexpected d)
  | [] => .error .malformed

def hoursMinutes : Except Fault (Nat × Nat × List Char) := do
  let (hours, cs) ← twoDigits cs
  let (minutes, cs) ← twoDigits (← expect ':' cs)
  return (hours, minutes, cs)

def secondFraction : List Char → Except Fault (List Char)
  | '.' :: cs => if isDigits (cs.take 1) then .ok (cs.dropWhile Char.isDigit) else .error (faultAt cs)
  | cs => .ok cs

def timeOffset : List Char → Except Fault (List Token × List Char)
  | 'Z' :: cs => .ok ([.offset 0 0], cs)
  | c :: cs =>
    if c = '+' ∨ c = '-' then (hoursMinutes cs).map fun (hours, minutes, rest) => ([.offset hours minutes], rest)
    else .ok ([], c :: cs)
  | [] => .ok ([], [])

/-- Takes a time of day, with or without an offset, off a text. -/
def timeOfDay : Except Fault (List Token × List Char) := do
  let (hour, minute, cs) ← hoursMinutes cs
  let (second, cs) ← twoDigits (← expect ':' cs)
  let (offset, rest) ← timeOffset (← secondFraction cs)
  return (.time hour minute second :: offset, rest)

/-- Takes a date off a text, and a time of day that a `T` or a blank joins to it. Nothing else may stand directly
behind a date. -/
def date : Except Fault (List Token × List Char) := do
  let (century, cs) ← twoDigits cs
  let (year, cs) ← twoDigits cs
  let (month, cs) ← twoDigits (← expect '-' cs)
  let (day, cs) ← twoDigits (← expect '-' cs)
  let token := Token.date (century * 100 + year) month day
  let withTime (cs : List Char) : List Token × List Char :=
    match timeOfDay cs with
    | .ok (ts, rest) => (token :: ts, rest)
    | .error f => ([token, .broken f], [])
  match cs with
  | [] => return ([token], [])
  | 'T' :: rest => return withTime rest
  | ' ' :: rest => return if isDigits (rest.take 2) ∧ 2 ≤ rest.length then withTime rest else ([token], rest)
  | c :: _ => return ([token, .broken (.unexpected c)], [])

def digitTokens : Except Fault (List Token × List Char) :=
  let digits := cs.takeWhile Char.isDigit
  let next := (cs.drop digits.length).head?
  if digits.length = 2 ∧ next = some ':' then timeOfDay cs
  else if digits.length = 4 ∧ next = some '-' then date cs
  else (readable (numberToken cs)).map fun (token, rest) => ([token], rest)

/-- Reads the text of a key up to an equals sign or a blank that no dot follows; `fuel` bounds its parts. Quoted
parts lose their escapes and keep their quotes. -/
def keyText : Nat → List Char → Option (List Char × List Char)
  | 0, _ => none
  | _, [] => some ([], [])
  | fuel + 1, c :: cs =>
    if c = '=' then some ([], c :: cs)
    else if c = '"' then do
      let (part, rest) ← basicString ['"'] true false cs
      let (text, rest) ← keyText fuel rest
      return ('"' :: part ++ '"' :: text, rest)
    else if c = '\'' then do
      let (part, rest) ← literalString ['\''] cs
      let (text, rest) ← keyText fuel rest
      return ('\'' :: part ++ '\'' :: text, rest)
    else if isBlank c then
      match cs.dropWhile isBlank with
      | '.' :: rest => do
        let (text, after) ← keyText fuel (rest.dropWhile isBlank)
        return ('.' :: rest.takeWhile isBlank ++ text, after)
      | rest => some ([], rest)
    else if c = '.' ∨ isBare c then prepend c (keyText fuel cs)
    else none

/-- Reads the text of a table header up to its closing bracket. -/
def headerText : Option (List Char × List Char) :=
  let text := cs.takeWhile fun c => c ≠ ']' ∧ c ≠ '['
  match cs.drop text.length with
  | ']' :: rest => if text.isEmpty then none else some (text, rest)
  | _ => none

def afterComment : List Char := cs.dropWhile (· ≠ '\n')

structure Progress where
  tokens : List Token
  mode : Mode
  brackets : List Bracket
  rest : List Char

def closeBrace (brackets : List Bracket) (cs : List Char) : Except Fault Progress :=
  match brackets with
  | .curly :: outer => .ok ⟨[.rightBrace], .values, outer, cs⟩
  | _ => .error .malformed

def nameStep (brackets : List Bracket) : List Char → Except Fault Progress
  | [] => .error .malformed
  | '[' :: '[' :: cs => do
    let (text, rest) ← readable (headerText cs)
    return ⟨[.arrayHeader text], .names, brackets, ← expect ']' rest⟩
  | '[' :: cs => do
    let (text, rest) ← readable (headerText cs)
    return ⟨[.header text], .names, brackets, rest⟩
  | '#' :: cs => .ok ⟨[], .names, brackets, afterComment cs⟩
  | '=' :: cs => .ok ⟨[.equals], .values, brackets, cs⟩
  | c :: cs =>
    if c = '\x7d' then closeBrace brackets cs
    else if isBlank c ∨ isLineEnd c then .ok ⟨[], .names, brackets, cs⟩
    else do
      let (text, rest) ← readable (keyText (cs.length + 2) (c :: cs))
      return ⟨[.key text], .names, brackets, rest⟩

def words : List (String × Token) :=
  [("true", .boolean true), ("false", .boolean false), ("inf", .number), ("nan", .number), ("+inf", .number), ("-inf", .number),
    ("+nan", .number), ("-nan", .number)]

def valueStep (brackets : List Bracket) : List Char → Except Fault Progress
  | [] => .error .malformed
  | '[' :: cs => .ok ⟨[.leftBracket], .values, .square :: brackets, cs⟩
  | ']' :: cs =>
    match brackets with
    | .square :: outer => .ok ⟨[.rightBracket], .values, outer, cs⟩
    | _ => .error .malformed
  | '#' :: cs => .ok ⟨[], .values, brackets, afterComment cs⟩
  | ',' :: cs => .ok ⟨[.comma], if brackets.head? = some .curly then .names else .values, brackets, cs⟩
  | c :: cs =>
    if c = '\x7b' then .ok ⟨[.leftBrace], .names, .curly :: brackets, cs⟩
    else if c = '\x7d' then closeBrace brackets cs
    else if isLineEnd c then .ok ⟨[], if brackets.head? = some .square then .values else .names, brackets, cs⟩
    else if isBlank c then .ok ⟨[], .values, brackets, cs⟩
    else if c = '"' ∨ c = '\'' then do
      let (text, rest) ← readable (quotedString c cs)
      return ⟨[.string text], .values, brackets, rest⟩
    else match words.find? (·.1.toList.isPrefixOf (c :: cs)) with
      | some (word, token) => .ok ⟨[token], .values, brackets, (c :: cs).drop word.length⟩
      | none => do
        let (tokens, rest) ←
          if c.isDigit then digitTokens (c :: cs)
          else if c = '+' ∨ c = '-' then (readable (decimalNumber (c :: cs))).map fun (token, rest) => ([token], rest)
          else .error .malformed
        return ⟨tokens, .values, brackets, rest⟩

/-- The tokens of a text read in a mode; every step takes a character, so `fuel` need not pass their number. -/
def tokensFrom : Nat → Mode → List Bracket → List Char → List Token
  | _, _, _, [] => []
  | 0, _, _, _ => [.broken .malformed]
  | fuel + 1, mode, brackets, cs =>
    let step := match mode with
      | .names => nameStep brackets cs
      | .values => valueStep brackets cs
    match step with
    | .ok p => p.tokens ++ tokensFrom fuel p.mode p.brackets p.rest
    | .error f => [.broken f]

/-- The tokens of a text; a mark of byte order at its start is passed over. -/
def tokens (text : String) : List Token :=
  let cs := match text.toList with
    | '\ufeff' :: cs => cs
    | cs => cs
  tokensFrom cs.length .names [] cs

end HdlLowering.Toml
