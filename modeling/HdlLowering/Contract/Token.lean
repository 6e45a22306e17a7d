import HdlLowering.Contract.Scalar
import HdlLowering.Text.Blank
import HdlLowering.Text.Letter

/-!
# Words of the contract notation

The notation has JSON in it. Tokens are names, perhaps behind `_`, `#` or `_#`; numbers in several bases, with underscores
between digits and multiples such as `K` and `Ki`; texts and bytes in quotes, in three quotes over several lines, and between
number signs that its escapes then need too, with terms in parentheses behind a backslash; attributes behind `@`; operators,
brackets and marks.

A line end behind a value stands for a comma, unless a comma or a colon comes next. A mark of byte order may stand at the start
only, and the zero character nowhere.
-/

namespace HdlLowering.Contract

open Text

inductive Operator where
  | add | subtract | multiply | divide
  | euclidDiv | euclidMod | truncDiv | truncMod
  | not | conjoin | disjoin
  | equal | unequal | less | atMost | greater | atLeast | alike | unlike
  | meet | choose
  deriving DecidableEq

def Operator.strength : Operator → Option Nat
  | .choose => some 1
  | .meet => some 2
  | .disjoin => some 3
  | .conjoin => some 4
  | .equal | .unequal | .less | .atMost | .greater | .atLeast | .alike | .unlike => some 5
  | .add | .subtract => some 6
  | .multiply | .divide | .euclidDiv | .euclidMod | .truncDiv | .truncMod => some 7
  | .not => none

/-- The operator in front of one operand describes the values that are in its relation to the operand. -/
def Operator.isRelation : Operator → Bool
  | .less | .atMost | .greater | .atLeast | .equal | .unequal | .alike | .unlike => true
  | _ => false

def Operator.isUnary : Operator → Bool
  | .add | .subtract | .not | .multiply => true
  | o => o.isRelation

/-- A token. A comma is written or stands for a line end. `other` is a mark that has no place in any term. -/
inductive Token where
  | openBrace | closeBrace | openBracket | closeBracket | openParen | closeParen
  | colon | comma (written : Bool) | dot | ellipsis | question | equals | bottom
  | operator (o : Operator)
  | scalar (s : Scalar)
  | template (bytes : Bool) (pieces : List Scalar) (terms : List (List Token))
  | word (w : String)
  | attribute
  | other

/-- Whether a line end after a token stands for a comma. -/
def Token.endsEntry : Token → Bool
  | .closeBrace | .closeBracket | .closeParen | .ellipsis | .question | .bottom | .scalar _ | .template .. | .word _
  | .attribute => true
  | _ => false

/-! ### Numbers -/

/-- The value of a digit, where an underscore counts as zero. -/
def digit? (c : Char) : Option Nat := if c = '_' then some 0 else hexValue? c

/-- No underscore stands at the end or next to another one. -/
def underscoresFit : List Char → Bool
  | [] => true
  | ['_'] => false
  | '_' :: '_' :: _ => false
  | _ :: cs => underscoresFit cs

def digits (base : Nat) (cs : List Char) : Option (List Char × List Char) :=
  let admits (c : Char) : Bool := (digit? c).any (· < base)
  let run := cs.takeWhile admits
  if underscoresFit run then some (run.filter (· ≠ '_'), cs.dropWhile admits) else none

def digitsValue (base : Nat) (ds : List Char) : Nat := ds.foldl (fun n d => n * base + (digit? d).getD 0) 0

def basedNumber (base : Nat) (cs : List Char) : Option (Scalar × List Char) := do
  let (ds, rest) ← digits base cs
  if ds.isEmpty then none else return (.whole (digitsValue base ds), rest)

def multiple? (c : Char) : Option Nat :=
  match c with
  | 'K' => some 1
  | 'M' => some 2
  | 'G' => some 3
  | 'T' => some 4
  | 'P' => some 5
  | _ => none

def maxExponent : Nat := 100000

/-- Reads a multiple or an exponent behind the digits of a number in base ten, which is given by its digits and how many stand
behind the point. -/
def scaled (ds : List Char) (places : Option Nat) (cs : List Char) : Option (Scalar × List Char) :=
  let value := digitsValue 10 ds
  let unit := Nat.pow 10 (places.getD 0)
  let plain : Scalar := match places with
    | some n => .fraction ⟨value, -n⟩
    | none => .whole value
  match cs with
  | [] => some (plain, [])
  | c :: rest =>
    match multiple? c with
    | some power =>
      let (factor, rest) := match rest with
        | 'i' :: rest => (Nat.pow 1024 power, rest)
        | rest => (Nat.pow 1000 power, rest)
      if value * factor % unit = 0 then some (.whole (value * factor / unit : Nat), rest) else none
    | none =>
      if c = 'e' ∨ c = 'E' then do
        let negative := rest.head? = some '-'
        let rest := if negative ∨ rest.head? = some '+' then rest.tail else rest
        let (es, rest) ← digits 10 rest
        let e := digitsValue 10 es
        if es.isEmpty ∨ maxExponent < e then none
        else return (.fraction ⟨value, (if negative then -(e : Int) else e) - (places.getD 0 : Nat)⟩, rest)
      else some (plain, c :: rest)

def fractional (ds : List Char) : List Char → Option (Scalar × List Char)
  | '.' :: cs => do
    let (fs, rest) ← digits 10 cs
    scaled (ds ++ fs) (some fs.length) rest
  | cs => scaled ds none cs

/-- Reads a number, which starts with a digit. A zero is followed by no digit and no multiple, unless a point or an
exponent comes before them. -/
def number : List Char → Option (Scalar × List Char)
  | '0' :: c :: cs =>
    if c = 'x' ∨ c = 'X' then basedNumber 16 cs
    else if c = 'o' then basedNumber 8 cs
    else if c = 'b' then basedNumber 2 cs
    else do
      let (ds, rest) ← if c.isDigit then digits 10 (c :: cs) else some ([], c :: cs)
      let more := rest.head? = some '.' ∨ rest.head? = some 'e' ∨ rest.head? = some 'E'
      if more then fractional ('0' :: ds) rest
      else if ds.isEmpty then return (.whole 0, rest)
      else none
  | cs => do
    let (ds, rest) ← digits 10 cs
    fractional ds rest

/-! ### Texts and bytes -/

/-- What a text is made of between its quotes: characters as they are written, codes and bytes from escapes, and line
ends that an escape leaves out. -/
inductive TextUnit where
  | char (c : Char)
  | code (n : Nat)
  | byte (n : Nat)
  | joined
  deriving DecidableEq

def hexCode (count : Nat) (cs : List Char) : Option (Nat × List Char) :=
  if cs.length < count then none else (hexNumber? (cs.take count)).map (·, cs.drop count)

def escapes : List (Char × Nat) :=
  [('a', 7), ('b', 8), ('f', 12), ('n', 10), ('r', 13), ('t', 9), ('v', 11), ('/', 47), ('\\', 92)]

def escapeUnit (quote : Char) (lines : Bool) : List Char → Option (TextUnit × List Char)
  | [] => none
  | c :: cs =>
    match escapes.lookup c with
    | some code => some (.code code, cs)
    | none =>
      if c = quote then some (.code c.toNat, cs)
      else if c = '\n' then if lines then some (.joined, cs) else none
      else if c = 'u' then (hexCode 4 cs).map fun (n, rest) => (.code n, rest)
      else if c = 'U' then (hexCode 8 cs).bind fun (n, rest) => if n ≤ 0x10ffff then some (.code n, rest) else none
      else if quote = '"' then none
      else if c = 'x' then (hexCode 2 cs).map fun (n, rest) => (.byte n, rest)
      else if '0' ≤ c ∧ c ≤ '7' then
        let ds := c :: cs.take 2
        let code := digitsValue 8 ds
        if ds.length = 3 ∧ ds.all (fun d => '0' ≤ d ∧ d ≤ '7') ∧ code < 256 then some (.byte code, cs.drop 2) else none
      else none

def addUnit (u : TextUnit) : List (List TextUnit) → List (List TextUnit)
  | [] => [[u]]
  | piece :: pieces => (u :: piece) :: pieces

/-- The indentation of the lines of a text, which is that of its last line. -/
def indentation (last : List TextUnit) : List Char :=
  let blank? : TextUnit → Option Char
    | .char c => if c ≠ '\n' ∧ Text.isBlank c then some c else none
    | _ => none
  ((last.reverse.map blank?).takeWhile Option.isSome).reverse.reduceOption

/-- What follows the indentation at the start of a line; a line without content needs none. -/
def withoutIndentation (blanks : List Char) (us : List TextUnit) : Option (List TextUnit) :=
  let front := blanks.map TextUnit.char
  if front.isPrefixOf us then some (us.drop front.length)
  else if us.head? = some (.char '\n') then some us
  else none

/-- A piece of a text over several lines without indentation. `start` says that it starts a line, and `final` that the closing
quotes follow. The fuel bounds its length. -/
def unindented (blanks : List Char) (final : Bool) : Nat → Bool → List TextUnit → Option (List TextUnit)
  | 0, _, _ => none
  | fuel + 1, true, us => do unindented blanks final fuel false (← withoutIndentation blanks us)
  | _, false, [] => some []
  | fuel + 1, false, .joined :: us => do
    let us ← withoutIndentation blanks us
    if final ∧ us.isEmpty then none else unindented blanks final fuel false us
  | fuel + 1, false, .char '\n' :: us => do
    let us ← withoutIndentation blanks us
    if final ∧ us.isEmpty then return [] else (unindented blanks final fuel false us).map (.char '\n' :: ·)
  | fuel + 1, false, u :: us => (unindented blanks final fuel false us).map (u :: ·)

def unindentedRest (blanks : List Char) : List (List TextUnit) → Option (List (List TextUnit))
  | [] => some []
  | [last] => (unindented blanks true (2 * last.length + 2) false last).map ([·])
  | piece :: pieces => do
    return (← unindented blanks false (2 * piece.length + 2) false piece) :: (← unindentedRest blanks pieces)

/-- The pieces of a text over several lines without indentation, behind the line end of the opening quotes. -/
def unindentedPieces (pieces : List (List TextUnit)) : Option (List (List TextUnit)) :=
  let blanks := indentation (pieces.getLastD [])
  match pieces with
  | [] => none
  | [only] =>
    if only = blanks.map TextUnit.char then some [[]] else (unindented blanks true (2 * only.length + 2) true only).map ([·])
  | first :: rest => do
    return (← unindented blanks false (2 * first.length + 2) true first) :: (← unindentedRest blanks rest)

/-- The characters and bytes of some units, where two halves of a surrogate pair are one character and a half alone is
none. -/
def unitParts : List TextUnit → Option (List (Char ⊕ UInt8))
  | [] => some []
  | .char c :: us => (unitParts us).map (.inl c :: ·)
  | .byte n :: us => (unitParts us).map (.inr n.toUInt8 :: ·)
  | .joined :: us => unitParts us
  | .code high :: .code low :: us =>
    if 0xd800 ≤ high ∧ high < 0xdc00 then
      if 0xdc00 ≤ low ∧ low < 0xe000 then
        (unitParts us).map (.inl (Char.ofNat (0x10000 + (high - 0xd800) * 0x400 + (low - 0xdc00))) :: ·)
      else none
    else if high.isValidChar then (unitParts (.code low :: us)).map (.inl (Char.ofNat high) :: ·)
    else none
  | .code n :: us => if n.isValidChar then (unitParts us).map (.inl (Char.ofNat n) :: ·) else none

def quotedScalar (quote : Char) (us : List TextUnit) : Option Scalar := do
  let parts ← unitParts us
  if quote = '"' then return .text (String.ofList (← parts.mapM Sum.getLeft?))
  else return .bytes (parts.flatMap fun
    | .inl c => c.toString.toUTF8.toList
    | .inr b => [b])

/-! ### Tokens -/

def isNameChar (c : Char) : Bool := isLetter c || isDecimalDigit c || c == '_' || c == '$'

/-- Takes a name off a text: perhaps an underscore, perhaps a number sign that no digit follows, and what is left
of it. -/
def nameToken (cs : List Char) : Token × List Char :=
  let (mark, rest) := match cs with
    | '_' :: '#' :: rest => ("_#", rest)
    | '_' :: rest => ("_", rest)
    | '#' :: rest => ("#", rest)
    | rest => ("", rest)
  if mark.endsWith "#" ∧ (rest.head?).any isDecimalDigit then (.word mark, rest)
  else (.word (mark ++ String.ofList (rest.takeWhile isNameChar)), rest.dropWhile isNameChar)

/-- The marks and operators, longer ones before those that start alike. -/
def marks : List (String × Token) :=
  [("...", .ellipsis), ("_|_", .bottom), ("&&", .operator .conjoin), ("||", .operator .disjoin),
    ("==", .operator .equal), ("!=", .operator .unequal), ("<=", .operator .atMost),
    (">=", .operator .atLeast), ("=~", .operator .alike), ("!~", .operator .unlike),
    ("::", .other), ("->", .other), ("~", .other), (";", .other),
    ("\x7b", .openBrace), ("\x7d", .closeBrace), ("[", .openBracket), ("]", .closeBracket), ("(", .openParen),
    (")", .closeParen), (":", .colon), (",", .comma true), (".", .dot), ("?", .question), ("=", .equals),
    ("+", .operator .add), ("-", .operator .subtract), ("*", .operator .multiply), ("/", .operator .divide),
    ("!", .operator .not), ("<", .operator .less), (">", .operator .greater), ("&", .operator .meet),
    ("|", .operator .choose)]

def markToken? (cs : List Char) : Option (Token × List Char) :=
  (marks.find? (·.1.toList.isPrefixOf cs)).map fun (m, t) => (t, cs.drop m.length)

def isBlank (c : Char) : Bool := c = ' ' ∨ c = '\t' ∨ c = '\r' ∨ c = '\n'

def closer? : Token → Option Token
  | .openParen => some .closeParen
  | .openBracket => some .closeBracket
  | .openBrace => some .closeBrace
  | _ => none

def closes : Token → Token → Bool
  | .closeParen, .closeParen | .closeBracket, .closeBracket | .closeBrace, .closeBrace => true
  | _, _ => false

def isCloser (t : Token) : Bool := closes t .closeParen || closes t .closeBracket || closes t .closeBrace

mutual
/-- Takes a token off a text that starts with no blank. The fuel bounds the number of characters. -/
def nextToken? (fuel : Nat) (cs : List Char) : Option (Token × List Char) :=
  let hashes := cs.takeWhile (· = '#')
  let scalar := fun (s, rest) => (Token.scalar s, rest)
  match fuel, cs, cs.drop hashes.length with
  | 0, _, _ => none
  | fuel + 1, _, quote :: rest =>
    if quote = '"' ∨ quote = '\'' then
      let three := [quote, quote].isPrefixOf rest
      let rest := if three then (rest.drop 2).dropWhile (· = '\r') else rest
      if three ∧ rest.head? ≠ some '\n' then none
      else do
        let closing := (if three then [quote, quote, quote] else [quote]) ++ hashes
        let (pieces, terms, rest) ← quotedParts fuel quote three closing ('\\' :: hashes) (if three then rest.tail else rest)
        let pieces ← if three then unindentedPieces pieces else some pieces
        let texts ← pieces.mapM (quotedScalar quote)
        match texts, terms with
        | [s], [] => return (.scalar s, rest)
        | texts, terms => return (.template (quote = '\'') texts terms, rest)
    else match cs with
      | '#' :: _ => if hashes.length = 1 then some (nameToken cs) else none
      | '@' :: rest => do
        match (rest.dropWhile isNameChar).dropWhile fun c => c = ' ' ∨ c = '\t' ∨ c = '\r' with
        | '(' :: rest => return (.attribute, ← attributeEnd fuel [.closeParen] rest)
        | _ => none
      | '.' :: c :: _ => if c.isDigit then (fractional [] cs).map scalar else markToken? cs
      | c :: _ =>
        if c.isDigit then (number cs).map scalar
        else if ['_', '|'].isPrefixOf cs then if "_|_".toList.isPrefixOf cs then some (.bottom, cs.drop 3) else none
        else if c = '_' ∨ c = '$' ∨ Text.isLetter c then some (nameToken cs)
        else markToken? cs
      | [] => none
  | _, _, [] => if hashes.length = 1 then some (nameToken cs) else none

/-- Reads a text up to its closing quote: its pieces, and the tokens of the terms between them. -/
def quotedParts (fuel : Nat) (quote : Char) (lines : Bool) (closing escape cs : List Char) :
    Option (List (List TextUnit) × List (List Token) × List Char) :=
  match fuel with
  | 0 => none
  | fuel + 1 =>
    if closing.isPrefixOf cs then some ([[]], [], cs.drop closing.length)
    else if escape.isPrefixOf cs then
      match cs.drop escape.length with
      | '(' :: inside => do
        let (ts, rest) ← tokensFrom fuel (some 0) false inside
        let (pieces, terms, rest) ← quotedParts fuel quote lines closing escape rest
        return ([] :: pieces, ts :: terms, rest)
      | behind => do
        let (u, rest) ← escapeUnit quote lines behind
        let (pieces, terms, rest) ← quotedParts fuel quote lines closing escape rest
        return (addUnit u pieces, terms, rest)
    else match cs with
      | [] => none
      | c :: rest =>
        if ¬lines ∧ (c = '\n' ∨ c = '\r') then none
        else do
          let (pieces, terms, rest) ← quotedParts fuel quote lines closing escape rest
          return (if c = '\r' then pieces else addUnit (.char c) pieces, terms, rest)

/-- The tokens of a text up to its end, or up to the parenthesis that closes it inside so many open ones. `pending`
says that a line end stands for a comma. -/
def tokensFrom (fuel : Nat) (depth : Option Nat) (pending : Bool) (cs : List Char) : Option (List Token × List Char) :=
  match fuel, cs with
  | _, [] => if depth.isSome then none else some (if pending then [.comma false] else [], [])
  | 0, _ => none
  | fuel + 1, c :: cs =>
    if c = '\n' ∧ pending then
      let next := (cs.dropWhile isBlank).head?
      if next = some ',' ∨ next = some ':' then tokensFrom fuel depth false cs
      else (tokensFrom fuel depth false cs).map fun (ts, rest) => (.comma false :: ts, rest)
    else if isBlank c then tokensFrom fuel depth pending cs
    else if "//".toList.isPrefixOf (c :: cs) then
      let rest := (cs.dropWhile (· ≠ '\n')).drop 1
      if pending then (tokensFrom fuel depth false rest).map fun (ts, rest) => (.comma false :: ts, rest)
      else tokensFrom fuel depth false rest
    else do
      let (t, rest) ← nextToken? fuel (c :: cs)
      match t, depth with
      | .closeParen, some 0 => return ([], rest)
      | t, depth =>
        let depth := match t with
          | .openParen => depth.map (· + 1)
          | .closeParen => depth.map (· - 1)
          | _ => depth
        let (ts, rest) ← tokensFrom fuel depth t.endsEntry rest
        return (t :: ts, rest)

/-- What follows the brackets that are open in an attribute, the innermost first. -/
def attributeEnd (fuel : Nat) (opened : List Token) (cs : List Char) : Option (List Char) :=
  match fuel, opened, cs with
  | _, [], cs => some cs
  | 0, _, _ | _, _, [] => none
  | fuel + 1, innermost :: outer, c :: rest =>
    if isBlank c then attributeEnd fuel (innermost :: outer) rest
    else if "//".toList.isPrefixOf (c :: rest) then
      attributeEnd fuel (innermost :: outer) (rest.dropWhile (· ≠ '\n'))
    else do
      let (t, rest) ← nextToken? fuel (c :: rest)
      match t, closer? t with
      | .template .., _ => none
      | _, some closing => attributeEnd fuel (closing :: innermost :: outer) rest
      | t, none =>
        if closes t innermost then attributeEnd fuel outer rest
        else if isCloser t then none
        else attributeEnd fuel (innermost :: outer) rest
end

def tokens (text : String) : Option (List Token) :=
  let cs := match text.toList with
    | '\ufeff' :: cs => cs
    | cs => cs
  if cs.any fun c => c = '\ufeff' ∨ c = '\x00' then none
  else (tokensFrom (2 * cs.length + 2) none false cs).map (·.1)

end HdlLowering.Contract
