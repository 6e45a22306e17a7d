import HdlLowering.Text.Blank
import HdlLowering.Text.Letter

/-!
# Regular expressions

`Regex.parse` reads an expression, and `Regex.ends` gives the places where a match that starts at a place may end, those that
are preferred first. Repetitions prefer more to less, unless a question mark says otherwise, and choices what stands first.

The marks of a group `(?i)` hold up to its end: letters of both cases (`i`), anchors at the ends of lines (`m`), dots for line
ends (`s`), and repetitions that prefer less (`U`).
-/

namespace HdlLowering.Text

inductive Anchor where
  | textStart | textEnd | lineStart | lineEnd | wordBoundary | noWordBoundary
  deriving DecidableEq

/-- Ranges of codes, first and last included. -/
abbrev Ranges := List (Nat × Nat)

/-- A regular expression. A class is given by ranges of codes. -/
inductive Regex where
  | empty
  | chars (negated : Bool) (ranges : Ranges)
  | anchor (a : Anchor)
  | sequence (first second : Regex)
  | choice (first second : Regex)
  | star (greedy : Bool) (body : Regex)
  | group (number : Nat) (body : Regex)

namespace Regex

/-! ### Matching -/

def isWordChar (c : Char) : Bool := c.isAlphanum || c == '_'

def Anchor.holds (text : Array Char) (place : Nat) : Anchor → Bool
  | .textStart => place == 0
  | .textEnd => place == text.size
  | .lineStart => place == 0 || text[place - 1]? == some '\n'
  | .lineEnd => place == text.size || text[place]? == some '\n'
  | .wordBoundary => (place != 0 && (text[place - 1]?).any isWordChar) != (text[place]?).any isWordChar
  | .noWordBoundary => (place != 0 && (text[place - 1]?).any isWordChar) == (text[place]?).any isWordChar

def inClass (negated : Bool) (ranges : Ranges) (c : Char) : Bool :=
  (ranges.any fun (lo, hi) => lo ≤ c.toNat && c.toNat ≤ hi) != negated

/-- The places that repeated steps lead to, the preferred ones first; places that were reached are left out, and
the fuel bounds the number of steps. -/
def repeated (step : Nat → List Nat) (greedy : Bool) : Nat → List Nat → Nat → List Nat
  | 0, _, _ => []
  | fuel + 1, reached, place =>
    if reached.contains place then []
    else
      let further := (step place).foldl
        (fun found next => found ++ repeated step greedy fuel (place :: reached ++ found) next) []
      if greedy then further ++ [place] else place :: further

/-- The places where a match that starts at a place may end, the preferred ones first. -/
def ends (text : Array Char) : Regex → Nat → List Nat
  | .empty, place => [place]
  | .chars negated ranges, place =>
    match text[place]? with
    | some c => if inClass negated ranges c then [place + 1] else []
    | none => []
  | .anchor a, place => if Anchor.holds text place a then [place] else []
  | .sequence a b, place => ((ends text a place).flatMap (ends text b)).eraseDups
  | .choice a b, place => (ends text a place ++ ends text b place).eraseDups
  | .star greedy body, place => (repeated (ends text body) greedy (text.size + 2) [] place).eraseDups
  | .group _ body, place => ends text body place

/-- The first match in a text from a place on: where it starts and ends. -/
def find? (r : Regex) (text : Array Char) (start : Nat) : Option (Nat × Nat) :=
  (List.range' start (text.size + 1 - start)).findSome? fun place =>
    ((r.ends text place).head?).map fun stop => (place, stop)

def accepts (r : Regex) (text : String) : Bool := (r.find? text.toList.toArray 0).isSome

/-! ### Reading -/

structure Marks where
  caseless : Bool := false
  lines : Bool := false
  dotAll : Bool := false
  lazy : Bool := false

/-- The ranges of the other case of the letters in a range. -/
def otherCase : Nat × Nat → Ranges
  | (lo, hi) =>
    let shifted (first last : Nat) (shift : Int) : Ranges :=
      let l := max lo first
      let h := min hi last
      if l ≤ h then [(((l : Int) + shift).toNat, ((h : Int) + shift).toNat)] else []
    let holds (c : Char) : Bool := lo ≤ c.toNat && c.toNat ≤ hi
    shifted 0x41 0x5a 32 ++ shifted 0x61 0x7a (-32) ++
      (if holds 'k' || holds 'K' then [(0x212a, 0x212a)] else []) ++
      (if holds 's' || holds 'S' then [(0x17f, 0x17f)] else []) ++
      (if lo ≤ 0x212a && 0x212a ≤ hi then [(0x4b, 0x4b), (0x6b, 0x6b)] else []) ++
      (if lo ≤ 0x17f && 0x17f ≤ hi then [(0x53, 0x53), (0x73, 0x73)] else [])

/-- Ranges with the other case of their letters, where case does not count. -/
def folded (m : Marks) (ranges : Ranges) : Ranges :=
  if m.caseless then ranges ++ ranges.flatMap otherCase else ranges

def literal (m : Marks) (c : Char) : Regex := .chars false (folded m [(c.toNat, c.toNat)])

/-- What is not in some ranges, which are given in ascending order from a code on. -/
def complementFrom (next : Nat) : Ranges → Ranges
  | [] => if next ≤ 0x10ffff then [(next, 0x10ffff)] else []
  | (lo, hi) :: rest => (if next < lo then [(next, lo - 1)] else []) ++ complementFrom (max next (hi + 1)) rest

def complement (ranges : Ranges) : Ranges :=
  complementFrom 0 (ranges.mergeSort fun a b => a.1 ≤ b.1)

def complementIf (negated : Bool) (ranges : Ranges) : Ranges := if negated then complement ranges else ranges

def digitClass : Ranges := [(0x30, 0x39)]

def blankClass : Ranges := [(0x9, 0xa), (0xc, 0xd), (0x20, 0x20)]

def wordClass : Ranges := [(0x30, 0x39), (0x41, 0x5a), (0x5f, 0x5f), (0x61, 0x7a)]

def letterClass? (c : Char) : Option (Ranges) :=
  match c with
  | 'd' => some digitClass
  | 'D' => some (complement digitClass)
  | 's' => some blankClass
  | 'S' => some (complement blankClass)
  | 'w' => some wordClass
  | 'W' => some (complement wordClass)
  | _ => none

def namedClasses : List (String × Ranges) :=
  [("alnum", [(0x30, 0x39), (0x41, 0x5a), (0x61, 0x7a)]), ("alpha", [(0x41, 0x5a), (0x61, 0x7a)]), ("ascii", [(0, 0x7f)]),
    ("blank", [(0x9, 0x9), (0x20, 0x20)]), ("cntrl", [(0, 0x1f), (0x7f, 0x7f)]), ("digit", digitClass), ("graph", [(0x21, 0x7e)]),
    ("lower", [(0x61, 0x7a)]), ("print", [(0x20, 0x7e)]), ("punct", [(0x21, 0x2f), (0x3a, 0x40), (0x5b, 0x60), (0x7b, 0x7e)]),
    ("space", [(0x9, 0xd), (0x20, 0x20)]), ("upper", [(0x41, 0x5a)]), ("word", wordClass),
    ("xdigit", [(0x30, 0x39), (0x41, 0x46), (0x61, 0x66)])]

def properties : List (String × Ranges) :=
  let letters := [(0x41, 0x5a), (0x61, 0x7a)] ++ letterRanges
  let digits := digitClass ++ digitRanges
  [("Any", [(0, 0x10ffff)]), ("L", letters), ("Letter", letters), ("N", digits), ("Nd", digits), ("Lu", [(0x41, 0x5a)]),
    ("Ll", [(0x61, 0x7a)]), ("Greek", [(0x370, 0x3ff), (0x1f00, 0x1fff)]), ("Cyrillic", [(0x400, 0x52f)]),
    ("Han", [(0x2e80, 0x2fd5), (0x3005, 0x3007), (0x3021, 0x3029), (0x3400, 0x4dbf), (0x4e00, 0x9fff)]),
    ("Latin", [(0x41, 0x5a), (0x61, 0x7a), (0xaa, 0xaa), (0xba, 0xba), (0xc0, 0xd6), (0xd8, 0xf6), (0xf8, 0x2b8)]),
    ("P", [(0x21, 0x23), (0x25, 0x2a), (0x2c, 0x2f), (0x3a, 0x3b), (0x3f, 0x40), (0x5b, 0x5d), (0x5f, 0x5f), (0x7b, 0x7b),
      (0x7d, 0x7d)]),
    ("S", [(0x24, 0x24), (0x2b, 0x2b), (0x3c, 0x3e), (0x5e, 0x5e), (0x60, 0x60), (0x7c, 0x7c), (0x7e, 0x7e)]),
    ("Z", [(0x20, 0x20), (0xa0, 0xa0), (0x2000, 0x200a), (0x2028, 0x2029), (0x3000, 0x3000)])]

def property? (negated : Bool) : List Char → Option (Ranges × List Char)
  | '\x7b' :: cs =>
    let (negated, cs) := match cs with
      | '^' :: cs => (!negated, cs)
      | cs => (negated, cs)
    let name := cs.takeWhile (· ≠ '\x7d')
    match cs.drop name.length, properties.lookup (String.ofList name) with
    | '\x7d' :: rest, some ranges => some (complementIf negated ranges, rest)
    | _, _ => none
  | c :: rest => (properties.lookup (String.ofList [c])).map fun ranges => (complementIf negated ranges, rest)
  | [] => none

def isOctal (c : Char) : Bool := '0' ≤ c && c ≤ '7'

/-- Reads the character that an escape stands for, behind its backslash. -/
def escaped? : List Char → Option (Char × List Char)
  | [] => none
  | c :: cs =>
    if '1' ≤ c ∧ c ≤ '7' ∧ ¬(cs.head?).any isOctal then none
    else if isOctal c then
      let more := (cs.take 2).takeWhile isOctal
      let code := (c :: more).foldl (fun n d => n * 8 + (d.toNat - '0'.toNat)) 0
      some (Char.ofNat code, cs.drop more.length)
    else match c with
      | 'x' =>
        match cs with
        | '\x7b' :: cs =>
          let ds := cs.takeWhile (· ≠ '\x7d')
          match hexNumber? ds, cs.drop ds.length with
          | some code, '\x7d' :: rest => if ds.isEmpty ∨ 0x10ffff < code then none else some (Char.ofNat code, rest)
          | _, _ => none
        | a :: b :: rest => (hexNumber? [a, b]).map fun code => (Char.ofNat code, rest)
        | _ => none
      | 'a' => some ('\x07', cs)
      | 'f' => some ('\x0c', cs)
      | 'n' => some ('\n', cs)
      | 'r' => some ('\r', cs)
      | 't' => some ('\t', cs)
      | 'v' => some ('\x0b', cs)
      | _ => if c.toNat < 0x80 ∧ ¬c.isAlphanum then some (c, cs) else none

/-- Reads a class between colons behind its opening bracket. -/
def namedClass? : List Char → Option (Option (Ranges) × List Char)
  | ':' :: cs =>
    let (negated, name) := match cs with
      | '^' :: cs => (true, cs.takeWhile (· ≠ ':'))
      | cs => (false, cs.takeWhile (· ≠ ':'))
    match cs.drop (name.length + if negated then 1 else 0) with
    | ':' :: ']' :: rest =>
      some ((namedClasses.lookup (String.ofList name)).map (complementIf negated), rest)
    | _ => none
  | _ => none

/-- Reads the items of a class up to its closing bracket; the fuel bounds their number. -/
def classItems (m : Marks) : Nat → Bool → List Char → Option (Ranges × List Char)
  | 0, _, _ => none
  | _, _, [] => none
  | fuel + 1, first, c :: cs =>
    if c = ']' ∧ ¬first then some ([], cs)
    else
      let goOn (ranges : Ranges) (rest : List Char) : Option (Ranges × List Char) :=
        (classItems m fuel false rest).map fun (more, rest) => (ranges ++ more, rest)
      let single (cs : List Char) : Option (Char × List Char) :=
        match cs with
        | '\\' :: cs => escaped? cs
        | c :: cs => some (c, cs)
        | [] => none
      let range (cs : List Char) : Option (Ranges × List Char) := do
        let (lo, rest) ← single cs
        match rest with
        | '-' :: ']' :: _ => goOn (folded m [(lo.toNat, lo.toNat)]) rest
        | '-' :: rest =>
          let (hi, rest) ← single rest
          if hi < lo then none else goOn (folded m [(lo.toNat, hi.toNat)]) rest
        | rest => goOn (folded m [(lo.toNat, lo.toNat)]) rest
      match c, cs with
        | '[', cs' =>
          match namedClass? cs' with
          | some (some ranges, rest) => goOn (folded m ranges) rest
          | some (none, _) => none
          | none => range (c :: cs)
        | '\\', k :: rest =>
          match letterClass? k with
          | some ranges => goOn (folded m ranges) rest
          | none =>
            if k = 'p' ∨ k = 'P' then (property? (k = 'P') rest).bind fun (ranges, rest) => goOn (folded m ranges) rest
            else range (c :: cs)
        | _, _ => range (c :: cs)

def class? (m : Marks) (cs : List Char) : Option (Regex × List Char) :=
  let (negated, cs) := match cs with
    | '^' :: cs => (true, cs)
    | cs => (false, cs)
  (classItems m (cs.length + 1) true cs).map fun (ranges, rest) => (.chars negated ranges, rest)

def maxCount : Nat := 1000

/-- The value of a run of digits, where a longer run than one digit does not start with zero. -/
def count? (ds : List Char) : Option Nat :=
  if ds.isEmpty ∨ (ds.length > 1 ∧ ds.head? = some '0') then none
  else some (ds.foldl (fun n d => n * 10 + (d.toNat - '0'.toNat)) 0)

def bounds? (cs : List Char) : Option (Nat × Option Nat × List Char) := do
  let ds := cs.takeWhile Char.isDigit
  let least ← count? ds
  match cs.drop ds.length with
  | '\x7d' :: rest => return (least, some least, rest)
  | ',' :: '\x7d' :: rest => return (least, none, rest)
  | ',' :: rest =>
    let es := rest.takeWhile Char.isDigit
    let most ← count? es
    match rest.drop es.length with
    | '\x7d' :: rest => return (least, some most, rest)
    | _ => none
  | _ => none

def upTo (greedy : Bool) (r : Regex) : Nat → Regex
  | 0 => .empty
  | n + 1 =>
    let some_ := Regex.sequence r (upTo greedy r n)
    if greedy then .choice some_ .empty else .choice .empty some_

def times (r : Regex) : Nat → Regex
  | 0 => .empty
  | 1 => r
  | n + 1 => .sequence r (times r n)

def bounded (greedy : Bool) (r : Regex) (least : Nat) : Option Nat → Regex
  | none => .sequence (times r least) (.star greedy r)
  | some most => .sequence (times r least) (upTo greedy r (most - least))

/-- Reads what says how often something is repeated: `none` if nothing does. -/
def repetition? (m : Marks) (r : Regex) (cs : List Char) : Option (Option (Regex × List Char)) :=
  let done (build : Bool → Regex) (rest : List Char) : Option (Option (Regex × List Char)) :=
    match rest with
    | '?' :: rest => some (some (build m.lazy, rest))
    | rest => some (some (build (!m.lazy), rest))
  match cs with
  | '*' :: rest => done (fun greedy => .star greedy r) rest
  | '+' :: rest => done (fun greedy => .sequence r (.star greedy r)) rest
  | '?' :: rest => done (fun greedy => upTo greedy r 1) rest
  | '\x7b' :: rest =>
    match bounds? rest with
    | some (least, most, rest) =>
      if maxCount < least ∨ (most.any fun n => n < least ∨ maxCount < n) then none
      else done (fun greedy => bounded greedy r least most) rest
    | none => some none
  | _ => some none

/-- Reads the marks of a group behind its question mark, up to the colon or parenthesis that ends them. -/
def groupMarks (negated given : Bool) (m : Marks) : List Char → Option (Marks × Bool × List Char)
  | 'i' :: cs => groupMarks negated true { m with caseless := !negated } cs
  | 'm' :: cs => groupMarks negated true { m with lines := !negated } cs
  | 's' :: cs => groupMarks negated true { m with dotAll := !negated } cs
  | 'U' :: cs => groupMarks negated true { m with lazy := !negated } cs
  | '-' :: cs => if negated then none else groupMarks true false m cs
  | ':' :: cs => if negated ∧ ¬given then none else some (m, true, cs)
  | ')' :: cs => if negated ∧ ¬given then none else some (m, false, cs)
  | _ => none

def groupName? (cs : List Char) : Option (List Char) :=
  let name := cs.takeWhile (· ≠ '>')
  if name.isEmpty ∨ ¬name.all isWordChar then none
  else match cs.drop name.length with
    | '>' :: rest => some rest
    | _ => none

inductive Goal where
  | choice
  | sequence (read : Regex)

/-- Reads a choice, or a sequence behind what was read of it, up to a closing parenthesis or the end. Gives the expression, the
marks at its end, the number of groups and what follows. -/
def read : Nat → Goal → Marks → Nat → List Char → Option (Regex × Marks × Nat × List Char)
  | 0, _, _, _, _ => none
  | fuel + 1, .choice, m, groups, cs => do
    let (first, m, groups, rest) ← read fuel (.sequence .empty) m groups cs
    match rest with
    | '|' :: rest =>
      let (second, m, groups, rest) ← read fuel .choice m groups rest
      return (.choice first second, m, groups, rest)
    | rest => return (first, m, groups, rest)
  | fuel + 1, .sequence before, m, groups, cs =>
    let goOn (r : Regex) (groups : Nat) (rest : List Char) : Option (Regex × Marks × Nat × List Char) := do
      match ← repetition? m r rest with
      | some (r, rest) =>
        match ← repetition? m r rest with
        | some _ => none
        | none => read fuel (.sequence (.sequence before r)) m groups rest
      | none => read fuel (.sequence (.sequence before r)) m groups rest
    let enclosed (m : Marks) (numbered : Bool) (rest : List Char) : Option (Regex × Marks × Nat × List Char) := do
      let number := groups + numbered.toNat
      match ← read fuel .choice m number rest with
      | (r, _, groups, ')' :: rest) => goOn (if numbered then .group number r else r) groups rest
      | _ => none
    match cs with
    | [] => some (before, m, groups, [])
    | '|' :: _ | ')' :: _ => some (before, m, groups, cs)
    | '*' :: _ | '+' :: _ | '?' :: _ => none
    | '(' :: '?' :: 'P' :: '<' :: rest | '(' :: '?' :: '<' :: rest => do
      enclosed m true (← groupName? rest)
    | '(' :: '?' :: rest => do
      let (inner, opens, rest) ← groupMarks false false m rest
      if opens then enclosed inner false rest else read fuel (.sequence before) inner groups rest
    | '(' :: rest => enclosed m true rest
    | '[' :: rest => do
      let (r, rest) ← class? m rest
      goOn r groups rest
    | '.' :: rest => goOn (.chars true (if m.dotAll then [] else [(0xa, 0xa)])) groups rest
    | '^' :: rest => goOn (.anchor (if m.lines then .lineStart else .textStart)) groups rest
    | '$' :: rest => goOn (.anchor (if m.lines then .lineEnd else .textEnd)) groups rest
    | '\x7b' :: rest =>
      match bounds? rest with
      | some _ => none
      | none => goOn (literal m '\x7b') groups rest
    | '\\' :: 'A' :: rest => goOn (.anchor .textStart) groups rest
    | '\\' :: 'z' :: rest => goOn (.anchor .textEnd) groups rest
    | '\\' :: 'b' :: rest => goOn (.anchor .wordBoundary) groups rest
    | '\\' :: 'B' :: rest => goOn (.anchor .noWordBoundary) groups rest
    | '\\' :: 'Q' :: rest =>
      match rest with
      | [] => some (before, m, groups, [])
      | '\\' :: 'E' :: rest => read fuel (.sequence before) m groups rest
      | c :: '\\' :: 'E' :: rest => goOn (literal m c) groups rest
      | c :: rest => read fuel (.sequence (.sequence before (literal m c))) m groups ('\\' :: 'Q' :: rest)
    | '\\' :: c :: rest =>
      match letterClass? c with
      | some ranges => goOn (.chars false (folded m ranges)) groups rest
      | none =>
        if c = 'p' ∨ c = 'P' then
          (property? (c = 'P') rest).bind fun (ranges, rest) => goOn (.chars false (folded m ranges)) groups rest
        else (escaped? (c :: rest)).bind fun (c, rest) => goOn (literal m c) groups rest
    | ['\\'] => none
    | c :: rest => goOn (literal m c) groups rest

def parse (text : String) : Option Regex :=
  match read (2 * text.length + 4) .choice {} 0 text.toList with
  | some (r, _, _, []) => some r
  | _ => none

end Regex

end HdlLowering.Text
