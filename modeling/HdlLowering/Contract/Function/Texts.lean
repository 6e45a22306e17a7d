import HdlLowering.Contract.Function
import HdlLowering.Text.LetterCase
import HdlLowering.Text.Quoted

/-!
# Functions on texts

Places are counted in bytes, lengths in characters. Texts are searched from the front, without overlap.
-/

namespace HdlLowering.Contract.Function

open Text Text.Regex

def indexOf? {α : Type} [BEq α] (sub : List α) : List α → Option Nat
  | [] => if sub.isEmpty then some 0 else none
  | a :: rest => if sub.isPrefixOf (a :: rest) then some 0 else (indexOf? sub rest).map (· + 1)

def lastIndexOf? {α : Type} [BEq α] (sub s : List α) : Option Nat :=
  (indexOf? sub.reverse s.reverse).map fun i => s.length - sub.length - i

def placeOrMinusOne (place : Option Nat) : Scalar := .whole ((place.map Int.ofNat).getD (-1))

def bytesOf (s : String) : List UInt8 := s.toUTF8.toList

def bytePlace (s : String) (i : Nat) : Nat := (String.ofList (s.toList.take i)).utf8ByteSize

/-- The pieces of a text between the places where a text occurs; between all characters for an empty one. -/
def pieces (s sep : String) : List String :=
  if sep.isEmpty then s.toList.map String.singleton else s.splitOn sep

/-- At most so many pieces, where the last one has the rest; all of them for a negative number. -/
def piecesUpTo (pieces : List String) (sep : String) (n : Int) : List String :=
  if n < 0 ∨ pieces.length ≤ n.toNat then pieces
  else if n = 0 then []
  else pieces.take (n.toNat - 1) ++ [sep.intercalate (pieces.drop (n.toNat - 1))]

def piecesWithEnds (sep : String) : List String → List String
  | [] => []
  | [s] => [s]
  | s :: rest => (s ++ sep) :: piecesWithEnds sep rest

/-- A text in which a text is replaced, so often at most; a negative number sets no limit. An empty text occurs in front
of every character and at the end. -/
def replaced (s old new : String) (n : Int) : String :=
  if n = 0 then s
  else if old.isEmpty then
    let chars := s.toList
    let k := if n < 0 then chars.length + 1 else min n.toNat (chars.length + 1)
    String.join ((chars.take k).map fun c => new ++ c.toString) ++ String.ofList (chars.drop k) ++
      (if chars.length < k then new else "")
  else new.intercalate (piecesUpTo (s.splitOn old) old (if n < 0 then n else n + 1))

def words (s : String) : List String :=
  (String.ofList (s.toList.map fun c => if Text.isBlank c then ' ' else c)).splitOn " " |>.filter (· ≠ "")

def wordStarts (change : Char → Char) (after : Bool) : List Char → List Char
  | [] => []
  | c :: rest => (if after then change c else c) :: wordStarts change (Text.isBlank c) rest

def slice? {α : Type} (xs : List α) (first last : Int) : Option (List α) :=
  if first < 0 ∨ last < first ∨ (xs.length : Int) < last then none
  else some ((xs.drop first.toNat).take (last - first).toNat)

def inBase (base : Nat) (n : Int) : String :=
  let digits := (Nat.toDigits base n.natAbs).map Char.toLower
  (if n < 0 then "-" else "") ++ String.ofList digits

def ofBase? (base : Nat) (s : String) : Option Int :=
  let (sign, digits) := match s.toList with
    | '-' :: ds => ((-1 : Int), ds)
    | '+' :: ds => (1, ds)
    | ds => (1, ds)
  let value (c : Char) : Option Nat :=
    let v := if c.isDigit then some (c.toNat - 48) else if c.isAlpha then some (c.toLower.toNat - 87) else none
    v.filter (· < base)
  if digits.isEmpty then none
  else (digits.foldlM (fun n c => (value c).map (n * base + ·)) 0).map fun n => sign * (n : Int)

/-- A whole number fits so many bits; zero stands for those of a machine word. -/
def fitsBits (signed : Bool) (bits : Int) (n : Int) : Bool :=
  let b := if bits = 0 then 64 else bits.toNat
  if signed then -(Nat.pow 2 (b - 1) : Nat) ≤ n ∧ n < (Nat.pow 2 (b - 1) : Nat) else 0 ≤ n ∧ n < (Nat.pow 2 b : Nat)

def textOrBytes : Categories := .ofList [.text, .bytes]

def rawBytes : Scalar → List UInt8
  | .text s => bytesOf s
  | .bytes bs => bs
  | _ => []

/-! What is given for one text, for two, and for some texts with a whole number behind them. -/

section

variable {α : Type}

def one (f : String → Option α) : List Scalar → Option α
  | [.text s] => f s
  | _ => none

def two (f : String → String → Option α) : List Scalar → Option α
  | [.text s, .text t] => f s t
  | _ => none

def oneAndWhole (f : String → Int → Option α) : List Scalar → Option α
  | [.text s, n] => n.whole?.bind (f s)
  | _ => none

end

def ofText (f : String → Option Scalar) : Function := ofScalars [.text] (one f)

def changed (f : String → String) : Function := ofText fun s => some (.text (f s))

def ofTexts (f : String → String → Scalar) : Function := ofScalars [.text, .text] (two fun s t => some (f s t))

def testOfTexts (f : String → String → Bool) : Function := testOfScalars [.text, .text] (two fun s t => some (f s t))

def listOfTexts (f : String → String → List String) : Function :=
  listOfScalars [.text, .text] (two fun s t => some ((f s t).map .text))

def listOfTextsAndWhole (f : String → String → Int → List String) : Function :=
  listOfScalars [.text, .text, .whole] fun
    | [.text s, .text t, n] => do return (f s t (← n.whole?)).map .text
    | _ => none

def trimmed (f : (Char → Bool) → List Char → List Char) : Function :=
  ofTexts fun s cut => .text (String.ofList (f cut.toList.contains s.toList))

def dropLast (p : Char → Bool) (cs : List Char) : List Char := (cs.reverse.dropWhile p).reverse

def texts : List (String × Function) :=
  [("ByteAt", ofScalars [textOrBytes, .whole] fun
      | [s, i] => do
        let i ← i.whole?
        if i < 0 then none else (rawBytes s)[i.toNat]?.map fun b => .whole b.toNat
      | _ => none),
    ("ByteSlice", ofScalars [textOrBytes, .whole, .whole] fun
      | [s, i, j] => do return .bytes (← slice? (rawBytes s) (← i.whole?) (← j.whole?))
      | _ => none),
    ("Runes", listOfScalars [.text] (one fun s => some (s.toList.map fun c => .whole c.toNat))),
    ("MinRunes", testOfScalars [.text, .whole] (oneAndWhole fun s n => some (n ≤ (s.length : Int)))),
    ("MaxRunes", testOfScalars [.text, .whole] (oneAndWhole fun s n => some ((s.length : Int) ≤ n))),
    ("ToTitle", changed fun s => String.ofList (wordStarts upperChar true s.toList)),
    ("ToCamel", changed fun s => String.ofList (wordStarts lowerChar true s.toList)),
    ("SliceRunes", ofScalars [.text, .whole, .whole] fun
      | [.text s, i, j] => do return .text (String.ofList (← slice? s.toList (← i.whole?) (← j.whole?)))
      | _ => none),
    ("Compare", ofScalars [.text, .text] fun
      | [a, b] => (a.compare? b).map fun o => .whole (match o with | .lt => -1 | .eq => 0 | .gt => 1)
      | _ => none),
    ("Count", ofTexts fun s t => .whole (if t.isEmpty then s.length + 1 else (s.splitOn t).length - 1 : Nat)),
    ("Contains", testOfTexts fun s t => (indexOf? t.toList s.toList).isSome),
    ("ContainsAny", testOfTexts fun s t => s.toList.any t.toList.contains),
    ("Index", ofTexts fun s t => placeOrMinusOne (indexOf? (bytesOf t) (bytesOf s))),
    ("LastIndex", ofTexts fun s t => placeOrMinusOne (lastIndexOf? (bytesOf t) (bytesOf s))),
    ("IndexAny", ofTexts fun s t => placeOrMinusOne ((s.toList.findIdx? t.toList.contains).map (bytePlace s))),
    ("LastIndexAny", ofTexts fun s t =>
      let found := s.toList.reverse.findIdx? t.toList.contains
      placeOrMinusOne (found.map fun i => bytePlace s (s.length - 1 - i))),
    ("Split", listOfTexts pieces),
    ("SplitN", listOfTextsAndWhole fun s sep n => piecesUpTo (pieces s sep) sep n),
    ("SplitAfter", listOfTexts fun s sep => piecesWithEnds sep (pieces s sep)),
    ("SplitAfterN", listOfTextsAndWhole fun s sep n => piecesWithEnds sep (piecesUpTo (pieces s sep) sep n)),
    ("Fields", listOfScalars [.text] (one fun s => some ((words s).map .text))),
    ("HasPrefix", testOfTexts fun s t => t.toList.isPrefixOf s.toList),
    ("HasSuffix", testOfTexts fun s t => t.toList.isSuffixOf s.toList),
    ("Repeat", ofScalars [.text, .whole] (oneAndWhole fun s n => do return .text (← Scalar.repeated s n))),
    ("ToUpper", changed upper), ("ToLower", changed lower),
    ("Trim", trimmed fun p cs => dropLast p (cs.dropWhile p)),
    ("TrimLeft", trimmed List.dropWhile), ("TrimRight", trimmed dropLast), ("TrimSpace", changed trim),
    ("TrimPrefix", ofTexts fun s t =>
      .text (if t.toList.isPrefixOf s.toList then String.ofList (s.toList.drop t.length) else s)),
    ("TrimSuffix", ofTexts fun s t =>
      .text (if t.toList.isSuffixOf s.toList then String.ofList (s.toList.take (s.length - t.length)) else s)),
    ("Replace", ofScalars [.text, .text, .text, .whole] fun
      | [.text s, .text old, .text new, n] => do return .text (replaced s old new (← n.whole?))
      | _ => none),
    ("Join", ofList [.list, .text] fun E ids rest => do
      match ← textItems E ids, rest with
      | texts, [.text sep] => return .scalar (.text (sep.intercalate texts))
      | _, _ => throw .conflict)]

/-- A whole number of so many bits in some base, where zero stands for ten. -/
def parsed (signed : Bool) : Function :=
  ofScalars [.text, .whole, .whole] fun
    | [.text s, base, bits] => do
      let base ← base.whole?
      let bits ← bits.whole?
      if !signed ∧ (s.startsWith "+" ∨ s.startsWith "-") then none
      else
        let n ← ofBase? (if base = 0 then 10 else base.toNat) s
        if fitsBits signed bits n then return .whole n else none
    | _ => none

def conversions : List (String × Function) :=
  [("Atoi", ofText fun s => ((ofBase? 10 s).filter (fitsBits true 64)).map .whole),
    ("ParseInt", parsed true), ("ParseUint", parsed false),
    ("FormatInt", ofScalars [.whole, .whole] fun
      | [n, base] => do return .text (inBase (← base.whole?).toNat (← n.whole?))
      | _ => none),
    ("FormatUint", ofScalars [.whole, .whole] fun
      | [n, base] => do
        let n ← n.whole?
        if n < 0 then none else return .text (inBase (← base.whole?).toNat n)
      | _ => none),
    ("ParseBool", ofText fun s =>
      if ["1", "t", "T", "true", "TRUE", "True"].contains s then some (.truth true)
      else if ["0", "f", "F", "false", "FALSE", "False"].contains s then some (.truth false)
      else none),
    ("FormatBool", ofScalars [.ofList [.truth]] fun
      | [.truth b] => some (.text (if b then "true" else "false"))
      | _ => none),
    ("Quote", changed quoted)]

def firstMatch? (pattern s : String) : Option String := do
  let r ← parse pattern
  let chars := s.toList.toArray
  let (first, last) ← r.find? chars 0
  return String.ofList (chars.extract first last).toList

def regexes : List (String × Function) :=
  [("Valid", testOfScalars [.text] (one fun pattern => (parse pattern).map fun _ => true)),
    ("Match", testOfScalars [.text, .text] (two fun pattern s => (parse pattern).map (·.accepts s))),
    ("Find", ofScalars [.text, .text] (two fun pattern s => (firstMatch? pattern s).map .text))]

end HdlLowering.Contract.Function
