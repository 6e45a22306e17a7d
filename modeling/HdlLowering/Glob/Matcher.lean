import HdlLowering.Text.Utf8

/-!
# Matchers of paths

Matchers decide on the bytes of a path. There are matchers for what often occurs together: a fixed text in front of anything,
a number of characters without a slash, a row of pieces of known length, and a middle piece with a matcher on either side.

A byte that starts no character counts as one. A piece of a row is cut behind the first byte of its last character, and the
space for the sides of a middle piece is their number of characters in bytes.
-/

namespace HdlLowering.Glob

inductive Matcher where
  | empty
  | text (bytes : List UInt8)
  | one
  | set (negated : Bool) (chars : List Char)
  | range (negated : Bool) (lo hi : Char)
  | within
  | across
  | starting (bytes : List UInt8)
  | ending (bytes : List UInt8)
  | startingEnding (first last : List UInt8)
  | startingWithin (bytes : List UInt8)
  | endingWithin (bytes : List UInt8)
  | containing (bytes : List UInt8)
  | lacking (bytes : List UInt8)
  | atLeast (count : Nat)
  | atMost (count : Nat)
  | all (matchers : List Matcher)
  | any (matchers : List Matcher)
  | row (matchers : List Matcher)
  | around (left middle right : Matcher)

def slash : UInt8 := 0x2f

/-- The characters of some bytes with the places where they start, of which the first ones have been read
already. -/
def charsAt (place read : Nat) : List UInt8 → List (Nat × Char)
  | [] => []
  | b :: rest =>
    match read, Text.firstChar? (b :: rest) with
    | n + 1, _ => charsAt (place + 1) n rest
    | 0, some (c, n) => (place, c) :: charsAt (place + 1) n rest
    | 0, none => (place, '�') :: charsAt (place + 1) 0 rest

def starts (bytes : List UInt8) : List Nat := (charsAt 0 0 bytes).map (·.1) ++ [bytes.length]

/-- The places behind each character, where one that could not be read counts as long as its replacement. -/
def ends (bytes : List UInt8) : List Nat := (charsAt 0 0 bytes).map fun (i, c) => i + c.utf8Size

def charCount (bytes : List UInt8) : Nat := (charsAt 0 0 bytes).length

/-- The character that is the whole of some bytes. No bytes count as one that cannot be read. -/
def sole? (bytes : List UInt8) : Option Char :=
  match charsAt 0 0 bytes with
  | [] => some '�'
  | [(_, c)] => some c
  | _ => none

def occurrences (needle bytes : List UInt8) : List Nat :=
  (List.range (bytes.length + 1)).filter fun i => needle.isPrefixOf (bytes.drop i)

/-- The ends of the occurrences of some bytes in others, counted from the end of the others so that no two share
a byte. -/
def endsFromBehind (needle bytes : List UInt8) : List Nat :=
  ((occurrences needle bytes).foldr (fun i (limit, found) =>
    if i + needle.length ≤ limit then (i, (i + needle.length) :: found) else (limit, found)) (bytes.length, [])).2

namespace Matcher

mutual
def length? : Matcher → Option Nat
  | .empty => some 0
  | .text bytes => some (charCount bytes)
  | .one | .set .. | .range .. => some 1
  | .row ms => sumLength? ms
  | .any ms => commonLength? none ms
  | .around l m r => do return (← l.length?) + (← m.length?) + (← r.length?)
  | _ => none

/-- The number of characters that some matchers take one after the other. -/
def sumLength? : List Matcher → Option Nat
  | [] => some 0
  | m :: ms => do return (← m.length?) + (← sumLength? ms)

/-- The number of characters that each of some matchers takes. Unknown ones in front of the first known one count as agreeing with
it. -/
def commonLength? : Option Nat → List Matcher → Option Nat
  | l, [] => l
  | none, m :: ms => commonLength? m.length? ms
  | some n, m :: ms => if m.length? = some n then commonLength? (some n) ms else none
end

def admits : Matcher → Char → Bool
  | .one, c => c != '/'
  | .set negated chars, c => chars.contains c != negated
  | .range negated lo hi, c => decide (lo ≤ c ∧ c ≤ hi) != negated
  | _, _ => false

/-- The first character that passes a matcher of one character: where it stands, and its length. -/
def findChar (m : Matcher) (bytes : List UInt8) : Option (Nat × List Nat) :=
  ((charsAt 0 0 bytes).find? fun (_, c) => m.admits c).map fun (i, c) => (i, [c.utf8Size])

/-- The earlier of two finds; of two at one place, the lengths of both. -/
def earlier : Option (Nat × List Nat) → Option (Nat × List Nat) → Option (Nat × List Nat)
  | some (i, ls), some (j, ks) => some (if i < j then (i, ls) else if j < i then (j, ks) else (i, ls ++ ks))
  | some f, none => some f
  | none, f => f

def shared : Option (Nat × List Nat) → Option (Nat × List Nat) → Option (Nat × List Nat)
  | some (i, ls), some (_, ks) => let both := ls.filter ks.contains; if both.isEmpty then none else some (i, both)
  | _, _ => none

/-- The bytes cut off for a piece of so many characters, which end behind the first byte of the last of them. All
characters are taken for a piece of none. -/
def piece? (count : Nat) (bytes : List UInt8) : Option (List UInt8 × List UInt8) :=
  let taken := if count = 0 then charsAt 0 0 bytes else (charsAt 0 0 bytes).take count
  let stop := (taken.getLast?.map (·.1)).getD 0 + 1
  if taken.length < count then none else some (bytes.take stop, bytes.drop stop)

/-- Some bytes are a middle piece, which is looked for from a place on, with a left and a right side. The place can move so often. -/
def splits (find : List UInt8 → Option (Nat × List Nat)) (left right : List UInt8 → Bool) (bytes : List UInt8)
    (limit : Nat) : Nat → Nat → Bool
  | 0, _ => false
  | moves + 1, place =>
    if limit ≤ place then false
    else
      match find ((bytes.take limit).drop place) with
      | none => false
      | some (i, lengths) =>
        (left (bytes.take (place + i)) && lengths.any fun n => right (bytes.drop (place + i + n))) ||
          splits find left right bytes limit moves
            (place + i + (((charsAt 0 0 (bytes.drop (place + i))).drop 1).head?.map (·.1)).getD bytes.length)

mutual
def accepts : Matcher → List UInt8 → Bool
  | .empty, s => s.isEmpty
  | .text t, s => s == t
  | .one, s => (sole? s).any one.admits
  | .set negated chars, s => (sole? s).any (set negated chars).admits
  | .range negated lo hi, s => (sole? s).any (range negated lo hi).admits
  | .within, s => !s.contains slash
  | .across, _ => true
  | .starting t, s => t.isPrefixOf s
  | .ending t, s => t.isSuffixOf s
  | .startingEnding t u, s => t.isPrefixOf s && u.isSuffixOf s
  | .startingWithin t, s => t.isPrefixOf s && !(s.drop t.length).contains slash
  | .endingWithin t, s => t.isSuffixOf s && !(s.take (s.length - t.length)).contains slash
  | .containing t, s => !(occurrences t s).isEmpty
  | .lacking t, s => (occurrences t s).isEmpty
  | .atLeast n, s => n ≤ charCount s
  | .atMost n, s => charCount s ≤ n
  | .all ms, s => acceptsAll ms s
  | .any ms, s => acceptsAny ms s
  | .row ms, s => sumLength? ms == some (charCount s) && startsRow ms s
  | .around l m r, s =>
    let limit := s.length - (r.length?).getD 0
    ((around l m r).length?).all (· ≤ s.length) &&
      splits (find m) (accepts l) (accepts r) s limit (limit + 1) ((l.length?).getD 0)

def acceptsAll : List Matcher → List UInt8 → Bool
  | [], _ => true
  | m :: ms, s => accepts m s && acceptsAll ms s

def acceptsAny : List Matcher → List UInt8 → Bool
  | [], _ => false
  | m :: ms, s => accepts m s || acceptsAny ms s

/-- Pieces accept the front of some bytes one after the other. -/
def startsRow : List Matcher → List UInt8 → Bool
  | [], _ => true
  | m :: ms, s =>
    match piece? ((m.length?).getD 0) s with
    | none => false
    | some (front, rest) => accepts m front && startsRow ms rest

/-- Looks for a matcher in some bytes: where it is found first, and the lengths it may have there. A middle piece
with sides is never found. -/
def find : Matcher → List UInt8 → Option (Nat × List Nat)
  | .empty, _ => some (0, [0])
  | .text t, s => (occurrences t s).head?.map (·, [t.length])
  | .one, s => findChar one s
  | .set negated chars, s => findChar (set negated chars) s
  | .range negated lo hi, s => findChar (range negated lo hi) s
  | .within, s => some (0, starts (s.takeWhile (· != slash)))
  | .across, s => some (0, starts s)
  | .starting t, s =>
    (occurrences t s).head?.map fun i => (i, t.length :: (ends (s.drop (i + t.length))).map (t.length + ·))
  | .ending t, s => (occurrences t s).head?.map fun i => (0, [i + t.length])
  | .startingEnding t u, s => do
    let i ← (occurrences t s).head?
    let lengths := endsFromBehind u (s.drop i)
    if lengths.isEmpty then none else some (i, lengths)
  | .startingWithin t, s =>
    (occurrences t s).head?.map fun i =>
      (i, t.length :: (ends ((s.drop (i + t.length)).takeWhile (· != slash))).map (t.length + ·))
  | .endingWithin t, s =>
    (occurrences t s).head?.map fun i =>
      let length := ((s.take i).reverse.takeWhile (· != slash)).length
      (i - length, [length + t.length])
  | .containing t, s =>
    (occurrences t s).head?.map fun i => (0, (starts (s.drop (i + t.length))).map (i + t.length + ·))
  | .lacking t, s => some (0, starts (s.take ((occurrences t s).head?.getD s.length)))
  | .atLeast n, s =>
    let lengths := (ends s).drop (n - 1)
    if s.length < n ∨ lengths.isEmpty then none else some (0, lengths)
  | .atMost n, s => some (0, 0 :: (ends s).take n)
  | .all ms, s => findAll ms s
  | .any ms, s => findAny ms s
  | .row ms, s =>
    let length := (sumLength? ms).getD 0
    ((charsAt 0 0 s).find? fun (i, _) => length ≤ s.length - i && startsRow ms (s.drop i)).map fun (i, _) => (i, [length])
  | .around .., _ => none

def findAll : List Matcher → List UInt8 → Option (Nat × List Nat)
  | [], _ => none
  | [m], s => find m s
  | m :: ms, s => shared (find m s) (findAll ms s)

def findAny : List Matcher → List UInt8 → Option (Nat × List Nat)
  | [], _ => none
  | m :: ms, s => earlier (find m s) (findAny ms s)
end

end Matcher

end HdlLowering.Glob
