import HdlLowering.Glob.Matcher
import HdlLowering.Glob.Pattern

/-!
# Matching paths

A pattern becomes a matcher: what alternatives have in common is taken out of the braces (`factored?`), neighbouring pieces
become one where they take a known number of characters or avoid the same ones (`glued?`, `condensed`), the rest is arranged
around the longest piece of known length (`arranged`), and text next to `*` or `**` has matchers of its own (`simplified`).
-/

namespace HdlLowering.Glob

open List

/-! ### Common parts of alternatives -/

/-- The number of parts that some sequences, the shortest first, have in common in front and at the end. Where both ends meet, the
front has precedence. -/
def commonParts (shortest : List Glob) (others : List (List Glob)) : Nat × Nat :=
  let step := fun (front, back, frontOpen, backOpen) i =>
    if shortest.length ≤ front + back then (front, back, frontOpen, backOpen)
    else
      let (frontOpen, backOpen) := others.foldl (fun (frontOpen, backOpen) other =>
        let frontOpen' := frontOpen && shortest[i]? == other[i]?
        let met := shortest.length ≤ 2 * i + 1
        if !frontOpen && !backOpen then (false, false)
        else (frontOpen', backOpen && !(frontOpen' && met) && shortest.reverse[i]? == other.reverse[i]?))
        (frontOpen, backOpen)
      (front + frontOpen.toNat, back + backOpen.toNat, frontOpen, backOpen)
  let (front, back, _) := (List.range shortest.length).foldl step (0, 0, true, true)
  (front, back)

def parts? : Glob → Option (List Glob)
  | .sequence parts => some parts
  | _ => none

def sequenceOrEmpty (parts : List Glob) : Glob := if parts.isEmpty then .empty else .sequence parts

def factored? (alternatives : List Glob) : Option Glob := do
  let sequences ← alternatives.mapM parts?
  let least ← (sequences.map length).min?
  let place ← sequences.findIdx? (·.length == least)
  let shortest ← sequences[place]?
  let others := sequences.eraseIdx place
  if others.isEmpty then none
  let (front, back) := commonParts shortest others
  if front + back = 0 then none
  let middle := (sequences.map fun parts => sequenceOrEmpty ((parts.take (parts.length - back)).drop front)).eraseDups
  return .sequence <|
    (if front = 0 then [] else [.sequence (shortest.take front)]) ++
    (match middle with
      | [.empty] => []
      | [g] => [g]
      | gs => [.choice gs]) ++
    (if back = 0 then [] else [.sequence (shortest.drop (least - back))])

/-! ### Putting matchers together -/

namespace Matcher

/-- The characters that a matcher avoids, where that is all it asks for beside a number of characters. -/
def avoided? : Matcher → Option (List Char)
  | .across => some []
  | .within | .one => some ['/']
  | .set true chars => some chars
  | _ => none

def bytesOf (chars : List Char) : List UInt8 := chars.flatMap String.utf8EncodeChar

/-- One matcher for neighbours that avoid the same characters. -/
def uniform? (ms : List Matcher) : Option Matcher := do
  let avoided ← (ms.mapM avoided?).bind head?
  if ms.any fun m => m.avoided? ≠ some avoided then none
  let count := (ms.filter (·.length?.isSome)).length
  if count = 0 then ms.head?
  else
    let exact := if count = ms.length then [.atMost count] else []
    some (.all (.atLeast count :: exact ++ [.lacking (bytesOf avoided)]))

def glued? (ms : List Matcher) : Option Matcher :=
  if ms.length < 2 then none else uniform? ms <|> (sumLength? ms).map fun _ => .row ms

/-- The neighbours that are best put together: where they start, how many they are, and their matcher. More are better than fewer,
and then greater lengths. -/
def bestGlued (ms : List Matcher) : Option (Nat × Nat × Matcher) :=
  let runs := (List.range ms.length).flatMap fun i => (List.range (ms.length - i)).map fun k => (i, ms.length - i - k)
  runs.foldl (fun best (i, count) =>
    match glued? ((ms.drop i).take count), best with
    | none, _ => best
    | some m, none => some (i, count, m)
    | some m, some (_, most, old) =>
      let longer := match old.length?, m.length? with
        | some n, some k => decide (n < k)
        | _, _ => false
      if longer || most < count then some (i, count, m) else best) none

def condensed (ms : List Matcher) : List Matcher :=
  match bestGlued ms with
  | none => ms
  | some (i, count, m) =>
    let next := ms.take i ++ m :: ms.drop (i + count)
    if next.length < ms.length then condensed next else next
  termination_by ms.length
  decreasing_by assumption

/-- The place of the longest matcher of known length, the last of several. -/
def pivot? (ms : List Matcher) : Option (Fin ms.length) :=
  ((finRange ms.length).foldl (fun best i =>
    match (ms.get i).length?, best with
    | none, _ => best
    | some n, none => some (i, n)
    | some n, some (j, most) => if most ≤ n then some (i, n) else some (j, most)) none).map (·.1)

def arranged (ms : List Matcher) : Matcher :=
  match ms with
  | [] => .empty
  | [m] => m
  | m :: n :: rest =>
    match glued? (m :: n :: rest), pivot? (m :: n :: rest) with
    | some g, _ => g
    | none, none => .around .empty m (arranged (n :: rest))
    | none, some i =>
      .around (arranged ((m :: n :: rest).take i)) ((m :: n :: rest).get i) (arranged ((m :: n :: rest).drop (i + 1)))
  termination_by ms.length
  decreasing_by all_goals simp <;> omega

/-- A matcher with the text in its middle joined to `*` and `**` on its sides, and a choice of one or a set of one
replaced by it. -/
def simplified : Matcher → Matcher
  | .any [m] => m
  | .set false [c] => .text (bytesOf [c])
  | .around l (.text t) r =>
    match simplified l, simplified r with
    | .empty, .empty => .text t
    | .across, .across => .containing t
    | .across, .empty => .ending t
    | .empty, .across => .starting t
    | .empty, .ending u => .startingEnding t u
    | .starting u, .empty => .startingEnding u t
    | .within, .empty => .endingWithin t
    | .empty, .within => .startingWithin t
    | l, r => .around l (.text t) r
  | .around l m r => .around (simplified l) m (simplified r)
  | m => m

end Matcher

/-! ### Patterns as matchers -/

def matcherAt : Nat → Glob → Matcher
  | 0, _ => .empty
  | _ + 1, .empty => .empty
  | _ + 1, .text chars => .text (Matcher.bytesOf chars)
  | _ + 1, .one => .one
  | _ + 1, .within => .within
  | _ + 1, .across => .across
  | _ + 1, .set negated chars => (Matcher.set negated chars).simplified
  | _ + 1, .range negated lo hi => .range negated lo hi
  | depth + 1, .sequence parts => (Matcher.arranged (Matcher.condensed (parts.map (matcherAt depth)))).simplified
  | depth + 1, .choice alternatives =>
    match factored? alternatives with
    | some g => matcherAt depth g
    | none => (Matcher.any (alternatives.map (matcherAt depth))).simplified

mutual
def size : Glob → Nat
  | .sequence parts => sizeAll parts + 1
  | .choice alternatives => sizeAll alternatives + 1
  | _ => 1

def sizeAll : List Glob → Nat
  | [] => 0
  | g :: gs => g.size + sizeAll gs
end

/-- The matcher of a pattern. Each time alternatives are taken apart, two levels are added and a node is saved. -/
def matcher (g : Glob) : Matcher := matcherAt (3 * g.size + 1) g

def accepts (pattern : Glob) (text : String) : Bool := pattern.matcher.accepts (Matcher.bytesOf text.toList)

end HdlLowering.Glob
