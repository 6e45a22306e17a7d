/-!
# Patterns for file paths

`*` and `?` stand for any characters and one character of a component, `**` also for slashes, brackets for one character of a
set, and braces hold alternatives. A backslash takes the next character as it is. Open braces end with the pattern; a set that
is open, empty or backwards makes the text no pattern. A zero character ends the text in front of it, or the pattern.
-/

namespace HdlLowering

inductive Glob where
  | empty
  | text (chars : List Char)
  | one
  | within
  | across
  | set (negated : Bool) (chars : List Char)
  | range (negated : Bool) (lo hi : Char)
  | sequence (parts : List Glob)
  | choice (alternatives : List Glob)
  deriving BEq

namespace Glob

inductive Token where
  | part (g : Glob)
  | opening
  | separator
  | closing

/-- The replacement character, which stands for what could not be read. No pattern has it. -/
def unreadable : Char := '�'

/-- Tokens behind a run of text, which is given in reverse. -/
def afterText (run : List Char) (rest : List Token) : List Token :=
  if run.isEmpty then rest else .part (.text run.reverse) :: rest

mutual
/-- The tokens of a pattern inside a number of braces and behind a run of text. -/
def tokens (depth : Nat) (run : List Char) : List Char → Option (List Token)
  | [] => some (afterText run [])
  | '*' :: '*' :: cs => (tokens depth [] cs).map (afterText run <| .part .across :: ·)
  | '*' :: cs => (tokens depth [] cs).map (afterText run <| .part .within :: ·)
  | '?' :: cs => (tokens depth [] cs).map (afterText run <| .part .one :: ·)
  | '[' :: '!' :: cs => (setTokens depth true cs).map (afterText run)
  | '[' :: cs => (setTokens depth false cs).map (afterText run)
  | '\\' :: '\x00' :: cs => (tokens depth [] cs).map (afterText run)
  | '\\' :: c :: cs => if c = unreadable then none else tokens depth (c :: run) cs
  | ['\\'] => some (afterText run [])
  | '\x00' :: cs => if run.isEmpty then some [] else (tokens depth [] cs).map (afterText run)
  | c :: cs =>
    if c = '\x7b' then (tokens (depth + 1) [] cs).map (afterText run <| .opening :: ·)
    else if c = '\x7d' ∧ depth ≠ 0 then (tokens (depth - 1) [] cs).map (afterText run <| .closing :: ·)
    else if c = ',' ∧ depth ≠ 0 then (tokens depth [] cs).map (afterText run <| .separator :: ·)
    else if c = unreadable then none
    else tokens depth (c :: run) cs

def setTokens (depth : Nat) (negated : Bool) : List Char → Option (List Token)
  | lo :: '-' :: hi :: ']' :: cs =>
    if lo ≤ hi ∧ lo ≠ '\x00' ∧ lo ≠ unreadable ∧ hi ≠ unreadable then
      (tokens depth [] cs).map (.part (.range negated lo hi) :: ·)
    else none
  | _ :: '-' :: _ => none
  | '\\' :: c :: cs => if c = '\x00' ∨ c = unreadable then none else memberTokens depth negated [c] cs
  | c :: cs => if c ∈ [']', '\\', '\x00', unreadable] then none else memberTokens depth negated [c] cs
  | [] => none

def memberTokens (depth : Nat) (negated : Bool) (members : List Char) : List Char → Option (List Token)
  | ']' :: cs | '\x00' :: ']' :: cs | '\\' :: '\x00' :: ']' :: cs =>
    (tokens depth [] cs).map (.part (.set negated members.reverse) :: ·)
  | '\\' :: c :: cs =>
    if c = '\x00' ∨ c = unreadable then none else memberTokens depth negated (c :: members) cs
  | c :: cs =>
    if c = '\x00' ∨ c = unreadable ∨ c = '\\' then none else memberTokens depth negated (c :: members) cs
  | [] => none
end

/-- A pattern in the making: the innermost sequence, and for each open brace the finished alternatives and the sequence around it,
all in reverse. -/
structure Assembly where
  current : List Glob := []
  enclosing : List (List Glob × List Glob) := []

def Assembly.close (a : Assembly) : Assembly :=
  match a.enclosing with
  | [] => a
  | (done, outer) :: rest => ⟨.choice (.sequence a.current.reverse :: done).reverse :: outer, rest⟩

def Assembly.add (a : Assembly) : Token → Assembly
  | .part g => { a with current := g :: a.current }
  | .opening => ⟨[], ([], a.current) :: a.enclosing⟩
  | .separator =>
    match a.enclosing with
    | [] => a
    | (done, outer) :: rest => ⟨[], (.sequence a.current.reverse :: done, outer) :: rest⟩
  | .closing => a.close

/-- The pattern once all tokens are taken in; braces still open are closed. -/
def Assembly.finish (a : Assembly) : Glob := .sequence (a.enclosing.foldl (fun b _ => b.close) a).current.reverse

def parse (pattern : String) : Option Glob :=
  (tokens 0 [] pattern.toList).map fun ts => (ts.foldl Assembly.add {}).finish

end Glob

end HdlLowering
