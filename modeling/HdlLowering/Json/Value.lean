import HdlLowering.Text.Blank

/-!
# JSON values

Numbers keep their text, because readers tell `1` and `1.0` apart, and objects keep repeated keys in order, because they mean
different things to different readers.
-/

namespace HdlLowering

inductive Json where
  | null
  | bool (value : Bool)
  | num (text : String)
  | str (text : String)
  | arr (items : List Json)
  | obj (members : List (String × Json))
  deriving BEq

namespace Json

def int (n : Int) : Json := .num (toString n)

def nat (n : Nat) : Json := .num (toString n)

def int64 (n : Int64) : Json := .int n.toInt

def strings (xs : List String) : Json := .arr (xs.map .str)

mutual
def depth : Json → Nat
  | .arr items => depthItems items + 1
  | .obj members => depthMembers members + 1
  | _ => 0

def depthItems : List Json → Nat
  | [] => 0
  | v :: vs => max (depth v) (depthItems vs)

def depthMembers : List (String × Json) → Nat
  | [] => 0
  | (_, v) :: ms => max (depth v) (depthMembers ms)
end

/-- The characters that are written with a backslash, each behind the one that stands for it there. -/
def escapes : List (Char × Char) :=
  [('"', '"'), ('\\', '\\'), ('b', '\x08'), ('f', '\x0c'), ('n', '\n'), ('r', '\r'), ('t', '\t')]

/-- The value of the last member with this key: a later member overrides an earlier one. -/
def field? (j : Json) (key : String) : Option Json :=
  match j with
  | .obj ms => (ms.reverse.find? (·.1 == key)).map (·.2)
  | _ => none

end Json

end HdlLowering
