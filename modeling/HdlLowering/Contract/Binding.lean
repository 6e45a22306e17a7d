import HdlLowering.Contract.Reading

/-!
# Names in terms

A name means a field, a local definition or a package of the nearest record around it, what a clause or another name for a
value binds, or one of the names known everywhere. `Term.isBound` checks this and what else can be said without evaluating:
definitions and imports are used, no name is both a local definition and a field of one record, local definitions are not
circular, defaults are marked in choices only, and operators have operands that can be settled.
-/

namespace HdlLowering.Contract

def namedCategories : List (String × Categories) :=
  [("bool", .ofList [.truth]), ("int", .whole), ("float", .ofList [.fraction]), ("number", .numbers), ("string", .text),
    ("bytes", .ofList [.bytes])]

/-- The ranges of numbers that have a name everywhere: their ends, and whether they are whole. -/
def namedRanges : List (String × Bool × Decimal × Option Decimal) :=
  let signed (bits : Nat) : Bool × Decimal × Option Decimal :=
    (true, .ofInt (-(Nat.pow 2 (bits - 1) : Nat)), some (.ofInt ((Nat.pow 2 (bits - 1) : Nat) - 1)))
  let unsigned (bits : Nat) : Bool × Decimal × Option Decimal := (true, .ofInt 0, some (.ofInt ((Nat.pow 2 bits : Nat) - 1)))
  let single : Decimal := ⟨340282346638528859811704183484516925440, 0⟩
  let double : Decimal := ⟨1797693134862315708145274237317043567981, 269⟩
  [("uint", true, .ofInt 0, none), ("rune", true, .ofInt 0, some (.ofInt 0x10ffff)), ("int8", signed 8), ("int16", signed 16),
    ("int32", signed 32), ("int64", signed 64), ("int128", signed 128), ("uint8", unsigned 8), ("uint16", unsigned 16),
    ("uint32", unsigned 32), ("uint64", unsigned 64), ("uint128", unsigned 128), ("float32", false, single.negate, some single),
    ("float64", false, double.negate, some double)]

def namedFunctions : List String :=
  ["len", "close", "and", "or", "div", "mod", "quo", "rem", "matchN", "matchIf", "error"]

variable (w : String)

/-- A name that is known everywhere, without the underscores that may stand in front of it. -/
def everywhere? : Option String :=
  let w := if w.startsWith "__" then (w.drop 2).toString else w
  if (namedCategories.lookup w).isSome ∨ (namedRanges.lookup w).isSome ∨ namedFunctions.contains w then some w else none

def packages : List String :=
  ["crypto/ed25519", "crypto/hmac", "crypto/md5", "crypto/sha1", "crypto/sha256", "crypto/sha512", "encoding/base64",
    "encoding/csv", "encoding/hex", "encoding/json", "encoding/openapi", "encoding/protobuf", "encoding/toml", "encoding/yaml",
    "html", "list", "math", "math/bits", "net", "path", "regexp", "strconv", "strings", "struct", "text/tabwriter",
    "text/template", "time", "tool", "tool/cli", "tool/exec", "tool/file", "tool/http", "tool/os", "uuid"]

namespace Term

variable (entries : List Entry)

/-- A name is bound by an entry that is not a local definition. -/
def bindsAsField : Bool :=
  entries.any fun
    | .given _ _ => false
    | e => e.binds.contains w

mutual
def occurs : Term → Bool
  | .name v => v == w
  | .group t => occurs t
  | .unary _ t => occurs t
  | .binary _ a b => occurs a || occurs b
  | .list items more => occursItems items || occursOption more
  | .record entries => !(bindsAsField w entries) && occursEntries (entries.any fun e => e.binds.contains w) entries
  | .select t _ => occurs t
  | .index t i => occurs t || occurs i
  | .slice t i j => occurs t || occursOption i || occursOption j
  | .call f args => occurs f || occursAny args
  | .template _ _ terms => occursAny terms
  | .aliased v t => v != w && occurs t
  | _ => false

def occursOption : Option Term → Bool
  | none => false
  | some t => occurs t

def occursAny : List Term → Bool
  | [] => false
  | t :: ts => occurs t || occursAny ts

def occursItems : List Entry → Bool
  | [] => false
  | e :: es => occursEntry e || occursItems es

/-- A name occurs in one of some entries. Where a local definition binds it, only that definition itself does not
see the binding. -/
def occursEntries (bound : Bool) : List Entry → Bool
  | [] => false
  | .given v t :: es => (!(bound && v != w) && occurs t) || occursEntries bound es
  | e :: es => (!bound && occursEntry e) || occursEntries bound es

def occursEntry : Entry → Bool
  | .field _ _ _ _ v => occurs v
  | .computed _ k _ v => occurs k || occurs v
  | .pattern other key k v => occurs k || (other != some w && key != some w && occurs v)
  | .embedded t => occurs t
  | .given _ v => occurs v
  | .comprehension cs inner => occursClauses cs || (!(cs.any (·.binds.contains w)) && !(bindsAsField w inner) &&
      occursEntries (inner.any fun e => e.binds.contains w) inner)
  | _ => false

/-- A name occurs in one of some clauses without being bound by one before. -/
def occursClauses : List Clause → Bool
  | [] => false
  | .each key v t :: cs => occurs t || (v != w && key != some w && occursClauses cs)
  | .provided t :: cs => occurs t || occursClauses cs
  | .given v t :: cs => occurs t || (v != w && occursClauses cs)
end

def definitions : List (String × Term) :=
  entries.filterMap fun
    | .given w t => some (w, t)
    | _ => none

/-- The local definitions that some of them lead to, in so many steps. -/
def reached (defs : List (String × Term)) : Nat → List String → List String
  | 0, ws => ws
  | n + 1, ws =>
    let next := defs.filterMap fun (v, _) =>
      if ws.any fun w => v != w && (defs.lookup w).any (occurs v) then some v else none
    reached defs n (ws ++ next).eraseDups

def hasCircle (defs : List (String × Term)) : Bool :=
  defs.any fun (w, t) =>
    let first := defs.filterMap fun (v, _) => if v != w && occurs v t then some v else none
    (reached defs defs.length first).contains w

/-- A name occurs in a record apart from the local definition that binds it. -/
def isUsedIn : Bool :=
  entries.any fun
    | .given v t => v != w && occurs w t
    | e => occursEntry w e

def otherNames : List String :=
  entries.filterMap fun
    | .field other .. | .computed other .. => other
    | _ => none

def fieldNames : List String :=
  entries.flatMap fun
    | .field _ label byName presence value => Entry.binds (.field none label byName presence value)
    | _ => []

/-- The bindings of a record are in order: none is idle, none clashes with another, and none goes in a circle. -/
def bindingsFit : Bool :=
  let defs := definitions entries
  let others := otherNames entries
  let bound := defs.map (·.1) ++ others
  let imports := entries.filterMap fun
    | .imported w path => some (w, path)
    | _ => none
  let fields := fieldNames entries
  bound.all (isUsedIn · entries) && bound.eraseDups.length == bound.length && !(bound.any fields.contains) && !hasCircle defs &&
    imports.all fun (w, path) => packages.contains path && isUsedIn w entries && !(fields.contains w || bound.contains w)

/-- A term that can never be a settled value: a category, a relation, or anything at all. -/
def isNeverSettled (scopes : List (List String)) : Term → Bool
  | .any => true
  | .group t => isNeverSettled scopes t
  | .name w =>
    !(scopes.any (·.contains w)) && (namedCategories.lookup (if w.startsWith "__" then (w.drop 2).toString else w)).isSome
  | .unary o _ => o.isRelation
  | _ => false

def clauseScopes (scopes : List (List String)) (cs : List Clause) : List (List String) :=
  cs.foldl (fun scopes c => match c with
    | .provided _ => scopes
    | c => c.binds :: scopes) scopes

/-- Where a term stands: as the value of a field, as an alternative of a choice, or anywhere else. -/
inductive TermPlace where
  | field
  | choice
  | plain
  deriving DecidableEq

mutual
/-- A term is right in a place with the names of some scopes around it, the nearest first. -/
def isBound (stands : TermPlace) (scopes : List (List String)) : Term → Bool
  | .name w => scopes.any (·.contains w) || (everywhere? w).isSome
  | .group t => isBound (if stands = .choice then .choice else .plain) scopes t
  | .unary .multiply t => stands == .choice && isBound .choice scopes t
  | .unary o t => isBound .plain scopes t && (o.isRelation || !isNeverSettled scopes t)
  | .binary .choose a b => isBound .choice scopes a && isBound .choice scopes b
  | .binary .meet a b => isBound .plain scopes a && isBound .plain scopes b
  | .binary _ a b => isBound .plain scopes a && isBound .plain scopes b && !isNeverSettled scopes a && !isNeverSettled scopes b
  | .list items more => isBoundItems scopes items && isBoundOption scopes more
  | .record entries => bindingsFit entries && isBoundEntries (entries.flatMap (·.binds)) scopes entries
  | .select t _ => isBound .plain scopes t
  | .index t i => isBound .plain scopes t && isBound .plain scopes i
  | .slice t i j => isBound .plain scopes t && isBoundOption scopes i && isBoundOption scopes j
  | .call f args => isBound .plain scopes f && isBoundAll scopes args
  | .template _ _ terms => isBoundAll scopes terms
  | .aliased w t => stands == .field && occurs w t && isBound .plain ([w] :: scopes) t
  | _ => true

def isBoundOption (scopes : List (List String)) : Option Term → Bool
  | none => true
  | some t => isBound .plain scopes t

def isBoundAll (scopes : List (List String)) : List Term → Bool
  | [] => true
  | t :: ts => isBound .plain scopes t && isBoundAll scopes ts

def isBoundItems (scopes : List (List String)) : List Entry → Bool
  | [] => true
  | .embedded t :: es => isBound .plain scopes t && isBoundItems scopes es
  | .comprehension cs inner :: es =>
    isBoundClauses scopes cs && bindingsFit inner &&
      isBoundEntries (inner.flatMap (·.binds)) (clauseScopes scopes cs) inner && isBoundItems scopes es
  | _ :: _ => false

def isBoundEntries (own : List String) (scopes : List (List String)) : List Entry → Bool
  | [] => true
  | .field _ _ _ _ v :: es => isBound .field (own :: scopes) v && isBoundEntries own scopes es
  | .computed _ k _ v :: es =>
    isBound .plain (own :: scopes) k && isBound .field (own :: scopes) v && isBoundEntries own scopes es
  | .pattern other key k v :: es =>
    other.all (occurs · v) && isBound .plain (own :: scopes) k &&
      isBound .field ((other.toList ++ key.toList) :: own :: scopes) v && isBoundEntries own scopes es
  | .embedded t :: es => isBound .plain (own :: scopes) t && isBoundEntries own scopes es
  | .given w v :: es => isBound .plain (own.filter (· != w) :: scopes) v && isBoundEntries own scopes es
  | .comprehension cs inner :: es =>
    isBoundClauses (own :: scopes) cs && bindingsFit inner &&
      isBoundEntries (inner.flatMap (·.binds)) (clauseScopes (own :: scopes) cs) inner && isBoundEntries own scopes es
  | _ :: es => isBoundEntries own scopes es

def isBoundClauses (scopes : List (List String)) : List Clause → Bool
  | [] => true
  | .each key v t :: cs => isBound .plain scopes t && isBoundClauses ((v :: key.toList) :: scopes) cs
  | .provided t :: cs => isBound .plain scopes t && isBoundClauses scopes cs
  | .given w t :: cs => isBound .plain scopes t && isBoundClauses ([w] :: scopes) cs
end

end Term

end HdlLowering.Contract
