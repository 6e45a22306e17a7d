import HdlLowering.Contract.Term

/-!
# Reading terms

`Term.parse` reads the entries of one record without braces, behind attributes, the name of a package and imports. Entries of
a record end with commas or line ends, items of a list with commas.
-/

namespace HdlLowering.Contract

namespace Term

/-- The words with a meaning of their own. They may still be names of fields. -/
def isKeyword (w : String) : Bool := ["for", "in", "if", "let", "func", "true", "false", "null"].contains w

def afterAttributes : List Token → List Token
  | .attribute :: ts => afterAttributes ts
  | ts => ts

/-- What follows the end of an entry: a comma, or the brace that closes the record. -/
def afterEntry : List Token → Option (List Token)
  | .comma _ :: ts => some ts
  | .closeBrace :: ts => some (.closeBrace :: ts)
  | [] => some []
  | _ => none

def afterComma : List Token → List Token
  | .comma _ :: ts => ts
  | ts => ts

/-- A word that starts a clause is a name here, because of what follows it. -/
def isNameHere : List Token → Bool
  | [] | .colon :: _ | .equals :: _ | .question :: _ | .comma _ :: _ | .other :: _ => true
  | _ => false

def infixOperator? : Token → Option Operator
  | .operator o => some o
  | .word "div" => some .euclidDiv
  | .word "mod" => some .euclidMod
  | .word "quo" => some .truncDiv
  | .word "rem" => some .truncMod
  | _ => none

inductive Head where
  | field (label : Label) (byName : Bool)
  | computed (key : Term)
  | pattern (key : Option String) (labels : Term)

/-- The head of a field that a term can be. Names that start with two underscores are reserved. -/
def head? : Term → Option Head
  | .scalar (.text s) => some (.field (.regular s) false)
  | .scalar (.bytes bs) => (String.fromUTF8? ⟨bs.toArray⟩).map fun s => .field (.regular s) false
  | .scalar .null => some (.field (.regular "null") false)
  | .scalar (.truth b) => some (.field (.regular (if b then "true" else "false")) false)
  | .name w => if w.startsWith "__" then none else some (.field (.ofName w) true)
  | .any => none
  | .group t => some (.computed t)
  | .template bytes pieces terms => some (.computed (.template bytes pieces terms))
  | .list [.embedded (.aliased key labels)] none => some (.pattern (some key) labels)
  | .list [.embedded labels] none => some (.pattern none labels)
  | _ => none

def Head.entry (other : Option String) (presence : Presence) (value : Term) : Head → Entry
  | .field label byName => .field other label byName presence value
  | .computed key => .computed other key presence value
  | .pattern key labels => .pattern other key labels value

def presenceMark : List Token → Presence × List Token
  | .question :: ts => (.optional, ts)
  | .operator .not :: ts => (.required, ts)
  | ts => (.member, ts)

/-- Reads something off a list of tokens; the fuel bounds its depth. -/
abbrev Parser (α : Type) := Nat → List Token → Option (α × List Token)

mutual
/-- Reads a term whose operators bind at least so strongly. -/
def parseTerm : Nat → Nat → List Token → Option (Term × List Token)
  | 0, _, _ => none
  | fuel + 1, strength, ts => do
    let (t, ts) ← parseUnary fuel ts
    parseOperators fuel strength t ts

def parseOperators : Nat → Nat → Term → List Token → Option (Term × List Token)
  | fuel + 1, strength, left, token :: ts =>
    match (infixOperator? token).bind fun o => o.strength.map fun s => (o, s) with
    | some (o, s) =>
      if strength ≤ s then do
        let (right, rest) ← parseTerm fuel (s + 1) ts
        parseOperators fuel strength (.binary o left right) rest
      else some (left, token :: ts)
    | none => some (left, token :: ts)
  | _, _, left, ts => some (left, ts)

def parseUnary : Parser Term
  | 0, _ => none
  | fuel + 1, .operator o :: ts =>
    if o.isUnary then (parseUnary fuel ts).map fun (t, rest) => (.unary o t, rest) else none
  | fuel + 1, ts => do
    let (t, ts) ← parseOperand fuel ts
    parseAccess fuel t ts

/-- Reads what is taken of a term: its fields and items, and the arguments of a function. -/
def parseAccess : Nat → Term → List Token → Option (Term × List Token)
  | fuel + 1, t, .dot :: .word w :: ts => if w = "_" then none else parseAccess fuel (.select t (.ofName w)) ts
  | fuel + 1, t, .dot :: .scalar (.text s) :: ts => parseAccess fuel (.select t (.regular s)) ts
  | fuel + 1, t, .openBracket :: .colon :: ts => parseSlice fuel t none ts
  | fuel + 1, t, .openBracket :: ts => do
    let (place, ts) ← parseTerm fuel 0 ts
    match ts with
    | .closeBracket :: ts => parseAccess fuel (.index t place) ts
    | .colon :: ts => parseSlice fuel t (some place) ts
    | _ => none
  | fuel + 1, t, .openParen :: ts => do
    let (args, ts) ← parseArguments fuel ts
    parseAccess fuel (.call t args) ts
  | _, _, .dot :: _ => none
  | _, t, ts => some (t, ts)

def parseSlice : Nat → Term → Option Term → List Token → Option (Term × List Token)
  | 0, _, _, _ => none
  | fuel + 1, t, first, .closeBracket :: ts => parseAccess fuel (.slice t first none) ts
  | fuel + 1, t, first, ts => do
    let (last, ts) ← parseTerm fuel 0 ts
    match ts with
    | .closeBracket :: ts => parseAccess fuel (.slice t first (some last)) ts
    | _ => none

def parseArguments : Parser (List Term)
  | _, .closeParen :: ts => some ([], ts)
  | 0, _ => none
  | fuel + 1, ts => do
    let (arg, ts) ← parseTerm fuel 0 ts
    match ts with
    | .comma _ :: ts =>
      let (args, ts) ← parseArguments fuel ts
      return (arg :: args, ts)
    | .closeParen :: ts => return ([arg], ts)
    | _ => none

def parseOperand : Parser Term
  | 0, _ => none
  | fuel + 1, ts =>
    match ts with
    | .scalar s :: ts => some (.scalar s, ts)
    | .template bytes pieces inside :: ts => do
      let terms ← inside.mapM (parseWhole fuel)
      return (.template bytes pieces terms, ts)
    | .bottom :: ts => some (.bottom, ts)
    | .word "null" :: ts => some (.scalar .null, ts)
    | .word "true" :: ts => some (.scalar (.truth true), ts)
    | .word "false" :: ts => some (.scalar (.truth false), ts)
    | .word "_" :: ts => some (.any, ts)
    | .word w :: ts => some (.name w, ts)
    | .openParen :: ts => do
      let (t, ts) ← parseTerm fuel 0 ts
      match ts with
      | .closeParen :: ts => return (.group t, ts)
      | _ => none
    | .openBracket :: ts => parseItems fuel [] ts
    | .openBrace :: ts => do
      let (entries, ts) ← parseEntries fuel ts
      match ts with
      | .closeBrace :: ts => return (.record entries, ts)
      | _ => none
    | _ => none

def parseWhole : Nat → List Token → Option Term
  | 0, _ => none
  | fuel + 1, ts => do
    match ← parseTerm fuel 0 ts with
    | (t, []) => return t
    | _ => none

/-- Reads the items of a list behind those that were read, which are given in reverse. Only a written comma separates
items. -/
def parseItems : Nat → List Entry → List Token → Option (Term × List Token)
  | _, items, .closeBracket :: ts => some (.list items.reverse none, ts)
  | _, items, .ellipsis :: .closeBracket :: ts => some (.list items.reverse (some .any), ts)
  | _, items, .ellipsis :: .comma _ :: .closeBracket :: ts => some (.list items.reverse (some .any), ts)
  | 0, _, _ => none
  | fuel + 1, items, .ellipsis :: ts => do
    let (more, ts) ← parseTerm fuel 0 ts
    match ts with
    | .closeBracket :: ts | .comma _ :: .closeBracket :: ts => return (.list items.reverse (some more), ts)
    | _ => none
  | fuel + 1, items, ts => do
    let (item, ts) ← parseItem fuel ts
    match ts with
    | .comma true :: ts => parseItems fuel (item :: items) ts
    | .closeBracket :: ts | .comma false :: .closeBracket :: ts => return (.list (item :: items).reverse none, ts)
    | _ => none

def parseItem : Parser Entry
  | 0, _ => none
  | fuel + 1, ts => do
    let starts := match ts with
      | .word "for" :: ts | .word "if" :: ts => !isNameHere ts
      | _ => false
    if starts then parseComprehension fuel [] ts
    else
      let (t, ts) ← parseTerm fuel 0 ts
      match t, ts with
      | .name w, .equals :: ts => (parseTerm fuel 0 ts).map fun (t, rest) => (.embedded (.aliased w t), rest)
      | t, ts => return (.embedded t, ts)

/-- Reads the clauses of a comprehension behind those that were read, which are given in reverse, and its
entries. -/
def parseComprehension : Nat → List Clause → List Token → Option (Entry × List Token)
  | 0, _, _ => none
  | fuel + 1, clauses, ts =>
    match ts with
    | .word "for" :: .word k :: .comma _ :: .word v :: .word "in" :: ts => do
      let (source, ts) ← parseTerm fuel 0 ts
      if isKeyword k ∨ isKeyword v then none
      else parseComprehension fuel (.each (some k) v source :: clauses) (afterComma ts)
    | .word "for" :: .word v :: .word "in" :: ts => do
      let (source, ts) ← parseTerm fuel 0 ts
      if isKeyword v then none else parseComprehension fuel (.each none v source :: clauses) (afterComma ts)
    | .word "if" :: ts => do
      let (condition, ts) ← parseTerm fuel 0 ts
      parseComprehension fuel (.provided condition :: clauses) (afterComma ts)
    | .word "let" :: .word w :: .equals :: ts => do
      let (value, ts) ← parseTerm fuel 0 ts
      if isKeyword w then none else parseComprehension fuel (.given w value :: clauses) (afterComma ts)
    | .openBrace :: ts => do
      let (entries, ts) ← parseEntries fuel ts
      match ts with
      | .closeBrace :: ts => return (.comprehension clauses.reverse entries, ts)
      | _ => none
    | _ => none

def parseNamed : Nat → List Token → Option (Option String × Term × List Token)
  | 0, _ => none
  | fuel + 1, ts => do
    let (t, ts) ← parseTerm fuel 0 ts
    match t, ts with
    | .name w, .equals :: ts => (parseTerm fuel 0 ts).map fun (t, rest) => (some w, t, rest)
    | t, ts => return (none, t, ts)

/-- Reads what stands behind the colon of a field: a term, or a further label for a record of one field. -/
def parseFieldValue : Parser Term
  | 0, _ => none
  | fuel + 1, ts => do
    let (other, t, rest) ← parseNamed fuel ts
    let (presence, behind) := presenceMark rest
    let isLabel := match rest with
      | .colon :: _ | .question :: _ | .operator .not :: _ => (head? t).isSome
      | _ => false
    if isLabel then
      match head? t, behind with
      | some head, .colon :: ts =>
        (parseFieldValue fuel ts).map fun (v, rest) => (.record [head.entry other presence v], rest)
      | _, _ => none
    else match other with
      | some w => return (.aliased w t, rest)
      | none => return (t, rest)

def parseEntries : Parser (List Entry)
  | _, [] => some ([], [])
  | _, .closeBrace :: ts => some ([], .closeBrace :: ts)
  | 0, _ => none
  | fuel + 1, .ellipsis :: ts => do
    let (entries, ts) ← parseEntries fuel (← afterEntry ts)
    return (.open :: entries, ts)
  | fuel + 1, .attribute :: ts => do parseEntries fuel (← afterEntry ts)
  | fuel + 1, ts => do
    let (entry, ts) ← parseEntry fuel ts
    let (entries, ts) ← parseEntries fuel (← afterEntry ts)
    return (entry :: entries, ts)

def parseEntry : Parser Entry
  | 0, _ => none
  | fuel + 1, ts =>
    match ts with
    | .word "let" :: .word w :: ts =>
      if isKeyword w then none
      else match ts with
        | .equals :: ts => (parseTerm fuel 0 ts).map fun (v, rest) => (.given w v, rest)
        | _ => none
    | .word "for" :: rest | .word "if" :: rest =>
      if isNameHere rest then parseFieldOrTerm fuel ts else parseComprehension fuel [] ts
    | ts => parseFieldOrTerm fuel ts

def parseFieldOrTerm : Parser Entry
  | 0, _ => none
  | fuel + 1, ts => do
    let (other, t, rest) ← parseNamed fuel ts
    let (presence, behind) := presenceMark rest
    match head? t, behind with
    | some head, .colon :: rest =>
      let (v, rest) ← parseFieldValue fuel rest
      return (head.entry other presence v, afterAttributes rest)
    | some _, behind =>
      if other.isSome then none
      else match behind with
        | .comma _ :: _ | .closeBrace :: _ | [] => return (.embedded t, behind)
        | _ => none
    | none, _ => if other.isSome then none else return (.embedded t, rest)
end

/-- The name that an import gives a package: the last part of its path, or what stands behind a colon in it. -/
def importName (path : String) : String :=
  match path.splitOn ":" with
  | [_, w] => w
  | _ => (path.splitOn "/").getLastD path

def importPath (path : String) : String := (path.splitOn ":").headD path

def parseImport : List Token → Option (Entry × List Token)
  | .word w :: .scalar (.text path) :: ts => some (.imported w (importPath path), ts)
  | .scalar (.text path) :: ts => some (.imported (importName path) (importPath path), ts)
  | _ => none

/-- Reads imports up to the closing parenthesis; the fuel bounds their number. -/
def parseImportGroup : Parser (List Entry)
  | _, .closeParen :: ts => some ([], ts)
  | 0, _ => none
  | fuel + 1, ts => do
    let (entry, ts) ← parseImport ts
    let ts ← match ts with
      | .comma _ :: ts => some ts
      | _ => none
    let (entries, ts) ← parseImportGroup fuel ts
    return (entry :: entries, ts)

def parseImports : Parser (List Entry)
  | 0, _ => none
  | fuel + 1, .word "import" :: ts => do
    let (entries, ts) ← match ts with
      | .openParen :: ts => parseImportGroup fuel ts
      | ts => (parseImport ts).map fun (entry, ts) => ([entry], ts)
    let ts ← afterEntry ts
    let (more, ts) ← parseImports fuel ts
    return (entries ++ more, ts)
  | _, ts => some ([], ts)

def afterAttributeEntries : List Token → List Token
  | .attribute :: .comma _ :: ts => afterAttributeEntries ts
  | ts => ts

/-- What follows the clause that names a package, if there is one. -/
def afterPackage : List Token → Option (List Token)
  | .word "package" :: .word w :: ts =>
    if isKeyword w ∨ w.startsWith "#" ∨ w.startsWith "_#" then none else afterEntry ts
  | .word "package" :: _ => none
  | ts => some ts

def parse (text : String) : Option (List Entry) := do
  let ts ← tokens text
  let fuel := 8 * text.length + 8
  let ts ← afterPackage (afterAttributeEntries ts)
  let (imports, ts) ← parseImports fuel (afterAttributeEntries ts)
  match ← parseEntries fuel ts with
  | (entries, []) => return imports ++ entries
  | _ => none

end Term

end HdlLowering.Contract
