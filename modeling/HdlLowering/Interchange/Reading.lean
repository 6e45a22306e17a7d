import HdlLowering.Json.Fields
import HdlLowering.Json.Reader
import HdlLowering.Interchange.Spec

/-!
# Reading a design file

`File.parse` refuses text that is not JSON and fields of the wrong form; it does not ask whether the file makes sense. A
reader of nested things takes a depth, for which the depth of the document is enough.
-/

namespace HdlLowering.Interchange

open Json (Members readInt readString readRecord readOptional readList)

def readLoc (ms : Members) : Option Loc :=
  return { file := ← ms.text "file", line := ← ms.int "line", col := ← ms.int "col" }

def readExpr : Nat → Members → Option ExprSpec
  | 0, _ => none
  | depth + 1, ms => return {
      op := ← ms.text "op"
      loc := ← ms.record readLoc "loc"
      symbol := ← ms.int "symbol"
      value := ← ms.text "value"
      signed := ← ms.truth "signed"
      width := ← ms.int "width"
      operator := ← ms.text "operator"
      expr := ← ms.optional (readExpr depth) "expr"
      lhs := ← ms.optional (readExpr depth) "lhs"
      rhs := ← ms.optional (readExpr depth) "rhs"
      cond := ← ms.optional (readExpr depth) "cond"
      yes := ← ms.optional (readExpr depth) "then"
      no := ← ms.optional (readExpr depth) "else"
      parts := ← ms.optionals (readExpr depth) "parts"
      count := ← ms.optional (readExpr depth) "count"
      index := ← ms.optional (readExpr depth) "index"
      msb := ← ms.optional (readExpr depth) "msb"
      lsb := ← ms.optional (readExpr depth) "lsb"
      field := ← ms.text "field"
      func := ← ms.optional (readExpr depth) "func"
      args := ← ms.optionals (readExpr depth) "args" }

def readField (readType : Members → Option TypeSpec) (ms : Members) : Option FieldSpec :=
  return { name := ← ms.text "name", type := ← ms.optional readType "type" }

def readType : Nat → Members → Option TypeSpec
  | 0, _ => none
  | depth + 1, ms => return {
      kind := ← ms.text "kind"
      width := ← ms.int "width"
      signed := ← ms.truth "signed"
      name := ← ms.text "name"
      fields := ← ms.list (readRecord (readField (readType depth))) "fields"
      elem := ← ms.optional (readType depth) "elem"
      size := ← ms.int "size"
      flow := ← ms.text "flow"
      storage := ← ms.text "storage"
      slices := ← ms.list readString "slices"
      depth := ← ms.optional (readExpr depth) "depth"
      ports := ← ms.list readInt "ports"
      entity := ← ms.int "entity" }

def readDecl (depth : Nat) (ms : Members) : Option DeclSpec :=
  return { symbol := ← ms.int "symbol", loc := ← ms.record readLoc "loc", init := ← ms.optional (readExpr depth) "init" }

def readClause (depth : Nat) (readStmt : Members → Option StmtSpec) (ms : Members) : Option ClauseSpec :=
  return {
    loc := ← ms.record readLoc "loc"
    conds := ← ms.optionals (readExpr depth) "conds"
    body := ← ms.optionals readStmt "body" }

def readStmt : Nat → Members → Option StmtSpec
  | 0, _ => none
  | depth + 1, ms => return {
      stmt := ← ms.text "stmt"
      loc := ← ms.record readLoc "loc"
      body := ← ms.optionals (readStmt depth) "body"
      cond := ← ms.optional (readExpr depth) "cond"
      yes := ← ms.optionals (readStmt depth) "then"
      no := ← ms.optionals (readStmt depth) "else"
      expr := ← ms.optional (readExpr depth) "expr"
      clauses := ← ms.optionals (readClause depth (readStmt depth)) "clauses"
      fallback := ← ms.optionals (readStmt depth) "default"
      target := ← ms.text "target"
      lhs := ← ms.optional (readExpr depth) "lhs"
      rhs := ← ms.optional (readExpr depth) "rhs"
      decl := ← ms.optional (readDecl depth) "decl" }

def readInstance (ms : Members) : Option InstanceSpec :=
  return { symbol := ← ms.int "symbol", entity := ← ms.int "entity", loc := ← ms.record readLoc "loc" }

def readConnect (depth : Nat) (ms : Members) : Option ConnectSpec :=
  return {
    loc := ← ms.record readLoc "loc"
    lhs := ← ms.optional (readExpr depth) "lhs"
    rhs := ← ms.optionals (readExpr depth) "rhs" }

def readEntity : Nat → Members → Option EntitySpec
  | 0, _ => none
  | depth + 1, ms => return {
      symbol := ← ms.int "symbol"
      loc := ← ms.record readLoc "loc"
      decls := ← ms.optionals (readDecl depth) "decls"
      entities := ← ms.optionals (readEntity depth) "entities"
      instances := ← ms.optionals readInstance "instances"
      connects := ← ms.optionals (readConnect depth) "connects"
      stmts := ← ms.optionals (readStmt depth) "stmts" }

def readSymbol (depth : Nat) (ms : Members) : Option SymbolSpec :=
  return {
    id := ← ms.int "id"
    name := ← ms.text "name"
    cls := ← ms.text "class"
    loc := ← ms.record readLoc "loc"
    type := ← ms.optional (readType depth) "type" }

def readFile (depth : Nat) (ms : Members) : Option File :=
  return {
    version := ← ms.int "version"
    symbols := ← ms.list (readRecord (readSymbol depth)) "symbols"
    entities := ← ms.optionals (readEntity depth) "entities" }

/-! ### Documents -/

def Loc.read (j : Json) : Option Loc := readRecord readLoc [j]

def ExprSpec.read (j : Json) : Option (Option ExprSpec) := readOptional (readExpr j.depth) [j]

def ExprSpec.readAll (j : Json) : Option (List (Option ExprSpec)) := readList (readOptional (readExpr j.depth)) [j]

def TypeSpec.read (j : Json) : Option (Option TypeSpec) := readOptional (readType j.depth) [j]

def SymbolSpec.readAll (j : Json) : Option (List SymbolSpec) := readList (readRecord (readSymbol j.depth)) [j]

def File.read (j : Json) : Option File := readRecord (readFile j.depth) [j]

def File.parse (text : String) : Option File := (Json.parse text).bind File.read

end HdlLowering.Interchange
