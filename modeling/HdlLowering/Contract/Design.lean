import HdlLowering.Contract.Schema

/-!
# The contract of design files

Which fields a node may have, which words name forms, and which numbers are possible. Whether the fields that a node needs
are there is not part of it.
-/

namespace HdlLowering.Contract

open Schema in
def designSchema : List Entry :=
  let id : Term := .name "#ID"
  let loc : Entry := may "loc" (.name "#Loc")
  let type : Term := .name "#Type"
  let expr : Term := .name "#Expr"
  let stmts : Term := listOf (.name "#Stmt")
  [definition "#ID" (wholeFrom 1),
    form "#Loc" [may "file" anyText, may "line" (wholeFrom 0), may "col" (wholeFrom 0)],
    form "#Symbol" [has "id" id, has "name" filledText, has "class" (oneOf ["term", "type"]), loc, has "type" type],
    definition "#Flow" (oneOf ["none", "valid", "ready"]),
    definition "#Slice" (oneOf ["fslice", "bslice", "bubble"]),
    form "#Type"
      [has "kind" (oneOf ["uint", "sint", "num", "void", "struct", "array", "in", "out", "const", "pipeline", "stack", "entity",
          "instance"]),
        may "width" (wholeFrom 1), may "signed" truth, may "name" anyText, may "fields" (listOf (.name "#Field")),
        may "elem" type, may "size" (wholeFrom 1), may "flow" (.name "#Flow"), may "storage" (oneOf ["reg", "wire", "slices"]),
        may "slices" (listOf (.name "#Slice")), may "depth" expr, may "ports" (listOf id), may "entity" id],
    form "#Field" [has "name" filledText, has "type" type],
    form "#Expr"
      [has "op" (oneOf ["ref", "num", "int", "unary", "binary", "ternary", "cat", "rep", "index", "slice", "select", "call"]),
        loc, may "symbol" id, may "value" (like "^-?[0-9]+$"), may "signed" truth, may "width" (wholeFrom 1),
        may "operator" anyText, may "expr" expr, may "lhs" expr, may "rhs" expr, may "cond" expr, may "then" expr,
        may "else" expr, may "parts" (listOf expr), may "count" expr, may "index" expr, may "msb" expr, may "lsb" expr,
        may "field" anyText, may "func" expr, may "args" (listOf expr)],
    form "#Decl" [has "symbol" id, loc, may "init" expr],
    form "#Stmt"
      [has "stmt" (oneOf ["block", "if", "case", "loop", "goto", "fence", "break", "continue", "assign", "expr", "read", "write",
          "decl", "stall"]),
        loc, may "body" stmts, may "cond" expr, may "then" stmts, may "else" stmts, may "expr" expr,
        may "clauses" (listOf (.name "#Clause")), may "default" stmts, may "target" anyText, may "lhs" expr, may "rhs" expr,
        may "decl" (.name "#Decl")],
    form "#Clause" [loc, has "conds" (listOf expr), has "body" stmts],
    form "#Instance" [has "symbol" id, has "entity" id, loc],
    form "#Connect" [loc, has "lhs" expr, has "rhs" (filledListOf expr)],
    form "#Entity"
      [has "symbol" id, loc, may "decls" (listOf (.name "#Decl")), may "entities" (listOf (.name "#Entity")),
        may "instances" (listOf (.name "#Instance")), may "connects" (listOf (.name "#Connect")), may "stmts" stmts],
    form "#Design"
      [has "version" (.scalar (.whole 1)), has "symbols" (listOf (.name "#Symbol")), has "entities" (listOf (.name "#Entity"))]]

def designAdmits (text : String) : Bool := admitsText designSchema "#Design" text

end HdlLowering.Contract
