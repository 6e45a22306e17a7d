import HdlLowering.Loc

/-!
# The interchange format

A design file has a version, a table of symbols, referred to by number, and a list of entities. Any field may be absent here;
`HdlLowering.Interchange.Build` decides which of them a node needs.
-/

namespace HdlLowering.Interchange

structure ExprSpec where
  op : String := ""
  loc : Loc := {}
  symbol : Int64 := 0
  value : String := ""
  signed : Bool := false
  width : Int64 := 0
  operator : String := ""
  expr : Option ExprSpec := none
  lhs : Option ExprSpec := none
  rhs : Option ExprSpec := none
  cond : Option ExprSpec := none
  yes : Option ExprSpec := none
  no : Option ExprSpec := none
  parts : List (Option ExprSpec) := []
  count : Option ExprSpec := none
  index : Option ExprSpec := none
  msb : Option ExprSpec := none
  lsb : Option ExprSpec := none
  field : String := ""
  func : Option ExprSpec := none
  args : List (Option ExprSpec) := []
  deriving Inhabited

mutual
structure TypeSpec where
  kind : String := ""
  width : Int64 := 0
  signed : Bool := false
  name : String := ""
  fields : List FieldSpec := []
  elem : Option TypeSpec := none
  size : Int64 := 0
  flow : String := ""
  storage : String := ""
  slices : List String := []
  depth : Option ExprSpec := none
  ports : List Int64 := []
  entity : Int64 := 0

structure FieldSpec where
  name : String := ""
  type : Option TypeSpec := none
end

deriving instance Inhabited for TypeSpec, FieldSpec

structure DeclSpec where
  symbol : Int64 := 0
  loc : Loc := {}
  init : Option ExprSpec := none
  deriving Inhabited

mutual
structure StmtSpec where
  stmt : String := ""
  loc : Loc := {}
  body : List (Option StmtSpec) := []
  cond : Option ExprSpec := none
  yes : List (Option StmtSpec) := []
  no : List (Option StmtSpec) := []
  expr : Option ExprSpec := none
  clauses : List (Option ClauseSpec) := []
  fallback : List (Option StmtSpec) := []
  target : String := ""
  lhs : Option ExprSpec := none
  rhs : Option ExprSpec := none
  decl : Option DeclSpec := none

structure ClauseSpec where
  loc : Loc := {}
  conds : List (Option ExprSpec) := []
  body : List (Option StmtSpec) := []
end

deriving instance Inhabited for StmtSpec, ClauseSpec

structure InstanceSpec where
  symbol : Int64 := 0
  entity : Int64 := 0
  loc : Loc := {}

structure ConnectSpec where
  loc : Loc := {}
  lhs : Option ExprSpec := none
  rhs : List (Option ExprSpec) := []

structure EntitySpec where
  symbol : Int64 := 0
  loc : Loc := {}
  decls : List (Option DeclSpec) := []
  entities : List (Option EntitySpec) := []
  instances : List (Option InstanceSpec) := []
  connects : List (Option ConnectSpec) := []
  stmts : List (Option StmtSpec) := []

structure SymbolSpec where
  id : Int64 := 0
  name : String := ""
  cls : String := ""
  loc : Loc := {}
  type : Option TypeSpec := none

structure File where
  version : Int64 := 0
  symbols : List SymbolSpec := []
  entities : List (Option EntitySpec) := []

end HdlLowering.Interchange
