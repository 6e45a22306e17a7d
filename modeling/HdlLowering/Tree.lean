import HdlLowering.Expr

/-!
# Designs

A design is a list of entities. An entity declares ports, constants and variables, nests entities, instantiates entities,
wires sources to sinks and has a body of statements. `Node` is any part of a design that a pass visits.
-/

namespace HdlLowering

structure Decl where
  loc : Loc
  symbol : Symbol
  init : Option Expr := none
  deriving Repr, Inhabited, BEq

structure Instance where
  loc : Loc
  symbol : Symbol
  entity : Symbol
  deriving Repr, Inhabited, BEq, DecidableEq

structure Connect where
  loc : Loc
  source : Expr
  sinks : List Expr
  deriving Repr, Inhabited, BEq

mutual
/-- A statement of a body. The default arm of a case statement may be absent, which is not the same as empty. -/
inductive Stmt where
  | block (loc : Loc) (body : List Stmt)
  | cond (loc : Loc) (test : Expr) (yes no : List Stmt)
  | case (loc : Loc) (subject : Expr) (clauses : List Clause) (fallback : Option (List Stmt))
  | loop (loc : Loc) (body : List Stmt)
  | goto (loc : Loc) (target : String)
  | fence (loc : Loc)
  | break (loc : Loc)
  | continue (loc : Loc)
  | assign (loc : Loc) (lhs rhs : Expr)
  | expr (loc : Loc) (e : Expr)
  | read (loc : Loc)
  | write (loc : Loc)
  | decl (loc : Loc) (d : Decl)
  | stall (loc : Loc) (test : Expr)

/-- An arm of a case statement: taken when one of its conditions equals the subject. -/
structure Clause where
  loc : Loc
  conds : List Expr
  body : List Stmt
end

deriving instance Repr, Inhabited, BEq for Stmt, Clause

def Stmt.loc : Stmt → Loc
  | .block l .. | .cond l .. | .case l .. | .loop l .. | .goto l .. | .fence l | .break l | .continue l | .assign l ..
  | .expr l .. | .read l | .write l | .decl l .. | .stall l .. => l

structure Entity where
  loc : Loc
  symbol : Symbol
  decls : List Decl := []
  entities : List Entity := []
  instances : List Instance := []
  connects : List Connect := []
  stmts : List Stmt := []
  deriving Repr, Inhabited, BEq

def Entity.declOf? (e : Entity) (s : Symbol) : Option Decl := e.decls.find? (·.symbol == s)

structure Root where
  loc : Loc := {}
  entities : List Entity := []
  deriving Repr, Inhabited, BEq

/-- Any part of a design that a pass visits. -/
inductive Node where
  | root (r : Root)
  | entity (e : Entity)
  | decl (d : Decl)
  | inst (i : Instance)
  | connect (c : Connect)
  | clause (c : Clause)
  | stmt (s : Stmt)
  | expr (e : Expr)
  deriving Repr, BEq

def Expr.variant : Expr → String
  | .ref .. => "ExprRef"
  | .num .. => "ExprNum"
  | .int .. => "ExprInt"
  | .unary .. => "ExprUnary"
  | .binary .. => "ExprBinary"
  | .ternary .. => "ExprTernary"
  | .cat .. => "ExprCat"
  | .rep .. => "ExprRep"
  | .index .. => "ExprIndex"
  | .slice .. => "ExprSlice"
  | .select .. => "ExprSelect"
  | .call .. => "ExprCall"

def Stmt.variant : Stmt → String
  | .block .. => "StmtBlock"
  | .cond .. => "StmtIf"
  | .case .. => "StmtCase"
  | .loop .. => "StmtLoop"
  | .goto .. => "StmtGoto"
  | .fence .. => "StmtFence"
  | .break .. => "StmtBreak"
  | .continue .. => "StmtContinue"
  | .assign .. => "StmtAssign"
  | .expr .. => "StmtExpr"
  | .read .. => "StmtRead"
  | .write .. => "StmtWrite"
  | .decl .. => "StmtDecl"
  | .stall .. => "StmtStall"

def Node.variant : Node → String
  | .root _ => "Root"
  | .entity _ => "Entity"
  | .decl _ => "Decl"
  | .inst _ => "Instance"
  | .connect _ => "Connect"
  | .clause _ => "CaseClause"
  | .stmt s => s.variant
  | .expr e => e.variant

def Node.loc : Node → Loc
  | .root r => r.loc
  | .entity e => e.loc
  | .decl d => d.loc
  | .inst i => i.loc
  | .connect c => c.loc
  | .clause c => c.loc
  | .stmt s => s.loc
  | .expr e => e.loc

end HdlLowering
