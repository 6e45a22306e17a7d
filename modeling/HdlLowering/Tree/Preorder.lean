import HdlLowering.SymbolSet
import HdlLowering.Tree

/-!
# What a design contains

`Node.nodes` lists a node before its children, and children as they are written: of an entity its declarations, nested
entities, instances, connections and statements. References, uses and written symbols are read off that list.
-/

namespace HdlLowering

def Expr.nodes (e : Expr) : List Node := e.subterms.map .expr

def Expr.nodesList (es : List Expr) : List Node := es.flatMap Expr.nodes

def Decl.nodes (d : Decl) : List Node :=
  .decl d :: match d.init with
    | some e => e.nodes
    | none => []

def Connect.nodes (c : Connect) : List Node := .connect c :: (c.source.nodes ++ Expr.nodesList c.sinks)

mutual
def Stmt.nodes : Stmt → List Node
  | .block l b => .stmt (.block l b) :: Stmt.nodesList b
  | .cond l c t e => .stmt (.cond l c t e) :: (c.nodes ++ Stmt.nodesList t ++ Stmt.nodesList e)
  | .case l x cs d => .stmt (.case l x cs d) :: (x.nodes ++ Clause.nodesList cs ++ Stmt.nodesDefault d)
  | .loop l b => .stmt (.loop l b) :: Stmt.nodesList b
  | .assign l x y => .stmt (.assign l x y) :: (x.nodes ++ y.nodes)
  | .expr l e => .stmt (.expr l e) :: e.nodes
  | .decl l d => .stmt (.decl l d) :: d.nodes
  | .stall l c => .stmt (.stall l c) :: c.nodes
  | .goto l t => [.stmt (.goto l t)]
  | .fence l => [.stmt (.fence l)]
  | .break l => [.stmt (.break l)]
  | .continue l => [.stmt (.continue l)]
  | .read l => [.stmt (.read l)]
  | .write l => [.stmt (.write l)]

def Stmt.nodesList : List Stmt → List Node
  | [] => []
  | s :: ss => s.nodes ++ Stmt.nodesList ss

def Stmt.nodesDefault : Option (List Stmt) → List Node
  | none => []
  | some b => Stmt.nodesList b

def Clause.nodes : Clause → List Node
  | { loc, conds, body } => .clause ⟨loc, conds, body⟩ :: (Expr.nodesList conds ++ Stmt.nodesList body)

def Clause.nodesList : List Clause → List Node
  | [] => []
  | c :: cs => c.nodes ++ Clause.nodesList cs
end

/-- The nodes of an entity that belong to no entity nested in it, without the entity itself. -/
def Entity.ownNodes (e : Entity) : List Node :=
  e.decls.flatMap Decl.nodes ++ e.instances.map .inst ++ e.connects.flatMap Connect.nodes ++ Stmt.nodesList e.stmts

mutual
def Entity.nodes : Entity → List Node
  | { loc, symbol, decls, entities, instances, connects, stmts } =>
    .entity ⟨loc, symbol, decls, entities, instances, connects, stmts⟩ ::
      (decls.flatMap Decl.nodes ++ Entity.nodesList entities ++ instances.map .inst ++
        connects.flatMap Connect.nodes ++ Stmt.nodesList stmts)

def Entity.nodesList : List Entity → List Node
  | [] => []
  | e :: es => e.nodes ++ Entity.nodesList es
end

def Root.nodes (r : Root) : List Node := .root r :: Entity.nodesList r.entities

/-- A node and everything below it, a node before its children. -/
def Node.nodes : Node → List Node
  | .root r => r.nodes
  | .entity e => e.nodes
  | .decl d => d.nodes
  | .inst i => [.inst i]
  | .connect c => c.nodes
  | .clause c => c.nodes
  | .stmt s => s.nodes
  | .expr e => e.nodes

def Root.allEntities (r : Root) : List Entity :=
  r.nodes.filterMap fun
    | .entity e => some e
    | _ => none

def Node.stmts (ns : List Node) : List Stmt :=
  ns.filterMap fun
    | .stmt s => some s
    | _ => none

/-- A reference to a symbol and where it stands. -/
structure Use where
  symbol : Symbol
  loc : Loc
  deriving DecidableEq

def Node.references (ns : List Node) : List Use :=
  ns.filterMap fun
    | .expr (.ref l s) => some ⟨s, l⟩
    | _ => none

def Use.firsts (seen : List Symbol) : List Use → List Use
  | [] => []
  | u :: us => if seen.contains u.symbol then Use.firsts seen us else u :: Use.firsts (u.symbol :: seen) us

/-- The first reference to each symbol among some nodes. -/
def Node.uses (ns : List Node) : List Use := Use.firsts [] (Node.references ns)

def Node.refs (ns : List Node) : List Symbol := (Node.uses ns).map (·.symbol)

def Node.writes : Node → List Symbol
  | .stmt (.assign _ lhs _) => lhs.roots
  | .stmt (.decl _ d) => [d.symbol]
  | _ => []

def SymbolTable.written (Γ : SymbolTable) (ss : List Stmt) : SymbolSet :=
  Γ.setOf ((Stmt.nodesList ss).flatMap Node.writes)

end HdlLowering
