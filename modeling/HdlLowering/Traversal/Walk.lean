import HdlLowering.Traversal.Pass
import HdlLowering.Tree.Text

/-!
# Walking a design

A walk applies a pass to a node and everything below it, children before their parent. It gives `none` when the very same node
still stands there; a parent is built anew only when a child changed, and shares every child that did not.

What takes the place of an element of a list is spliced in; where a single node stands, anything but one node of the right
form is an error of the pass.
-/

namespace HdlLowering

open ContextM Expr Pass

variable {σ : Type}

namespace Pass

/-- A step inside a node that was entered: when it aborts, the node is unwound. -/
def guarded {α : Type} (p : Pass σ) (n : Node) (x : PassM σ α) : PassM σ α := fun s =>
  match x s with
  | .ok a s' => .ok a s'
  | .error e s' =>
    match p.unwind with
    | some unwind => .error e { s' with own := unwind n s'.own }
    | none => .error e s'

/-- Visits a node whose children are walked by a step that gives the node with its new children, or nothing when
none changed. -/
def visit (p : Pass σ) (n : Node) (children : PassM σ (Option Node)) : PassM σ (Option Forest) := do
  if ← p.skip n then
    return none
  p.enter n
  p.guarded n do
    let rebuilt ← children
    match ← p.transform (rebuilt.getD n) with
    | .keep => return rebuilt.map .node
    | .put f => return some f

def asExpr (p : Pass σ) (e : Expr) : Option Forest → PassM σ (Option Expr)
  | none => return none
  | some (.node (.expr x)) => return some x
  | some f => do
    internal (.replacedExpr p.name (e.text (← PassM.symbols)) f.found)

mutual
/-- The nodes of a forest in order, each of the form that the list holds. -/
def splice {α : Type} (p : Pass σ) (wanted : String) (pick : Node → Option α) : Forest → PassM σ (List α)
  | .nothing => return []
  | .node n =>
    match pick n with
    | some a => return [a]
    | none => internal (.misplaced p.name ("*ast." ++ n.variant) wanted)
  | .several fs => spliceList p wanted pick fs

def spliceList {α : Type} (p : Pass σ) (wanted : String) (pick : Node → Option α) : List Forest → PassM σ (List α)
  | [] => return []
  | f :: fs => do
    let xs ← splice p wanted pick f
    let ys ← spliceList p wanted pick fs
    return xs ++ ys
end

/-- The result of a walk of an element of a list: the elements that take its place, or nothing when it stays. -/
def spliced {α : Type} (p : Pass σ) (wanted : String) (pick : Node → Option α) : Option Forest → PassM σ (Option (List α))
  | none => return none
  | some f => return some (← p.splice wanted pick f)

def joined {α : Type} (x : α) (xs : List α) : Option (List α) → Option (List α) → Option (List α)
  | none, none => none
  | head, rest => some (head.getD [x] ++ rest.getD xs)

def walkEach {α : Type} (p : Pass σ) (wanted : String) (pick : Node → Option α) (walk : α → PassM σ (Option Forest)) :
    List α → PassM σ (Option (List α))
  | [] => return none
  | x :: xs => do
    let head ← p.spliced wanted pick (← walk x)
    let rest ← walkEach p wanted pick walk xs
    return joined x xs head rest

end Pass

namespace Node

def entity? : Node → Option Entity
  | .entity e => some e
  | _ => none

def decl? : Node → Option Decl
  | .decl d => some d
  | _ => none

def inst? : Node → Option Instance
  | .inst i => some i
  | _ => none

def connect? : Node → Option Connect
  | .connect c => some c
  | _ => none

def clause? : Node → Option Clause
  | .clause c => some c
  | _ => none

def stmt? : Node → Option Stmt
  | .stmt s => some s
  | _ => none

def expr? : Node → Option Expr
  | .expr e => some e
  | _ => none

end Node

/-- A node built from two parts, of which at least one changed. -/
def rebuilt2 {α β γ : Type} (f : α → β → γ) (a : α) (b : β) : Option α → Option β → Option γ
  | none, none => none
  | a', b' => some (f (a'.getD a) (b'.getD b))

def rebuilt3 {α β γ δ : Type} (f : α → β → γ → δ) (a : α) (b : β) (c : γ) : Option α → Option β → Option γ → Option δ
  | none, none, none => none
  | a', b', c' => some (f (a'.getD a) (b'.getD b) (c'.getD c))

variable (p : Pass σ)

mutual
def Expr.walk : Expr → PassM σ (Option Forest)
  | .ref l s => p.visit (.expr (.ref l s)) (pure none)
  | .num l signed v => p.visit (.expr (.num l signed v)) (pure none)
  | .int l signed w v => p.visit (.expr (.int l signed w v)) (pure none)
  | .unary l op x => p.visit (.expr (.unary l op x)) do
    let x' ← p.asExpr x (← walk x)
    return x'.map fun x => .expr (.unary l op x)
  | .binary l op x y => p.visit (.expr (.binary l op x y)) do
    let x' ← p.asExpr x (← walk x)
    let y' ← p.asExpr y (← walk y)
    return rebuilt2 (fun x y => .expr (.binary l op x y)) x y x' y'
  | .ternary l c x y => p.visit (.expr (.ternary l c x y)) do
    let c' ← p.asExpr c (← walk c)
    let x' ← p.asExpr x (← walk x)
    let y' ← p.asExpr y (← walk y)
    return rebuilt3 (fun c x y => .expr (.ternary l c x y)) c x y c' x' y'
  | .cat l ps => p.visit (.expr (.cat l ps)) do
    let ps' ← walkList ps
    return ps'.map fun ps => .expr (.cat l ps)
  | .rep l n x => p.visit (.expr (.rep l n x)) do
    let n' ← p.asExpr n (← walk n)
    let x' ← p.asExpr x (← walk x)
    return rebuilt2 (fun n x => .expr (.rep l n x)) n x n' x'
  | .index l x i => p.visit (.expr (.index l x i)) do
    let x' ← p.asExpr x (← walk x)
    let i' ← p.asExpr i (← walk i)
    return rebuilt2 (fun x i => .expr (.index l x i)) x i x' i'
  | .slice l x m n => p.visit (.expr (.slice l x m n)) do
    let x' ← p.asExpr x (← walk x)
    let m' ← p.asExpr m (← walk m)
    let n' ← p.asExpr n (← walk n)
    return rebuilt3 (fun x m n => .expr (.slice l x m n)) x m n x' m' n'
  | .select l x f => p.visit (.expr (.select l x f)) do
    let x' ← p.asExpr x (← walk x)
    return x'.map fun x => .expr (.select l x f)
  | .call l f as => p.visit (.expr (.call l f as)) do
    let f' ← p.asExpr f (← walk f)
    let as' ← walkList as
    return rebuilt2 (fun f as => .expr (.call l f as)) f as f' as'

def Expr.walkList : List Expr → PassM σ (Option (List Expr))
  | [] => return none
  | e :: es => do
    let head ← p.spliced "<nil>" Node.expr? (← walk e)
    let rest ← walkList es
    return joined e es head rest
end

def Decl.walk (d : Decl) : PassM σ (Option Forest) :=
  p.visit (.decl d) do
    match d.init with
    | none => return none
    | some e =>
      let e' ← p.asExpr e (← e.walk p)
      return e'.map fun e => .decl { d with init := some e }

def Instance.walk (i : Instance) : PassM σ (Option Forest) := p.visit (.inst i) (pure none)

def Connect.walk (c : Connect) : PassM σ (Option Forest) :=
  p.visit (.connect c) do
    let source' ← p.asExpr c.source (← c.source.walk p)
    let sinks' ← walkList p c.sinks
    return rebuilt2 (fun source sinks => .connect ⟨c.loc, source, sinks⟩) c.source c.sinks source' sinks'

def Pass.asDecl : Option Forest → PassM σ (Option Decl)
  | none => return none
  | some (.node (.decl d)) => return some d
  | some f => internal (.replacedLocal p.name f.found)

mutual
def Stmt.walk : Stmt → PassM σ (Option Forest)
  | .block l b => p.visit (.stmt (.block l b)) do
    let b' ← Stmt.walkList b
    return b'.map fun b => .stmt (.block l b)
  | .cond l c t e => p.visit (.stmt (.cond l c t e)) do
    let c' ← p.asExpr c (← c.walk p)
    let t' ← Stmt.walkList t
    let e' ← Stmt.walkList e
    return rebuilt3 (fun c t e => .stmt (.cond l c t e)) c t e c' t' e'
  | .case l x cs d => p.visit (.stmt (.case l x cs d)) do
    let x' ← p.asExpr x (← x.walk p)
    let cs' ← Clause.walkList cs
    let d' ← Stmt.walkDefault d
    return rebuilt3 (fun x cs d => .stmt (.case l x cs d)) x cs d x' cs' d'
  | .loop l b => p.visit (.stmt (.loop l b)) do
    let b' ← Stmt.walkList b
    return b'.map fun b => .stmt (.loop l b)
  | .assign l x y => p.visit (.stmt (.assign l x y)) do
    let x' ← p.asExpr x (← x.walk p)
    let y' ← p.asExpr y (← y.walk p)
    return rebuilt2 (fun x y => .stmt (.assign l x y)) x y x' y'
  | .expr l e => p.visit (.stmt (.expr l e)) do
    let e' ← p.asExpr e (← e.walk p)
    return e'.map fun e => .stmt (.expr l e)
  | .decl l d => p.visit (.stmt (.decl l d)) do
    let d' ← p.asDecl (← d.walk p)
    return d'.map fun d => .stmt (.decl l d)
  | .stall l c => p.visit (.stmt (.stall l c)) do
    let c' ← p.asExpr c (← c.walk p)
    return c'.map fun c => .stmt (.stall l c)
  | .goto l t => p.visit (.stmt (.goto l t)) (pure none)
  | .fence l => p.visit (.stmt (.fence l)) (pure none)
  | .break l => p.visit (.stmt (.break l)) (pure none)
  | .continue l => p.visit (.stmt (.continue l)) (pure none)
  | .read l => p.visit (.stmt (.read l)) (pure none)
  | .write l => p.visit (.stmt (.write l)) (pure none)

def Stmt.walkList : List Stmt → PassM σ (Option (List Stmt))
  | [] => return none
  | s :: ss => do
    let head ← p.spliced "<nil>" Node.stmt? (← Stmt.walk s)
    let rest ← Stmt.walkList ss
    return joined s ss head rest

/-- Walks the default arm of a case statement; a default arm that is emptied is still there. -/
def Stmt.walkDefault : Option (List Stmt) → PassM σ (Option (Option (List Stmt)))
  | none => return none
  | some b => do
    let b' ← Stmt.walkList b
    return b'.map some

def Clause.walk : Clause → PassM σ (Option Forest)
  | { loc, conds, body } => p.visit (.clause ⟨loc, conds, body⟩) do
    let conds' ← Expr.walkList p conds
    let body' ← Stmt.walkList body
    return rebuilt2 (fun conds body => .clause ⟨loc, conds, body⟩) conds body conds' body'

def Clause.walkList : List Clause → PassM σ (Option (List Clause))
  | [] => return none
  | c :: cs => do
    let head ← p.spliced "*ast.CaseClause" Node.clause? (← Clause.walk c)
    let rest ← Clause.walkList cs
    return joined c cs head rest
end

def Entity.rebuilt (e : Entity) (decls : Option (List Decl)) (entities : Option (List Entity))
    (instances : Option (List Instance)) (connects : Option (List Connect)) (stmts : Option (List Stmt)) : Option Entity :=
  if decls.isNone && entities.isNone && instances.isNone && connects.isNone && stmts.isNone then none
  else some { e with
    decls := decls.getD e.decls
    entities := entities.getD e.entities
    instances := instances.getD e.instances
    connects := connects.getD e.connects
    stmts := stmts.getD e.stmts }

mutual
/-- Walks an entity: its declarations, nested entities, instances, connections and statements. -/
def Entity.walk : Entity → PassM σ (Option Forest)
  | { loc, symbol, decls, entities, instances, connects, stmts } =>
    p.visit (.entity ⟨loc, symbol, decls, entities, instances, connects, stmts⟩) do
      let decls' ← p.walkEach "*ast.Decl" Node.decl? (Decl.walk p) decls
      let entities' ← Entity.walkList entities
      let instances' ← p.walkEach "*ast.Instance" Node.inst? (Instance.walk p) instances
      let connects' ← p.walkEach "*ast.Connect" Node.connect? (Connect.walk p) connects
      let stmts' ← Stmt.walkList p stmts
      return (Entity.rebuilt ⟨loc, symbol, decls, entities, instances, connects, stmts⟩ decls' entities' instances' connects'
        stmts').map .entity

def Entity.walkList : List Entity → PassM σ (Option (List Entity))
  | [] => return none
  | e :: es => do
    let head ← p.spliced "*ast.Entity" Node.entity? (← Entity.walk e)
    let rest ← Entity.walkList es
    return joined e es head rest
end

def Root.walk (r : Root) : PassM σ (Option Forest) :=
  p.visit (.root r) do
    let entities' ← Entity.walkList p r.entities
    return entities'.map fun entities => .root { r with entities }

def Node.walk : Node → PassM σ (Option Forest)
  | .root r => r.walk p
  | .entity e => e.walk p
  | .decl d => d.walk p
  | .inst i => i.walk p
  | .connect c => c.walk p
  | .clause c => c.walk p
  | .stmt s => s.walk p
  | .expr e => e.walk p

namespace Pass

/-- Applies a pass to a whole design and checks the result when the compilation asks for it. The result is
`none` when the design is left as it is. -/
def apply (r : Root) : PassM σ (Option Root) := do
  let out ← match ← r.walk p with
    | none => pure none
    | some (.node (.root r')) => pure (some r')
    | some f => internal (.replacedRoot p.name f.found)
  if (← get).ctx.checkTrees then
    p.defaultCheck r (out.getD r)
    p.finalCheck (out.getD r)
  return out

def run (r : Root) : PassM σ (Option Root) := do
  setPass p.name
  p.apply r

end Pass

end HdlLowering
