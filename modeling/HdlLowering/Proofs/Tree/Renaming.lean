import HdlLowering.Proofs.Tree.Children
import HdlLowering.Traversal.Substitution
import Mathlib.Data.List.Basic

/-!
# Renaming references

`Expr.renamed`, `Stmt.renamed` and their like send every reference in a tree to the symbol that a map has for it.
-/

namespace HdlLowering

open List Node

variable (m : Substitution)

def Substitution.rename (s : Symbol) : Symbol := (m.lookup s).getD s

mutual
def Expr.renamed (m : Substitution) : Expr → Expr
  | .ref l s => .ref l (m.rename s)
  | .num l signed v => .num l signed v
  | .int l signed w v => .int l signed w v
  | .unary l op x => .unary l op (Expr.renamed m x)
  | .binary l op x y => .binary l op (Expr.renamed m x) (Expr.renamed m y)
  | .ternary l c x y => .ternary l (Expr.renamed m c) (Expr.renamed m x) (Expr.renamed m y)
  | .cat l ps => .cat l (Expr.renamedList m ps)
  | .rep l n x => .rep l (Expr.renamed m n) (Expr.renamed m x)
  | .index l x i => .index l (Expr.renamed m x) (Expr.renamed m i)
  | .slice l x msb lsb => .slice l (Expr.renamed m x) (Expr.renamed m msb) (Expr.renamed m lsb)
  | .select l x f => .select l (Expr.renamed m x) f
  | .call l f as => .call l (Expr.renamed m f) (Expr.renamedList m as)

def Expr.renamedList (m : Substitution) : List Expr → List Expr
  | [] => []
  | e :: es => Expr.renamed m e :: Expr.renamedList m es
end

def Decl.renamed (d : Decl) : Decl := { d with init := d.init.map (Expr.renamed m) }

def Connect.renamed (c : Connect) : Connect :=
  ⟨c.loc, c.source.renamed m, Expr.renamedList m c.sinks⟩

mutual
def Stmt.renamed (m : Substitution) : Stmt → Stmt
  | .block l b => .block l (Stmt.renamedList m b)
  | .cond l c t e => .cond l (c.renamed m) (Stmt.renamedList m t) (Stmt.renamedList m e)
  | .case l x cs d => .case l (x.renamed m) (Clause.renamedList m cs) (Stmt.renamedDefault m d)
  | .loop l b => .loop l (Stmt.renamedList m b)
  | .assign l x y => .assign l (x.renamed m) (y.renamed m)
  | .expr l e => .expr l (e.renamed m)
  | .decl l d => .decl l (d.renamed m)
  | .stall l c => .stall l (c.renamed m)
  | .goto l t => .goto l t
  | .fence l => .fence l
  | .break l => .break l
  | .continue l => .continue l
  | .read l => .read l
  | .write l => .write l

def Stmt.renamedList (m : Substitution) : List Stmt → List Stmt
  | [] => []
  | s :: ss => Stmt.renamed m s :: Stmt.renamedList m ss

def Stmt.renamedDefault (m : Substitution) : Option (List Stmt) → Option (List Stmt)
  | none => none
  | some b => some (Stmt.renamedList m b)

def Clause.renamed (m : Substitution) : Clause → Clause
  | { loc, conds, body } => ⟨loc, Expr.renamedList m conds, Stmt.renamedList m body⟩

def Clause.renamedList (m : Substitution) : List Clause → List Clause
  | [] => []
  | c :: cs => Clause.renamed m c :: Clause.renamedList m cs
end

/-- An entity with its references renamed, declarations by one map and the rest by another, and with other entities nested
in it. -/
def Entity.renamed (m m' : Substitution) (entities : List Entity) (e : Entity) : Entity :=
  { e with
    decls := e.decls.map (Decl.renamed m)
    entities
    connects := e.connects.map (Connect.renamed m')
    stmts := Stmt.renamedList m' e.stmts }

/-! ## Nodes of renamed trees -/

def Node.renamed : Node → Node
  | .decl d => .decl (d.renamed m)
  | .connect c => .connect (c.renamed m)
  | .clause c => .clause (c.renamed m)
  | .stmt s => .stmt (s.renamed m)
  | .expr e => .expr (e.renamed m)
  | n => n

section

variable (m : Substitution)

mutual
def Entity.substituted : Entity → Entity
  | { loc, symbol, decls, entities, instances, connects, stmts } =>
    Entity.renamed m m (Entity.substitutedList entities) ⟨loc, symbol, decls, entities, instances, connects, stmts⟩

def Entity.substitutedList : List Entity → List Entity
  | [] => []
  | e :: es => Entity.substituted e :: Entity.substitutedList es
end

def Node.substituted : Node → Node
  | .root r => .root { r with entities := Entity.substitutedList m r.entities }
  | .entity e => .entity (e.substituted m)
  | n => n.renamed m

theorem Entity.substitutedList_eq (es : List Entity) : Entity.substitutedList m es = es.map (Entity.substituted m) := by
  induction es with
  | nil => rw [Entity.substitutedList]; rfl
  | cons e es ih => rw [Entity.substitutedList, ih]; rfl

theorem Node.substituted_eq {n : Node} (hn : n.inside = true) : n.substituted m = n.renamed m := by
  cases n with
  | root | entity => nomatch hn
  | _ => rfl

theorem Expr.renamedList_eq (es : List Expr) : Expr.renamedList m es = es.map (Expr.renamed m) := by
  induction es with
  | nil => rfl
  | cons e es ih => rw [Expr.renamedList, ih]; rfl

theorem Stmt.renamedList_eq (ss : List Stmt) : Stmt.renamedList m ss = ss.map (Stmt.renamed m) := by
  induction ss with
  | nil => rfl
  | cons s ss ih => rw [Stmt.renamedList, ih]; rfl

theorem Clause.renamedList_eq (cs : List Clause) : Clause.renamedList m cs = cs.map (Clause.renamed m) := by
  induction cs with
  | nil => rfl
  | cons c cs ih => rw [Clause.renamedList, ih]; rfl

theorem Node.children_substituted (n : Node) : (n.substituted m).children = n.children.map (substituted m) := by
  cases n with
  | inst => rfl
  | decl d => obtain ⟨l, s, _ | e⟩ := d <;> rfl
  | root | connect => simp [substituted, renamed, Connect.renamed, children, Entity.substitutedList_eq, Expr.renamedList_eq]
  | entity e =>
    cases e
    simp [substituted, Entity.substituted, Entity.renamed, children, Entity.substitutedList_eq, Stmt.renamedList_eq]
    rfl
  | clause c =>
    cases c
    simp [substituted, renamed, Clause.renamed, children, Expr.renamedList_eq, Stmt.renamedList_eq]
    rfl
  | expr e => cases e <;> simp [substituted, renamed, Expr.renamed, children, Expr.operands, Expr.renamedList_eq]
  | stmt s => cases s with
    | case _ _ _ d =>
      cases d <;> simp [substituted, renamed, Stmt.renamed, Stmt.renamedDefault, children, Stmt.children, Stmt.renamedList_eq,
        Clause.renamedList_eq]
      rfl
    | cond =>
      simp [substituted, renamed, Stmt.renamed, children, Stmt.children, Stmt.renamedList_eq]
      rfl
    | _ => simp [substituted, renamed, Stmt.renamed, children, Stmt.children, Stmt.renamedList_eq]

/-- The nodes of a renamed tree are those of the tree, renamed. -/
theorem Node.nodes_substituted (n : Node) : (n.substituted m).nodes = n.nodes.map (substituted m) := by
  rw [nodes_eq, children_substituted, n.nodes_eq, map_cons, map_flatMap, flatMap_map]
  refine congrArg _ (flatMap_congr fun k hk => ?_)
  have hless := length_nodes_child hk
  exact nodes_substituted k
termination_by n.nodes.length

theorem Node.nodes_renamed (n : Node) (hn : n.inside = true) : (n.renamed m).nodes = n.nodes.map (renamed m) := by
  rw [← substituted_eq m hn, nodes_substituted]
  exact map_congr_left fun k hk => substituted_eq m (n.inside_of_mem_nodes hn k hk)

theorem Node.flatMap_nodes_renamed {α : Type} (mk : α → Node) {g : α → α} (hmk : ∀ x, (mk x).inside = true)
    (hg : ∀ x, mk (g x) = (mk x).renamed m) (xs : List α) :
    (xs.map g).flatMap (fun x => (mk x).nodes) = (xs.flatMap fun x => (mk x).nodes).map (renamed m) := by
  rw [flatMap_map, map_flatMap]
  refine flatMap_congr fun x _ => ?_
  rw [hg, nodes_renamed m _ (hmk x)]

theorem Decl.nodes_map_renamed (ds : List Decl) :
    (ds.map (Decl.renamed m)).flatMap Decl.nodes = (ds.flatMap Decl.nodes).map (Node.renamed m) :=
  Node.flatMap_nodes_renamed m Node.decl (fun _ => rfl) (fun _ => rfl) ds

theorem Connect.nodes_map_renamed (cs : List Connect) :
    (cs.map (Connect.renamed m)).flatMap Connect.nodes = (cs.flatMap Connect.nodes).map (Node.renamed m) :=
  Node.flatMap_nodes_renamed m Node.connect (fun _ => rfl) (fun _ => rfl) cs

theorem Stmt.nodesList_renamed (ss : List Stmt) :
    Stmt.nodesList (Stmt.renamedList m ss) = (Stmt.nodesList ss).map (Node.renamed m) := by
  have hflat (ss : List Stmt) : Stmt.nodesList ss = ss.flatMap fun s => (stmt s).nodes := by
    rw [Stmt.nodesList_eq, flatMap_map]
  rw [Stmt.renamedList_eq, hflat, hflat]
  exact flatMap_nodes_renamed m stmt (fun _ => rfl) (fun _ => rfl) ss

/-! ## References -/

def Use.renamed (u : Use) : Use := { u with symbol := m.rename u.symbol }

@[simp] theorem Node.references_append (ms ns : List Node) : references (ms ++ ns) = references ms ++ references ns := by
  simp [references]

@[simp] theorem Node.references_flatMap {α : Type} (f : α → List Node) (xs : List α) :
    references (xs.flatMap f) = xs.flatMap fun x => references (f x) := by
  simp [references, filterMap_flatMap]

variable (ns : List Node)

/-- So are its references. -/
theorem Node.references_renamed : references (ns.map (renamed m)) = (references ns).map (Use.renamed m) := by
  rw [references, references, filterMap_map, map_filterMap]
  refine filterMap_congr fun n _ => ?_
  cases n with
  | expr e => cases e <;> rfl
  | _ => rfl

/-! ## Local declarations -/

def Node.locals : List Symbol :=
  ns.filterMap fun
    | .stmt (.decl _ d) => some d.symbol
    | _ => none

theorem Node.locals_renamed : locals (ns.map (renamed m)) = locals ns := by
  rw [locals, locals, filterMap_map]
  refine filterMap_congr fun n _ => ?_
  cases n with
  | stmt s => cases s <;> rfl
  | _ => rfl

end

end HdlLowering
