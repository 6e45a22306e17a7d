import HdlLowering.Tree.Preorder
import Mathlib.Tactic.Common

/-!
# Children

The nodes directly below a node (`Node.children`), in the order they are visited. What holds of an expression when it holds of
its operands holds of all (`Expr.of_operands`).
-/

namespace HdlLowering

open List Node

def Expr.operands : Expr → List Expr
  | .ref .. | .num .. | .int .. => []
  | .unary _ _ x => [x]
  | .binary _ _ x y => [x, y]
  | .ternary _ c x y => [c, x, y]
  | .cat _ ps => ps
  | .rep _ n x => [n, x]
  | .index _ x i => [x, i]
  | .slice _ x m n => [x, m, n]
  | .select _ x _ => [x]
  | .call _ f as => f :: as

def Stmt.children : Stmt → List Node
  | .block _ b => b.map .stmt
  | .cond _ c t e => .expr c :: (t.map .stmt ++ e.map .stmt)
  | .case _ x cs d => .expr x :: (cs.map .clause ++ (d.getD []).map .stmt)
  | .loop _ b => b.map .stmt
  | .assign _ x y => [.expr x, .expr y]
  | .expr _ e => [.expr e]
  | .decl _ d => [.decl d]
  | .stall _ c => [.expr c]
  | .goto .. | .fence _ | .break _ | .continue _ | .read _ | .write _ => []

def Node.children : Node → List Node
  | .root r => r.entities.map .entity
  | .entity e => e.decls.map .decl ++ e.entities.map .entity ++ e.instances.map .inst ++ e.connects.map .connect ++
      e.stmts.map .stmt
  | .decl d => d.init.toList.map .expr
  | .inst _ => []
  | .connect c => .expr c.source :: c.sinks.map .expr
  | .clause c => c.conds.map .expr ++ c.body.map .stmt
  | .stmt s => s.children
  | .expr e => e.operands.map .expr

/-! ## Nodes of lists -/

variable (es : List Expr)

theorem Expr.map_subtermsList : (subtermsList es).map expr = nodesList es := by
  induction es with
  | nil => rfl
  | cons e es ih => rw [subtermsList, map_append, ih, nodesList, nodesList, flatMap_cons, nodes]

theorem Expr.nodesList_eq : nodesList es = (es.map Node.expr).flatMap Node.nodes := by
  rw [nodesList, flatMap_map]
  rfl

theorem Stmt.nodesList_eq (ss : List Stmt) : Stmt.nodesList ss = (ss.map Node.stmt).flatMap Node.nodes := by
  induction ss with
  | nil => rfl
  | cons s ss ih => rw [Stmt.nodesList, ih, map_cons, flatMap_cons, Node.nodes]

theorem Stmt.nodesDefault_eq (d : Option (List Stmt)) :
    Stmt.nodesDefault d = ((d.getD []).map Node.stmt).flatMap Node.nodes := by
  cases d with
  | none => rfl
  | some b => exact Stmt.nodesList_eq b

theorem Clause.nodesList_eq (cs : List Clause) : nodesList cs = (cs.map Node.clause).flatMap Node.nodes := by
  induction cs with
  | nil => rfl
  | cons c cs ih => rw [nodesList, ih, map_cons, flatMap_cons, Node.nodes]

theorem Entity.nodesList_eq (es : List Entity) : nodesList es = (es.map Node.entity).flatMap Node.nodes := by
  induction es with
  | nil => rfl
  | cons e es ih => rw [nodesList, ih, map_cons, flatMap_cons, Node.nodes]

/-! ## Nodes of a tree -/

variable (e : Expr)

theorem Expr.nodes_eq : e.nodes = .expr e :: (e.operands.map Node.expr).flatMap Node.nodes := by
  cases e <;> simp [operands, nodes, subterms, map_subtermsList, nodesList_eq, Node.nodes]

theorem Stmt.nodes_eq (s : Stmt) : s.nodes = .stmt s :: s.children.flatMap Node.nodes := by
  cases s <;> simp [Stmt.nodes, Stmt.children, Stmt.nodesList_eq, Clause.nodesList_eq, Stmt.nodesDefault_eq, Node.nodes]

/-- All nodes of a tree are the node itself and those of its children. -/
theorem Node.nodes_eq (n : Node) : n.nodes = n :: n.children.flatMap Node.nodes := by
  cases n with
  | root r => simp [Node.nodes, Node.children, Root.nodes, Entity.nodesList_eq]
  | entity e =>
    obtain ⟨l, s, ds, es, is, cs, ss⟩ := e
    have hds : (ds.map Node.decl).flatMap Node.nodes = ds.flatMap Decl.nodes := flatMap_map _ _ _
    have his : (is.map Node.inst).flatMap Node.nodes = is.map Node.inst := by
      induction is with
      | nil => rfl
      | cons i is ih => rw [map_cons, flatMap_cons, ih, Node.nodes, singleton_append]
    have hcs : (cs.map Node.connect).flatMap Node.nodes = cs.flatMap Connect.nodes := flatMap_map _ _ _
    simp only [Node.nodes, Node.children, Entity.nodes, Entity.nodesList_eq, Stmt.nodesList_eq, flatMap_append, hds, his,
      hcs]
  | decl d =>
    obtain ⟨l, s, init⟩ := d
    cases init <;> simp [Node.nodes, Node.children, Decl.nodes]
  | inst i => rfl
  | connect c => simp [Node.nodes, Node.children, Connect.nodes, Expr.nodesList_eq]
  | clause c =>
    obtain ⟨l, conds, body⟩ := c
    simp [Node.nodes, Node.children, Clause.nodes, Expr.nodesList_eq, Stmt.nodesList_eq]
  | stmt s => exact Stmt.nodes_eq s
  | expr e => exact Expr.nodes_eq e

theorem Node.self_mem_nodes (n : Node) : n ∈ n.nodes := by
  rw [nodes_eq]
  exact mem_cons_self

theorem Node.mem_nodes_of_child {n m k : Node} (hm : m ∈ n.children) (hk : k ∈ m.nodes) : k ∈ n.nodes := by
  rw [nodes_eq]
  exact mem_cons_of_mem _ (mem_flatMap.mpr ⟨m, hm, hk⟩)

theorem Node.forall_mem_nodes {n : Node} {P : Node → Prop} :
    (∀ k ∈ n.nodes, P k) ↔ P n ∧ ∀ m ∈ n.children, ∀ k ∈ m.nodes, P k := by
  rw [nodes_eq, forall_mem_cons, forall_mem_flatMap]

theorem Node.length_nodes_child {n m : Node} (h : m ∈ n.children) : m.nodes.length < n.nodes.length := by
  rw [n.nodes_eq, length_cons]
  exact Nat.lt_succ_of_le (sublist_flatten_of_mem (mem_map_of_mem h)).length_le

/-! ## Expressions and what is below them -/

/-- Induction over an expression: what holds when it holds of the operands holds of every expression. -/
theorem Expr.of_operands {P : Expr → Prop} (h : ∀ e : Expr, (∀ x ∈ e.operands, P x) → P e) (e : Expr) : P e :=
  h e fun x _ => of_operands h x
termination_by e.nodes.length
decreasing_by exact length_nodes_child (n := .expr e) (mem_map_of_mem ‹_›)

theorem Expr.subtermsList_eq : subtermsList es = es.flatMap subterms := by
  induction es with
  | nil => rfl
  | cons e es ih => rw [subtermsList, ih, flatMap_cons]

theorem Expr.subterms_eq : e.subterms = e :: e.operands.flatMap subterms := by
  cases e <;> simp [subterms, operands, subtermsList_eq]

theorem Expr.self_mem_subterms : e ∈ e.subterms := by
  rw [subterms_eq]
  exact mem_cons_self

theorem Expr.mem_subterms_of_operand {e x y : Expr} (hx : x ∈ e.operands) (hy : y ∈ x.subterms) : y ∈ e.subterms := by
  rw [subterms_eq]
  exact mem_cons_of_mem _ (mem_flatMap.mpr ⟨x, hx, hy⟩)

theorem Expr.subterms_trans {x y : Expr} : x ∈ e.subterms → y ∈ x.subterms → y ∈ e.subterms := by
  induction e using of_operands with
  | h e ih =>
    intro hx hy
    rw [subterms_eq] at hx
    rcases mem_cons.mp hx with rfl | hx
    · exact hy
    · obtain ⟨z, hz, hx⟩ := mem_flatMap.mp hx
      exact mem_subterms_of_operand hz (ih z hz hx hy)

/-! ## Nodes inside of entities -/

def Node.inside : Node → Bool
  | .root _ | .entity _ => false
  | _ => true

theorem Node.inside_of_child {n k : Node} (hn : n.inside = true) (hk : k ∈ n.children) : k.inside = true := by
  cases n with
  | root | entity => nomatch hn
  | inst => nomatch hk
  | stmt s => cases s <;> simp [children, Stmt.children] at hk <;> grind [inside]
  | decl | connect | clause | expr => simp [children] at hk; grind [inside]

theorem Node.inside_of_mem_nodes (n : Node) (hn : n.inside = true) : ∀ k ∈ n.nodes, k.inside = true := by
  rw [forall_mem_nodes]
  refine ⟨hn, fun m hm => ?_⟩
  have hless := length_nodes_child hm
  exact inside_of_mem_nodes m (inside_of_child hn hm)
termination_by n.nodes.length

end HdlLowering
