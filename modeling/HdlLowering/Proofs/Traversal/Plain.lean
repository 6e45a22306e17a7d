import HdlLowering.Proofs.Traversal.Postcondition

/-!
# Plain rewriting

The plain way to apply a pass builds every node again from what stands for its children. Walks do the same work without building
what did not change.

`Pass.Relates` is the rule by which walks are compared with the walks of another pass and with plain rewriting. `Pass.Tours` is
the same rule for claims about the nodes that a walk goes over.
-/

namespace HdlLowering

open Expr List ContextM Forest

variable {σ τ α β : Type} {n : Node}

/-! ## Rewriting every node -/

namespace Pass

variable (p : Pass σ)

/-- Visits a node whose children are rewritten by a step that gives the node with its new children. -/
def rework (n : Node) (children : PassM σ Node) : PassM σ Forest := do
  if ← p.skip n then
    return .node n
  p.enter n
  p.guarded n do
    let n' ← children
    return (← p.transform n').forest n'

def oneExpr (e : Expr) : Forest → PassM σ Expr
  | .node (.expr x) => return x
  | f => do
    internal (.replacedExpr p.name (e.text (← PassM.symbols)) f.found)

def oneDecl : Forest → PassM σ Decl
  | .node (.decl d) => return d
  | f => internal (.replacedLocal p.name f.found)

def allOf (wanted : String) (pick : Node → Option α) (ns : List Node) : PassM σ (List α) :=
  match ns.find? fun n => (pick n).isNone with
  | some n => internal (.misplaced p.name ("*ast." ++ n.variant) wanted)
  | none => return ns.filterMap pick

def rewriteEach (p : Pass σ) (wanted : String) (pick : Node → Option α) (rewrite : α → PassM σ Forest) :
    List α → PassM σ (List α)
  | [] => return []
  | x :: xs => do
    let head ← p.allOf wanted pick (← rewrite x).leaves
    let rest ← rewriteEach p wanted pick rewrite xs
    return head ++ rest

end Pass

mutual
def Expr.rewrite (p : Pass σ) : Expr → PassM σ Forest
  | .ref l s => p.rework (.expr (.ref l s)) (pure (.expr (.ref l s)))
  | .num l signed v => p.rework (.expr (.num l signed v)) (pure (.expr (.num l signed v)))
  | .int l signed w v => p.rework (.expr (.int l signed w v)) (pure (.expr (.int l signed w v)))
  | .unary l op x => p.rework (.expr (.unary l op x)) do
    let x ← p.oneExpr x (← rewrite p x)
    return .expr (.unary l op x)
  | .binary l op x y => p.rework (.expr (.binary l op x y)) do
    let x ← p.oneExpr x (← rewrite p x)
    let y ← p.oneExpr y (← rewrite p y)
    return .expr (.binary l op x y)
  | .ternary l c x y => p.rework (.expr (.ternary l c x y)) do
    let c ← p.oneExpr c (← rewrite p c)
    let x ← p.oneExpr x (← rewrite p x)
    let y ← p.oneExpr y (← rewrite p y)
    return .expr (.ternary l c x y)
  | .cat l ps => p.rework (.expr (.cat l ps)) do
    let ps ← rewriteList p ps
    return .expr (.cat l ps)
  | .rep l n x => p.rework (.expr (.rep l n x)) do
    let n ← p.oneExpr n (← rewrite p n)
    let x ← p.oneExpr x (← rewrite p x)
    return .expr (.rep l n x)
  | .index l x i => p.rework (.expr (.index l x i)) do
    let x ← p.oneExpr x (← rewrite p x)
    let i ← p.oneExpr i (← rewrite p i)
    return .expr (.index l x i)
  | .slice l x m n => p.rework (.expr (.slice l x m n)) do
    let x ← p.oneExpr x (← rewrite p x)
    let m ← p.oneExpr m (← rewrite p m)
    let n ← p.oneExpr n (← rewrite p n)
    return .expr (.slice l x m n)
  | .select l x f => p.rework (.expr (.select l x f)) do
    let x ← p.oneExpr x (← rewrite p x)
    return .expr (.select l x f)
  | .call l f as => p.rework (.expr (.call l f as)) do
    let f ← p.oneExpr f (← rewrite p f)
    let as ← rewriteList p as
    return .expr (.call l f as)

def Expr.rewriteList (p : Pass σ) : List Expr → PassM σ (List Expr)
  | [] => return []
  | e :: es => do
    let head ← p.allOf "<nil>" Node.expr? (← rewrite p e).leaves
    let rest ← rewriteList p es
    return head ++ rest
end

variable (p : Pass σ)

def Decl.rewrite (d : Decl) : PassM σ Forest :=
  p.rework (.decl d) do
    match d.init with
    | none => return .decl d
    | some e =>
      let e ← p.oneExpr e (← e.rewrite p)
      return .decl { d with init := some e }

def Instance.rewrite (i : Instance) : PassM σ Forest := p.rework (.inst i) (pure (.inst i))

def Connect.rewrite (c : Connect) : PassM σ Forest :=
  p.rework (.connect c) do
    let source ← p.oneExpr c.source (← c.source.rewrite p)
    let sinks ← rewriteList p c.sinks
    return .connect ⟨c.loc, source, sinks⟩

mutual
def Stmt.rewrite (p : Pass σ) : Stmt → PassM σ Forest
  | .block l b => p.rework (.stmt (.block l b)) do
    let b ← Stmt.rewriteList p b
    return .stmt (.block l b)
  | .cond l c t e => p.rework (.stmt (.cond l c t e)) do
    let c ← p.oneExpr c (← c.rewrite p)
    let t ← Stmt.rewriteList p t
    let e ← Stmt.rewriteList p e
    return .stmt (.cond l c t e)
  | .case l x cs d => p.rework (.stmt (.case l x cs d)) do
    let x ← p.oneExpr x (← x.rewrite p)
    let cs ← Clause.rewriteList p cs
    let d ← Stmt.rewriteDefault p d
    return .stmt (.case l x cs d)
  | .loop l b => p.rework (.stmt (.loop l b)) do
    let b ← Stmt.rewriteList p b
    return .stmt (.loop l b)
  | .assign l x y => p.rework (.stmt (.assign l x y)) do
    let x ← p.oneExpr x (← x.rewrite p)
    let y ← p.oneExpr y (← y.rewrite p)
    return .stmt (.assign l x y)
  | .expr l e => p.rework (.stmt (.expr l e)) do
    let e ← p.oneExpr e (← e.rewrite p)
    return .stmt (.expr l e)
  | .decl l d => p.rework (.stmt (.decl l d)) do
    let d ← p.oneDecl (← d.rewrite p)
    return .stmt (.decl l d)
  | .stall l c => p.rework (.stmt (.stall l c)) do
    let c ← p.oneExpr c (← c.rewrite p)
    return .stmt (.stall l c)
  | .goto l t => p.rework (.stmt (.goto l t)) (pure (.stmt (.goto l t)))
  | .fence l => p.rework (.stmt (.fence l)) (pure (.stmt (.fence l)))
  | .break l => p.rework (.stmt (.break l)) (pure (.stmt (.break l)))
  | .continue l => p.rework (.stmt (.continue l)) (pure (.stmt (.continue l)))
  | .read l => p.rework (.stmt (.read l)) (pure (.stmt (.read l)))
  | .write l => p.rework (.stmt (.write l)) (pure (.stmt (.write l)))

def Stmt.rewriteList (p : Pass σ) : List Stmt → PassM σ (List Stmt)
  | [] => return []
  | s :: ss => do
    let head ← p.allOf "<nil>" Node.stmt? (← Stmt.rewrite p s).leaves
    let rest ← Stmt.rewriteList p ss
    return head ++ rest

def Stmt.rewriteDefault (p : Pass σ) : Option (List Stmt) → PassM σ (Option (List Stmt))
  | none => return none
  | some b => do
    let b ← Stmt.rewriteList p b
    return some b

def Clause.rewrite (p : Pass σ) : Clause → PassM σ Forest
  | { loc, conds, body } => p.rework (.clause ⟨loc, conds, body⟩) do
    let conds ← rewriteList p conds
    let body ← Stmt.rewriteList p body
    return .clause ⟨loc, conds, body⟩

def Clause.rewriteList (p : Pass σ) : List Clause → PassM σ (List Clause)
  | [] => return []
  | c :: cs => do
    let head ← p.allOf "*ast.CaseClause" Node.clause? (← Clause.rewrite p c).leaves
    let rest ← Clause.rewriteList p cs
    return head ++ rest
end

mutual
def Entity.rewrite (p : Pass σ) : Entity → PassM σ Forest
  | { loc, symbol, decls, entities, instances, connects, stmts } =>
    p.rework (.entity ⟨loc, symbol, decls, entities, instances, connects, stmts⟩) do
      let decls ← p.rewriteEach "*ast.Decl" Node.decl? (Decl.rewrite p) decls
      let entities ← Entity.rewriteList p entities
      let instances ← p.rewriteEach "*ast.Instance" Node.inst? (Instance.rewrite p) instances
      let connects ← p.rewriteEach "*ast.Connect" Node.connect? (Connect.rewrite p) connects
      let stmts ← Stmt.rewriteList p stmts
      return .entity ⟨loc, symbol, decls, entities, instances, connects, stmts⟩

def Entity.rewriteList (p : Pass σ) : List Entity → PassM σ (List Entity)
  | [] => return []
  | e :: es => do
    let head ← p.allOf "*ast.Entity" Node.entity? (← Entity.rewrite p e).leaves
    let rest ← Entity.rewriteList p es
    return head ++ rest
end

def Root.rewrite (r : Root) : PassM σ Forest :=
  p.rework (.root r) do
    let entities ← Entity.rewriteList p r.entities
    return .root { r with entities }

def Node.rewrite : Node → PassM σ Forest
  | .root r => r.rewrite p
  | .entity e => e.rewrite p
  | .decl d => d.rewrite p
  | .inst i => i.rewrite p
  | .connect c => c.rewrite p
  | .clause c => c.rewrite p
  | .stmt s => s.rewrite p
  | .expr e => e.rewrite p

/-! ## Rewriting slot by slot -/

section

variable (p : Pass σ)

@[simp] def Slot.rewrite : Slot α → PassM σ α
  | expr e => e.rewrite p >>= p.oneExpr e
  | decl d => d.rewrite p >>= p.oneDecl
  | @list _ mk pick _ wanted xs => p.rewriteEach wanted pick (fun x => (mk x).rewrite p) xs

@[simp] def Parts.rewrite : {β : Type} → Parts β → PassM σ β
  | _, const b => pure b
  | _, fill f x => do
    let f ← f.rewrite
    let x ← x.rewrite p
    return f x

theorem Expr.rewriteList_eq (es : List Expr) : rewriteList p es = p.rewriteEach "<nil>" Node.expr? (rewrite p) es := by
  induction es with
  | nil => rfl
  | cons e es ih => rw [rewriteList, ih, Pass.rewriteEach]

theorem Stmt.rewriteList_eq (ss : List Stmt) : Stmt.rewriteList p ss = p.rewriteEach "<nil>" Node.stmt? (Stmt.rewrite p) ss := by
  induction ss with
  | nil => rw [Stmt.rewriteList]; rfl
  | cons s ss ih => rw [Stmt.rewriteList, ih, Pass.rewriteEach]

theorem Clause.rewriteList_eq (cs : List Clause) :
    Clause.rewriteList p cs = p.rewriteEach "*ast.CaseClause" Node.clause? (Clause.rewrite p) cs := by
  induction cs with
  | nil => rw [Clause.rewriteList]; rfl
  | cons c cs ih => rw [Clause.rewriteList, ih, Pass.rewriteEach]

theorem Entity.rewriteList_eq (es : List Entity) :
    Entity.rewriteList p es = p.rewriteEach "*ast.Entity" Node.entity? (Entity.rewrite p) es := by
  induction es with
  | nil => rw [Entity.rewriteList]; rfl
  | cons e es ih => rw [Entity.rewriteList, ih, Pass.rewriteEach]

theorem Node.rewrite_parts (n : Node) : n.rewrite p = p.rework n (n.parts.rewrite p) := by
  cases n with
  | decl d => obtain ⟨l, s, _ | e⟩ := d <;> simp [Node.rewrite, Decl.rewrite]
  | root | inst | connect =>
    simp [Node.rewrite, Root.rewrite, Instance.rewrite, Connect.rewrite, Entity.rewriteList_eq, rewriteList_eq]
  | entity e | clause e =>
    cases e
    simp [Node.rewrite, Entity.rewrite, Clause.rewrite, Entity.rewriteList_eq, rewriteList_eq, Stmt.rewriteList_eq]
  | expr e => cases e <;> simp [Node.rewrite, Expr.rewrite, Expr.rewriteList_eq]
  | stmt s => cases s with
    | case _ _ _ d =>
      cases d <;> simp [Node.rewrite, Stmt.rewrite, Stmt.rewriteDefault, Stmt.rewriteList_eq, Clause.rewriteList_eq]
    | _ => simp [Node.rewrite, Stmt.rewrite, Stmt.rewriteList_eq]

end

/-! ## Forests in lists -/

namespace Pass

variable {p : Pass σ} {wanted : String} {pick : Node → Option α} {a : α}

theorem allOf_self (h : pick n = some a) : p.allOf wanted pick [n] = pure [a] := by
  simp [allOf, h]

theorem allOf_append (wanted : String) (pick : Node → Option α) (ns ms : List Node) :
    p.allOf wanted pick (ns ++ ms) = (do
      let xs ← p.allOf wanted pick ns
      let ys ← p.allOf wanted pick ms
      return xs ++ ys) := by
  simp only [allOf, find?_append, filterMap_append]
  cases ns.find? fun n => (pick n).isNone with
  | some n => rfl
  | none => cases ms.find? fun n => (pick n).isNone <;> rfl

mutual
theorem splice_eq (p : Pass σ) (wanted : String) (pick : Node → Option α) : ∀ f : Forest,
    p.splice wanted pick f = p.allOf wanted pick f.leaves
  | .nothing => rfl
  | .node n => by
    rw [splice, leaves, allOf]
    cases h : pick n with
    | none => simp [h]
    | some a => simp [h]
  | .several fs => by
    rw [splice, leaves, spliceList_eq]

theorem spliceList_eq (p : Pass σ) (wanted : String) (pick : Node → Option α) : ∀ fs : List Forest,
    p.spliceList wanted pick fs = p.allOf wanted pick (leavesList fs)
  | [] => rfl
  | f :: fs => by
    rw [spliceList, leavesList, allOf_append, splice_eq, spliceList_eq]
end

end Pass

/-! ## Comparing walks -/

/-- A step that gives a new node gives one that can stand in the place of the old one. -/
def Pass.Replaces (n : Node) (x : PassM σ (Option Node)) : Prop := ∀ s n' s', x s = .ok (some n') s' → n.alike n' = true

theorem Pass.replaces_parts (n : Node) : Pass.Replaces n (n.parts.walk p) := by
  intro s n' s' hs
  exact n.alike_of_fills (n.parts.walk_fills hs)

/-- What holds of a walk of `p`, the same walk of `q` and plain rewriting by `q`, when it holds of their steps. A claim is about
a part `d` of a node, under a condition on what happened before: nothing is new when it holds and nothing of the nodes changes. -/
structure Pass.Tours (p : Pass σ) (q : Pass τ)
    (T : ∀ {α : Type}, List Node → Prop → α → PassM σ (Option α) → PassM τ (Option α) → PassM τ α → Prop) : Prop where
  pure {α : Type} {φ : Prop} {d b : α} {a : Option α} (hb : a.getD d = b) (ha : a = none ↔ φ) :
    T [] φ d (pure a) (pure a) (pure b)
  bind {α β : Type} {φ : Prop} {ns ms : List Node} {d : α} {e : β} {x : PassM σ (Option α)} {y : PassM τ (Option α)}
    {z : PassM τ α} {f : Option α → PassM σ (Option β)} {g : Option α → PassM τ (Option β)} {k : α → PassM τ β}
    (hx : T ns True d x y z) (hf : ∀ a, T ms (φ ∧ a = none) e (f a) (g a) (k (a.getD d))) :
    T (ns ++ ms) φ e (x >>= f) (y >>= g) (z >>= k)
  visit {n : Node} {x : PassM σ (Option Node)} {y : PassM τ (Option Node)} {z : PassM τ Node} (hx : T n.children True n x y z)
    (halike : Pass.Replaces n x) : T [n] True (.node n) (p.visit n x) (q.visit n y) (q.rework n z)
  expr (x : Expr) (hx : T [.expr x] True (.node (.expr x)) (x.walk p) (x.walk q) (x.rewrite q)) :
    T [.expr x] True x (x.walk p >>= p.asExpr x) (x.walk q >>= q.asExpr x) (x.rewrite q >>= q.oneExpr x)
  decl (d : Decl) (hd : T [.decl d] True (.node (.decl d)) (d.walk p) (d.walk q) (d.rewrite q)) :
    T [.decl d] True d (d.walk p >>= p.asDecl) (d.walk q >>= q.asDecl) (d.rewrite q >>= q.oneDecl)
  element {α : Type} {mk : α → Node} {pick : Node → Option α} (hmk : Node.Form mk pick) (wanted : String) (x : α)
    (hx : T [mk x] True (.node (mk x)) ((mk x).walk p) ((mk x).walk q) ((mk x).rewrite q)) :
    T [mk x] True [x] ((mk x).walk p >>= p.spliced wanted pick) ((mk x).walk q >>= q.spliced wanted pick)
      ((mk x).rewrite q >>= fun f => q.allOf wanted pick f.leaves)

section

variable {p : Pass σ} {q : Pass τ}
  {T : ∀ {α : Type}, List Node → Prop → α → PassM σ (Option α) → PassM τ (Option α) → PassM τ α → Prop} (h : p.Tours q T)

include h

theorem Pass.Tours.last {φ : Prop} {ns : List Node} {d : α} {e : β} {x : PassM σ (Option α)} {y : PassM τ (Option α)}
    {z : PassM τ α} {f : Option α → Option β} {k : α → β} (hx : T ns True d x y z) (hf : ∀ a, (f a).getD e = k (a.getD d))
    (hnone : ∀ a, f a = none ↔ φ ∧ a = none) :
    T ns φ e (x >>= fun a => Pure.pure (f a)) (y >>= fun a => Pure.pure (f a)) (z >>= fun a => Pure.pure (k a)) := by
  rw [← append_nil ns]
  exact h.bind hx fun a => h.pure (hf a) (hnone a)

theorem Slot.walk_tours (x : Slot α)
    (hbelow : ∀ m ∈ x.nodes, T [m] True (.node m) (m.walk p) (m.walk q) (m.rewrite q)) :
    T x.nodes True x.value (x.walk p) (x.walk q) (x.rewrite q) := by
  cases x with
  | expr e => exact h.expr e (hbelow _ (.head _))
  | decl d => exact h.decl d (hbelow _ (.head _))
  | @list _ mk pick hmk wanted xs =>
    simp only [value, nodes, walk, rewrite] at *
    induction xs with
    | nil => exact h.pure rfl (iff_of_true rfl trivial)
    | cons x xs ih =>
      rw [map_cons, forall_mem_cons] at hbelow
      rw [Pass.walkEach, Pass.walkEach, Pass.rewriteEach, ← bind_assoc, ← bind_assoc, ← bind_assoc]
      refine h.bind (h.element hmk wanted x hbelow.1) fun head => h.last (ih hbelow.2) (Pass.getD_joined x xs head) fun rest => ?_
      cases head <;> cases rest <;> simp [Pass.joined]

theorem Parts.walk_tours : ∀ {β : Type} (a : Parts β),
    (∀ m ∈ a.nodes, T [m] True (.node m) (m.walk p) (m.walk q) (m.rewrite q)) →
      T a.nodes True a.value (a.walk p) (a.walk q) (a.rewrite q)
  | _, const _, _ => h.pure rfl (iff_of_true rfl trivial)
  | _, fill f x, hbelow => by
    rw [nodes, forall_mem_append] at hbelow
    refine h.bind (Parts.walk_tours f hbelow.1) fun f' => h.last (x.walk_tours h hbelow.2) (fun x' => ?_) fun x' => ?_
    · exact getD_rebuilt2 (fun f x => f x) f.value x.value f' x'
    · cases f' <;> cases x' <;> simp [rebuilt2]

theorem Node.walk_tours (n : Node) : T [n] True (.node n) (n.walk p) (n.walk q) (n.rewrite q) := by
  have hparts := n.parts.walk_tours h fun m hm => by
    have hless := length_nodes_child (n.nodes_parts ▸ hm)
    exact m.walk_tours
  rw [n.value_parts, n.nodes_parts] at hparts
  rw [n.walk_eq, n.walk_eq, n.rewrite_parts]
  exact h.visit hparts (p.replaces_parts n)
termination_by n.nodes.length

end

/-- What can be said of walks whatever the nodes that they go over. While the condition of a claim holds, a walk that gives nothing
new must say so. -/
structure Pass.Relates (p : Pass σ) (q : Pass τ)
    (R : ∀ {α : Type}, Prop → α → PassM σ (Option α) → PassM τ (Option α) → PassM τ α → Prop) : Prop where
  pure {α : Type} {φ : Prop} {d b : α} {a : Option α} (hb : a.getD d = b) (ha : φ → a = none) :
    R φ d (pure a) (pure a) (pure b)
  fail {α : Type} {φ : Prop} {d : α} (problem : String → SymbolTable → Problem) :
    R φ d (do internal (problem p.name (← PassM.symbols))) (do internal (problem q.name (← PassM.symbols)))
      (do internal (problem q.name (← PassM.symbols)))
  mono {α : Type} {φ ψ : Prop} {d : α} {x : PassM σ (Option α)} {y : PassM τ (Option α)} {z : PassM τ α} (himp : ψ → φ)
    (hx : R φ d x y z) : R ψ d x y z
  bind {α β : Type} {φ ψ : Prop} {d : α} {e : β} {x : PassM σ (Option α)} {y : PassM τ (Option α)} {z : PassM τ α}
    {f : Option α → PassM σ (Option β)} {g : Option α → PassM τ (Option β)} {k : α → PassM τ β} (hx : R φ d x y z)
    (hf : ∀ a, R (ψ ∧ (φ → a = none)) e (f a) (g a) (k (a.getD d))) : R ψ e (x >>= f) (y >>= g) (z >>= k)
  visit {n : Node} {x : PassM σ (Option Node)} {y : PassM τ (Option Node)} {z : PassM τ Node} (hx : R True n x y z)
    (halike : Pass.Replaces n x) : R True (.node n) (p.visit n x) (q.visit n y) (q.rework n z)

namespace Pass.Relates

variable {p : Pass σ} {q : Pass τ}
  {R : ∀ {α : Type}, Prop → α → PassM σ (Option α) → PassM τ (Option α) → PassM τ α → Prop} {φ : Prop}
  (h : p.Relates q R)

include h

theorem asExpr (x : Expr) : ∀ r : Option Forest,
    R (r = none) x (p.asExpr x r) (q.asExpr x r) (q.oneExpr x (r.getD (.node (.expr x))))
  | none => h.pure rfl fun _ => rfl
  | some (.node (.expr _)) => h.pure rfl nofun
  | some .nothing | some (.several _) | some (.node (.root _)) | some (.node (.entity _)) | some (.node (.decl _))
  | some (.node (.inst _)) | some (.node (.connect _)) | some (.node (.clause _)) | some (.node (.stmt _)) =>
    h.fail fun name Γ => .replacedExpr name (x.text Γ) _

theorem asDecl (d : Decl) : ∀ r : Option Forest,
    R (r = none) d (p.asDecl r) (q.asDecl r) (q.oneDecl (r.getD (.node (.decl d))))
  | none => h.pure rfl fun _ => rfl
  | some (.node (.decl _)) => h.pure rfl nofun
  | some .nothing | some (.several _) | some (.node (.root _)) | some (.node (.entity _)) | some (.node (.expr _))
  | some (.node (.inst _)) | some (.node (.connect _)) | some (.node (.clause _)) | some (.node (.stmt _)) =>
    h.fail fun name _ => .replacedLocal name _

theorem spliced (wanted : String) {pick : Node → Option α} {x : α} (hn : pick n = some x) :
    ∀ r : Option Forest, R (r = none) [x] (p.spliced wanted pick r) (q.spliced wanted pick r)
      (q.allOf wanted pick (r.getD (.node n)).leaves)
  | none => by
    rw [Option.getD_none, leaves, allOf_self hn]
    exact h.pure rfl fun _ => rfl
  | some f => by
    rw [Pass.spliced, Pass.spliced, splice_eq, splice_eq, Option.getD_some]
    unfold allOf
    cases f.leaves.find? fun n => (pick n).isNone with
    | none => exact h.pure rfl (by simp)
    | some m => exact h.fail fun name _ => .misplaced name ("*ast." ++ m.variant) wanted

theorem tours : p.Tours q fun _ => R where
  pure hb ha := h.pure hb ha.mpr
  bind hx hf := h.bind hx fun a => h.mono (fun ha => ⟨ha.1, ha.2 trivial⟩) (hf a)
  visit hx halike := h.visit hx halike
  expr x hx := h.bind hx fun r => h.mono (fun hr => hr.2 trivial) (h.asExpr x r)
  decl d hd := h.bind hd fun r => h.mono (fun hr => hr.2 trivial) (h.asDecl d r)
  element hmk wanted x hx :=
    h.bind hx fun r => h.mono (fun hr => hr.2 trivial) (h.spliced wanted ((hmk.pick_eq_some _ x).mpr rfl) r)

end Pass.Relates

/-- What is closed under the steps that walks are made of holds of all walks. -/
theorem Node.walk_relates {p : Pass σ} {q : Pass τ}
    {R : ∀ {α : Type}, Prop → α → PassM σ (Option α) → PassM τ (Option α) → PassM τ α → Prop} (h : p.Relates q R) (n : Node) :
    R True (.node n) (n.walk p) (n.walk q) (n.rewrite q) :=
  n.walk_tours h.tours

/-! ## Walks that keep everything -/

/-- A pass keeps nodes of some kinds, and an invariant of its sessions with them. -/
structure Pass.Keeps (p : Pass σ) (quiet : Node → Prop) (inv : Session σ → Prop) : Prop where
  below : ∀ n, quiet n → ∀ m ∈ n.children, quiet m
  skip : ∀ n, quiet n → Gives (fun _ => False) inv (fun _ => True) (p.skip n)
  enter : ∀ n, quiet n → Gives (fun _ => False) inv (fun _ => True) (p.enter n)
  transform : ∀ n, quiet n → Gives (fun _ => False) inv (· = .keep) (p.transform n)

variable {p : Pass σ} {quiet : Node → Prop} {inv : Session σ → Prop}

theorem Gives.then_none {ε : Type} {E : ε → Prop} {inv : σ → Prop} {x : EStateM ε σ (Option α)}
    {f : Option α → EStateM ε σ (Option β)} (hx : Gives E inv (True → · = none) x) (hf : f none = Pure.pure none) :
    Gives E inv (True → · = none) (x >>= f) := by
  refine hx.bind fun a ha => ?_
  rw [ha trivial, hf]
  exact .pure fun _ => rfl

theorem Pass.Keeps.tours (h : p.Keeps quiet inv) : p.Tours p fun ns φ _ x _ _ =>
    (∀ m ∈ ns, quiet m) → Gives (fun _ => False) inv (φ → · = none) x where
  pure _ ha _ := .pure ha.mpr
  bind hx hf hns := by
    rw [forall_mem_append] at hns
    refine (hx hns.1).bind fun a ha s hs => ?_
    obtain rfl := ha trivial
    exact (hf none hns.2 s hs).mono fun b s' hb => ⟨hb.1, fun hφ => hb.2 ⟨hφ, rfl⟩⟩
  visit {n _ _ _} hx _ hns := by
    have hn := hns n (mem_singleton_self n)
    refine (h.skip n hn).bind fun skipped _ => ?_
    cases skipped with
    | true => exact .pure fun _ => rfl
    | false =>
      refine (h.enter n hn).bind fun _ _ => .guarded ((hx (h.below n hn)).bind fun rebuilt hnone => ?_)
      rw [hnone trivial]
      refine (h.transform n hn).bind ?_
      rintro _ rfl
      exact .pure fun _ => rfl
  expr _ hx hns := Gives.then_none (hx hns) rfl
  decl _ hd hns := Gives.then_none (hd hns) rfl
  element _ _ _ hx hns := Gives.then_none (hx hns) rfl

theorem Node.walk_keeps (h : p.Keeps quiet inv) (n : Node) (hn : quiet n) : Gives (fun _ => False) inv (· = none) (n.walk p) :=
  fun s hs => (n.walk_tours h.tours (forall_mem_singleton.mpr hn) s hs).mono fun _ _ ho => ⟨ho.1, ho.2 trivial⟩

theorem Node.walk_parts_keeps (h : p.Keeps quiet inv) (n : Node) (hbelow : ∀ m ∈ n.children, quiet m) :
    Gives (fun _ => False) inv (· = none) (n.parts.walk p) := fun s hs =>
  (n.parts.walk_tours h.tours (fun m _ => m.walk_tours h.tours) (n.nodes_parts ▸ hbelow) s hs).mono
    fun _ _ ho => ⟨ho.1, ho.2 trivial⟩

end HdlLowering
