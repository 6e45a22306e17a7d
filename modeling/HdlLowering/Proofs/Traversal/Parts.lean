import HdlLowering.Proofs.Traversal.Visit
import HdlLowering.Proofs.Tree.Children

/-!
# Parts of a node

A node is a function of what stands in the places below it (`Node.parts`), and a walk visits it after its places in order
(`Node.walk_eq`). What is said of all walks is said of places, and of parts by induction; no other proof takes the forms of
nodes one by one.
-/

namespace HdlLowering

open Node Stmt

variable {σ α β γ δ : Type} {n n' : Node}

/-- Two nodes can stand in the same places. -/
def Node.alike : Node → Node → Bool
  | .root _, .root _ | .entity _, .entity _ | .decl _, .decl _ | .inst _, .inst _ | .connect _, .connect _
  | .clause _, .clause _ | .stmt _, .stmt _ | .expr _, .expr _ => true
  | _, _ => false

/-- A form of node that lists hold: how it is built and found again. -/
structure Node.Form (mk : α → Node) (pick : Node → Option α) : Prop where
  pick_eq_some : ∀ n x, pick n = some x ↔ n = mk x
  of_alike : ∀ x n, (mk x).alike n = true → ∃ y, n = mk y

theorem Node.Form.inj {mk : α → Node} {pick : Node → Option α} (hmk : Form mk pick) {x y : α} (h : mk x = mk y) : x = y :=
  Option.some.inj (((hmk.pick_eq_some _ x).mpr rfl).symm.trans ((hmk.pick_eq_some _ y).mpr h))

theorem Node.form_expr : Form .expr expr? where
  pick_eq_some n _ := by cases n <;> simp [expr?]
  of_alike _ n := by cases n <;> simp [alike]

theorem Node.form_stmt : Form .stmt stmt? where
  pick_eq_some n _ := by cases n <;> simp [stmt?]
  of_alike _ n := by cases n <;> simp [alike]

theorem Node.form_clause : Form .clause clause? where
  pick_eq_some n _ := by cases n <;> simp [clause?]
  of_alike _ n := by cases n <;> simp [alike]

theorem Node.form_decl : Form .decl decl? where
  pick_eq_some n _ := by cases n <;> simp [decl?]
  of_alike _ n := by cases n <;> simp [alike]

theorem Node.form_inst : Form .inst inst? where
  pick_eq_some n _ := by cases n <;> simp [inst?]
  of_alike _ n := by cases n <;> simp [alike]

theorem Node.form_connect : Form .connect connect? where
  pick_eq_some n _ := by cases n <;> simp [connect?]
  of_alike _ n := by cases n <;> simp [alike]

theorem Node.form_entity : Form .entity entity? where
  pick_eq_some n _ := by cases n <;> simp [entity?]
  of_alike _ n := by cases n <;> simp [alike]

/-! ## Places -/

/-- A place below a node, with what stands there. -/
inductive Slot : Type → Type 1
  | expr (e : Expr) : Slot Expr
  | decl (d : Decl) : Slot Decl
  | list {α : Type} {mk : α → Node} {pick : Node → Option α} (hmk : Form mk pick) (wanted : String) (xs : List α) :
    Slot (List α)

namespace Slot

abbrev exprs (es : List Expr) : Slot (List Expr) := list form_expr "<nil>" es

abbrev stmts (ss : List Stmt) : Slot (List Stmt) := list form_stmt "<nil>" ss

abbrev clauses (cs : List Clause) : Slot (List Clause) := list form_clause "*ast.CaseClause" cs

abbrev entities (es : List Entity) : Slot (List Entity) := list form_entity "*ast.Entity" es

def value : Slot α → α
  | expr e => e
  | decl d => d
  | list _ _ xs => xs

def nodes : Slot α → List Node
  | expr e => [.expr e]
  | decl d => [.decl d]
  | @list _ mk _ _ _ xs => xs.map mk

def walk (p : Pass σ) : Slot α → PassM σ (Option α)
  | expr e => e.walk p >>= p.asExpr e
  | decl d => d.walk p >>= p.asDecl
  | @list _ mk pick _ wanted xs => p.walkEach wanted pick (fun x => (mk x).walk p) xs

end Slot

/-- A value that is made from what stands in some places. -/
inductive Parts : Type → Type 1
  | const {β : Type} (b : β) : Parts β
  | fill {α β : Type} (f : Parts (α → β)) (x : Slot α) : Parts β

namespace Parts

def value : {β : Type} → Parts β → β
  | _, const b => b
  | _, fill f x => f.value x.value

def nodes : {β : Type} → Parts β → List Node
  | _, const _ => []
  | _, fill f x => f.nodes ++ x.nodes

def walk (p : Pass σ) : {β : Type} → Parts β → PassM σ (Option β)
  | _, const _ => pure none
  | _, fill f x => do
    let f' ← f.walk p
    let x' ← x.walk p
    return rebuilt2 (fun f x => f x) f.value x.value f' x'

/-- A value is made in the same way from what may stand in the places. -/
def Fills (P : ∀ {α : Type}, Slot α → α → Prop) : {β : Type} → Parts β → β → Prop
  | _, const b, b' => b = b'
  | _, fill f x, b' => ∃ f' x', f.Fills P f' ∧ P x x' ∧ f' x' = b'

@[simp] def one (mk : α → γ) (x : Slot α) : Parts γ := fill (const mk) x

@[simp] def two (mk : α → β → γ) (x : Slot α) (y : Slot β) : Parts γ := fill (one mk x) y

@[simp] def three (mk : α → β → γ → δ) (x : Slot α) (y : Slot β) (z : Slot γ) : Parts δ := fill (two mk x y) z

end Parts

open Parts

@[simp] def Expr.parts : Expr → Parts Node
  | .unary l op x => one (fun x => .expr (.unary l op x)) (.expr x)
  | .binary l op x y => two (fun x y => .expr (.binary l op x y)) (.expr x) (.expr y)
  | .ternary l c x y => three (fun c x y => .expr (.ternary l c x y)) (.expr c) (.expr x) (.expr y)
  | .cat l ps => one (fun ps => .expr (.cat l ps)) (.exprs ps)
  | .rep l n x => two (fun n x => .expr (.rep l n x)) (.expr n) (.expr x)
  | .index l x i => two (fun x i => .expr (.index l x i)) (.expr x) (.expr i)
  | .slice l x m n => three (fun x m n => .expr (.slice l x m n)) (.expr x) (.expr m) (.expr n)
  | .select l x f => one (fun x => .expr (.select l x f)) (.expr x)
  | .call l f as => two (fun f as => .expr (.call l f as)) (.expr f) (.exprs as)
  | e => const (.expr e)

@[simp] def Stmt.parts : Stmt → Parts Node
  | .block l b => one (fun b => .stmt (.block l b)) (.stmts b)
  | .cond l c t e => three (fun c t e => .stmt (.cond l c t e)) (.expr c) (.stmts t) (.stmts e)
  | .case l x cs none => two (fun x cs => .stmt (.case l x cs none)) (.expr x) (.clauses cs)
  | .case l x cs (some d) => three (fun x cs d => .stmt (.case l x cs (some d))) (.expr x) (.clauses cs) (.stmts d)
  | .loop l b => one (fun b => .stmt (.loop l b)) (.stmts b)
  | .assign l x y => two (fun x y => .stmt (.assign l x y)) (.expr x) (.expr y)
  | .expr l e => one (fun e => .stmt (.expr l e)) (.expr e)
  | .decl l d => one (fun d => .stmt (.decl l d)) (.decl d)
  | .stall l c => one (fun c => .stmt (.stall l c)) (.expr c)
  | s => const (.stmt s)

/-- What stands below a node and what is made from that. -/
@[simp] def Node.parts : Node → Parts Node
  | .root r => one (fun entities => .root { r with entities }) (.entities r.entities)
  | .entity ⟨l, s, ds, es, is, cs, ss⟩ =>
    fill (fill (three (fun ds es is cs ss => .entity ⟨l, s, ds, es, is, cs, ss⟩) (.list form_decl "*ast.Decl" ds) (.entities es)
      (.list form_inst "*ast.Instance" is)) (.list form_connect "*ast.Connect" cs)) (.stmts ss)
  | .decl ⟨l, s, none⟩ => const (.decl ⟨l, s, none⟩)
  | .decl ⟨l, s, some e⟩ => one (fun e => .decl ⟨l, s, some e⟩) (.expr e)
  | .inst i => const (.inst i)
  | .connect ⟨l, x, ys⟩ => two (fun x ys => .connect ⟨l, x, ys⟩) (.expr x) (.exprs ys)
  | .clause ⟨l, conds, body⟩ => two (fun conds body => .clause ⟨l, conds, body⟩) (.exprs conds) (.stmts body)
  | .stmt s => s.parts
  | .expr e => e.parts

theorem Node.value_parts (n : Node) : n.parts.value = n := by
  cases n with
  | decl d => obtain ⟨l, s, _ | e⟩ := d <;> rfl
  | stmt s => cases s with
    | case _ _ _ d => cases d <;> rfl
    | _ => rfl
  | expr e => cases e <;> rfl
  | root | inst | connect => rfl
  | entity e | clause e => cases e; rfl

theorem Node.nodes_parts (n : Node) : n.parts.nodes = n.children := by
  cases n with
  | decl d => obtain ⟨l, s, _ | e⟩ := d <;> rfl
  | stmt s => cases s with
    | case _ _ cs d => cases d <;> simp [parts, Stmt.parts, one, two, three, Parts.nodes, Slot.nodes, children, Stmt.children]
    | _ => rfl
  | expr e => cases e <;> rfl
  | root | inst | connect => rfl
  | entity e | clause e => cases e; rfl

section

variable (p : Pass σ)

theorem Parts.walk_one (mk : α → β) (x : Slot α) : (one mk x).walk p = do
    let x' ← x.walk p
    return x'.map mk := by
  simp only [one, walk, pure_bind]
  exact bind_congr fun x' => by cases x' <;> rfl

theorem Parts.walk_two (mk : α → β → γ) (x : Slot α) (y : Slot β) : (two mk x y).walk p = do
    let x' ← x.walk p
    let y' ← y.walk p
    return rebuilt2 mk x.value y.value x' y' := by
  simp only [two, walk, walk_one, bind_assoc, pure_bind]
  exact bind_congr fun x' => bind_congr fun y' => by cases x' <;> cases y' <;> rfl

theorem Parts.walk_three (mk : α → β → γ → δ) (x : Slot α) (y : Slot β) (z : Slot γ) : (three mk x y z).walk p = do
    let x' ← x.walk p
    let y' ← y.walk p
    let z' ← z.walk p
    return rebuilt3 mk x.value y.value z.value x' y' z' := by
  simp only [three, walk, walk_two, bind_assoc, pure_bind]
  exact bind_congr fun x' => bind_congr fun y' => bind_congr fun z' => by cases x' <;> cases y' <;> cases z' <;> rfl

theorem Expr.walk_eq (e : Expr) : e.walk p = p.visit (.expr e) (e.parts.walk p) := by
  cases e <;> simp only [walk, parts, walk_one, walk_two, walk_three, Slot.walk, bind_assoc, walkList_eq] <;> rfl

theorem Stmt.walk_eq (s : Stmt) : s.walk p = p.visit (.stmt s) (s.parts.walk p) := by
  cases s with
  | case _ _ _ d =>
    cases d <;> simp only [walk, walkDefault, parts, walk_two, walk_three, Slot.walk, Clause.walkList_eq,
      walkList_eq, bind_assoc, pure_bind] <;> congr 1
    · exact bind_congr fun _ => bind_congr fun x' => bind_congr fun cs' => by cases x' <;> cases cs' <;> rfl
    · exact bind_congr fun _ => bind_congr fun x' => bind_congr fun cs' => bind_congr fun d' => by
        cases x' <;> cases cs' <;> cases d' <;> rfl
  | _ => simp only [walk, parts, walk_one, walk_two, walk_three, Slot.walk, bind_assoc, walkList_eq] <;> rfl

/-- A walk visits a node on what the walks of its places make. -/
theorem Node.walk_eq (n : Node) : n.walk p = p.visit n (n.parts.walk p) := by
  cases n with
  | stmt s => exact s.walk_eq p
  | expr e => exact e.walk_eq p
  | inst i => rfl
  | decl d =>
    obtain ⟨l, s, _ | e⟩ := d
    · rfl
    · simp only [parts, walk_one, Slot.walk, bind_assoc]
      rfl
  | root r => simp only [parts, walk_one, Slot.walk, walk, Root.walk, Entity.walkList_eq]
  | connect c =>
    simp only [parts, walk_two, Slot.walk, walk, Connect.walk, Expr.walkList_eq, bind_assoc]
    rfl
  | clause c =>
    cases c
    simp only [parts, walk_two, Slot.walk, walk, Clause.walk, Expr.walkList_eq, walkList_eq]
    rfl
  | entity e =>
    cases e
    simp only [parts, Parts.walk, walk_three, Slot.walk, walk, Entity.walk, Entity.walkList_eq, walkList_eq,
      bind_assoc, pure_bind]
    congr 1
    exact bind_congr fun ds' => bind_congr fun es' => bind_congr fun is' => bind_congr fun cs' => bind_congr fun ss' => by
      cases ds' <;> cases es' <;> cases is' <;> cases cs' <;> cases ss' <;> rfl

end

/-! ## What walks make -/

theorem Parts.walk_fills {p : Pass σ} {s s' : Session σ} : ∀ {β : Type} {a : Parts β} {o : Option β}, a.walk p s = .ok o s' →
    a.Fills (fun _ _ => True) (o.getD a.value)
  | _, const _, _, h => by
    cases h
    rfl
  | _, fill f x, _, h => by
    obtain ⟨f', s1, hf, h⟩ := of_bind_ok h
    obtain ⟨x', s2, -, h⟩ := of_bind_ok h
    cases h
    exact ⟨_, _, walk_fills hf, trivial, (getD_rebuilt2 (fun f x => f x) f.value x.value f' x').symm⟩

theorem Node.alike_of_fills {P : ∀ {α : Type}, Slot α → α → Prop} (h : n.parts.Fills P n') : n.alike n' = true := by
  cases n with
  | decl d => obtain ⟨l, s, _ | e⟩ := d <;> simp [Fills] at h <;> grind [alike]
  | stmt s => cases s with
    | case _ _ _ d => cases d <;> simp [Fills] at h <;> grind [alike]
    | _ => simp [Fills] at h; grind [alike]
  | expr e => cases e <;> simp [Fills] at h <;> grind [alike]
  | root | inst | connect => simp [Fills] at h; grind [alike]
  | entity e | clause e => cases e; simp [Fills] at h; grind [alike]

end HdlLowering
