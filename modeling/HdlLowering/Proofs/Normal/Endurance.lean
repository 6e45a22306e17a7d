import HdlLowering.Normal.Blocks
import HdlLowering.Proofs.Concatenation.Flat
import HdlLowering.Proofs.Folding.Pass
import HdlLowering.Proofs.Value.Simplification

/-!
# Properties that last to normal form

`Endures` says which properties of nodes last through the passes to normal form: those that depend only on references,
selections, calls, declarations and assignments, and on the signals that an assignment drives. `Normalized` says what the passes
make of an entity.
-/

namespace HdlLowering

open List Expr Stmt Forest Concatenation

open Netlist (drivenSignals)

/-- A node of a form that says nothing about what is referred to, declared or driven. -/
def Node.bare : Node → Bool
  | .decl _ | .expr (.ref ..) | .expr (.select ..) | .expr (.call ..) => false
  | .stmt (.assign ..) | .stmt (.read _) | .stmt (.write _) => false
  | _ => true

/-- A property of nodes that lasts through the passes to normal form: bare nodes have it, and initial values of declarations,
flattening, and assignments that drive no other signals do not matter. -/
structure Endures (Γ : SymbolTable) (P : Node → Prop) : Prop where
  bare : ∀ n : Node, n.bare = true → P n
  decl : ∀ l s i i', P (.decl ⟨l, s, i⟩) → P (.decl ⟨l, s, i'⟩)
  select : ∀ l b f, (∀ x ∈ (select l b f).subterms, P (.expr x)) → P (.expr (.select l b.flat f))
  call : ∀ l f as, (∀ x ∈ (call l f as).subterms, P (.expr x)) → P (.expr (.call l f.flat (as.map flat)))
  flat : ∀ l x y, P (.stmt (.assign l x y)) → (∀ z ∈ x.subterms, P (.expr z)) → P (.stmt (.assign l x.flat y.flat))
  assign : ∀ l x y x' y', P (.stmt (.assign l x y)) → (∀ s ∈ drivenSignals Γ x', s ∈ drivenSignals Γ x) →
    P (.stmt (.assign l x' y'))

/-- What a pass to normal form makes of an entity, given what it makes of a connection. -/
structure Normalized (Γ : SymbolTable) (K : Connect → List Connect → Prop) (e e' : Entity) : Prop where
  symbol : e'.symbol = e.symbol
  nested : e.entities = [] → e'.entities = []
  connects : ∃ css, Forall₂ K e.connects css ∧ e'.connects = css.flatten
  body : ∀ P, Endures Γ P → (∀ k ∈ nodesList e.stmts, P k) → ∀ k ∈ nodesList e'.stmts, P k

variable {Γ : SymbolTable} {P : Node → Prop} {e e' : Expr} {l : Loc} {out : Option Root} {r : Root} {cs : List Clause}
  {body : List Stmt}

/-! ## Expressions -/

theorem Expr.forall_mem_nodes : (∀ k ∈ (Node.expr e).nodes, P k) ↔ ∀ x ∈ e.subterms, P (.expr x) := by
  rw [Node.nodes, nodes, forall_mem_map]

theorem Expr.forall_mem_subterms {Q : Expr → Prop} :
    (∀ x ∈ e.subterms, Q x) ↔ Q e ∧ ∀ y ∈ e.operands, ∀ x ∈ y.subterms, Q x := by
  rw [subterms_eq, forall_mem_cons, forall_mem_flatMap]

def Expr.mapOperands (φ : Expr → Expr) : Expr → Expr
  | .ref l s => .ref l s
  | .num l signed v => .num l signed v
  | .int l signed w v => .int l signed w v
  | .unary l op x => .unary l op (φ x)
  | .binary l op x y => .binary l op (φ x) (φ y)
  | .ternary l c x y => .ternary l (φ c) (φ x) (φ y)
  | .cat l ps => .cat l (ps.map φ)
  | .rep l n x => .rep l (φ n) (φ x)
  | .index l x i => .index l (φ x) (φ i)
  | .slice l x m n => .slice l (φ x) (φ m) (φ n)
  | .select l x f => .select l (φ x) f
  | .call l f as => .call l (φ f) (as.map φ)

theorem Expr.mapOperands_id (e : Expr) : e.mapOperands id = e := by
  cases e <;> simp [mapOperands]

theorem Expr.mapOperands_flat (h : e.isCat = false) : e.mapOperands flat = e.flat := by
  cases e with
  | cat => nomatch h
  | _ => simp [mapOperands, flat, flatList_eq]

section

variable {post : Node → Forest → Prop} {φ : Expr → Expr} {n : Node}

variable (hpost : ∀ e f, post (.expr e) f → f = .node (.expr (φ e)))
include hpost

theorem Splices.exprs_eq {xs ys : List Expr} (h : Splices post .expr xs ys) : ys = xs.map φ := by
  induction h with
  | nil => rfl
  | cons hx hf _ ih =>
    rw [hpost _ _ hx, leaves, eq_comm, map_eq_singleton_iff] at hf
    obtain ⟨y, rfl, hy⟩ := hf
    rw [ih, Node.expr.inj hy]
    rfl

theorem Rebuilt.expr_eq (h : Rebuilt post (.expr e) n) : n = .expr (e.mapOperands φ) := by
  have hnode : ∀ {x x' : Expr}, post (.expr x) (.node (.expr x')) → x' = φ x := fun h => by
    simpa using hpost _ _ h
  cases h with
  | ref | num | int => rfl
  | unary l op hx => rw [hnode hx]; rfl
  | binary l op hx hy => rw [hnode hx, hnode hy]; rfl
  | ternary l hc hx hy => rw [hnode hc, hnode hx, hnode hy]; rfl
  | cat l hps => rw [hps.exprs_eq hpost]; rfl
  | rep l hn hx => rw [hnode hn, hnode hx]; rfl
  | index l hx hi => rw [hnode hx, hnode hi]; rfl
  | slice l hx hm hn => rw [hnode hx, hnode hm, hnode hn]; rfl
  | select l f hx => rw [hnode hx]; rfl
  | call l hf has => rw [hnode hf, has.exprs_eq hpost]; rfl

theorem Rebuilt.assign_eq {x y : Expr}
    (h : Rebuilt post (.stmt (.assign l x y)) n) : n = .stmt (.assign l (φ x) (φ y)) := by
  cases h with
  | assign l hx hy =>
    have hx' := hpost _ _ hx
    have hy' := hpost _ _ hy
    simp only [node.injEq, Node.expr.injEq] at hx' hy'
    rw [hx', hy']

theorem Rebuilt.connect_eq {c : Connect}
    (h : Rebuilt post (.connect c) n) : n = .connect ⟨c.loc, φ c.source, c.sinks.map φ⟩ := by
  cases h with
  | connect l hx hys =>
    have hx' := hpost _ _ hx
    simp only [node.injEq, Node.expr.injEq] at hx'
    rw [hx', hys.exprs_eq hpost]

end

theorem Endures.flat_subterms (h : Endures Γ P) (e : Expr) (he : ∀ x ∈ e.subterms, P (.expr x)) :
    ∀ x ∈ e.flat.subterms, P (.expr x) := by
  induction e using Expr.of_operands with
  | h e ih =>
    have hop : ∀ y ∈ e.operands, ∀ x ∈ y.flat.subterms, P (.expr x) := fun y hy =>
      ih y hy fun x hx => he x (Expr.mem_subterms_of_operand hy hx)
    cases hcat : e.isCat with
    | false =>
      rw [Expr.forall_mem_subterms, operands_flat hcat, forall_mem_map]
      refine ⟨?_, hop⟩
      cases e with
      | ref l s => exact he _ (Expr.self_mem_subterms _)
      | select l b f => exact h.select l b f he
      | call l f as =>
        rw [Expr.flat, Expr.flatList_eq]
        exact h.call l f as he
      | cat => cases hcat
      | _ => exact h.bare _ rfl
    | true =>
      cases e with
      | cat l ps =>
        -- a part of a flattened operand stands below that operand
        have hpart : ∀ q ∈ flatParts (ps.map Expr.flat), ∀ x ∈ q.subterms, P (.expr x) := by
          intro q hq x hx
          obtain ⟨_, hflat, hq⟩ := mem_flatParts.mp hq
          obtain ⟨p, hp, rfl⟩ := mem_map.mp hflat
          exact hop p hp x (subterms_targets hq hx)
        rw [Expr.flat, Expr.flatList_eq]
        rcases flattened_cases l (ps.map Expr.flat) with ⟨q, hq, hflat⟩ | ⟨-, hflat⟩
        · rw [hflat]
          exact hpart q (hq ▸ mem_singleton_self q)
        · rw [hflat, Expr.forall_mem_subterms]
          exact ⟨h.bare _ rfl, hpart⟩
      | _ => cases hcat

theorem Endures.ofValue (h : Endures Γ P) (l : Loc) (v : Int) (k : Kind) : ∀ x ∈ (Expr.ofValue l v k).subterms, P (.expr x) := by
  unfold Expr.ofValue
  split
  · exact forall_mem_singleton.mpr (h.bare _ rfl)
  · exact forall_mem_singleton.mpr (h.bare _ rfl)

theorem Endures.simplify (h : Endures Γ P) (b : Bindings) (e : Expr) (he : ∀ x ∈ e.subterms, P (.expr x)) :
    ∀ x ∈ (e.simplify Γ b).subterms, P (.expr x) := by
  induction e using Expr.of_operands with
  | h e ih =>
    have hop : ∀ y ∈ e.operands, ∀ x ∈ (y.simplify Γ b).subterms, P (.expr x) := fun y hy =>
      ih y hy fun x hx => he x (Expr.mem_subterms_of_operand hy hx)
    have hfolded : e.simplify? Γ b = e.folded? Γ b → ∀ x ∈ (e.simplify Γ b).subterms, P (.expr x) := by
      intro heq
      rw [Expr.simplify, heq, Expr.folded?]
      cases e.eval Γ b with
      | none => exact he
      | some v => exact h.ofValue _ _ _
    cases e with
    | num | int => exact he
    | unary l op x =>
      cases hv : (Expr.unary l op x).eval Γ b with
      | some v =>
        rw [Expr.simplify_of_eval hv rfl]
        exact h.ofValue _ _ _
      | none =>
        rw [Expr.simplify_unary hv, Expr.forall_mem_subterms]
        exact ⟨h.bare _ rfl, forall_mem_singleton.mpr (hop x mem_cons_self)⟩
    | binary l op x y =>
      cases hv : (Expr.binary l op x y).eval Γ b with
      | some v =>
        rw [Expr.simplify_of_eval hv rfl]
        exact h.ofValue _ _ _
      | none =>
        rw [Expr.simplify_binary hv, Expr.forall_mem_subterms]
        exact ⟨h.bare _ rfl, forall_mem_map (l := [x, y]).mpr hop⟩
    | ternary l c x y =>
      cases hv : (Expr.ternary l c x y).eval Γ b with
      | some v =>
        rw [Expr.simplify_of_eval hv rfl]
        exact h.ofValue _ _ _
      | none =>
        rw [Expr.simplify_ternary hv, Expr.forall_mem_subterms]
        exact ⟨h.bare _ rfl, forall_mem_map (l := [c, x, y]).mpr hop⟩
    | ref | cat | rep | index | slice | select | call => exact hfolded rfl

/-! ## Folded statements -/

theorem Stmt.forall_mem_nodesList {ss : List Stmt} : (∀ k ∈ nodesList ss, P k) ↔ ∀ s ∈ ss, ∀ k ∈ (Node.stmt s).nodes, P k := by
  rw [nodesList_eq, forall_mem_flatMap, forall_mem_map]

theorem Clause.forall_mem_nodesList : (∀ k ∈ Clause.nodesList cs, P k) ↔ ∀ c ∈ cs, ∀ k ∈ (Node.clause c).nodes, P k := by
  rw [Clause.nodesList_eq, forall_mem_flatMap, forall_mem_map]

theorem Stmt.forall_mem_nodes_cond {c : Expr} {yes no : List Stmt} :
    (∀ k ∈ (Node.stmt (.cond l c yes no)).nodes, P k) ↔ P (.stmt (.cond l c yes no)) ∧ (∀ x ∈ c.subterms, P (.expr x)) ∧
      (∀ k ∈ nodesList yes, P k) ∧ ∀ k ∈ nodesList no, P k := by
  rw [Node.forall_mem_nodes]
  simp only [Node.children, children, forall_mem_cons, forall_mem_append, forall_mem_map,
    forall_mem_nodes, forall_mem_nodesList]

theorem Stmt.forall_mem_nodes_case {x : Expr} {d : Option (List Stmt)} :
    (∀ k ∈ (Node.stmt (.case l x cs d)).nodes, P k) ↔ P (.stmt (.case l x cs d)) ∧ (∀ y ∈ x.subterms, P (.expr y)) ∧
      (∀ k ∈ Clause.nodesList cs, P k) ∧ ∀ k ∈ nodesList (d.getD []), P k := by
  rw [Node.forall_mem_nodes]
  simp only [Node.children, children, forall_mem_cons, forall_mem_append, forall_mem_map,
    forall_mem_nodes, forall_mem_nodesList, Clause.forall_mem_nodesList]

theorem Clause.forall_mem_nodes {conds : List Expr} :
    (∀ k ∈ (Node.clause ⟨l, conds, body⟩).nodes, P k) ↔ P (.clause ⟨l, conds, body⟩) ∧
      (∀ c ∈ conds, ∀ x ∈ c.subterms, P (.expr x)) ∧ ∀ k ∈ Stmt.nodesList body, P k := by
  rw [Node.forall_mem_nodes]
  simp only [Node.children, forall_mem_append, forall_mem_map, Expr.forall_mem_nodes, Stmt.forall_mem_nodesList]

theorem Endures.replacement (h : Endures Γ P) (b : Bindings) {s : Stmt} (hs : ∀ k ∈ (Node.stmt s).nodes, P k) :
    ∀ k ∈ Stmt.nodesList (s.replacement Γ b), P k := by
  have hsame : ∀ k ∈ Stmt.nodesList [s], P k := Stmt.forall_mem_nodesList.mpr (forall_mem_singleton.mpr hs)
  cases s with
  | cond l c yes no =>
    obtain ⟨-, hc, hyes, hno⟩ := Stmt.forall_mem_nodes_cond.mp hs
    rw [Stmt.replacement]
    split
    · split
      · exact hyes
      · exact hno
    · rw [Stmt.forall_mem_nodesList, forall_mem_singleton, Stmt.forall_mem_nodes_cond]
      exact ⟨h.bare _ rfl, h.simplify b c hc, hyes, hno⟩
  | case l x cs d =>
    obtain ⟨-, -, hcs, hd⟩ := Stmt.forall_mem_nodes_case.mp hs
    rw [Stmt.replacement]
    split
    · rename_i arm _
      cases arm with
      | fallback => exact hd
      | clause i =>
        cases hi : cs[i]? with
        | none => simp [Arm.body, hi, Stmt.nodesList]
        | some c =>
          obtain ⟨lc, conds, body⟩ := c
          simp only [Arm.body, hi, Option.map_some, Option.getD_some]
          exact (Clause.forall_mem_nodes.mp (Clause.forall_mem_nodesList.mp hcs _ (mem_of_getElem? hi))).2.2
    · exact hsame
  | stall l c =>
    rw [Stmt.replacement]
    split
    · simp [Stmt.nodesList]
    · exact hsame
  | _ => exact hsame

/-! ## Walks that normalize -/

/-- What a pass to normal form puts for a node, given what it makes of an expression and of a connection. -/
structure Normalizes (Γ : SymbolTable) (φ : Expr → Expr) (K : Connect → List Connect → Prop) (n : Node) (f : Forest) : Prop where
  alike : ∀ m ∈ f.leaves, n.alike m = true
  expr : ∀ e, n = .expr e → f = .node (.expr (φ e))
  decl : ∀ d, n = .decl d → ∃ d', f = .node (.decl d')
  connect : ∀ c, n = .connect c → ∃ cs, f.leaves = cs.map .connect ∧ K c cs
  entity : ∀ e, n = .entity e → ∃ e', f = .node (.entity e') ∧ Normalized Γ K e e'
  root : ∀ r, n = .root r → ∃ r', f = .node (.root r') ∧ Forall₂ (Normalized Γ K) r.entities r'.entities
  endures : ∀ P, Endures Γ P → (∀ k ∈ n.nodes, P k) → ∀ m ∈ f.leaves, ∀ k ∈ m.nodes, P k

section

variable {φ : Expr → Expr} {K : Connect → List Connect → Prop} {n n' : Node}

theorem Rebuilt.endures (h : Rebuilt (Normalizes Γ φ K) n n') (hP : Endures Γ P) (hn : ∀ k ∈ n.nodes, P k) (hself : P n') :
    ∀ k ∈ n'.nodes, P k := by
  rw [Node.forall_mem_nodes] at hn ⊢
  refine ⟨hself, fun m' hm' => ?_⟩
  obtain ⟨m, hm, f, hpost, hleaf⟩ := h.standFor m' hm'
  exact hpost.endures P hP (hn.2 m hm) m' hleaf

theorem Splices.connects {cs cs' : List Connect} (h : Splices (Normalizes Γ φ K) .connect cs cs') :
    ∃ css, Forall₂ K cs css ∧ cs' = css.flatten := by
  induction h with
  | nil => exact ⟨[], .nil, rfl⟩
  | cons hx hf _ ih =>
    obtain ⟨css, hcss, rfl⟩ := ih
    obtain ⟨ys, hleaves, hys⟩ := hx.connect _ rfl
    obtain rfl := (List.map_inj_right fun _ _ h => Node.connect.inj h).mp (hf.symm.trans hleaves)
    exact ⟨_ :: css, .cons hys hcss, rfl⟩

theorem Splices.entities {es es' : List Entity} (h : Splices (Normalizes Γ φ K) .entity es es') :
    Forall₂ (Normalized Γ K) es es' := by
  induction h with
  | nil => exact .nil
  | cons hx hf _ ih =>
    obtain ⟨e', rfl, he'⟩ := hx.entity _ rfl
    rw [leaves, eq_comm, map_eq_singleton_iff] at hf
    obtain ⟨y, rfl, hy⟩ := hf
    exact .cons (Node.entity.inj hy ▸ he') ih

theorem Splices.nodesList {ss ss' : List Stmt} (h : Splices (Normalizes Γ φ K) .stmt ss ss') (hP : Endures Γ P)
    (hss : ∀ k ∈ nodesList ss, P k) : ∀ k ∈ nodesList ss', P k := by
  rw [forall_mem_nodesList] at hss ⊢
  intro s' hs'
  obtain ⟨s, hs, f, hpost, hleaf⟩ := h.exists_of_mem hs'
  exact hpost.endures P hP (hss s hs) _ hleaf

/-- A node other than an expression, an assignment or a connection that a pass to normal form keeps. -/
theorem Normalizes.kept (h : Rebuilt (Normalizes Γ φ K) n n') (hexpr : ∀ e, n ≠ .expr e) (hconnect : ∀ c, n ≠ .connect c)
    (hassign : ∀ l x y, n ≠ .stmt (.assign l x y)) : Normalizes Γ φ K n (.node n') where
  alike := by
    rw [Forest.leaves, forall_mem_singleton]
    exact h.alike (by cases n' <;> rfl)
  expr e he := absurd he (hexpr e)
  decl d hd := by
    subst hd
    cases h with
    | declBare | decl => exact ⟨_, rfl⟩
  connect c hc := absurd hc (hconnect c)
  entity e he := by
    subst he
    cases h with
    | entity l s hds hes his hcs hss =>
      refine ⟨_, rfl, rfl, fun hnested => ?_, hcs.connects, fun P hP => hss.nodesList hP⟩
      obtain rfl := hnested
      cases hes
      rfl
  root r hr := by
    subst hr
    cases h with
    | root l hes => exact ⟨_, rfl, hes.entities⟩
  endures P hP hn := by
    rw [Forest.leaves, forall_mem_singleton]
    refine h.endures hP hn ?_
    have hself := hn n n.self_mem_nodes
    cases h with
    | ref | num | int | unary | binary | ternary | cat | rep | index | slice | select | call => exact absurd rfl (hexpr _)
    | connect => exact absurd rfl (hconnect _)
    | assign => exact absurd rfl (hassign _ _ _)
    | declBare | read | write => exact hself
    | decl l s => exact hP.decl l s _ _ hself
    | _ => exact hP.bare _ rfl

theorem Normalizes.same (hexpr : ∀ e, n = .expr e → φ e = e) (hconnect : ∀ c, n = .connect c → K c [c])
    (hentity : ∀ e, n ≠ .entity e) (hroot : ∀ r, n ≠ .root r) : Normalizes Γ φ K n (.node n) where
  alike := by
    rw [leaves, forall_mem_singleton]
    cases n <;> rfl
  expr e he := by rw [hexpr e he, he]
  decl d hd := ⟨d, by rw [hd]⟩
  connect c hc := ⟨[c], by rw [hc]; rfl, hconnect c hc⟩
  entity e he := absurd he (hentity e)
  root r hr := absurd hr (hroot r)
  endures P _ hn := by rwa [leaves, forall_mem_singleton]

theorem Normalizes.stmts {x : Stmt} {xs : List Stmt} {f : Forest} (hleaves : f.leaves = xs.map .stmt)
    (h : ∀ P, Endures Γ P → (∀ k ∈ (Node.stmt x).nodes, P k) → ∀ y ∈ xs, ∀ k ∈ (Node.stmt y).nodes, P k) :
    Normalizes Γ φ K (.stmt x) f where
  alike := by
    rw [hleaves]
    exact forall_mem_map.mpr fun _ _ => rfl
  expr := nofun
  decl := nofun
  connect := nofun
  entity := nofun
  root := nofun
  endures P hP hn := by
    rw [hleaves]
    exact forall_mem_map.mpr (h P hP hn)

theorem Normalizes.left (h : Rebuilt (Normalizes Γ id fun c cs => cs = [c]) n n') :
    Normalizes Γ id (fun c cs => cs = [c]) n (.node n') := by
  have hpost : ∀ e f, Normalizes Γ id (fun c cs => cs = [c]) (.expr e) f → f = .node (.expr e) := fun e _ h => h.expr e rfl
  by_cases hexpr : ∃ e, n = .expr e
  · obtain ⟨e, rfl⟩ := hexpr
    obtain rfl := (h.expr_eq (φ := id) hpost).trans (by rw [mapOperands_id])
    exact .same (fun _ _ => rfl) nofun nofun nofun
  · by_cases hconnect : ∃ c, n = .connect c
    · obtain ⟨c, rfl⟩ := hconnect
      obtain rfl := (h.connect_eq (φ := id) hpost).trans (by rw [map_id, id])
      exact .same nofun (fun _ _ => rfl) nofun nofun
    · by_cases hassign : ∃ l x y, n = .stmt (.assign l x y)
      · obtain ⟨l, x, y, rfl⟩ := hassign
        obtain rfl := h.assign_eq (φ := id) hpost
        exact .same nofun nofun nofun nofun
      · exact .kept h (fun e he => hexpr ⟨e, he⟩) (fun c hc => hconnect ⟨c, hc⟩) fun l x y h => hassign ⟨l, x, y, h⟩

theorem Normalizes.of_walk
    (h : Normalizes Γ φ K (.root r) ((out.map fun r => .node (.root r)).getD (.node (.root r)))) :
    Forall₂ (Normalized Γ K) r.entities (out.getD r).entities := by
  obtain ⟨r', hr', hentities⟩ := h.root r rfl
  cases out with
  | none | some =>
    cases hr'
    exact hentities

end

namespace Folding

theorem pass_normalizes (Γ : SymbolTable) : pass.Establishes (fun _ => False) (fun _ => True) (fun s => s.ctx.symbols = Γ)
    (Normalizes Γ id fun c cs => cs = [c]) where
  below _ _ _ _ := trivial
  skip _ _ := .pure nofun
  enter n _ s hs := by cases n <;> exact ⟨hs, trivial⟩
  transform n n' _ h s hs := by
    have hleft := Normalizes.left h
    subst hs
    cases n' with
    | stmt x' =>
      obtain ⟨x, rfl⟩ : ∃ x, n = .stmt x := by cases h <;> exact ⟨_, rfl⟩
      obtain ⟨reply, hfold, hleaves⟩ := fold_ok (s.own.bindings.top?.getD {}) x' s.ctx s.own
      have hrun : pass.transform (.stmt x') s = .ok reply _ := (bind_ok hfold).trans rfl
      rw [hrun]
      refine ⟨rfl, .stmts hleaves fun P hP hn => ?_⟩
      exact forall_mem_nodesList.mp (hP.replacement _ (hleft.endures P hP hn _ (mem_singleton_self _)))
    | _ => exact ⟨rfl, hleft⟩
  expr _ _ h := ⟨_, h.expr _ rfl⟩
  decl _ _ h := h.decl _ rfl
  alike _ _ h := h.alike

/-- Folding normalizes a design. -/
theorem run_normalizes {c : Context} {s : Session State} (h : pass.run r ⟨c, {}⟩ = .ok out s) :
    s.ctx.symbols = c.symbols ∧ Forall₂ (Normalized c.symbols fun c cs => cs = [c]) r.entities (out.getD r).entities := by
  have hfinal : ∀ r s, Yields True (fun _ s1 => s1 = s) (pass.finalCheck r s) := by
    intro r s
    unfold pass
    dsimp only
    rw [bind_ok (PassM.own_ok s)]
    split
    · trivial
    · rfl
  have hwalk := Pass.of_run_ok (p := pass) (fun _ _ _ => rfl) hfinal h
  obtain ⟨hsymbols, hnormal⟩ := ((Node.root r).walk_gives (pass_normalizes c.symbols) trivial _ rfl).of_ok hwalk
  exact ⟨hsymbols, hnormal.of_walk⟩

end Folding

namespace Blocks

theorem pass_normalizes (Γ : SymbolTable) : pass.Establishes (fun _ => False) (fun _ => True) (fun s => s.ctx.symbols = Γ)
    (Normalizes Γ id fun c cs => cs = [c]) where
  below _ _ _ _ := trivial
  skip _ _ := .pure nofun
  enter _ _ := .pure trivial
  transform n n' _ h s hs := by
    have hleft := Normalizes.left h
    cases h with
    | block l hb =>
      refine ⟨hs, .stmts (leaves_several .stmt _) fun P hP hn => ?_⟩
      have hblock := hleft.endures P hP hn _ (mem_singleton_self _)
      exact forall_mem_map.mp (Node.forall_mem_nodes.mp hblock).2
    | _ => exact ⟨hs, hleft⟩
  expr _ _ h := ⟨_, h.expr _ rfl⟩
  decl _ _ h := h.decl _ rfl
  alike _ _ h := h.alike

theorem check_yields (ns : List Node) (s : Session Unit) :
    Yields True (fun _ s' => s' = s) ((liftM (check ns) : PassM Unit Unit) s) := by
  induction ns with
  | nil => exact rfl
  | cons n ns ih =>
    cases n with
    | stmt x =>
      cases x with
      | block => trivial
      | _ => exact ih
    | _ => exact ih

/-- So does the removal of blocks. -/
theorem run_normalizes {c : Context} {s : Session Unit} (h : pass.run r ⟨c, ()⟩ = .ok out s) :
    s.ctx.symbols = c.symbols ∧ Forall₂ (Normalized c.symbols fun c cs => cs = [c]) r.entities (out.getD r).entities := by
  have hwalk := Pass.of_run_ok (p := pass) (fun _ _ _ => rfl) (fun _ _ => check_yields _ _) h
  obtain ⟨hsymbols, hnormal⟩ := ((Node.root r).walk_gives (pass_normalizes c.symbols) trivial _ rfl).of_ok hwalk
  exact ⟨hsymbols, hnormal.of_walk⟩

end Blocks

end HdlLowering
