import HdlLowering.Normal.Blocks
import HdlLowering.Proofs.Traversal.Recording

/-!
# Removal of blocks

Blocks group statements and mean nothing else. `Node.outline` is what remains of a tree without regard to them: every other node,
in order, with the nodes and branches around it. The pass leaves no block and keeps the outline, and it has nothing to do the
second time (`Blocks.run_dissolves`).
-/

namespace HdlLowering

open List Node

/-! ## Outlines -/

def Node.isBlock : Node → Bool
  | .stmt (.block ..) => true
  | _ => false

/-- A node without the statements, arms and entities below it. -/
def Node.shell : Node → Node
  | .root r => .root { r with entities := [] }
  | .entity e => .entity { e with entities := [], stmts := [] }
  | .clause c => .clause { c with body := [] }
  | .stmt (.block l _) => .stmt (.block l [])
  | .stmt (.cond l c _ _) => .stmt (.cond l c [] [])
  | .stmt (.case l x _ d) => .stmt (.case l x [] (d.map fun _ => []))
  | .stmt (.loop l _) => .stmt (.loop l [])
  | n => n

/-- The children of a node, each with the number of the branch that it stands in. -/
def Node.branches : Node → List (Nat × Node)
  | .stmt (.cond _ c t e) => (0, .expr c) :: (t.map (1, .stmt ·) ++ e.map (2, .stmt ·))
  | .stmt (.case _ x cs d) => (0, .expr x) :: (cs.map (1, .clause ·) ++ (d.getD []).map (2, .stmt ·))
  | n => n.children.map (0, ·)

theorem Node.map_snd_branches (n : Node) : n.branches.map (·.2) = n.children := by
  unfold branches
  split <;> simp [children, Stmt.children, Function.comp_def]

/-- The nodes of a tree that are no blocks, in order, each with the nodes around it that are no blocks either, the innermost
first, and the branches of these that it stands in. -/
def Node.outline (around : List (Node × Nat)) (n : Node) : List (List (Node × Nat) × Node) :=
  if n.isBlock then n.children.attach.flatMap fun m => m.1.outline around
  else (around, n.shell) :: n.branches.attach.flatMap fun m => m.1.2.outline ((n.shell, m.1.1) :: around)
termination_by n.nodes.length
decreasing_by
  · exact length_nodes_child m.2
  · exact length_nodes_child (n.map_snd_branches ▸ mem_map_of_mem m.2)

section

variable {around : List (Node × Nat)} {n : Node}

theorem Node.outline_block (h : n.isBlock = true) : n.outline around = n.children.flatMap (outline around) := by
  rw [outline, if_pos h]
  simp

theorem Node.outline_eq (h : n.isBlock = false) :
    n.outline around = (around, n.shell) :: n.branches.flatMap fun m => m.2.outline ((n.shell, m.1) :: around) := by
  rw [outline, h, if_neg Bool.false_ne_true]
  conv_rhs => rw [← attach_map_subtype_val n.branches, flatMap_map]

theorem Node.map_snd_outline (around : List (Node × Nat)) (n : Node) :
    (n.outline around).map (·.2) = (n.nodes.filter fun m => !m.isBlock).map shell := by
  have hbelow (around : Nat → List (Node × Nat)) : (n.branches.flatMap fun m => m.2.outline (around m.1)).map (·.2) =
      ((n.children.flatMap nodes).filter fun m => !m.isBlock).map shell := by
    rw [← n.map_snd_branches, flatMap_map, map_flatMap, filter_flatMap, map_flatMap]
    refine flatMap_congr fun m hm => ?_
    have hless := length_nodes_child (n.map_snd_branches ▸ mem_map_of_mem hm)
    exact m.2.map_snd_outline _
  rw [n.nodes_eq]
  cases hblock : n.isBlock with
  | true =>
    rw [outline_block hblock, filter_cons_of_neg (by simp [hblock]), ← hbelow fun _ => around, ← n.map_snd_branches, flatMap_map]
  | false => rw [outline_eq hblock, filter_cons_of_pos (by simp [hblock]), map_cons, map_cons, hbelow fun i => (n.shell, i) :: around]
termination_by n.nodes.length

end

/-! ## The pass -/

/-- Nodes that have no statements below them. -/
def Node.isPlain : Node → Bool
  | .expr _ | .decl _ | .inst _ | .connect _ => true
  | _ => false

namespace Blocks

variable {α : Type} {mk : α → Node} {xs ys : List α} {n n' : Node}

structure Flattens (n : Node) (f : Forest) : Prop where
  alike : ∀ m ∈ f.leaves, n.alike m = true
  plain : n.isPlain = true → f = .node n
  blockless : ∀ m ∈ f.leaves, ∀ k ∈ m.nodes, k.isBlock = false
  outline : ∀ around, f.leaves.flatMap (outline around) = n.outline around
  root : ∀ r, n = .root r → ∃ r', f = .node (.root r')

theorem Flattens.plain_list (h : Splices Flattens mk xs ys) (hplain : ∀ x, (mk x).isPlain = true)
    (hmk : ∀ {x y}, mk x = mk y → x = y) : ys = xs := by
  rw [h.eq_map (g := id) hmk fun x _ hx => hx.plain (hplain x), map_id]

theorem Flattens.outline_list (h : Splices Flattens mk xs ys) (around : List (Node × Nat)) :
    (ys.map mk).flatMap (Node.outline around) = (xs.map mk).flatMap (Node.outline around) := by
  induction h with
  | nil => rfl
  | cons hx hf _ ih => rw [map_append, flatMap_append, ← hf, hx.outline, ih, map_cons, flatMap_cons]

theorem Flattens.below (h : Rebuilt Flattens n n') : ∀ m ∈ n'.children, ∀ k ∈ m.nodes, k.isBlock = false := by
  intro m hm
  obtain ⟨_, -, f, hf, hleaf⟩ := h.standFor m hm
  exact hf.blockless m hleaf

/-- A node either has nothing below it that changes, or it keeps what it is apart from its branches, and the outlines of these. -/
theorem Flattens.rebuilt (h : Rebuilt Flattens n n') : n' = n ∨ n.isPlain = false ∧ n'.shell = n.shell ∧
    ∀ g : Nat → List (Node × Nat), (n'.branches.flatMap fun m => m.2.outline (g m.1)) =
      n.branches.flatMap fun m => m.2.outline (g m.1) := by
  have hone {x x' : Expr} (hx : Flattens (.expr x) (.node (.expr x'))) : x' = x := by
    cases hx.plain rfl
    rfl
  have hexprs {xs ys : List Expr} (hxs : Splices Flattens .expr xs ys) : ys = xs := plain_list hxs (fun _ => rfl) (by simp)
  have hlist {α : Type} {mk : α → Node} {xs ys : List α} (hxs : Splices Flattens mk xs ys) (around : List (Node × Nat)) :
      (ys.flatMap fun y => (mk y).outline around) = xs.flatMap fun x => (mk x).outline around := by
    simpa only [flatMap_map] using outline_list hxs around
  cases h with
  | ref | num | int | declBare | inst | goto | fence | «break» | «continue» | read | write => exact .inl rfl
  | unary l op hx | select l f hx | expr l hx | stall l hx | decl l s hx => exact .inl (by rw [hone hx])
  | binary l op hx hy | rep l hx hy | index l hx hy | assign l hx hy => exact .inl (by rw [hone hx, hone hy])
  | ternary l hx hy hz | slice l hx hy hz => exact .inl (by rw [hone hx, hone hy, hone hz])
  | cat l hxs => exact .inl (by rw [hexprs hxs])
  | call l hx hxs | connect l hx hxs => exact .inl (by rw [hone hx, hexprs hxs])
  | declStmt l hd =>
    cases hd.plain rfl
    exact .inl rfl
  | block l hb | loop l hb | root l hb =>
    refine .inr ⟨rfl, rfl, fun g => ?_⟩
    simp only [Node.branches, Node.children, Stmt.children, map_map, flatMap_map, Function.comp_apply, hlist hb]
  | cond l hc ht he =>
    refine .inr ⟨rfl, by rw [hone hc]; rfl, fun g => ?_⟩
    simp only [Node.branches, hone hc, flatMap_cons, flatMap_append, flatMap_map, hlist ht, hlist he]
  | case l hx hcs hd =>
    cases hd with
    | none =>
      refine .inr ⟨rfl, by rw [hone hx]; rfl, fun g => ?_⟩
      simp only [Node.branches, hone hx, flatMap_cons, flatMap_append, flatMap_map, hlist hcs]
    | some hb =>
      refine .inr ⟨rfl, by rw [hone hx]; rfl, fun g => ?_⟩
      simp only [Node.branches, Option.getD_some, hone hx, flatMap_cons, flatMap_append, flatMap_map, hlist hcs, hlist hb]
  | clause l hconds hb =>
    refine .inr ⟨rfl, by rw [hexprs hconds]; rfl, fun g => ?_⟩
    simp only [Node.branches, Node.children, hexprs hconds, map_append, map_map, flatMap_append, flatMap_map,
      Function.comp_apply, hlist hb]
  | entity l s hds hes his hcs hss =>
    obtain rfl := plain_list hds (fun _ => rfl) (by simp)
    obtain rfl := plain_list his (fun _ => rfl) (by simp)
    obtain rfl := plain_list hcs (fun _ => rfl) (by simp)
    refine .inr ⟨rfl, rfl, fun g => ?_⟩
    simp only [Node.branches, Node.children, map_append, map_map, flatMap_append, flatMap_map, Function.comp_apply, hlist hes,
      hlist hss]

theorem Flattens.kept (h : Rebuilt Flattens n n') (hblock : n.isBlock = false) : Flattens n (.node n') := by
  have hblock' : n'.isBlock = false := by
    cases h <;> first | rfl | nomatch hblock
  have halike : n'.alike n' = true := by
    cases n' <;> rfl
  refine ⟨forall_mem_singleton.mpr (h.alike halike), fun hplain => ?_,
    forall_mem_singleton.mpr (forall_mem_nodes.mpr ⟨hblock', below h⟩), fun around => ?_, ?_⟩
  · rcases rebuilt h with rfl | ⟨hnot, -⟩
    · rfl
    · nomatch hplain.symm.trans hnot
  · rw [Forest.leaves, flatMap_singleton]
    rcases rebuilt h with rfl | ⟨-, hshell, hbranches⟩
    · rfl
    · rw [outline_eq hblock', outline_eq hblock, hshell, hbranches fun i => (n.shell, i) :: around]
  · rintro r rfl
    cases h
    exact ⟨_, rfl⟩

theorem pass_flattens (s : Session Unit) : pass.Establishes (fun _ => False) (fun _ => True) (· = s) Flattens where
  below _ _ _ _ := trivial
  skip _ _ := .pure nofun
  enter _ _ := .pure trivial
  transform n n' _ h s hs := by
    have hkept := Flattens.kept h
    have hbelow := Flattens.below h
    cases h with
    | block l hb =>
      refine ⟨hs, ?_⟩
      have hleaves := Forest.leaves_several Node.stmt
      refine ⟨by rw [Reply.forest, hleaves]; exact forall_mem_map.mpr fun _ _ => rfl, nofun, ?_, fun around => ?_, nofun⟩
      · rw [Reply.forest, hleaves]
        exact hbelow
      · rw [Reply.forest, hleaves, Flattens.outline_list hb, Node.outline_block rfl]
        rfl
    | _ => exact ⟨hs, hkept rfl⟩
  expr e _ h := ⟨e, h.plain rfl⟩
  decl d _ h := ⟨d, h.plain rfl⟩
  alike _ _ h := h.alike

theorem pass_keeps (s : Session Unit) : pass.Keeps (fun n => ∀ k ∈ n.nodes, k.isBlock = false) (· = s) where
  below n hn m hm k hk := hn k (mem_nodes_of_child hm hk)
  skip _ _ := .pure trivial
  enter _ _ := .pure trivial
  transform n hn := by
    have hblock := hn n n.self_mem_nodes
    unfold pass
    dsimp only
    split
    · nomatch hblock
    · exact .pure rfl

theorem check_ok {ns : List Node} (h : ∀ n ∈ ns, n.isBlock = false) (s : Session Unit) :
    (liftM (check ns) : PassM Unit Unit) s = .ok () s := by
  induction ns with
  | nil => rfl
  | cons n ns ih =>
    rw [forall_mem_cons] at h
    cases n with
    | stmt x =>
      cases x with
      | block => nomatch h.1
      | _ => exact ih h.2
    | _ => exact ih h.2

/-- Removing blocks flattens a design and does nothing else. The pass never fails, leaves no block at any depth, and keeps the
other nodes: their order, what each of them is, and the nodes and branches around it. A second run gives the very same design. -/
theorem run_dissolves (r : Root) (c : Context) : ∃ out s', pass.run r ⟨c, ()⟩ = .ok out s' ∧
    (∀ k ∈ (out.getD r).nodes, k.isBlock = false) ∧
    (out.getD r).nodes.map shell = (r.nodes.filter fun k => !k.isBlock).map shell ∧
    (root (out.getD r)).outline [] = (root r).outline [] ∧
    ∃ s'', pass.run (out.getD r) s' = .ok none s'' := by
  let s : Session Unit := ⟨{ c with reporter := { c.reporter with pass := pass.name } }, ()⟩
  obtain ⟨o, _, hwalk, rfl, hout⟩ := ((root r).walk_gives (pass_flattens s) trivial s rfl).ends fun _ => id
  obtain ⟨out, rfl⟩ : ∃ out : Option Root, o = out.map fun r => .node (.root r) := by
    obtain ⟨r', hr'⟩ := hout.root r rfl
    cases o with
    | none => exact ⟨none, rfl⟩
    | some f => exact ⟨some r', congrArg some hr'⟩
  have hleaves : ((out.map fun r => Forest.node (.root r)).getD (.node (.root r))).leaves = [.root (out.getD r)] := by
    cases out <;> rfl
  have hblockless : ∀ k ∈ (root (out.getD r)).nodes, k.isBlock = false :=
    hout.blockless _ (hleaves ▸ mem_singleton_self _)
  have houtline : (root (out.getD r)).outline [] = (root r).outline [] := by
    rw [← hout.outline, hleaves, flatMap_singleton]
  have hnodes : (out.getD r).nodes.map shell = (r.nodes.filter fun k => !k.isBlock).map shell := by
    have hall : ((root (out.getD r)).nodes.filter fun k => !k.isBlock) = (root (out.getD r)).nodes :=
      filter_eq_self.mpr fun k hk => by rw [hblockless k hk, Bool.not_false]
    change (root (out.getD r)).nodes.map _ = ((root r).nodes.filter _).map _
    rw [← map_snd_outline [], ← houtline, map_snd_outline, hall]
  have hchecked : pass.finalCheck (out.getD r) s = .ok () s := check_ok hblockless s
  obtain ⟨_, _, hagain, rfl, rfl⟩ := (walk_keeps (pass_keeps s) (.root (out.getD r)) hblockless s rfl).ends fun _ => id
  exact ⟨out, s, Pass.apply_ok hwalk rfl hchecked, hblockless, hnodes, houtline, s,
    Pass.apply_ok (o := none) hagain rfl hchecked⟩

end Blocks

end HdlLowering
