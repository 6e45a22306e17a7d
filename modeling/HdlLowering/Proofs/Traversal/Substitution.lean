import HdlLowering.Proofs.Traversal.Order
import HdlLowering.Proofs.Traversal.Renaming

/-!
# Applying a map to a design

The walk of a map gives the tree with every reference renamed (`Node.substituted`). A node stands in it as it is where no
reference at or below it is to a symbol of the map, and nowhere else, also where a symbol is mapped to itself
(`Substitution.walk_substitutes`). `Node.trace` is the walk that notes which nodes it leaves in place.
-/

namespace HdlLowering

open List Node

variable {σ α β : Type} (m : Substitution)

/-! ## Trees with all references renamed -/

theorem Node.references_substituted (ns : List Node) :
    references (ns.map (substituted m)) = (references ns).map (Use.renamed m) := by
  rw [← references_renamed, references, references, filterMap_map, filterMap_map]
  refine filterMap_congr fun n _ => ?_
  cases n <;> rfl

variable (n : Node)

theorem Node.alike_substituted : n.alike (n.substituted m) = true := by
  cases n <;> rfl

theorem Node.walk_substituted (s : Session Unit) :
    ∃ o : Option Node, n.walk m.pass s = .ok (o.map .node) s ∧ o.getD n = n.substituted m := by
  have hest := (m.pass_renames (fun _ => True) s).establishes fun _ _ => ⟨trivial, fun _ _ => trivial⟩
  obtain ⟨o, hwalk, ho⟩ := (n.walk_gives hest trivial).ok_of_eq
  cases o with
  | none => exact ⟨none, hwalk, Forest.node.inj ho⟩
  | some f =>
    obtain rfl : f = _ := ho
    exact ⟨some _, hwalk, rfl⟩

/-! ## Walks that note what they leave in place -/

/-- What a walk gives with, for each node it goes over in order, whether that node itself stands in it. -/
abbrev Noted (α : Type) : Type := Option α × List Bool

variable (p : Pass σ)

def Pass.traceEach (wanted : String) (pick : Node → Option α) (mk : α → Node) :
    (xs : List α) → (∀ m ∈ xs.map mk, PassM σ (Noted Forest)) → PassM σ (Noted (List α))
  | [], _ => return (none, [])
  | x :: xs, trace => do
    let (f, noted) ← trace (mk x) mem_cons_self
    let head ← p.spliced wanted pick f
    let (rest, noted') ← traceEach wanted pick mk xs fun m hm => trace m (mem_cons_of_mem _ hm)
    return (Pass.joined x xs head rest, noted ++ noted')

def Slot.trace : (x : Slot α) → (∀ m ∈ x.nodes, PassM σ (Noted Forest)) → PassM σ (Noted α)
  | .expr e, trace => do
    let (f, noted) ← trace (.expr e) (mem_singleton_self _)
    return (← p.asExpr e f, noted)
  | .decl d, trace => do
    let (f, noted) ← trace (.decl d) (mem_singleton_self _)
    return (← p.asDecl f, noted)
  | @Slot.list _ make pick _ wanted xs, trace => p.traceEach wanted pick make xs trace

def Parts.trace : {β : Type} → (a : Parts β) → (∀ m ∈ a.nodes, PassM σ (Noted Forest)) → PassM σ (Noted β)
  | _, .const _, _ => return (none, [])
  | _, .fill f x, trace => do
    let (f', noted) ← f.trace fun m hm => trace m (mem_append_left _ hm)
    let (x', noted') ← x.trace p fun m hm => trace m (mem_append_right _ hm)
    return (rebuilt2 (fun f x => f x) f.value x.value f' x', noted ++ noted')

/-- A walk that notes which nodes it leaves in place. Where it gives nothing new, the very node stands there with all below it; a
node that is rebuilt is new, on what the walks of its children leave; and nothing is known to stand in what a pass puts. -/
def Node.trace (n : Node) : PassM σ (Noted Forest) := do
  if ← p.skip n then
    return (none, n.nodes.map fun _ => true)
  p.enter n
  p.guarded n do
    let (rebuilt, noted) ← n.parts.trace p fun m hm =>
      have := length_nodes_child (n.nodes_parts ▸ hm)
      m.trace
    match ← p.transform (rebuilt.getD n) with
    | .keep => return (rebuilt.map .node, if rebuilt.isNone then n.nodes.map fun _ => true else false :: noted)
    | .put f => return (some f, n.nodes.map fun _ => false)
termination_by n.nodes.length

theorem Pass.map_traceEach {wanted : String} {pick : Node → Option α} {mk : α → Node} : ∀ {xs : List α}
    {trace : ∀ m ∈ xs.map mk, PassM σ (Noted Forest)}, (∀ m hm, Prod.fst <$> trace m hm = m.walk p) →
    Prod.fst <$> p.traceEach wanted pick mk xs trace = p.walkEach wanted pick (fun x => (mk x).walk p) xs
  | [], _, _ => map_pure ..
  | x :: xs, trace, h => by
    rw [traceEach, walkEach, ← h (mk x) mem_cons_self, ← map_traceEach fun m hm => h m (mem_cons_of_mem _ hm)]
    simp

theorem Slot.map_trace {x : Slot α} {trace : ∀ m ∈ x.nodes, PassM σ (Noted Forest)} (h : ∀ m hm, Prod.fst <$> trace m hm = m.walk p) :
    Prod.fst <$> x.trace p trace = x.walk p := by
  cases x with
  | expr e =>
    rw [Slot.trace, Slot.walk, show e.walk p = (Node.expr e).walk p from rfl, ← h (.expr e) (mem_singleton_self _)]
    simp
  | decl d =>
    rw [Slot.trace, Slot.walk, show d.walk p = (Node.decl d).walk p from rfl, ← h (.decl d) (mem_singleton_self _)]
    simp
  | list hmk wanted xs => exact p.map_traceEach h

theorem Parts.map_trace : ∀ {β : Type} {a : Parts β} {trace : ∀ m ∈ a.nodes, PassM σ (Noted Forest)},
    (∀ m hm, Prod.fst <$> trace m hm = m.walk p) → Prod.fst <$> a.trace p trace = a.walk p
  | _, .const _, _, _ => map_pure ..
  | _, .fill f x, trace, h => by
    rw [Parts.trace, Parts.walk, ← Parts.map_trace (a := f) fun m hm => h m (mem_append_left _ hm),
      ← Slot.map_trace p (x := x) fun m hm => h m (mem_append_right _ hm)]
    simp

/-- What a walk gives does not depend on whether it takes notes. -/
theorem Node.map_trace (n : Node) : Prod.fst <$> n.trace p = n.walk p := by
  have hparts : Prod.fst <$> (n.parts.trace p fun m _ => m.trace p) = n.parts.walk p := Parts.map_trace p fun m hm => by
    have hless := length_nodes_child (n.nodes_parts ▸ hm)
    exact m.map_trace
  rw [Node.trace, n.walk_eq, Pass.visit, ← hparts, map_bind]
  refine congrArg _ (funext fun skipped => ?_)
  cases skipped with
  | true => exact map_pure ..
  | false =>
    rw [if_neg Bool.false_ne_true, if_neg Bool.false_ne_true, map_bind]
    refine congrArg _ (funext fun _ => ?_)
    rw [Pass.guarded_map, map_bind, bind_map_left]
    refine congrArg _ (congrArg _ (funext fun noted => ?_))
    rw [map_bind]
    refine congrArg _ (funext fun reply => ?_)
    cases reply <;> exact map_pure ..
termination_by n.nodes.length

/-! ## What stays -/

namespace Substitution

/-- No reference at or below a node is to a symbol of the map. -/
def spares : Bool := (references n.nodes).all fun u => (m.lookup u.symbol).isNone

def hits : Node → Bool
  | .expr (.ref _ x) => (m.lookup x).isSome
  | _ => false

variable {m}

theorem spares_iff {n : Node} : m.spares n = true ↔ ∀ k ∈ n.nodes, m.hits k = false := by
  have hfind (ns : List Node) : (references ns).all (fun u => (m.lookup u.symbol).isNone) = ns.all fun k => !m.hits k := by
    rw [references, all_filterMap]
    refine congrArg ns.all (funext fun k => ?_)
    cases k with
    | expr e =>
      cases e with
      | ref l x => exact (Option.not_isSome (m.lookup x)).symm
      | _ => rfl
    | _ => rfl
  rw [spares, hfind, all_eq_true]
  simp

theorem spares_iff_children {n : Node} : m.spares n = true ↔ m.hits n = false ∧ ∀ k ∈ n.children, m.spares k = true := by
  simp only [spares_iff]
  exact forall_mem_nodes

theorem transform_eq (s : Session Unit) : ∃ reply, m.pass.transform n s = .ok reply s ∧ (reply = .keep ↔ m.hits n = false) ∧
    ∀ f, reply = .put f → ∃ l x, f = .node (.expr (.ref l x)) := by
  unfold hits
  split
  · rename_i l x
    cases hx : m.lookup x with
    | none => exact ⟨.keep, by simp [pass, hx]; rfl, by simp, nofun⟩
    | some y => exact ⟨.put _, by simp [pass, hx]; rfl, by simp, by rintro _ ⟨⟩; exact ⟨l, y, rfl⟩⟩
  · refine ⟨.keep, ?_, by simp, nofun⟩
    unfold pass
    dsimp only
    split
    · simp_all
    · rfl

/-- A step finds nothing new exactly when the map spares the nodes it goes over. -/
def Finds (m : Substitution) (ns : List Node) (φ : Prop) (x : PassM Unit (Option α)) : Prop :=
  ∀ s, ∃ a, x s = .ok a s ∧ (a = none ↔ φ ∧ ∀ k ∈ ns, m.spares k = true)

namespace Finds

variable {x : PassM Unit (Option α)} {ns ms : List Node} {φ : Prop} {n : Node}

theorem bind {f : Option α → PassM Unit (Option β)} (hx : m.Finds ns True x) (hf : ∀ a, m.Finds ms (φ ∧ a = none) (f a)) :
    m.Finds (ns ++ ms) φ (x >>= f) := by
  intro s
  obtain ⟨a, hxs, ha⟩ := hx s
  obtain ⟨b, hfs, hb⟩ := hf a s
  refine ⟨b, (bind_ok hxs).trans hfs, ?_⟩
  rw [hb, ha, forall_mem_append, true_and, and_assoc]

theorem visit {x : PassM Unit (Option Node)} (hx : m.Finds n.children True x) : m.Finds [n] True (m.pass.visit n x) := by
  intro s
  obtain ⟨rebuilt, hxs, hrebuilt⟩ := hx s
  obtain ⟨reply, htransform, hreply, -⟩ := transform_eq (rebuilt.getD n) s
  refine ⟨_, Pass.visit_ok rfl rfl hxs htransform, ?_⟩
  rw [forall_mem_singleton, true_and, spares_iff_children]
  rw [true_and] at hrebuilt
  rw [← hrebuilt]
  cases rebuilt with
  | none =>
    rw [Option.getD_none] at hreply
    rw [← hreply]
    cases reply <;> simp [Reply.result]
  | some n' => cases reply <;> simp [Reply.result]

/-- What makes an element of the new node, and of nothing new nothing, finds what the walk finds. -/
theorem element (hx : m.Finds [n] True (n.walk m.pass)) {f : Option Forest → PassM Unit (Option β)} (hnone : f none = pure none)
    (hsome : ∀ n', n.alike n' = true → ∃ b, f (some (.node n')) = pure (some b)) :
    m.Finds [n] True (n.walk m.pass >>= f) := by
  intro s
  obtain ⟨a, hxs, ha⟩ := hx s
  obtain ⟨o, hwalk, ho⟩ := n.walk_substituted m s
  cases hwalk.symm.trans hxs
  cases o with
  | none => exact ⟨none, (bind_ok hxs).trans (congrFun hnone s), by simpa using ha⟩
  | some n' =>
    obtain rfl : n' = n.substituted m := ho
    obtain ⟨b, hb⟩ := hsome _ (n.alike_substituted m)
    exact ⟨some b, (bind_ok hxs).trans (congrFun hb s), by simpa using ha⟩

end Finds

theorem pass_tours (m : Substitution) : m.pass.Tours m.pass fun ns φ _ x _ _ => m.Finds ns φ x where
  pure _ ha _ := ⟨_, rfl, by simpa using ha⟩
  bind := Finds.bind
  visit hx _ := hx.visit
  expr x hx := Finds.element (n := .expr x) hx rfl fun n' hn' => by
    obtain ⟨y, rfl⟩ := form_expr.of_alike x n' hn'
    exact ⟨y, rfl⟩
  decl d hd := Finds.element (n := .decl d) hd rfl fun n' hn' => by
    obtain ⟨d', rfl⟩ := form_decl.of_alike d n' hn'
    exact ⟨d', rfl⟩
  element hmk wanted x hx := Finds.element hx rfl fun n' hn' => by
    obtain ⟨y, rfl⟩ := hmk.of_alike x n' hn'
    refine ⟨[y], ?_⟩
    rw [Pass.spliced, Pass.splice, (hmk.pick_eq_some _ y).mpr rfl]
    rfl

theorem pass_finds (m : Substitution) (n : Node) (s : Session Unit) :
    ∃ o : Option Node, n.walk m.pass s = .ok (o.map .node) s ∧ o.getD n = n.substituted m ∧ (o = none ↔ m.spares n = true) := by
  obtain ⟨o, hwalk, ho⟩ := n.walk_substituted m s
  obtain ⟨a, hfinds, ha⟩ := n.walk_tours m.pass_tours s
  cases hwalk.symm.trans hfinds
  rw [Option.map_eq_none_iff, true_and, forall_mem_singleton] at ha
  exact ⟨o, hwalk, ho, ha⟩

theorem spares_nil : spares [] n = true := all_eq_true.mpr fun _ _ => rfl

/-- The map that knows no symbol is not applied, which makes no difference. -/
theorem walk_finds (m : Substitution) (n : Node) (s : Session σ) :
    ∃ o : Option Node, m.walk n s = .ok (o.map .node) s ∧ n.walk m.pass ⟨s.ctx, ()⟩ = .ok (o.map .node) ⟨s.ctx, ()⟩ ∧
      o.getD n = n.substituted m ∧ (o = none ↔ m.spares n = true) := by
  obtain ⟨o, hwalk, ho, hnone⟩ := m.pass_finds n ⟨s.ctx, ()⟩
  refine ⟨o, ?_, hwalk, ho, hnone⟩
  unfold walk
  cases m with
  | nil =>
    obtain rfl := hnone.mpr (spares_nil n)
    rfl
  | cons p m =>
    rw [List.isEmpty_cons, if_neg Bool.false_ne_true, PassM.within, hwalk]

theorem shares_eq (m : Substitution) (c : Context) (n : Node) : m.shares c n = m.spares n := by
  obtain ⟨o, hwalk, -, -, hnone⟩ := m.walk_finds n (⟨c, ()⟩ : Session Unit)
  unfold shares
  rw [EStateM.run, hwalk]
  cases o with
  | none => exact (hnone.mp rfl).symm
  | some n' => exact (Bool.eq_false_iff.mpr fun hs => nomatch hnone.mpr hs).symm

/-- A node is spared with all below it. -/
theorem spares_below (n : Node) (hn : m.spares n = true) : ∀ k ∈ n.nodes, m.spares k = true := by
  rw [forall_mem_nodes]
  refine ⟨hn, fun k hk => ?_⟩
  have hless := length_nodes_child hk
  exact spares_below k ((spares_iff_children.mp hn).2 k hk)
termination_by n.nodes.length

/-- A step notes of the nodes it goes over which ones the map spares. -/
def Notes (m : Substitution) (ns : List Node) (x : PassM Unit (Noted α)) : Prop :=
  ∀ s a noted s', x s = .ok (a, noted) s' → noted = ns.flatMap fun k => k.nodes.map m.spares

theorem traceEach_notes {wanted : String} {pick : Node → Option α} {make : α → Node} : ∀ {xs : List α}
    {trace : ∀ k ∈ xs.map make, PassM Unit (Noted Forest)}, (∀ k hk, m.Notes [k] (trace k hk)) →
    m.Notes (xs.map make) (m.pass.traceEach wanted pick make xs trace)
  | [], _, _, _, _, _, _, h => by
    cases h
    rfl
  | x :: xs, trace, htrace, s, a, noted, s', h => by
    rw [Pass.traceEach] at h
    obtain ⟨⟨f, noted1⟩, s1, hx, h⟩ := of_bind_ok h
    obtain ⟨head, s2, -, h⟩ := of_bind_ok h
    obtain ⟨⟨rest, noted2⟩, s3, hxs, h⟩ := of_bind_ok h
    cases h
    rw [map_cons, flatMap_cons, htrace _ mem_cons_self _ _ _ _ hx,
      traceEach_notes (fun k hk => htrace k (mem_cons_of_mem _ hk)) _ _ _ _ hxs]
    simp

theorem slot_notes {x : Slot α} {trace : ∀ k ∈ x.nodes, PassM Unit (Noted Forest)}
    (htrace : ∀ k hk, m.Notes [k] (trace k hk)) : m.Notes x.nodes (x.trace m.pass trace) := by
  cases x with
  | expr e | decl d =>
    intro s a noted s' h
    rw [Slot.trace] at h
    obtain ⟨⟨f, noted1⟩, s1, hx, h⟩ := of_bind_ok h
    obtain ⟨o, s2, -, h⟩ := of_bind_ok h
    cases h
    exact htrace _ _ _ _ _ _ hx
  | list hmk wanted xs => exact traceEach_notes htrace

theorem parts_notes : ∀ {β : Type} {a : Parts β} {trace : ∀ k ∈ a.nodes, PassM Unit (Noted Forest)},
    (∀ k hk, m.Notes [k] (trace k hk)) → m.Notes a.nodes (a.trace m.pass trace)
  | _, .const _, _, _, _, _, _, _, h => by
    cases h
    rfl
  | _, .fill f x, trace, htrace, s, b, noted, s', h => by
    rw [Parts.trace] at h
    obtain ⟨⟨f', noted1⟩, s1, hf, h⟩ := of_bind_ok h
    obtain ⟨⟨x', noted2⟩, s2, hx, h⟩ := of_bind_ok h
    cases h
    rw [Parts.nodes, flatMap_append, parts_notes (fun k hk => htrace k (mem_append_left _ hk)) _ _ _ _ hf,
      slot_notes (fun k hk => htrace k (mem_append_right _ hk)) _ _ _ _ hx]

/-- A map puts something only in the place of a reference. -/
theorem nodes_of_put {n n' : Node} {f : Forest} {s s' : Session Unit} (hput : m.pass.transform n' s = .ok (.put f) s')
    (hf : f = .node (n.substituted m)) : n.nodes = [n] := by
  obtain ⟨reply, hreply, -, href⟩ := transform_eq (m := m) n' s
  cases hreply.symm.trans hput
  obtain ⟨l, y, rfl⟩ := href f rfl
  cases n with
  | expr e => cases e <;> first | rfl | cases hf
  | _ => cases hf

/-- A walk notes of every node whether the map spares it. -/
theorem trace_notes (n : Node) : m.Notes [n] (n.trace m.pass) := by
  intro s a noted s' h
  have hwalk : n.walk m.pass s = .ok a s' := by rw [← n.map_trace, map_ok _ h]
  obtain ⟨o, hgives, ho, hnone⟩ := m.pass_finds n s
  cases hgives.symm.trans hwalk
  rw [Node.trace, bind_ok (rfl : m.pass.skip n s = .ok false s), if_neg Bool.false_ne_true,
    bind_ok (rfl : m.pass.enter n s = .ok () s), Pass.guarded_of_none rfl] at h
  obtain ⟨⟨rebuilt, below⟩, s1, hparts, h⟩ := of_bind_ok h
  have hbelow : below = n.parts.nodes.flatMap fun k => k.nodes.map m.spares := parts_notes (fun k hk => by
    have hless := length_nodes_child (n.nodes_parts ▸ hk)
    exact trace_notes k) _ _ _ _ hparts
  obtain ⟨reply, s2, htransform, h⟩ := of_bind_ok h
  rw [flatMap_singleton]
  cases reply with
  | keep =>
    obtain ⟨hrebuilt, rfl⟩ := Prod.mk.inj (EStateM.Result.ok.inj h).1
    cases rebuilt with
    | none =>
      have hspares := hnone.mp (by simpa using hrebuilt.symm)
      exact map_congr_left fun k hk => (spares_below n hspares k hk).symm
    | some n' =>
      have hspares : m.spares n = false := Bool.eq_false_iff.mpr fun hs => by simp [hnone.mpr hs] at hrebuilt
      change false :: below = n.nodes.map m.spares
      rw [n.nodes_eq, map_cons, hspares, map_flatMap, ← n.nodes_parts, hbelow]
  | put f =>
    obtain ⟨hput, rfl⟩ := Prod.mk.inj (EStateM.Result.ok.inj h).1
    cases o with
    | none => cases hput
    | some n' =>
      obtain rfl : f = .node n' := Option.some.inj hput
      have hspares : m.spares n = false := Bool.eq_false_iff.mpr fun hs => nomatch hnone.mpr hs
      rw [nodes_of_put htransform (congrArg _ ho), map_singleton, map_singleton, hspares]
termination_by n.nodes.length

/-- Applying a map renames all references and shares the rest, for every tree and every map. The references of the result are in
order those before, each renamed once. Nothing new is given exactly when no reference is to a symbol of the map, and the walk
leaves a node in place exactly when no reference at or below it is. The session stays as it is. -/
theorem walk_substitutes (m : Substitution) (n : Node) (s : Session σ) :
    ∃ o : Option Node, m.walk n s = .ok (o.map .node) s ∧ o.getD n = n.substituted m ∧
      (n.substituted m).nodes = n.nodes.map (Node.substituted m) ∧
      Node.references (n.substituted m).nodes = (Node.references n.nodes).map (Use.renamed m) ∧
      (o = none ↔ m.spares n = true) ∧ m.shares s.ctx n = m.spares n ∧
      n.trace m.pass ⟨s.ctx, ()⟩ = .ok (o.map .node, n.nodes.map m.spares) ⟨s.ctx, ()⟩ := by
  obtain ⟨o, hwalk, hpass, ho, hnone⟩ := m.walk_finds n s
  refine ⟨o, hwalk, ho, n.nodes_substituted m, ?_, hnone, m.shares_eq s.ctx n, ?_⟩
  · rw [n.nodes_substituted, Node.references_substituted]
  · rw [← n.map_trace] at hpass
    obtain ⟨⟨a, noted⟩, s', htrace, h⟩ := of_bind_ok (map_eq_pure_bind Prod.fst (n.trace m.pass) ▸ hpass)
    cases h
    rw [htrace, trace_notes n _ _ _ _ htrace, flatMap_singleton]
    rfl

end Substitution

end HdlLowering
