import HdlLowering.Proofs.Pipeline.Buses
import HdlLowering.Proofs.Traversal.Plain

/-!
# Boundaries that nothing crosses

A stage that reads needs a variable that crosses to it, and one that writes a variable that crosses from it. Lowering a pipeline
stops with a fatal error exactly when a stage lacks one; otherwise its stages read, write and refer to its variables no more
(`fatal_iff_starved`).
-/

namespace HdlLowering.Pipeline

open List Node Stage

variable {Γ Γ' : SymbolTable} {e stage x : Entity} {st : Stage} {vs here before after : List Symbol} {chain : List Entity}
  {lowered ls : List (Stage × Entity)} {found : List (List Symbol)} {n : Node} {f : Forest}

/-! ## What was lowered was supplied -/

theorem Transferred.served {n : Node} {f : Forest} (h : Transferred st n f) : ∀ m ∈ n.nodes, Served False st m := by
  obtain ⟨hchildren, hself⟩ := h
  refine forall_mem_nodes.mpr ⟨⟨?_, ?_⟩, fun m hm => ?_⟩
  · rintro l rfl hnone
    cases hchildren
    cases hself with
    | read _ hin => nomatch hnone.symm.trans hin
    | keep _ hread _ => exact hread l rfl
  · rintro l rfl hnone
    cases hchildren
    cases hself with
    | write _ hout => nomatch hnone.symm.trans hout
    | keep _ _ hwrite => exact hwrite l rfl
  · have hless := length_nodes_child hm
    obtain ⟨g, hg⟩ := hchildren.visited m hm
    exact hg.served
termination_by n.nodes.length

theorem Lowered.fed (h : Lowered Γ Γ' stage here before after st e) : Fed False before after stage := by
  obtain ⟨body, copies, htransferred, -⟩ := h.body
  constructor
  · rintro l hl rfl
    exact (htransferred.served _ hl).read l rfl (by simpa using h.input.isSome_eq)
  · rintro l hl rfl
    exact (htransferred.served _ hl).write l rfl (by simpa using h.output.isSome_eq)

/-- Only a chain that is supplied is lowered. -/
theorem LoweredChain.supplied (h : Staged Γ e) (hchain : ∀ x ∈ chain, x ∈ e.entities)
    (hls : LoweredChain Γ Γ' none (live Γ e chain) ls) : Supplied Γ e chain := by
  have hfed : ∀ {i x}, chain[i]? = some x → ∃ here, (live Γ e chain)[i]? = some (x, here) ∧
      Fed False (entering none (live Γ e chain) here i) (leaving (live Γ e chain) here i) x := by
    intro i x hx
    have hlength : ls.length = chain.length := by simpa [length_live] using congrArg List.length hls.symbols_eq
    have hlt : i < ls.length := hlength ▸ (List.getElem?_eq_some_iff.mp hx).1
    obtain ⟨x', here, hat, hlowered⟩ := hls.stage (getElem?_eq_getElem hlt)
    obtain rfl : x = x' := Option.some.inj (hx.symm.trans (getElem?_live hat).1)
    exact ⟨here, hat, hlowered.fed⟩
  constructor
  · intro i x l hx hl
    obtain ⟨here, hat, hfed⟩ := hfed hx
    obtain ⟨v, hv⟩ := exists_mem_of_ne_nil _ (hfed.read l hl)
    obtain ⟨j, hj, hcross⟩ := (h.mem_entering hchain hat).mp hv
    exact ⟨j, hj, v, hcross⟩
  · intro i x l hx hl
    obtain ⟨here, hat, hfed⟩ := hfed hx
    obtain ⟨v, hv⟩ := exists_mem_of_ne_nil _ (hfed.write l hl)
    exact ⟨v, (h.mem_leaving hchain hat).mp hv⟩

/-! ## What is left in a stage -/

/-- Reading, writing, or a reference to one of some variables. -/
def Piped (vs : List Symbol) : Node → Prop
  | .stmt (.read _) | .stmt (.write _) => True
  | .expr (.ref _ x) => x ∈ vs
  | _ => False

theorem not_piped_expr {e : Expr} (h : ∀ x ∈ e.symbols, x ∉ vs) : ∀ k ∈ e.nodes, ¬ Piped vs k := by
  intro k hk hpiped
  obtain ⟨y, hy, rfl⟩ := mem_map.mp hk
  cases y with
  | ref l x => exact h x (mem_filterMap.mpr ⟨_, hy, rfl⟩) hpiped
  | _ => exact hpiped

theorem symbols_pack (st : Stage) (us : List Symbol) : (st.pack us).symbols = us.map st.copy := by
  rw [pack_eq]
  match us with
  | [] => rfl
  | [_] => rfl
  | u :: v :: us => exact Expr.symbolsList_ofSymbol ((u :: v :: us).map st.copy)

theorem Transferred.clear {n : Node} {f : Forest} (hcopy : ∀ l x, .expr (.ref l x) ∈ n.nodes → st.copy x ∉ vs)
    (hports : ∀ c ∈ st.input.toList ++ st.output.toList, c.port ∉ vs ∧ ∀ v ∈ c.vars, st.copy v ∉ vs)
    (h : Transferred st n f) : ∀ m ∈ f.leaves, ∀ k ∈ m.nodes, ¬ Piped vs k := by
  obtain ⟨hchildren, hself⟩ := h
  cases hself with
  | copy l hx | other l hx =>
    cases hchildren
    have hnot := hcopy l _ (self_mem_nodes _)
    rw [Stage.copy, hx] at hnot
    simpa [Forest.leaves, nodes, Expr.nodes, Expr.subterms, Piped] using hnot
  | @read l c hin =>
    obtain ⟨hport, hvars⟩ := hports c (by simp [hin])
    refine forall_mem_singleton.mpr (forall_mem_nodes.mpr ⟨id, forall_mem_cons.mpr ⟨?_, forall_mem_singleton.mpr ?_⟩⟩)
    · exact not_piped_expr (symbols_pack st c.vars ▸ forall_mem_map.mpr hvars)
    · exact not_piped_expr (forall_mem_singleton.mpr hport)
  | @write l c hout =>
    obtain ⟨hport, hvars⟩ := hports c (by simp [hout])
    have hsymbols : ((Expr.ofSymbol c.port).method "write" [st.pack c.vars]).symbols = c.port :: c.vars.map st.copy := by
      rw [← symbols_pack, Expr.method, Expr.symbols_call, Expr.symbolsList_cons]
      exact congrArg _ (append_nil _)
    refine forall_mem_singleton.mpr (forall_mem_nodes.mpr ⟨id, forall_mem_singleton.mpr (not_piped_expr ?_)⟩)
    exact hsymbols ▸ forall_mem_cons.mpr ⟨hport, forall_mem_map.mpr hvars⟩
  | keep href hread hwrite =>
    refine forall_mem_singleton.mpr (forall_mem_nodes.mpr ⟨?_, fun m hm => ?_⟩)
    · unfold Piped
      split
      · exact fun _ => hread _ rfl
      · exact fun _ => hwrite _ rfl
      · exact fun _ => href _ _ rfl
      · exact id
    · obtain ⟨m0, hm0, g, hg, hleaf⟩ := hchildren.standFor m hm
      have hless := length_nodes_child hm0
      exact hg.clear (fun l x hx => hcopy l x (mem_nodes_of_child hm0 hx)) hports m hleaf
termination_by n.nodes.length

theorem Lowered.clear (h : Lowered Γ Γ' stage here before after st e) (hvs : ∀ v ∈ vs, v.index < Γ.entries.size)
    (hrefs : ∀ v ∈ vs, v ∈ refs stage.nodes → v ∈ here) (hshared : ∀ v ∈ before ++ after, v ∈ here) :
    ∀ n ∈ (entity e).nodes, ¬ Piped vs n := by
  -- copies and ports are new, and every variable that the stage refers to has a copy
  have hnew : ∀ {y : Symbol}, Γ.entries.size ≤ y.index → y ∉ vs := fun hy hmem => Nat.not_le_of_lt (hvs _ hmem) hy
  have hcopied : ∀ v ∈ here, st.copy v ∉ vs := fun v hv => hnew (h.copies.fresh _ (h.copies.mem_locals hv)).1
  have hcopy : ∀ l x, .expr (.ref l x) ∈ (entity stage).nodes → st.copy x ∉ vs := by
    intro l x hx hmem
    have href : x ∈ refs stage.nodes := mem_refs.mpr ⟨⟨x, l⟩, mem_filterMap.mpr ⟨_, hx, rfl⟩, rfl⟩
    cases hl : st.locals.lookup x with
    | some y =>
      rw [copy, hl] at hmem
      exact hnew (h.copies.fresh _ (mem_of_lookup hl)).1 hmem
    | none => exact hcopied x (hrefs x (by rwa [copy, hl] at hmem) href) hmem
  have hports : ∀ c ∈ st.input.toList ++ st.output.toList, c.port ∉ vs ∧ ∀ v ∈ c.vars, st.copy v ∉ vs := by
    obtain ⟨hin, hout⟩ := forall_mem_append.mp hshared
    have hcarried {wrap : Kind → Kind} {name : String} {us : List Symbol} {o : Option Carried}
        (ho : Carries Γ Γ' wrap name us o) (hus : ∀ v ∈ us, v ∈ here) :
        ∀ c ∈ o.toList, c.port ∉ vs ∧ ∀ v ∈ c.vars, st.copy v ∉ vs := by
      intro c hc
      rw [Option.mem_toList.mp hc] at ho
      obtain ⟨-, rfl, hfresh, -⟩ := ho
      exact ⟨hnew hfresh, fun v hv => hcopied v (hus v hv)⟩
    exact forall_mem_append.mpr ⟨hcarried h.input hin, hcarried h.output hout⟩
  obtain ⟨body, copies, htransferred, -, hbare, rfl⟩ := h.body
  have hbody := htransferred.clear hcopy hports _ (mem_singleton_self _)
  have hdecl : ∀ d : Decl, d.init = none → ∀ k ∈ (decl d).nodes, ¬ Piped vs k := by
    rintro ⟨l, x, _⟩ rfl
    exact forall_mem_singleton.mpr id
  refine forall_mem_nodes.mpr ⟨id, ?_⟩
  have hchildren := (forall_mem_nodes.mp hbody).2
  simp only [children, map_append, forall_mem_append, forall_mem_map] at hchildren ⊢
  exact ⟨⟨⟨⟨⟨⟨⟨fun _ _ => hdecl _ rfl, fun _ _ => hdecl _ rfl⟩, hchildren.1.1.1.1⟩, fun d hd => hdecl d (hbare d hd)⟩,
    hchildren.1.1.1.2⟩, hchildren.1.1.2⟩, hchildren.1.2⟩, hchildren.2⟩

/-- Nothing of the pipeline is left in what a stage becomes. -/
theorem LoweredChain.clear (h : Staged Γ e) (hchain : ∀ x ∈ chain, x ∈ e.entities)
    (hls : LoweredChain Γ Γ' none (live Γ e chain) ls) {p : Stage × Entity} (hp : p ∈ ls) :
    ∀ n ∈ p.2.nodes, ¬ Piped (pipelined Γ e) n := by
  obtain ⟨i, hi⟩ := mem_iff_getElem?.mp hp
  obtain ⟨x, here, hat, hlowered⟩ := hls.stage hi
  have hx := (getElem?_live hat).1
  refine hlowered.clear (fun v => Staged.pipelined_listed) (fun v hv href => ?_)
    (forall_mem_append.mpr ⟨fun v hv => ?_, fun v hv => ?_⟩) <;> rw [h.mem_live hchain hat]
  · exact ⟨hv, ⟨i, x, Nat.le_refl i, hx, href⟩, i, x, Nat.le_refl i, hx, href⟩
  · obtain ⟨j, rfl, hmem, ⟨k, y, hk, hy⟩, hfrom⟩ := (h.mem_entering hchain hat).mp hv
    exact ⟨hmem, ⟨k, y, Nat.le_succ_of_le hk, hy⟩, hfrom⟩
  · obtain ⟨hmem, hupto, k, y, hk, hy⟩ := (h.mem_leaving hchain hat).mp hv
    exact ⟨hmem, hupto, k, y, Nat.le_of_succ_le hk, hy⟩

theorem transform_starved {s : Session Unit} {c : Context} (h : Staged s.ctx.symbols e)
    (hvars : pipelined s.ctx.symbols e ≠ []) (hchains : stageChains e s.ctx = .ok (some found) c) :
    ((∃ d s', pass.transform (.entity e) s = .error (.fatal d) s') ↔
      ∃ ch ∈ found, ¬ Supplied s.ctx.symbols e (stagesOf e ch)) ∧
    ((∀ ch ∈ found, Supplied s.ctx.symbols e (stagesOf e ch)) → ∃ e' s',
      pass.transform (.entity e) s = .ok (.put (.node (.entity e'))) s' ∧
        ∀ x ∈ e'.entities, ∀ n ∈ x.nodes, ¬ Piped (pipelined s.ctx.symbols e) n) := by
  have hstages : ∀ ch, ∀ x ∈ stagesOf e ch, x ∈ e.entities := fun _ _ => mem_of_mem_stagesOf
  have hlands : Lands (Fatal (∃ ch ∈ found, ¬ Supplied s.ctx.symbols e (stagesOf e ch))) _ _ := transform_pipeline h hvars hchains
    fun ch hch => h.fed (hstages ch) fun hnone => by_contra fun hnot => hnone ⟨ch, hch, hnot⟩
  cases hr : pass.transform (.entity e) s with
  | error a s' =>
    rw [hr] at hlands
    obtain ⟨⟨ch, hch, hnot⟩, d, rfl⟩ := hlands
    exact ⟨⟨fun _ => ⟨ch, hch, hnot⟩, fun _ => ⟨d, s', rfl⟩⟩, fun hsup => absurd (hsup ch hch) hnot⟩
  | ok reply s' =>
    rw [hr] at hlands
    obtain ⟨c', lowered, rfl, -, hlowered⟩ := hlands
    refine ⟨⟨by rintro ⟨_, _, ⟨⟩⟩, ?_⟩, fun _ => ⟨_, s', rfl, fun x hx => ?_⟩⟩
    · rintro ⟨ch, hch, hnot⟩
      obtain ⟨ls, -, hls⟩ := hlowered.chain ch hch
      exact absurd (hls.supplied h (hstages ch)) hnot
    · obtain ⟨-, hchained⟩ := stageChains_ok hchains
      have hnodup : found.flatten.Nodup := hchained.all ▸ nodup_chains hchained.linear h.distinct
      rw [← hlowered.symbols] at hnodup
      obtain ⟨p, hp, rfl⟩ := of_mem_replaced hnodup h.distinct (fun y hy => by
        rw [hlowered.symbols]
        exact mem_flatten.mpr (hchained.cover y hy)) hx
      obtain ⟨ch, ls, hpls, hls⟩ := hlowered.origin p hp
      exact hls.clear h (hstages ch) hpls

/-! ## Runs -/

/-- What is below an entity is lowered first, and lowering the entity goes by what this leaves. -/
theorem walk_of_below {s s1 : Session Unit} {o : Option Node} (hbelow : (entity e).parts.walk pass s = .ok o s1) :
    e.walk pass s = ((·.result o) <$> pass.transform (o.getD (.entity e))) s1 := by
  have hwalk : e.walk pass = pass.visit (.entity e) ((entity e).parts.walk pass) := walk_eq _ (.entity e)
  rw [hwalk, Pass.visit, bind_ok (rfl : pass.skip (.entity e) s = .ok false s), Pass.guarded_of_none rfl]
  change ((entity e).parts.walk pass >>= _) s = _
  rw [bind_ok hbelow, map_eq_pure_bind]
  refine congrFun (congrArg _ (funext fun reply => ?_)) s1
  cases reply <;> rfl

/-- No entity at a node or below it declares pipeline variables. -/
def Plain (Γ : SymbolTable) (n : Node) : Prop := ∀ x ∈ entities n.nodes, pipelined Γ x = []

theorem pass_keeps_plain (s : Session Unit) : pass.Keeps (Plain s.ctx.symbols) (· = s) where
  below n hn m hm x hx := by
    obtain ⟨k, hk, hx⟩ := mem_filterMap.mp hx
    exact hn x (mem_filterMap.mpr ⟨k, mem_nodes_of_child hm hk, hx⟩)
  skip n _ := by cases n <;> exact .pure trivial
  enter n _ := .pure trivial
  transform n hn := by
    cases n with
    | entity e =>
      intro _ hs
      rw [hs]
      have hnone : pipelined s.ctx.symbols e = [] := hn e (mem_filterMap.mpr ⟨_, self_mem_nodes _, rfl⟩)
      have hempty : (carried s.ctx.symbols e).isEmpty = true := by
        rw [carried, ← pipelined, hnone]
        rfl
      change Lands _ _ ((if (carried s.ctx.symbols e).isEmpty then return .keep else lowerEntity e _ : PassM Unit Reply) s)
      rw [if_pos hempty]
      exact ⟨rfl, rfl⟩
    | _ => exact .pure rfl

/-- With no pipeline below it an entity is lowered as it is. -/
theorem walk_plain {s : Session Unit} (hplain : ∀ m ∈ (entity e).children, Plain s.ctx.symbols m) :
    e.walk pass s = ((·.result none) <$> pass.transform (.entity e)) s := by
  obtain ⟨o, s', hwalk, rfl, rfl⟩ := (walk_parts_keeps (pass_keeps_plain s) (.entity e) hplain s rfl).ends fun _ h => h
  exact walk_of_below hwalk

theorem check_lands (Γ : SymbolTable) : ∀ (ns : List Node) (c : Context),
    Lands (fun a => ∃ p q, a = .internal p q) (fun _ _ => True) (check Γ ns c)
  | [], _ => trivial
  | n :: ns, c => by
    have hrest := check_lands Γ ns c
    unfold check
    dsimp only
    split
    · exact ⟨_, _, rfl⟩
    · exact ⟨_, _, rfl⟩
    · split
      · exact ⟨_, _, rfl⟩
      · exact hrest
    · split
      · exact ⟨_, _, rfl⟩
      · exact hrest
    · exact hrest

theorem checked_lands (r : Root) (out : Option Root) (s : Session Unit) :
    Lands (fun a => ∃ p q, a = .internal p q) (fun _ _ => True) (pass.checked r out s) := by
  have hfinal : Lands (fun a => ∃ p q, a = .internal p q) (fun _ _ => True) (pass.finalCheck (out.getD r) s) := by
    have hcheck := check_lands s.ctx.symbols (out.getD r).nodes s.ctx
    change Lands _ _ ((if s.ctx.reporter.proceed then
      (do check (← PassM.symbols) (out.getD r).nodes : PassM Unit Unit) else pure ()) s)
    split
    · change Lands _ _ ((liftM (check s.ctx.symbols (out.getD r).nodes) : PassM Unit Unit) s)
      cases hrun : check s.ctx.symbols (out.getD r).nodes s.ctx <;> rw [hrun] at hcheck
      · rw [lift_ok hrun]
        trivial
      · simp only [liftM, monadLift, MonadLift.monadLift, hrun]
        exact hcheck
    · trivial
  rw [Pass.checked_eq]
  split
  · exact hfinal.bind fun _ _ _ => trivial
  · trivial

theorem ignores_root (r : Root) : pass.Ignores (.root r) := ⟨fun _ => rfl, fun _ => rfl, fun _ => rfl⟩

section

variable {r : Root} {s s' : Session Unit} (hr : r.entities = [e])
include hr

theorem apply_of_error {a : Abort} (hwalk : e.walk pass s = .error a s') : pass.apply r s = .error a s' := by
  have hlist : Entity.walkList pass r.entities s = .error a s' := by
    rw [hr, Entity.walkList, bind_error hwalk]
  have hroot : r.walk pass s = .error a s' := by
    rw [Root.walk, Pass.visit, bind_ok (rfl : pass.skip (.root r) s = .ok false s), Pass.guarded_of_none rfl]
    exact (bind_ok (rfl : pass.enter (.root r) s = .ok () s)).trans (bind_error (bind_error hlist))
  exact bind_error hroot

theorem apply_of_ok (hwalk : e.walk pass s = .ok (some (.node (.entity x))) s') :
    pass.apply r s = pass.checked r (some { r with entities := [x] }) s' := by
  refine Pass.apply_of_walk (Root.walk_kept ignores_root (o := some [x]) ?_)
  rw [hr, Entity.walkList, bind_ok hwalk]
  rfl

end

theorem stageChains_of_chained {c : Context} (h : Chained c.symbols e found) : stageChains e c = .ok (some found) c := by
  rcases stageChains_cases e c with ⟨hrun, -⟩ | ⟨_, _, -, -, -, hnot⟩
  · rw [hrun, h.all]
  · exact absurd h (hnot found)

/-- Lowering a pipeline with no other below it stops with a fatal error exactly when in some chain a stage reads though no variable
crosses to it, or writes though none crosses from it. Otherwise no stage reads, writes or refers to a variable of the pipeline any
more in the design that is left to be checked. -/
theorem fatal_iff_starved {c : Context} {r : Root} (hr : r.entities = [e]) (h : Staged c.symbols e)
    (hplain : ∀ m ∈ (entity e).children, Plain c.symbols m) (hvars : pipelined c.symbols e ≠ [])
    (hchained : Chained c.symbols e found) :
    ((∃ d s', pass.run r ⟨c, ()⟩ = .error (.fatal d) s') ↔ ∃ ch ∈ found, ¬ Supplied c.symbols e (stagesOf e ch)) ∧
    ((∀ ch ∈ found, Supplied c.symbols e (stagesOf e ch)) → ∃ e' s',
      pass.run r ⟨c, ()⟩ = pass.checked r (some { r with entities := [e'] }) s' ∧
        ∀ x ∈ e'.entities, ∀ n ∈ x.nodes, ¬ Piped (pipelined c.symbols e) n) := by
  let s : Session Unit := ⟨{ c with reporter := { c.reporter with pass := pass.name } }, ()⟩
  obtain ⟨hfatal, hcleared⟩ := transform_starved (s := s) h hvars (stageChains_of_chained hchained)
  have hwalk := walk_plain (s := s) hplain
  rw [map_eq_pure_bind] at hwalk
  rw [Pass.run_eq]
  by_cases hsupplied : ∀ ch ∈ found, Supplied c.symbols e (stagesOf e ch)
  · obtain ⟨e', s', hreply, hclear⟩ := hcleared hsupplied
    rw [bind_ok hreply] at hwalk
    have hrun := apply_of_ok hr hwalk
    refine ⟨iff_of_false ?_ fun ⟨ch, hch, hnot⟩ => hnot (hsupplied ch hch), fun _ => ⟨e', s', hrun, hclear⟩⟩
    rintro ⟨d, s1, herror⟩
    have hlands := checked_lands r (some { r with entities := [e'] }) s'
    rw [← hrun, herror] at hlands
    obtain ⟨_, _, ⟨⟩⟩ := hlands
  · have hstarved : ∃ ch ∈ found, ¬ Supplied c.symbols e (stagesOf e ch) := by simpa using hsupplied
    obtain ⟨d, s', hreply⟩ := hfatal.mpr hstarved
    rw [bind_error hreply] at hwalk
    exact ⟨iff_of_true ⟨d, s', apply_of_error hr hwalk⟩ hstarved, fun hall => absurd hall hsupplied⟩

/-- No stage of the three reads, writes or refers to a variable any more. -/
theorem ThreeStages.stages_cleared : Staged table top ∧ ∃ e' s',
    pass.run { entities := [top] } session = pass.checked { entities := [top] } (some { entities := [e'] }) s' ∧
      ∀ x ∈ e'.entities, ∀ n ∈ x.nodes, ¬ Piped (pipelined table top) n :=
  ⟨top_sound.toStaged, (fatal_iff_starved (c := session.ctx) (r := { entities := [top] }) rfl top_sound.toStaged
    (by unfold Plain; decide) (by decide) (stageChains_ok top_chains).2).2 top_supplied⟩

namespace NestedPipeline

def table : SymbolTable :=
  ⟨#[.value 1 "v" (.pipeline (.uint 8)), .value 2 "w" (.pipeline (.uint 8)), .entity 3 "middle" [], .entity 4 "inner" [],
    .entity 5 "x" [], .entity 6 "y" [], .value 7 "a" (.inst ⟨4⟩), .value 8 "b" (.inst ⟨5⟩), .entity 9 "top" []]⟩

def inner : Entity where
  loc := {}
  symbol := ⟨3⟩
  decls := [⟨{}, ⟨1⟩, none⟩]
  entities := [{ loc := {}, symbol := ⟨4⟩, stmts := [.assign {} (.ref {} ⟨1⟩) (.num {} false 1), .write {}] },
    { loc := {}, symbol := ⟨5⟩, stmts := [.read {}, .expr {} (.ref {} ⟨1⟩)] }]
  instances := [⟨{}, ⟨6⟩, ⟨4⟩⟩, ⟨{}, ⟨7⟩, ⟨5⟩⟩]
  connects := [⟨{}, .ref {} ⟨6⟩, [.ref {} ⟨7⟩]⟩]

def middle : Entity := { loc := {}, symbol := ⟨2⟩, entities := [inner] }

def top : Entity := { loc := {}, symbol := ⟨8⟩, decls := [⟨{}, ⟨0⟩, none⟩], entities := [middle] }

def succeeds (r : Root) (s : Session Unit) : Bool :=
  match pass.run r s with
  | .ok (some _) _ => true
  | _ => false

/-- A pipeline two levels below a stage has been lowered when the stage is, so what it read is not missed there. -/
theorem inner_lowered_first : pipelined table top ≠ [] ∧ pipelined table middle = [] ∧ Chained table top [[⟨2⟩]] ∧
    ¬ Supplied table top (stagesOf top [⟨2⟩]) ∧
    ∃ out s', pass.run { entities := [top] } ⟨{ symbols := table }, ()⟩ = .ok (some out) s' := by
  have hchains : stageChains top { symbols := table } = .ok (some [[⟨2⟩]]) { symbols := table } := rfl
  refine ⟨by decide, rfl, (stageChains_ok hchains).2, fun h => ?_, ?_⟩
  · have hread : .stmt (.read {}) ∈ middle.nodes := by
      simp [middle, inner, Entity.nodes, Entity.nodesList, Stmt.nodesList, Stmt.nodes]
    obtain ⟨j, hj, -⟩ := h.read 0 middle {} rfl hread
    cases hj
  · have h : succeeds { entities := [top] } ⟨{ symbols := table }, ()⟩ = true := by decide +kernel
    unfold succeeds at h
    generalize pass.run { entities := [top] } ⟨{ symbols := table }, ()⟩ = result at h
    rcases result with ⟨- | out, s'⟩ | ⟨e, s'⟩
    · cases h
    · exact ⟨out, s', rfl⟩
    · cases h

end NestedPipeline

end HdlLowering.Pipeline
