import HdlLowering.Proofs.Nesting.Levels
import Mathlib.Data.List.Flatten

/-!
# Lifting flattens a design

A run of the pass takes every entity out of the one it is nested in, and leaves each of them self-contained (`run_flattens`). A
second run changes nothing.
-/

namespace HdlLowering.Nesting

open List Node Entity PassM

open Substitution (keys targets)

variable {D : Setting} {E : List (List Symbol)} {e e' : Entity} {es out nested : List Entity} {f f' : Frame}
  {s s1 s2 s3 s' : Session State} {x : Symbol}

/-! ## Entities that are not lifted yet -/

/-- Entities before they are lifted, inside others whose ports and constants are `E`: what they declare is different and recorded
as at first, and recorded values of visible constants are known in terms of such. -/
structure Unlifted (D : Setting) (E : List (List Symbol)) (es : List Entity) (s : Session State) : Prop where
  inScope : ∀ e ∈ es, e.Scoped D.table E.flatten
  own : ∀ x ∈ ownSymbolsList es, D.known x
  once : (ownSymbolsList es).Nodup
  apart : ∀ x ∈ ownSymbolsList es, x ∉ E.flatten
  init : ∀ x ∈ ownSymbolsList es, s.ctx.symbols.init x = D.table.init x
  settled : ∀ x ∈ E.flatten, (D.table.kind x).isConst = true → ∀ init, s.ctx.symbols.init x = some init →
    ∀ u ∈ references init.nodes, u.symbol ∈ E.flatten ∧ (D.table.kind u.symbol).isConst = true

theorem mem_ownSymbols_of_mem_decls {d : Decl} (hd : d ∈ e.decls) : d.symbol ∈ e.ownSymbols :=
  mem_append_left _ (mem_append_left _ (mem_map_of_mem hd))

/-- Opening an entity records the values of its own constants only. -/
theorem Lifted.init_entered (here : Lifted D E e s f s1 nested s2 f' e' s3) (hx : x.index < D.table.entries.size)
    (hnot : x ∉ e.ownSymbols) : s1.ctx.symbols.init x = s.ctx.symbols.init x := by
  refine (here.entered.stays.init (here.before.since.listed hx)).resolve_right ?_
  rintro ⟨d, hd, rfl, -⟩
  exact hnot (mem_ownSymbols_of_mem_decls hd)

theorem Levels.init_eq (h : Levels D E es s out s') (hbefore : Amid D E s) (hx : x.index < D.table.entries.size)
    (hnot : x ∉ ownSymbolsList es) : s'.ctx.symbols.init x = s.ctx.symbols.init x := by
  have hstays : Stays D.entity (fun _ => True) (fun x _ => D.table.entries.size ≤ x.index ∨ x ∈ ownSymbolsList es)
      s.ctx s'.ctx := by
    refine h.stays (fun _ _ => trivial) (fun c hc => ⟨fun _ _ => trivial, fun d hd => Or.inr ?_⟩) fun _ _ h => Or.inl h
    exact mem_flatMap.mpr ⟨c, hc, mem_ownSymbols_of_mem_decls hd⟩
  exact (hstays.init (hbefore.since.listed hx)).resolve_right (not_or.mpr ⟨Nat.not_le_of_lt hx, hnot⟩)

theorem Unlifted.below (h : Unlifted D E (e :: es) s) (here : Lifted D E e s f s1 nested s2 f' e' s3) :
    Unlifted D (e.exports D.table :: E) e.entities s1 := by
  obtain ⟨hscope, hown, honce, hapart, hinit, hsettled⟩ := h
  rw [ownSymbolsList_cons] at hown honce hapart hinit
  simp only [forall_mem_append] at hown hapart hinit
  obtain ⟨references, constants, nested⟩ := hscope e mem_cons_self
  have hother : ∀ x ∈ ownSymbolsList e.entities, x ∉ e.ownSymbols := fun x hx hmem =>
    (nodup_append.mp honce).2.2 x hmem x (mem_append_left _ hx) rfl
  refine ⟨nested, hown.2.1, (nodup_append.mp (nodup_append.mp honce).2.1).1, fun x hx hmem => ?_, fun x hx => ?_, ?_⟩
  · rcases mem_append.mp hmem with hmem | hmem
    · exact hother x hx (mem_ownSymbols_of_mem_exports hmem)
    · exact hapart.2.1 x hx hmem
  · rw [here.init_entered (D.listed (hown.2.1 x hx)) (hother x hx), hinit.2.1 x hx]
  · intro x hx hconst init hrecorded u hu
    rcases mem_append.mp hx with hx | hx
    · have hxown := mem_ownSymbols_of_mem_exports hx
      obtain ⟨d, hd, rfl⟩ := mem_map.mp (mem_filter.mp hx).1
      rcases here.entered.stays.init (here.before.since.listed (D.listed (hown.1 _ hxown))) with hsame | ⟨d', hd', hsymbol, hvalue⟩
      · refine constants d hd hconst init (Or.inr ?_) u hu
        rw [← hrecorded, hsame, hinit.1 _ hxown]
      · rw [← hsymbol] at hconst
        exact constants d' hd' hconst init (Or.inl (hvalue.trans hrecorded)) u hu
    · have hnot : x ∉ e.ownSymbols := fun hmem => hapart.1 x hmem hx
      rw [here.init_entered (D.old (here.before.visible x hx)) hnot] at hrecorded
      obtain ⟨hvisible, huconst⟩ := hsettled x hx hconst init hrecorded u hu
      exact ⟨mem_append_right _ hvisible, huconst⟩

theorem Unlifted.tail (h : Unlifted D E (e :: es) s) (hbefore : Amid D E s) (hlevels : Levels D E [e] s out s1) :
    Unlifted D E es s1 := by
  obtain ⟨hscope, hown, honce, hapart, hinit, hsettled⟩ := h
  have hlist : ownSymbolsList (e :: es) = ownSymbolsList [e] ++ ownSymbolsList es := by simp
  rw [hlist] at hown honce hapart hinit
  simp only [forall_mem_append] at hown hapart hinit
  refine ⟨fun c hc => hscope c (mem_cons_of_mem _ hc), hown.2, (nodup_append.mp honce).2.1, hapart.2, fun x hx => ?_,
    fun x hx hconst init hrecorded => ?_⟩
  · rw [hlevels.init_eq hbefore (D.listed (hown.2 x hx)) fun hmem => (nodup_append.mp honce).2.2 x hmem x hx rfl, hinit.2 x hx]
  · rw [hlevels.init_eq hbefore (D.old (hbefore.visible x hx)) fun hmem => hapart.1 x hmem hx] at hrecorded
    exact hsettled x hx hconst init hrecorded

/-! ## What stands for an entity -/

theorem references_obligedConnects (Γ : SymbolTable) (instances : List Instance) (o : Obligation) :
    ∀ u ∈ references ((obligedConnects Γ instances o).flatMap Connect.nodes),
      u.symbol ∈ instances.map (·.symbol) ∨ u.symbol = o.source := by
  intro u hu
  rw [obligedConnects, references_flatMap] at hu
  obtain ⟨c, hc, hu⟩ := mem_flatMap.mp hu
  obtain ⟨i, hi, rfl⟩ := mem_map.mp hc
  have hi : i.symbol ∈ instances.map (·.symbol) := mem_map_of_mem (mem_filter.mp hi).1
  dsimp only at hu
  split at hu <;> simp [Connect.nodes, Expr.dot, Expr.nodesList, Expr.nodes, Expr.subterms, references] at hu <;>
    rcases hu with rfl | rfl
  · exact Or.inr rfl
  · exact Or.inl hi
  · exact Or.inl hi
  · exact Or.inr rfl

theorem Lifted.selfContained (here : Lifted D E e s f s1 nested s2 f' e' s3)
    (inside : Levels D (e.exports D.table :: E) e.entities s1 nested s2) (hunlifted : Unlifted D E (e :: es) s) :
    e'.SelfContained := by
  have hf' := here.framed
  obtain ⟨decls, c, hdecls, -, rfl⟩ := here.result
  obtain ⟨references, -, -⟩ := hunlifted.inScope e mem_cons_self
  obtain ⟨more, hmore, hpassed⟩ := here.grown.aliases
  -- what is nested declares none of the symbols that the entity has aliases of
  have hinit : ∀ x ∈ E.flatten, s2.ctx.symbols.init x = s1.ctx.symbols.init x := fun x hvisible =>
    inside.init_eq here.entered.amid (D.old (here.before.visible x hvisible)) fun hmem =>
      (hunlifted.below here).apart x hmem (mem_append_right _ hvisible)
  have hkept : ∀ x ∈ E.flatten, s1.ctx.symbols.init x = s.ctx.symbols.init x := by
    intro x hx
    refine here.init_entered (D.old (here.before.visible x hx)) fun hmem => hunlifted.apart x ?_ hx
    rw [ownSymbolsList_cons]
    exact mem_append_left _ hmem
  have hkeys : ∀ x ∈ keys f.aliases, x ∈ keys f'.aliases := fun x hx => by
    rw [hmore, Substitution.keys, map_append]
    exact mem_append_left _ hx
  have hrefs : ∀ u ∈ Node.references (decls.flatMap Decl.nodes), u.symbol ∈ targets f'.aliases := by
    intro u hu
    rw [references_flatMap] at hu
    obtain ⟨d, hd, hu⟩ := mem_flatMap.mp hu
    obtain ⟨a, ha, -, hvalue⟩ := exists_of_mem_declared hdecls d hd
    cases hinit' : d.init with
    | none =>
      rw [Decl.nodes, hinit'] at hu
      cases hu
    | some init =>
      rw [Decl.nodes, hinit'] at hu
      have hvisible := (hf'.aliases a ha).1
      have hshared := here.before.visible _ hvisible
      have hfresh : a.1 ∉ targets f'.aliases := by
        intro hmem
        obtain ⟨b, hb, heq⟩ := mem_map.mp hmem
        exact (hf'.aliases b hb).2.not_shared (heq ▸ hshared)
      obtain ⟨hconst, init0, hinit0, rfl⟩ := hvalue (here.amid.since.listed (D.old hshared)) hfresh init hinit'
      rw [isConst_since here.amid.since hshared] at hconst
      -- a constant is none of the ports that are passed on
      have hkey : a.1 ∈ keys f.aliases := by
        rw [hmore] at ha
        refine mem_map_of_mem ((mem_append.mp ha).resolve_right fun ha => ?_)
        rw [(hpassed a ha).2.1] at hconst
        cases hconst
      rw [hinit _ hvisible] at hinit0
      change u ∈ Node.references ((expr init0).renamed f'.aliases).nodes at hu
      rw [nodes_renamed _ _ rfl, references_renamed] at hu
      refine Use.renamed_mem (fun _ ht => ht) (fun v hv => Or.inr (hkeys _ ?_)) u hu
      obtain ⟨hvisible', hvconst⟩ := hunlifted.settled _ hvisible hconst init0 (hkept _ hvisible ▸ hinit0) v hv
      exact here.entered.closed _ hkey hconst init0 hinit0 v hv hvisible' hvconst
  refine selfContained_flattened (fun u hu => ?_) hkeys (fun t ht => ?_) (declared_symbols hdecls) hrefs fun u hu => ?_
  · exact (references u hu).imp_right (here.entered.direct u hu)
  · rw [hmore, targets, map_append]
    exact mem_append_left _ ht
  · rw [flatMap_assoc, references_flatMap] at hu
    obtain ⟨o, ho, hu⟩ := mem_flatMap.mp hu
    rcases references_obligedConnects _ _ o u hu with hinst | hsource
    · exact Or.inl (mem_append_left _ (mem_append_right _ hinst))
    · obtain ⟨x, -, -, -, hcovers, heq⟩ := hf'.obligations o ho
      rw [hsource, heq, source]
      split
      · exact Or.inl (mem_ownSymbols_of_mem_exports ‹_›)
      · exact Or.inr (Substitution.rename_mem_targets (hcovers.resolve_left ‹_›))

/-- When an entity is closed, it has aliases of all that it and its constants refer to outside of it. -/
theorem Levels.selfContained (h : Levels D E es s out s') : Unlifted D E es s → ∀ e ∈ out, e.SelfContained := by
  induction h with
  | nil => exact fun _ => nofun
  | cons here inside _ ih ih' =>
    intro hunlifted
    have htail := hunlifted.tail here.before (.cons here inside (.nil _ _))
    rintro c (_ | ⟨_, hc⟩)
    · exact here.selfContained inside hunlifted
    · exact (mem_append.mp hc).elim (ih (hunlifted.below here) c) (ih' htail c)

/-! ## Entities that are flat already -/

theorem finalCheck_ok {r : Root} (h : ∀ e ∈ r.entities, e.SelfContained) (hs : s.own = {}) :
    pass.finalCheck r s = .ok () s := by
  have hstep : ∀ e ∈ r.entities, ∀ s', s' = s →
      ∃ s'', (symbols >>= fun Γ => liftM (check Γ e) : PassM State Unit) s' = .ok () s'' ∧ s'' = s := by
    rintro e he s' rfl
    exact ⟨s', (bind_ok (symbols_ok s')).trans (lift_ok (check_ok (h e he) s'.ctx.symbols s'.ctx)), rfl⟩
  obtain ⟨s', hforM, rfl⟩ := forM_ok hstep s rfl
  have hsize : s'.own.frames.size = 0 := by rw [hs]; rfl
  change (own >>= _) s' = _
  rw [bind_ok (own_ok s'), hsize]
  exact hforM

theorem run_ok {r : Root} {c c' : Context} {o : Option (List Entity)}
    (hwalk : walkList pass r.entities ⟨{ c with reporter := { c.reporter with pass := pass.name } }, {}⟩ =
      .ok o ⟨c', {}⟩)
    (h : ∀ e ∈ o.getD r.entities, e.SelfContained) :
    pass.run r ⟨c, {}⟩ = .ok (o.map fun entities => { r with entities }) ⟨c', {}⟩ := by
  rw [Pass.run_eq]
  refine Pass.apply_ok (Root.walk_kept ignores_root hwalk) rfl (finalCheck_ok ?_ rfl)
  cases o <;> exact h

/-- What is known of a design: the values that are recorded are those that its entities declare. -/
def setting (c : Context) (r : Root) (known : Symbol → Prop) (hlisted : ∀ {x}, known x → x.index < c.symbols.entries.size)
    (hnumbered : ∀ {x y}, known x → known y → c.symbols.id x = c.symbols.id y → x = y)
    (hentities : ∀ {x}, known x → x ∈ r.allEntities.map (·.symbol) → isEntity (c.symbols.kind x) = true)
    (hdecls : ∀ e ∈ r.allEntities, ∀ d ∈ e.decls, known d.symbol) (hvalues : ∀ e ∈ r.allEntities, ∀ d ∈ e.decls,
      (c.symbols.kind d.symbol).isConst = true → ∀ init, d.init = some init ∨ c.symbols.init d.symbol = some init →
        ∀ u ∈ references init.nodes, known u.symbol) : Setting where
  start := c
  known := known
  shared x := ∃ e ∈ r.allEntities, x ∈ e.exports c.symbols
  entity := (· ∈ r.allEntities.map (·.symbol))
  value x init := c.symbols.entries.size ≤ x.index ∨ ∃ e ∈ r.allEntities, ∃ d ∈ e.decls, d.symbol = x ∧ d.init = init
  listed := hlisted
  numbered := hnumbered
  entities := hentities
  shares := by
    rintro x ⟨e, he, hx⟩
    obtain ⟨hmem, hexported⟩ := mem_filter.mp hx
    obtain ⟨d, hd, rfl⟩ := mem_map.mp hmem
    exact ⟨hdecls e he d hd, hexported⟩
  values := by
    rintro x init ⟨e, he, hx⟩ hconst hinit
    obtain ⟨d, hd, rfl⟩ := mem_map.mp (mem_filter.mp hx).1
    rcases hinit with hinit | hge | ⟨e', he', d', hd', hsymbol, hinit⟩
    · exact hvalues e he d hd hconst init (Or.inr hinit)
    · exact absurd hge (Nat.not_le_of_lt (hlisted (hdecls e he d hd)))
    · rw [← hsymbol] at hconst
      exact hvalues e' he' d' hd' hconst init (Or.inl hinit)
  made := Or.inl

theorem scoped_below {Γ : SymbolTable} {outer : List Symbol} (h : e.Scoped Γ outer) :
    ∀ c ∈ entities (nodesList e.entities), ∃ outer', c.Scoped Γ outer' ∧ ∀ x ∈ outer',
      x ∈ outer ∨ ∃ e' ∈ e :: entities (nodesList e.entities), x ∈ e'.exports Γ := by
  induction h with
  | @intro outer e _ _ nested ih =>
    intro c hc
    obtain ⟨d, hd, hcd⟩ := mem_entities_nodesList_iff.mp hc
    rcases hcd with rfl | hcd
    · refine ⟨_, nested c hd, fun x hx => ?_⟩
      exact (mem_append.mp hx).symm.imp_right fun hx => ⟨e, mem_cons_self, hx⟩
    · obtain ⟨outer', hscope, houter'⟩ := ih d hd c hcd
      refine ⟨outer', hscope, fun x hx => ?_⟩
      rcases houter' x hx with hx | ⟨e', he', hx⟩
      · exact (mem_append.mp hx).symm.imp_right fun hx => ⟨e, mem_cons_self, hx⟩
      · exact Or.inr ⟨e', mem_cons_of_mem _ (mem_entities_nodesList_iff.mpr ⟨d, hd, mem_cons.mp he'⟩), hx⟩

section Liftable

variable {c : Context} {r : Root} (h : r.Liftable c.symbols)

include h

theorem reads_of_liftable : ∀ e ∈ r.allEntities,
    (∀ u ∈ references e.ownNodes, u.symbol ∈ ownSymbolsList r.entities) ∧
    ∀ d ∈ e.decls, (c.symbols.kind d.symbol).isConst = true → ∀ init, d.init = some init ∨ c.symbols.init d.symbol = some init →
      ∀ u ∈ references init.nodes, u.symbol ∈ ownSymbolsList r.entities := by
  intro e he
  have hexports : ∀ e' ∈ r.allEntities, ∀ x ∈ e'.exports c.symbols, x ∈ ownSymbolsList r.entities := fun e' he' x hx =>
    mem_flatMap.mpr ⟨e', he', mem_ownSymbols_of_mem_exports hx⟩
  obtain ⟨outer, ⟨references, constants, -⟩, houter⟩ : ∃ outer, e.Scoped c.symbols outer ∧
      ∀ x ∈ outer, x ∈ ownSymbolsList r.entities := by
    obtain ⟨t, ht, rfl | hbelow⟩ := mem_entities_nodesList_iff.mp he
    · exact ⟨[], h.inScope e ht, nofun⟩
    · obtain ⟨outer, hscope, houter⟩ := scoped_below (h.inScope t ht) e hbelow
      refine ⟨outer, hscope, fun x hx => ?_⟩
      obtain ⟨e', he', hx⟩ := (houter x hx).resolve_left not_mem_nil
      exact hexports e' (mem_entities_nodesList_iff.mpr ⟨t, ht, mem_cons.mp he'⟩) x hx
  refine ⟨fun u hu => ?_, fun d hd hconst init hinit u hu => ?_⟩
  · exact (references u hu).elim (fun hu => mem_flatMap.mpr ⟨e, he, hu⟩) (houter _)
  · exact (mem_append.mp (constants d hd hconst init hinit u hu).1).elim (hexports e he _) (houter _)

theorem once_of_liftable : (r.allEntities.map (·.symbol) ++ ownSymbolsList r.entities).Nodup := by
  have honce := (flatMap_append_perm r.allEntities (fun e => [e.symbol]) ownSymbols).nodup_iff.mpr h.once
  rwa [← map_eq_flatMap] at honce

/-- What is known of a liftable design: the symbols that it declares. -/
def liftableSetting : Setting :=
  setting c r (· ∈ ownSymbolsList r.entities) (h.listed _) (fun hx hy => h.numbered _ hx _ hy)
    (fun {x} hx hsymbol => absurd rfl ((nodup_append.mp (once_of_liftable h)).2.2 x hsymbol x hx))
    (fun e he _ hd => mem_flatMap.mpr ⟨e, he, mem_ownSymbols_of_mem_decls hd⟩) fun e he => (reads_of_liftable h e he).2

theorem walk_liftable : ∃ o s', walkList pass r.entities ⟨c, {}⟩ = .ok o s' ∧ s'.own = {} ∧
    (o.getD r.entities).map (·.symbol) = r.allEntities.map (·.symbol) ∧
    Levels (liftableSetting h) [] r.entities ⟨c, {}⟩ (o.getD r.entities) s' ∧
    Unlifted (liftableSetting h) [] r.entities ⟨c, {}⟩ := by
  obtain ⟨o, s', hwalk, hlifting⟩ := walkList_lifting r.entities ⟨c, {}⟩
  have hamid : Amid (liftableSetting h) [] ⟨c, {}⟩ := ⟨.refl _ _ _ _, .nil, nofun⟩
  have hreads : (liftableSetting h).ReadsAll r.entities := fun e he => by
    refine ⟨(reads_of_liftable h e he).1, fun d hd => ⟨?_, Or.inr ⟨e, he, d, hd, rfl, rfl⟩⟩, fun x hx => ⟨e, he, hx⟩,
      mem_map_of_mem he⟩
    exact mem_flatMap.mpr ⟨e, he, mem_ownSymbols_of_mem_decls hd⟩
  have hlevels := (hlifting.levels hamid hreads).1
  exact ⟨o, s', hwalk, hlevels.own_eq rfl rfl, hlifting.symbols, hlevels, h.inScope, fun _ hx => hx,
    (nodup_append.mp (once_of_liftable h)).2.1, fun _ _ => not_mem_nil, fun _ _ => rfl, nofun⟩

end Liftable

namespace ThreeLevels

def table : SymbolTable :=
  ⟨#[.value 1 "a" (.input (.uint 8) .none), .value 2 "k" (.const (.uint 8)), .value 3 "w" (.const (.uint 8)),
    .value 4 "q" (.output (.uint 8) .none .reg), .entity 5 "top" [⟨0⟩, ⟨3⟩], .entity 6 "mid" [], .entity 7 "leaf" [],
    .value 8 "u" (.inst ⟨5⟩), .value 9 "v" (.inst ⟨6⟩), .value 10 "x" (.uint 8)]⟩

def leaf : Entity where
  loc := {}
  symbol := ⟨6⟩
  stmts := [.decl {} ⟨{}, ⟨9⟩, some (.ref {} ⟨0⟩)⟩, .assign {} (.ref {} ⟨3⟩) (.binary {} .add (.ref {} ⟨9⟩) (.ref {} ⟨2⟩))]

def mid : Entity where
  loc := {}
  symbol := ⟨5⟩
  entities := [leaf]
  instances := [⟨{}, ⟨8⟩, ⟨6⟩⟩]

def top : Entity where
  loc := {}
  symbol := ⟨4⟩
  decls := [⟨{}, ⟨0⟩, none⟩, ⟨{}, ⟨1⟩, some (.num {} false 3)⟩, ⟨{}, ⟨2⟩, some (.ref {} ⟨1⟩)⟩, ⟨{}, ⟨3⟩, none⟩]
  entities := [mid]
  instances := [⟨{}, ⟨7⟩, ⟨5⟩⟩]

def design : Root := { entities := [top] }

theorem leaf_scoped : leaf.Scoped table (mid.exports table ++ (top.exports table ++ [])) :=
  .intro (by decide) nofun nofun

theorem top_scoped : top.Scoped table [] := by
  refine .intro (by decide) ?_ ?_
  · intro d hd hconst init hinit
    simp only [top, mem_cons, not_mem_nil, or_false] at hd
    rcases hd with rfl | rfl | rfl | rfl
    · nomatch hconst
    · rcases hinit with ⟨⟨⟩⟩ | hinit
      · nofun
      · nomatch hinit
    · rcases hinit with ⟨⟨⟩⟩ | hinit
      · decide
      · nomatch hinit
    · nomatch hconst
  · intro c hc
    rw [mem_singleton.mp hc]
    refine .intro (by decide) nofun fun c hc => ?_
    rw [mem_singleton.mp hc]
    exact leaf_scoped

theorem design_liftable : design.Liftable table where
  listed := by decide
  numbered := by unfold SymbolTable.Numbered; decide
  once := by decide
  inScope e he := by
    rw [mem_singleton.mp he]
    exact top_scoped

end ThreeLevels

namespace LocalConstant

def table : SymbolTable := ⟨#[.value 1 "k" (.const (.uint 8)), .value 2 "x" (.uint 8), .entity 3 "top" [], .entity 4 "leaf" []]⟩

def leaf : Entity where
  loc := {}
  symbol := ⟨3⟩
  decls := [⟨{}, ⟨1⟩, none⟩]
  stmts := [.assign {} (.ref {} ⟨1⟩) (.ref {} ⟨0⟩)]

def top : Entity where
  loc := {}
  symbol := ⟨2⟩
  entities := [leaf]
  stmts := [.decl {} ⟨{}, ⟨0⟩, some (.num {} false 3)⟩]

end LocalConstant

end HdlLowering.Nesting
