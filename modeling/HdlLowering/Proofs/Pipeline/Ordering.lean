import HdlLowering.Proofs.Pipeline.Buses
import Mathlib.Data.Fintype.Order
import Mathlib.Order.WellFounded

/-!
# The order of stages

The stages of an entity are ordered into chains, each in one place, unless links branch, meet or form a ring, and then errors
are reported (`stageChains_orders`).
-/

namespace HdlLowering.Pipeline

open List

variable {ls : List Link} {stages : List Symbol} {e : Entity} {s : Symbol}

/-! ## Following links to their end -/

/-- The stages met on following the links from a stage until none goes on. -/
inductive Follow (ls : List Link) : Symbol → List Symbol → Prop
  | last {s : Symbol} (h : next? ls s = none) : Follow ls s [s]
  | step {s t : Symbol} {ch : List Symbol} (h : next? ls s = some t) (hch : Follow ls t ch) : Follow ls s (s :: ch)

theorem Follow.of_chainFrom {fuel : Nat}
    (h : ∀ i x, (chainFrom ls (fuel + 1) s)[i]? = some x → i = fuel → next? ls x = none) :
    Follow ls s (chainFrom ls (fuel + 1) s) := by
  induction fuel generalizing s with
  | zero =>
    have hnone := h 0 s (by rw [chainFrom_succ]; rfl) rfl
    rw [chainFrom_succ, hnone]
    exact .last hnone
  | succ fuel ih =>
    rw [chainFrom_succ] at h ⊢
    cases hnext : next? ls s with
    | none => exact .last hnext
    | some t =>
      rw [hnext, Option.map_some, Option.getD_some] at h
      exact .step hnext (ih fun i x hx hi => h (i + 1) x (by simpa using hx) (by omega))

/-- Links that give no stage a second predecessor never lead back into a chain, so following them ends from a stage that follows
none. -/
theorem follow_chainFrom (hlin : Linear ls) (hmem : ∀ l ∈ ls, l.target ∈ stages) (hs : s ∈ stages)
    (hstart : IsStart ls s) : Follow ls s (chainFrom ls stages.length s) := by
  obtain ⟨fuel, hfuel⟩ : ∃ fuel, stages.length = fuel + 1 := ⟨stages.length - 1, by have := length_pos_of_mem hs; omega⟩
  have hlast := fun i x => next?_eq_none_of_full hlin hmem (i := i) (x := x) hs hstart
  rw [hfuel] at hlast ⊢
  exact .of_chainFrom fun i x hx hi => hlast i x hx (by omega)

def IsEnd (ls : List Link) (s : Symbol) : Prop := ∀ l ∈ ls, l.source ≠ s

theorem isEnd_of_next? (h : next? ls s = none) : IsEnd ls s := by
  intro l hl
  simpa using find?_eq_none.mp (Option.map_eq_none_iff.mp h) l hl

namespace Follow

variable {s : Symbol} {ch : List Symbol}

variable (h : Follow ls s ch)
include h

theorem head? : ch.head? = some s := by
  cases h <;> rfl

theorem getLast? : ∃ t, ch.getLast? = some t ∧ IsEnd ls t := by
  induction h with
  | last h => exact ⟨_, rfl, isEnd_of_next? h⟩
  | @step s t ch _ hch ih =>
    obtain ⟨t, ht, hend⟩ := ih
    exact ⟨t, by simp [getLast?_cons, ht], hend⟩

theorem getElem?_succ {i : Nat} {x y : Symbol} (hx : ch[i]? = some x) (hnext : next? ls x = some y) :
    ch[i + 1]? = some y := by
  induction h generalizing i with
  | @last s h =>
    obtain rfl : s = x := by exact (mem_singleton.mp (mem_of_getElem? hx)).symm
    rw [hnext] at h
    nomatch h
  | @step s t ch h hch ih =>
    cases i with
    | zero =>
      obtain rfl : s = x := by simpa using hx
      obtain rfl : t = y := Option.some.inj (h.symm.trans hnext)
      rw [getElem?_cons_succ, ← head?_eq_getElem?, hch.head?]
    | succ i => exact ih (by simpa using hx)

end Follow

/-! ## Rings -/

def Linked (ls : List Link) (s t : Symbol) : Prop := ⟨s, t⟩ ∈ ls

def OnRing (ls : List Link) (s : Symbol) : Prop := Relation.TransGen (Linked ls) s s

theorem before_of_linked (hlin : Linear ls) {fuel i : Nat} {a x y : Symbol} (ha : IsStart ls a)
    (hy : (chainFrom ls fuel a)[i]? = some y) (hxy : Linked ls x y) : ∃ j < i, (chainFrom ls fuel a)[j]? = some x := by
  cases i with
  | zero => exact absurd (chainFrom_zero hy) (ha _ hxy)
  | succ i =>
    obtain ⟨z, hz, hnext⟩ := chainFrom_prev hy
    obtain rfl : z = x := hlin.source _ (mem_of_next? hnext) _ hxy rfl
    exact ⟨i, Nat.lt_succ_self i, hz⟩

/-- No chain reaches a stage of a ring: it would stand before itself. -/
theorem not_mem_chain_of_ring (hlin : Linear ls) {fuel : Nat} {a s : Symbol} (ha : IsStart ls a) (hs : OnRing ls s) :
    s ∉ chainFrom ls fuel a := by
  intro hmem
  obtain ⟨i, hi⟩ := getElem?_of_mem hmem
  have hback : ∀ {x}, Relation.TransGen (Linked ls) x s → ∃ j < i, (chainFrom ls fuel a)[j]? = some x := by
    intro x hx
    induction hx using Relation.TransGen.head_induction_on with
    | single hxs => exact before_of_linked hlin ha hi hxs
    | head hxy _ ih =>
      obtain ⟨j, hj, hat⟩ := ih
      obtain ⟨k, hk, hat⟩ := before_of_linked hlin ha hat hxy
      exact ⟨k, Nat.lt_trans hk hj, hat⟩
  obtain ⟨j, hj, hat⟩ := hback hs
  exact Nat.ne_of_lt hj (place_unique hlin ha ha hat hi).2

/-- A stage that no chain reaches is part of a ring or behind one. -/
theorem exists_ring {P : Symbol → Prop} (hfinite : ∀ s, P s → s ∈ stages) (hne : ∃ s, P s)
    (hprev : ∀ s, P s → ∃ t, P t ∧ Linked ls t s) : ∃ s, OnRing ls s := by
  by_contra hnone
  -- without a ring, leading to a stage is a strict order on finitely many stages, and has a least one
  let before (s t : { s // s ∈ stages }) : Prop := Relation.TransGen (Linked ls) s.1 t.1
  have : IsTrans _ before := ⟨fun _ _ _ => Relation.TransGen.trans⟩
  have : Std.Irrefl before := ⟨fun s h => hnone ⟨s.1, h⟩⟩
  have hwf := Finite.wellFounded_of_trans_of_irrefl before
  obtain ⟨s, hs⟩ := hne
  obtain ⟨⟨m, hm⟩, hPm, hmin⟩ := hwf.has_min { t | P t.1 } ⟨⟨s, hfinite s hs⟩, hs⟩
  obtain ⟨t, ht, hlink⟩ := hprev m hPm
  exact hmin ⟨t, hfinite t ht⟩ ht (.single hlink)

theorem covered_of_no_ring (hlin : Linear ls) (hmem : ∀ l ∈ ls, l.source ∈ stages ∧ l.target ∈ stages)
    (hring : ∀ s, ¬ OnRing ls s) : ∀ s ∈ stages, ∃ ch ∈ chains ls stages, s ∈ ch := by
  have hfollow := fun {a} => follow_chainFrom (s := a) hlin fun l hl => (hmem l hl).2
  -- a stage outside of all chains is no start, and the one before it is outside as well
  have hprev : ∀ y, (y ∈ stages ∧ ∀ ch ∈ chains ls stages, y ∉ ch) →
      ∃ x, (x ∈ stages ∧ ∀ ch ∈ chains ls stages, x ∉ ch) ∧ Linked ls x y := by
    rintro y ⟨hy, hynot⟩
    have hprev : ¬ IsStart ls y := fun hstart =>
      hynot _ (mem_chains.mpr ⟨y, hy, hstart, rfl⟩) (mem_of_mem_head? (hfollow hy hstart).head?)
    unfold IsStart at hprev
    push Not at hprev
    obtain ⟨l, hl, rfl⟩ := hprev
    refine ⟨l.source, ⟨(hmem l hl).1, fun ch hch hsource => ?_⟩, hl⟩
    obtain ⟨a, ha, hstart, rfl⟩ := mem_chains.mp hch
    obtain ⟨i, hi⟩ := getElem?_of_mem hsource
    exact hynot _ hch (mem_of_getElem? ((hfollow ha hstart).getElem?_succ hi (hlin.next? hl)))
  by_contra hsome
  push Not at hsome
  obtain ⟨t, ht⟩ := exists_ring (fun _ h => h.1) hsome hprev
  exact hring t ht

/-! ## All stages -/

def Branches (ls : List Link) : Prop :=
  (∃ s t t', t ≠ t' ∧ Linked ls s t ∧ Linked ls s t') ∨ ∃ s s' t, s ≠ s' ∧ Linked ls s t ∧ Linked ls s' t

theorem linear_iff : Linear ls ↔ ¬ Branches ls := by
  constructor
  · rintro h (⟨s, t, t', hne, ht, ht'⟩ | ⟨s, s', t, hne, hs, hs'⟩)
    · exact hne (h.target _ ht _ ht' rfl)
    · exact hne (h.source _ hs _ hs' rfl)
  · intro h
    constructor
    · rintro ⟨s, t⟩ hl ⟨s', t'⟩ hl' rfl
      by_contra hne
      exact h (.inl ⟨s, t, t', hne, hl, hl'⟩)
    · rintro ⟨s, t⟩ hl ⟨s', t'⟩ hl' rfl
      by_contra hne
      exact h (.inr ⟨s, s', t, hne, hl, hl'⟩)

/-- Stages ordered along their links: each stands once in one chain, the neighbours in chains are what the links join, and a
chain goes from a stage that follows none to one that none follows. -/
structure Ordered (ls : List Link) (stages : List Symbol) (found : List (List Symbol)) : Prop where
  once : found.flatten.Perm stages
  linked : ∀ s t, (∃ ch ∈ found, ∃ i : Nat, ch[i]? = some s ∧ ch[i + 1]? = some t) ↔ Linked ls s t
  start : ∀ ch ∈ found, ∃ s, ch.head? = some s ∧ IsStart ls s
  finish : ∀ ch ∈ found, ∃ s, ch.getLast? = some s ∧ IsEnd ls s

theorem ordered_chains (hlin : Linear ls) (hmem : ∀ l ∈ ls, l.source ∈ stages ∧ l.target ∈ stages) (hstages : stages.Nodup)
    (hcover : ∀ s ∈ stages, ∃ ch ∈ chains ls stages, s ∈ ch) : Ordered ls stages (chains ls stages) where
  once := by
    rw [perm_ext_iff_of_nodup (nodup_chains hlin hstages) hstages]
    intro s
    rw [mem_flatten]
    exact ⟨fun ⟨ch, hch, hs⟩ => mem_stages_of_mem_chain (fun l hl => (hmem l hl).2) hch s hs, hcover s⟩
  linked s t := by
    refine ⟨?_, fun h => link_joins_neighbours hlin hmem hcover h⟩
    rintro ⟨ch, hch, i, hs, ht⟩
    obtain ⟨a, -, -, rfl⟩ := mem_chains.mp hch
    obtain ⟨x, hx, hnext⟩ := chainFrom_prev ht
    obtain rfl : s = x := Option.some.inj (hs.symm.trans hx)
    exact mem_of_next? hnext
  start ch hch := by
    obtain ⟨a, ha, hstart, rfl⟩ := mem_chains.mp hch
    exact ⟨a, (follow_chainFrom hlin (fun l hl => (hmem l hl).2) ha hstart).head?, hstart⟩
  finish ch hch := by
    obtain ⟨a, ha, hstart, rfl⟩ := mem_chains.mp hch
    exact (follow_chainFrom hlin (fun l hl => (hmem l hl).2) ha hstart).getLast?

theorem chained_of_simple {Γ : SymbolTable} (h : ¬ (Branches (linksOf Γ e) ∨ ∃ s, OnRing (linksOf Γ e) s)) :
    Chained Γ e (chains (linksOf Γ e) (e.entities.map (·.symbol))) := by
  rw [not_or, not_exists] at h
  exact ⟨linear_iff.mpr h.1, rfl, covered_of_no_ring (linear_iff.mpr h.1) (fun _ => links_among) h.2⟩

/-- The stages of an entity, put in order. Whatever the connections are, the links of a stage that follows none come to an end
unless some stage branches. Errors are reported exactly when a stage has two successors or two predecessors or is on a ring;
otherwise all nested entities are ordered along their links. -/
theorem stageChains_orders (c : Context) (hstages : (e.entities.map (·.symbol)).Nodup) :
    (¬ Branches (linksOf c.symbols e) → ∀ s ∈ e.entities.map (·.symbol), IsStart (linksOf c.symbols e) s →
      Follow (linksOf c.symbols e) s (chainFrom (linksOf c.symbols e) e.entities.length s)) ∧
    ((∃ ds c', stageChains e c = .ok none c' ∧ c.Blames ds c' ∧ ds ≠ []) ↔
      Branches (linksOf c.symbols e) ∨ ∃ s, OnRing (linksOf c.symbols e) s) ∧
    (¬ (Branches (linksOf c.symbols e) ∨ ∃ s, OnRing (linksOf c.symbols e) s) → ∃ found, stageChains e c = .ok (some found) c ∧
      Ordered (linksOf c.symbols e) (e.entities.map (·.symbol)) found ∧ (found.flatMap (stagesOf e)).Perm e.entities) := by
  have hmem : ∀ l ∈ linksOf c.symbols e, l.source ∈ e.entities.map (·.symbol) ∧ l.target ∈ e.entities.map (·.symbol) :=
    fun l hl => links_among hl
  refine ⟨fun h s hs hstart => ?_, ?_⟩
  · rw [← length_map (f := fun x : Entity => x.symbol)]
    exact follow_chainFrom (linear_iff.mpr h) (fun l hl => (hmem l hl).2) hs hstart
  rcases stageChains_cases e c with ⟨hrun, hchained⟩ | ⟨ds, c', hrun, hblames, hne, hnone⟩
  · have hordered := ordered_chains hchained.linear hmem hstages hchained.cover
    refine ⟨⟨fun ⟨ds, c', hrun', _⟩ => (nomatch hrun.symm.trans hrun'), ?_⟩, fun _ => ⟨_, hrun, hordered, ?_⟩⟩
    · rintro (h | ⟨s, hs⟩)
      · exact absurd h (linear_iff.mp hchained.linear)
      · obtain ⟨t, hst, -⟩ := Relation.TransGen.head'_iff.mp hs
        obtain ⟨ch, hch, hs'⟩ := hchained.cover s (hmem _ hst).1
        obtain ⟨a, -, ha, rfl⟩ := mem_chains.mp hch
        exact absurd hs' (not_mem_chain_of_ring hchained.linear ha hs)
    · have hself : (e.entities.map (·.symbol)).filterMap (nested? e) = e.entities := by
        rw [filterMap_map]
        conv_rhs => rw [← filterMap_some (l := e.entities)]
        exact filterMap_congr fun x hx => nested?_eq hstages hx
      have hperm := hordered.once.filterMap (nested? e)
      rwa [hself, filterMap_flatten] at hperm
  · have hbad : Branches (linksOf c.symbols e) ∨ ∃ s, OnRing (linksOf c.symbols e) s := by
      by_contra h
      exact hnone _ (chained_of_simple h)
    exact ⟨iff_of_true ⟨ds, c', hrun, hblames, hne⟩ hbad, fun h => absurd hbad h⟩

/-- The three stages of the pipeline stand in one chain. -/
theorem ThreeStages.top_ordered : (top.entities.map (·.symbol)).Nodup ∧
    ∃ found, stageChains top session.ctx = .ok (some found) session.ctx ∧
      found.flatten.Perm [⟨3⟩, ⟨4⟩, ⟨5⟩] := by
  have hnodup : (top.entities.map (·.symbol)).Nodup := by decide
  obtain ⟨-, hfails, hordered⟩ := stageChains_orders session.ctx hnodup
  obtain ⟨found, hrun, hfound, -⟩ := hordered fun h => by
    obtain ⟨ds, c', hrun, -⟩ := hfails.mpr h
    rw [top_chains] at hrun
    nomatch hrun
  exact ⟨hnodup, found, hrun, hfound.once⟩

end HdlLowering.Pipeline
