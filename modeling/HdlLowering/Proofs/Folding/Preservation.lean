import HdlLowering.Proofs.Folding.Meaning
import HdlLowering.Proofs.Folding.Pass
import HdlLowering.Proofs.Tree.Entities

/-!
# The folding pass preserves what a design does

A run of the folding pass succeeds on every design without negative widths, and every body it leaves shows what the body showed
before (`Folding.run_keeps_shown`), provided that the records can be relied on and that there are literals for the known parts of its
conditions. `JumpInLoop.folding_wrong` is a body where they cannot.
-/

namespace HdlLowering

open List Behaviour Stmt Node Folding Expr

namespace Folding

variable (Γ : SymbolTable)

mutual
theorem entities_foldedEntity : ∀ e : Entity,
    Node.entities (Entity.nodesList (foldedEntity Γ e).entities) =
      (Node.entities (Entity.nodesList e.entities)).map (foldedEntity Γ)
  | { entities, .. } => by
    rw [foldedEntity]
    exact entities_foldedEntities entities

theorem entities_foldedEntities : ∀ es : List Entity,
    entities (Entity.nodesList (foldedEntities Γ es)) = (entities (Entity.nodesList es)).map (foldedEntity Γ)
  | [] => rfl
  | e :: es => by
    rw [foldedEntities, entities_nodesList_cons, entities_nodesList_cons, entities_foldedEntity e,
      entities_foldedEntities es, map_cons, map_append]
end

theorem stmts_foldedEntity (e : Entity) : (foldedEntity Γ e).stmts = foldedBody Γ e := by
  cases e
  rw [foldedEntity]

theorem decls_foldedEntity (e : Entity) : (foldedEntity Γ e).decls = e.decls := by
  cases e
  rw [foldedEntity]

def records (e : Entity) : Records := analyze Γ e.stmts (constBindings Γ e)

/-- From every store that holds the constants of an entity, a body shows what another one shows: statements, stores and outcome. A
stall that is recorded never to happen is not looked at. -/
def ShowsSame (e e' : Entity) : Prop :=
  ∀ st : Store Γ, st.Agrees (constBindings Γ e) → ∀ (obs : List (Stmt × Store Γ)) (o : Outcome) (st' : Store Γ),
    Shows (watchedIn (records Γ e)) (RunsList (constBindings Γ e) 0 e.stmts) st obs o st' ↔
      Shows watched (RunsList (constBindings Γ e) 0 e'.stmts) st obs o st'

theorem showsSame_foldedEntity {Γ : SymbolTable} {e : Entity}
    (h : Foldable Γ (constBindings Γ e) e.stmts (records Γ e)) : ShowsSame Γ e (foldedEntity Γ e) := by
  intro st hst obs o st'
  rw [stmts_foldedEntity]
  exact shows_foldedList h e.stmts 0 0 (constBindings Γ e) (prefix_refl _) (prefix_refl _) hst hst obs o st'

/-- The folding pass preserves what a design does, if nothing in it has a negative width: no evaluation stops, the pass succeeds,
and every entity is left with the same declarations and with a body that shows what its body showed. -/
theorem run_keeps_shown (c : Context) (r : Root) (hproper : Node.Proper c.symbols r.nodes) :
    Node.Evaluable c.symbols r.nodes ∧ ∃ out c', pass.run r ⟨c, {}⟩ = .ok out ⟨c', {}⟩ ∧ c'.symbols = c.symbols ∧
    Forall₂ (fun e e' => e'.decls = e.decls ∧
      (Foldable c.symbols (constBindings c.symbols e) e.stmts (records c.symbols e) → ShowsSame c.symbols e e'))
      r.allEntities (out.getD r).allEntities := by
  obtain ⟨out, c', hrun, hsymbols, hentities⟩ := run_pass c r
  refine ⟨hproper.evaluable, out, c', hrun, hsymbols, ?_⟩
  rw [Root.allEntities_eq, Root.allEntities_eq, hentities, entities_foldedEntities, forall₂_map_right_iff,
    forall₂_same]
  exact fun e _ => ⟨decls_foldedEntity _ e, showsSame_foldedEntity⟩

end Folding

namespace JumpInLoop

def z : Symbol := ⟨2⟩

def setZ (v : Int) : Stmt := .assign {} (.ref {} z) (.num {} false v)

def choice : Stmt := .cond {} (.binary {} .eq (.ref {} x) (.num {} false 5)) [setZ 1] [setZ 2]

def entity (fences : List Stmt) : Entity :=
  { loc := {}, symbol := ⟨3⟩, decls := [⟨{}, x, none⟩, ⟨{}, y, none⟩, ⟨{}, z, none⟩], stmts := body fences [choice] }

theorem choice_runs (i : Nat) : RunsList {} i [choice] later
    [⟨i, choice, later⟩, ⟨i + 1 + 1, setZ 2, later⟩] .falls (later.set z 2) := by
  rw [runsList_singleton, choice, Runs]
  refine enter ⟨0, ?_, Or.inr ⟨rfl, ?_⟩⟩
  · intro w hw
    exact Option.some.inj hw
  · rw [setZ, runsList_singleton]
    exact enter ⟨rfl, rfl, 2, fun _ hw => Option.some.inj hw, rfl⟩

theorem foldedBody_entity : foldedBody table (entity []) = body [] [setZ 1] := rfl

theorem body_shows : ∃ obs, (setZ 2, later) ∈ obs ∧
    Shows (watchedIn (records table (entity []))) (RunsList {} 0 (body [] [choice])) start obs .falls
      (later.set z 2) :=
  ⟨_, mem_map.mpr ⟨⟨7, setZ 2, later⟩, mem_filter.mpr ⟨by simp, rfl⟩, rfl⟩, _,
    body_runs [] (jump_runs 4) (choice_runs 5), rfl, fun h => absurd h (by decide)⟩

theorem not_shows_folded {st st' : Store table} {obs : List (Stmt × Store table)} {o : Outcome}
    (hobs : (setZ 2, later) ∈ obs) : ¬ Shows watched (RunsList {} 0 (body [] [setZ 1])) st obs o st' := by
  rintro ⟨t, hrun, rfl, -⟩
  obtain ⟨ev, hev, heq⟩ := mem_map.mp hobs
  obtain ⟨k, s, -, hk, hs⟩ := runsList_names _ _ hrun ev (mem_of_mem_filter hev)
  have hstmt : s = setZ 2 := hs.trans (congrArg Prod.fst heq)
  have hmem : setZ 2 ∈ substmtsList (body [] [setZ 1]) := hstmt ▸ mem_of_getElem? hk
  simp [body, exit, setZ, z, x] at hmem

/-- Without a fence in the loop folding takes away what a run does: `x` is recorded to be what it was assigned before the
loop, so `z` is never set to two any more. -/
theorem folding_wrong : ∃ out c' e', pass.run { entities := [entity []] } ⟨{ symbols := table }, {}⟩ =
    .ok out ⟨c', {}⟩ ∧ (out.getD { entities := [entity []] }).entities = [e'] ∧ ¬ ShowsSame table (entity []) e' := by
  obtain ⟨out, c', hrun, -, hentities⟩ := run_pass { symbols := table } { entities := [entity []] }
  refine ⟨out, c', _, hrun, hentities, fun h => ?_⟩
  obtain ⟨obs, hobs, hshows⟩ := body_shows
  have hfolded := (h start nofun obs .falls (later.set z 2)).mp hshows
  rw [stmts_foldedEntity, foldedBody_entity] at hfolded
  exact not_shows_folded hobs hfolded

theorem foldable_body : Foldable table {} (body [.fence {}] [choice]) (records table (entity [.fence {}])) where
  toAnalyzable := analyzable_body (by simp [choice, setZ]) (by simp [choice, setZ])
    (by simp [SymbolTable.Numbered, writesList, choice, setZ, writes, roots]; decide)
  literal i l c yes no b hi _ e he _ := by
    have hc : c = .ref {} y ∨ c = .binary {} .eq (.ref {} x) (.num {} false 5) := by
      have hmem := mem_of_getElem? hi
      simp [body, exit, choice, setZ] at hmem
      tauto
    rcases hc with rfl | rfl
    · obtain rfl : e = .ref {} y := by simpa [subterms] using he
      exact Or.inr (by decide)
    · simp only [subterms, cons_append, nil_append, mem_cons, not_mem_nil, or_false] at he
      rcases he with rfl | rfl | rfl
      · exact Or.inr (by decide)
      · exact Or.inr (by decide)
      · exact Or.inl ⟨false, rfl⟩

/-- With a fence in the loop the folded body does what the body does. -/
theorem folding_right : Foldable table {} (body [.fence {}] [choice]) (records table (entity [.fence {}])) ∧
    ∃ out c' e', pass.run { entities := [entity [.fence {}]] } ⟨{ symbols := table }, {}⟩ = .ok out ⟨c', {}⟩ ∧
      (out.getD { entities := [entity [.fence {}]] }).allEntities = [e'] ∧
      ShowsSame table (entity [.fence {}]) e' := by
  obtain ⟨-, out, c', hrun, -, h⟩ := run_keeps_shown { symbols := table } { entities := [entity [.fence {}]] } (by decide)
  obtain ⟨e', es, ⟨-, he⟩, hes, hall⟩ := forall₂_cons_left_iff.mp h
  rw [forall₂_nil_left_iff.mp hes] at hall
  exact ⟨foldable_body, out, c', e', hrun, hall, he foldable_body⟩

end JumpInLoop

end HdlLowering
