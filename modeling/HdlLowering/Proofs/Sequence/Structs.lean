import HdlLowering.Proofs.Pipeline.Carriers
import HdlLowering.Proofs.Sequence.Runs

/-!
# Struct types after the structural passes

The netlist shows a struct type by its name alone. Only the pass over pipelines makes struct types, and names them after stages;
when no two stages of a design have the same name, the name of a struct type still tells its fields after the structural passes
(`Step.structs_agree`). Otherwise it may not (`TwoPipelines.structs_clash`).
-/

namespace HdlLowering

open SymbolTable List Pipeline

/-- Struct types of the same name have the same fields. -/
def SymbolTable.StructsAgree (Γ : SymbolTable) : Prop := ∀ t ∈ Γ.structs, ∀ u ∈ Γ.structs, t.1 = u.1 → t.2 = u.2

namespace Pipeline

variable {Γ : SymbolTable} {F : StructType → Prop} {c : Context} {r : Root}

theorem Kept.forget (h : Kept Γ F c) : Kept {} F c := ⟨h.structs, Nat.zero_le _, by simp, by simp⟩

theorem revises_kept (F : StructType → Prop) : Context.Revises (fun k => ∀ t ∈ k.structs, F t) (Kept {} F) where
  rename s name h := by
    refine ⟨fun x => ?_, Nat.zero_le _, by simp, by simp⟩
    rw [SymbolTable.kind, SymbolTable.entry_modify]
    split <;> exact h.structs x
  setKind s kind h hkind := by
    refine ⟨fun x => ?_, Nat.zero_le _, by simp, by simp⟩
    rw [SymbolTable.kind, SymbolTable.entry_modify]
    split
    · exact hkind
    · exact h.structs x

theorem suffix_of_mem_carrierNames {ns : List String} {n : String} (h : n ∈ carrierNames ns) :
    ∃ suffix ∈ ["_in_t", "_out_t"], suffix.toList <:+ n.toList := by
  obtain ⟨stem, -, hn⟩ := mem_flatMap.mp h
  rw [mem_cons, mem_singleton] at hn
  rcases hn with rfl | rfl
  · exact ⟨"_in_t", by simp, by simp⟩
  · exact ⟨"_out_t", by simp, by simp⟩

end Pipeline

namespace Step

variable {c c' : Context} {r r' : Root}

theorem structs_of_lower? (hlisted : ∀ e ∈ r.allEntities, Listed c.symbols e)
    (hstages : (r.allEntities.flatMap (stageNames c.symbols)).Nodup) (hrun : lower? structural c r = some (c', r')) :
    ∃ new : List StructType,
      (new.map (·.1)).Subperm (carrierNames (r.allEntities.flatMap (stageNames c.symbols))) ∧
      ∀ t ∈ c'.symbols.structs, t ∈ c.symbols.structs ∨ t ∈ new := by
  obtain ⟨root1, hpipeline, -, hrun⟩ := lower?_cons_eq_some.mp hrun
  obtain ⟨root2, -, -, hrun⟩ := lower?_cons_eq_some.mp hrun
  obtain ⟨root3, -, -, hrun⟩ := lower?_cons_eq_some.mp hrun
  obtain ⟨rfl, -⟩ := Prod.mk.inj (Option.some.inj hrun)
  obtain ⟨s, hok, hctx⟩ := of_outcome_ok hpipeline
  obtain ⟨-, new, hnew, hs⟩ := (run_brings hlisted hstages (· ∈ c.symbols.structs) ⟨c, ()⟩
    ⟨fun x t ht => mem_structs.mpr ⟨x, ht⟩, Nat.le_refl _, fun _ _ => rfl, fun _ _ h => h⟩).of_ok hok
  have hlasting := lasting_kept {} fun t => t ∈ c.symbols.structs ∨ t ∈ new
  have hfirst : Kept {} _ (pipeline.run {} c r).ctx := hctx ▸ hs.forget
  have hsecond (r) : Kept {} _ (stack.run {} _ r).ctx := outcome_retains (Stack.pass_steady hlasting) _ _ hfirst r
  have hthird (r r') : Kept {} _ (nesting.run {} (stack.run {} _ r).ctx r').ctx :=
    outcome_retains (Nesting.pass_steady hlasting (revises_kept _)) _ _ (hsecond r) r'
  refine ⟨new, hnew, fun t ht => ?_⟩
  obtain ⟨x, ht⟩ := mem_structs.mp ht
  exact (hthird _ _).structs x t ht

/-- The name of a struct type tells its fields after the structural passes, when it does before, no struct type is named like one
that belongs to a stage, and the stages of the design have different names. -/
theorem structs_agree (hagree : c.symbols.StructsAgree)
    (hnames : ∀ t ∈ c.symbols.structs, ∀ suffix ∈ ["_in_t", "_out_t"], ¬ suffix.toList <:+ t.1.toList)
    (hlisted : ∀ e ∈ r.allEntities, Listed c.symbols e)
    (hstages : (r.allEntities.flatMap (stageNames c.symbols)).Nodup) (hrun : lower? structural c r = some (c', r')) :
    c'.symbols.StructsAgree := by
  obtain ⟨new, hnew, hstructs⟩ := structs_of_lower? hlisted hstages hrun
  have hnodup : (new.map (·.1)).Nodup := by
    obtain ⟨names, hperm, hsub⟩ := hnew
    exact hperm.nodup_iff.mp ((nodup_carrierNames hstages).sublist hsub)
  have hfresh : ∀ t ∈ c.symbols.structs, ∀ u ∈ new, t.1 ≠ u.1 := by
    intro t ht u hu heq
    obtain ⟨suffix, hsuffix, hends⟩ := suffix_of_mem_carrierNames (hnew.subset (List.mem_map_of_mem hu))
    exact hnames t ht suffix hsuffix (heq ▸ hends)
  intro t ht u hu heq
  rcases hstructs t ht with ht | ht <;> rcases hstructs u hu with hu | hu
  · exact hagree t ht u hu heq
  · exact absurd heq (hfresh t ht u hu)
  · exact absurd heq.symm (hfresh u hu t ht)
  · rw [List.inj_on_of_nodup_map hnodup ht hu heq]

end Step

/-! ## Two pipelines -/

namespace TwoPipelines

/-- Two entities with a pipeline variable and two stages each. The stages of the first are `a` and `b`. -/
def table (first second : String) : SymbolTable where
  entries := #[.entity 0 "p" [], .value 1 "v" (.pipeline (.uint 4)), .entity 2 "a" [], .entity 3 "b" [], .value 4 "i" (.inst ⟨2⟩),
    .value 5 "j" (.inst ⟨3⟩), .entity 6 "q" [], .value 7 "v" (.pipeline (.uint 8)), .entity 8 first [], .entity 9 second [],
    .value 10 "i" (.inst ⟨8⟩), .value 11 "j" (.inst ⟨9⟩), .value 12 "x" (.struct "pair" [("l", .uint 1), ("r", .uint 2)])]

def stage (v s : Nat) : Entity := { loc := {}, symbol := ⟨s⟩, stmts := [.expr {} (.ref {} ⟨v⟩)] }

/-- An entity with the numbers of its symbols following its own. -/
def pipeline (n : Nat) : Entity where
  loc := {}
  symbol := ⟨n⟩
  decls := [{ loc := {}, symbol := ⟨n + 1⟩ }]
  entities := [stage (n + 1) (n + 2), stage (n + 1) (n + 3)]
  instances := [⟨{}, ⟨n + 4⟩, ⟨n + 2⟩⟩, ⟨{}, ⟨n + 5⟩, ⟨n + 3⟩⟩]
  connects := [⟨{}, .ref {} ⟨n + 4⟩, [.ref {} ⟨n + 5⟩]⟩]

def design : Root := { entities := [pipeline 0, pipeline 6] }

def context (first second : String) : Context := { symbols := table first second, nextId := 13 }

def declared (Γ : SymbolTable) (r : Root) : List StructType :=
  r.allEntities.flatMap fun e => e.decls.flatMap fun d => (Γ.kind d.symbol).structs

/-- The struct types of stages that are named alike have the same name, and the widths of their fields differ. -/
theorem structs_clash : (table "a" "b").structs = [("pair", [("l", .uint 1), ("r", .uint 2)])] ∧
    (Step.lower? Step.structural (context "a" "b") design).map
        (fun (c, r) => (declared c.symbols r).map fun (n, fields) => (n, fields.map fun f => (f.1, f.2.width))) =
      some [("a_out_t", [("v", 4)]), ("b_in_t", [("v", 4)]), ("a_out_t", [("v", 8)]), ("b_in_t", [("v", 8)])] :=
  ⟨rfl, by decide +kernel⟩

/-- Pipelines whose stages have different names. -/
theorem structs_told_apart : ∃ c' r', Step.lower? Step.structural (context "c" "d") design = some (c', r') ∧
    (declared c'.symbols r').map (·.1) = ["a_out_t", "b_in_t", "c_out_t", "d_in_t"] ∧ c'.symbols.StructsAgree := by
  have hnames : (Step.lower? Step.structural (context "c" "d") design).map (fun (c, r) => (declared c.symbols r).map (·.1)) =
      some ["a_out_t", "b_in_t", "c_out_t", "d_in_t"] := by decide +kernel
  obtain ⟨⟨c', r'⟩, hrun, hnames⟩ := Option.map_eq_some_iff.mp hnames
  have hstructs : (context "c" "d").symbols.structs = [("pair", [("l", .uint 1), ("r", .uint 2)])] := rfl
  refine ⟨c', r', hrun, hnames, Step.structs_agree ?_ ?_ ?_ ?_ hrun⟩
  · intro t ht u hu _
    rw [hstructs, List.mem_singleton] at ht hu
    rw [ht, hu]
  · intro t ht
    rw [hstructs, List.mem_singleton] at ht
    subst ht
    decide
  · unfold Listed
    decide
  · decide

end TwoPipelines

end HdlLowering
