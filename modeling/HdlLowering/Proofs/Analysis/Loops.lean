import HdlLowering.Proofs.Analysis.Records
import Mathlib.Logic.Relation

/-!
# What is known in a loop

The analysis goes through the body of a loop once, from the bindings on entry less the symbols that the body writes. These hold
at the start of every round and when the loop is left (`loop_bindings_last`), except where a round changes a symbol without
writing it, by a read of the pipeline (`ReadInLoop.binding_lost`) or by a jump to a later clock cycle.
-/

namespace HdlLowering

open List Stmt Behaviour Expr

variable {Γ : SymbolTable} {base b : Bindings} {ss : List Stmt} {e : Symbol × Int}

/-- The start of a round of a loop, and the start of a later round. -/
def Behaviour.Rounds (p : Behaviour Γ) : Store Γ → Store Γ → Prop :=
  Relation.ReflTransGen fun st st' => ∃ t o, (o = .falls ∨ o = .continues) ∧ p st t o st'

theorem Behaviour.rounds_of_iterated {p : Behaviour Γ} {st st' : Store Γ} {t : List (Event Γ)} {o : Outcome}
    (h : Iterated p st t o st') (ho : o = .falls) : ∃ st1 t', p.Rounds st st1 ∧ p st1 t' .breaks st' := by
  induction h with
  | leave h => exact ⟨_, _, .refl, h⟩
  | cut h => nomatch ho
  | again hgo h _ ih =>
    obtain ⟨st1, t', hrounds, hleave⟩ := ih ho
    exact ⟨st1, t', .head ⟨_, _, hgo, h⟩ hrounds, hleave⟩

/-- A binding that the reads and jumps of a body leave true: one of no pipeline variable when there is a read, and one that
always holds when there is a jump. -/
structure Untouched (Γ : SymbolTable) (base : Bindings) (ss : List Stmt) (e : Symbol × Int) : Prop where
  read : (∃ l, read l ∈ substmtsList ss) → (Γ.kind e.1).isPipeline = false
  jump : (∃ l x, goto l x ∈ substmtsList ss) → e ∈ base.entries

def Store.Upholds (e : Symbol × Int) (st st' : Store Γ) : Prop := st.value e.1 = e.2 → st'.value e.1 = e.2

instance : IsPreorder (Store Γ) (Store.Upholds e) where
  refl _ := id
  trans _ _ _ h h' := h' ∘ h

theorem Store.SameOff.upholds {st st' : Store Γ} {ss : List Symbol} (h : SameOff ss st st') (hs : e.1 ∉ ss) :
    Store.Upholds e st st' := by
  intro he
  rw [h e.1 hs]
  exact he

theorem Untouched.allows (h : Untouched Γ base ss e) (hfence : hasFence ss = false) (hw : e.1 ∉ writesList ss) {s : Stmt}
    (hs : s ∈ substmtsList ss) : s.Allows base (Store.Upholds (Γ := Γ) e) := by
  have hown : e.1 ∉ Node.writes (.stmt s) := fun hmem => hw (mem_writesList hs hmem)
  cases s
  case assign | decl => exact fun st st' h' => h'.sameOff.upholds hown
  case read l =>
    intro st st' h' he
    rw [h' e.1 (h.read ⟨l, hs⟩)]
    exact he
  case goto l x => exact fun st st' h' _ => h' e (h.jump ⟨l, x, hs⟩)
  case fence l =>
    have := (hasFence_iff ss).mpr ⟨l, hs⟩
    simp [hfence] at this
  all_goals exact trivial

theorem Untouched.round (h : Untouched Γ base ss e) (hfence : hasFence ss = false) (hw : e.1 ∉ writesList ss)
    (i : Nat) : Keeps (Store.Upholds (Γ := Γ) e) (RunsList base i ss) :=
  runsList_keeps ss i fun _ hs => h.allows hfence hw hs

theorem Behaviour.Keeps.rounds {p : Behaviour Γ} (h : p.Keeps (Store.Upholds e)) {st st' : Store Γ}
    (hrounds : p.Rounds st st') : Store.Upholds e st st' := by
  induction hrounds with
  | refl => exact id
  | tail _ hstep ih =>
    obtain ⟨t, o, -, hrun⟩ := hstep
    exact fun he => h _ _ _ _ hrun (ih he)

theorem not_written_of_mem_drop (hnum : Γ.Numbered (writesList ss)) (he : e ∈ (b.drop (Γ.written ss).symbols).entries) :
    e.1 ∉ writesList ss := by
  intro hmem
  simpa [SymbolTable.mem_written hnum hmem] using (mem_filter.mp he).2

/-- The bindings assumed on entry to the body of a loop without a fence are the ones assumed after it, and each that the reads
and jumps of the body leave true is true at the start of every round and when the loop is left. -/
theorem loop_bindings_last (Γ : SymbolTable) (base b : Bindings) (l : Loc) (body : List Stmt)
    (hfence : ∀ l, Stmt.fence l ∉ Stmt.substmtsList body) (hnum : Γ.Numbered (writesList body)) :
    ∃ inner : Bindings,
      (Stmt.loop l body).analyze Γ base b = (some b :: (Stmt.analyzeList Γ base body (some inner)).1, some inner) ∧
      ∀ e ∈ inner.entries, Untouched Γ base body e → ∀ (i : Nat) (st : Store Γ), st.Agrees b →
        (∀ st', (Stmt.RunsList base (i + 1) body).Rounds st st' → st'.value e.1 = e.2) ∧
        ∀ t st', (Stmt.loop l body).Runs base i st t .falls st' → st'.value e.1 = e.2 := by
  have hfence : hasFence body = false := by
    rw [Bool.eq_false_iff, Ne, hasFence_iff]
    rintro ⟨l', hl'⟩
    exact hfence l' hl'
  refine ⟨b.drop (Γ.written body).symbols, by simp [Stmt.analyze, hfence], ?_⟩
  intro e he hkept i st hst
  have hround := hkept.round hfence (not_written_of_mem_drop hnum he) (i + 1)
  have hstart : ∀ st', (Stmt.RunsList base (i + 1) body).Rounds st st' → st'.value e.1 = e.2 :=
    fun st' hrounds => hround.rounds hrounds (hst e (mem_filter.mp he).1)
  refine ⟨hstart, fun t st' hrun => ?_⟩
  rw [Stmt.Runs] at hrun
  obtain ⟨t', -, ⟨-, hcut, -⟩ | hit⟩ := hrun
  · nomatch hcut
  · obtain ⟨st1, t1, hrounds, hleave⟩ := rounds_of_iterated hit rfl
    exact hround _ _ _ _ hleave (hstart st1 hrounds)

namespace ReadInLoop

def table : SymbolTable := ⟨#[.value 1 "v" (.pipeline (.uint 4)), .value 2 "y" (.uint 4)]⟩

def v : Symbol := ⟨0⟩

def y : Symbol := ⟨1⟩

/-- Reads the pipeline until `y` is set. -/
def body : List Stmt := [.read {}, .cond {} (.ref {} y) [.break {}] []]

def known : Bindings := ⟨[(v, 5), (y, 1)]⟩

def start : Store table := ((default : Store table).set v 5).set y 1

def later : Store table := start.set v 7

theorem agrees_start : start.Agrees known := by
  intro e he
  simp only [known, mem_cons, not_mem_nil, or_false] at he
  rcases he with rfl | rfl <;> decide

theorem analyze_body : (loop {} body).analyze table {} known =
    (some known :: (analyzeList table {} body (some known)).1, some known) := by
  decide

theorem body_exits : Runs {} 2 (.cond {} (.ref {} y) [.break {}] []) later
    [⟨2, .cond {} (.ref {} y) [.break {}] [], later⟩, ⟨3, .break {}, later⟩] .breaks later := by
  have hset : (ref {} y).MayBe later 1 := fun w hw => by
    rw [valueIn_ref] at hw
    exact Option.some.inj hw
  rw [Runs]
  exact enter ⟨1, hset, Or.inl ⟨by decide, andThen_stops (by decide) (enter ⟨rfl, rfl, rfl⟩)⟩⟩

/-- A read in the body: `v` is assumed to be five in the loop and after it, and is not when the loop is left. -/
theorem binding_lost : ∃ (inner : Bindings) (t : List (Event table)) (st' : Store table),
    (∀ l, fence l ∉ substmtsList body) ∧ start.Agrees known ∧
      (loop {} body).analyze table {} known = (some known :: (analyzeList table {} body (some inner)).1, some inner) ∧
      (v, 5) ∈ inner.entries ∧ (loop {} body).Runs {} 0 start t .falls st' ∧ st'.value v ≠ 5 := by
  have hread : Runs {} 1 (.read {}) start [⟨1, .read {}, start⟩] .falls later := by
    refine enter ⟨rfl, rfl, fun s hs => start.set_value_of_ne 7 ?_⟩
    rintro rfl
    exact absurd hs (by decide)
  have hround : RunsList {} 1 body start _ .breaks later :=
    andThen_falls hread (andThen_stops (by decide) body_exits)
  have hrun : (loop {} body).Runs {} 0 start _ .falls later := enter (.leave hround)
  exact ⟨known, _, later, by simp [body], agrees_start, analyze_body, by simp [known], hrun, by decide⟩

/-- The other binding is true whenever the loop is left. -/
theorem binding_kept : start.Agrees known ∧ Untouched table {} body (y, 1) ∧
    ∀ t st', (loop {} body).Runs {} 0 start t .falls st' → st'.value y = 1 := by
  have huntouched : Untouched table {} body (y, 1) := ⟨fun _ => rfl, by simp [body]⟩
  refine ⟨agrees_start, huntouched, fun t st' h => ?_⟩
  obtain ⟨inner, hinner, hlast⟩ := loop_bindings_last table {} known {} body (by simp [body])
    (by unfold SymbolTable.Numbered; decide)
  obtain rfl : known = inner := Option.some.inj (congrArg Prod.snd (analyze_body.symm.trans hinner))
  exact (hlast (y, 1) (by simp [known]) huntouched 0 start agrees_start).2 t st' h

end ReadInLoop

end HdlLowering
