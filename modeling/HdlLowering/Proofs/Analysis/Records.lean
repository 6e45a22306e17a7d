import HdlLowering.Proofs.Execution.Frame

/-!
# The records of an analysis, by position

A position names a statement and its record alike.
-/

namespace HdlLowering

open Node List

/-! ## One record for each statement -/

variable (ss : List Stmt)

@[simp] theorem length_deadRecords : (deadRecords ss).length = (Stmt.substmtsList ss).length := by
  simp [deadRecords, Stmt.substmtsList]

theorem length_deadRecords_clauses (cs : List Clause) :
    (cs.flatMap fun c => deadRecords c.body).length = (Clause.substmtsList cs).length := by
  induction cs with
  | nil => rfl
  | cons c cs ih => simp [ih]

variable (Γ : SymbolTable) (base : Bindings)

mutual
/-- A statement has as many records as there are statements in it. -/
theorem Stmt.length_analyze (s : Stmt) (b : Bindings) : (s.analyze Γ base b).1.length = s.substmts.length := by
  cases s <;> rw [Stmt.analyze]
  case block body | loop body => simp [Stmt.length_analyzeList body]
  case cond c yes no =>
    rw [Stmt.substmts_cond]
    cases c.eval Γ b with
    | none => simp [Stmt.length_analyzeList yes, Stmt.length_analyzeList no]
    | some v =>
      by_cases hv : v = 0 <;> simp [hv, Stmt.length_analyzeList yes, Stmt.length_analyzeList no]
  case case x cs d =>
    rw [Stmt.substmts_case]
    cases (x.eval Γ b).bind fun v => chooseArm Γ b v cs with
    | none => simp [Clause.length_analyzeList cs, Stmt.length_analyzeDefault d]
    | some arm => simp [Clause.length_analyzeChosen cs, Stmt.length_analyzeDefault d]
  all_goals simp

theorem Stmt.length_analyzeList :
    ∀ (ss : List Stmt) (b : Option Bindings), (Stmt.analyzeList Γ base ss b).1.length = (Stmt.substmtsList ss).length
  | [], b => by simp [Stmt.analyzeList]
  | s :: ss, b => by simp [Stmt.analyzeList, Stmt.length_analyze s, Stmt.length_analyzeList ss]

theorem Stmt.length_analyzeDefault :
    ∀ (d : Option (List Stmt)) (b : Option Bindings),
      (Stmt.analyzeDefault Γ base b d).1.length = (Stmt.substmtsDefault d).length
  | none, b => by simp [Stmt.analyzeDefault]
  | some body, none => by simp [Stmt.analyzeDefault]
  | some body, some b => by simp [Stmt.analyzeDefault, Stmt.length_analyzeList body]

theorem Clause.length_analyzeList :
    ∀ (cs : List Clause) (x : Expr) (b : Bindings),
      (Clause.analyzeList Γ base x b cs).1.length = (Clause.substmtsList cs).length
  | [], x, b => by simp [Clause.analyzeList]
  | { loc, conds, body } :: cs, x, b => by
    simp [Clause.analyzeList, Stmt.length_analyzeList body, Clause.length_analyzeList cs]

theorem Clause.length_analyzeChosen :
    ∀ (cs : List Clause) (b : Bindings) (arm : Arm),
      (Clause.analyzeChosen Γ base b arm cs).1.length = (Clause.substmtsList cs).length
  | [], b, arm => by simp [Clause.analyzeChosen]
  | { loc, conds, body } :: cs, b, .clause 0 => by
    simp only [Clause.analyzeChosen, length_append, Clause.substmtsList_cons, length_deadRecords_clauses,
      Stmt.length_analyzeList body]
  | { loc, conds, body } :: cs, b, .clause (i + 1) => by simp [Clause.analyzeChosen, Clause.length_analyzeChosen cs]
  | { loc, conds, body } :: cs, b, .fallback => by simp [Clause.analyzeChosen, Clause.length_analyzeChosen cs]
end

theorem Clause.analyzeChosen_succ (b : Bindings) (arm : Arm) (c : Clause) (cs : List Clause) :
    Clause.analyzeChosen Γ base b arm.succ (c :: cs) =
      (deadRecords c.body ++ (Clause.analyzeChosen Γ base b arm cs).1, (Clause.analyzeChosen Γ base b arm cs).2) := by
  obtain ⟨l, conds, body⟩ := c
  cases arm <;> rfl

/-! ## What a body writes -/

def Stmt.writesList : List Symbol := (Stmt.substmtsList ss).flatMap fun s => writes (.stmt s)

theorem Node.flatMap_writes (ns : List Node) :
    ns.flatMap writes = (stmts ns).flatMap fun s => writes (.stmt s) := by
  induction ns with
  | nil => rfl
  | cons n ns ih =>
    have ih : ns.flatMap writes = _ := ih
    cases n <;> simp [stmts, writes, ih]

theorem Stmt.mem_writesList {ss : List Stmt} {s : Stmt} {x : Symbol} (hs : s ∈ Stmt.substmtsList ss)
    (hx : x ∈ writes (.stmt s)) : x ∈ Stmt.writesList ss :=
  mem_flatMap.mpr ⟨s, hs, hx⟩

variable {Γ}

/-- The analysis forgets at a loop the symbols written in it, when numbers tell them apart. -/
theorem SymbolTable.mem_written {ss : List Stmt} (hn : Γ.Numbered (Stmt.writesList ss)) {s : Symbol}
    (hs : s ∈ Stmt.writesList ss) : s ∈ (Γ.written ss).symbols := by
  unfold SymbolTable.written
  rw [flatMap_writes]
  exact SymbolTable.mem_setOf hn hs

theorem hasFence_iff : hasFence ss = true ↔ ∃ l, Stmt.fence l ∈ Stmt.substmtsList ss := by
  unfold hasFence Stmt.substmtsList Node.stmts
  rw [any_eq_true]
  constructor
  · rintro ⟨n, hn, h⟩
    split at h
    · rename_i l
      exact ⟨l, mem_filterMap.mpr ⟨_, hn, rfl⟩⟩
    · nomatch h
  · rintro ⟨l, hl⟩
    obtain ⟨n, hn, h⟩ := mem_filterMap.mp hl
    split at h
    · cases h
      exact ⟨_, hn, rfl⟩
    · nomatch h

end HdlLowering
