import HdlLowering.Lowering.Pipelines
import HdlLowering.Proofs.Symbols.Sets
import HdlLowering.Proofs.Tree.Entities

/-!
# Variables that cross from stage to stage

`alive` walks a chain of stages once and keeps, for each stage, the variables alive in it. A variable is alive in a stage
exactly when it is used in that stage or before it and in that stage or behind it (`has_alive`).
-/

namespace HdlLowering.Pipeline

open List SymbolSet SymbolTable Node ContextM

variable {Γ : SymbolTable} {m : Member} {us : List SymbolSet}

def HasAt (us : List SymbolSet) (m : Member) (i : Nat) : Prop := ∃ u, us[i]? = some u ∧ u.has m = true

@[simp] theorem hasAt_cons_zero (u : SymbolSet) (us : List SymbolSet) : HasAt (u :: us) m 0 ↔ u.has m = true := by
  simp [HasAt]

@[simp] theorem hasAt_cons_succ (u : SymbolSet) (us : List SymbolSet) (i : Nat) : HasAt (u :: us) m (i + 1) ↔ HasAt us m i := by
  simp [HasAt]

theorem has_later (us : List SymbolSet) :
    (us.foldr (fun u acc => acc.union u) ({} : SymbolSet)).has m = true ↔ ∃ j, HasAt us m j := by
  induction us with
  | nil => simp [HasAt, has]
  | cons u us ih =>
    rw [foldr_cons, has_union, Bool.or_eq_true, ih]
    constructor
    · rintro (⟨j, hj⟩ | hu)
      · exact ⟨j + 1, by simpa using hj⟩
      · exact ⟨0, by simpa using hu⟩
    · rintro ⟨j, hj⟩
      cases j with
      | zero => exact Or.inr (by simpa using hj)
      | succ j => exact Or.inl ⟨j, by simpa using hj⟩

variable (before : Option SymbolSet)

def aliveFirst (u : SymbolSet) (us : List SymbolSet) : SymbolSet :=
  match before with
  | some b => u.union ((us.foldr (fun u acc => acc.union u) ({} : SymbolSet)).inter b)
  | none => u

theorem alive_cons (u : SymbolSet) (us : List SymbolSet) :
    alive before (u :: us) = aliveFirst before u us :: alive (some (aliveFirst before u us)) us := by
  cases before <;> rfl

theorem length_alive (us : List SymbolSet) : (alive before us).length = us.length := by
  induction us generalizing before with
  | nil => rfl
  | cons u us ih => rw [alive_cons, length_cons, ih, length_cons]

def HandedOn (m : Member) : Prop := ∃ b, before = some b ∧ b.has m = true

theorem has_aliveFirst (u : SymbolSet) (us : List SymbolSet) :
    (aliveFirst before u us).has m = true ↔ u.has m = true ∨ (HandedOn before m ∧ ∃ j, HasAt us m j) := by
  cases before with
  | none => simp [aliveFirst, HandedOn]
  | some b =>
    rw [aliveFirst, has_union, has_inter, Bool.or_eq_true, Bool.and_eq_true, has_later, and_comm]
    simp [HandedOn]

/-- A variable is alive in a stage exactly when it is used or handed on up to the stage, and used from the stage on. -/
theorem has_alive (us : List SymbolSet) (i : Nat) :
    HasAt (alive before us) m i ↔
      (HandedOn before m ∨ ∃ j, j ≤ i ∧ HasAt us m j) ∧ ∃ j, i ≤ j ∧ HasAt us m j := by
  induction us generalizing before i with
  | nil => simp [alive, HasAt]
  | cons u us ih =>
    rw [alive_cons]
    cases i with
    | zero =>
      rw [hasAt_cons_zero, has_aliveFirst]
      constructor
      · rintro (hu | ⟨hb, j, hj⟩)
        · exact ⟨Or.inr ⟨0, Nat.le_refl 0, by simpa using hu⟩, 0, Nat.le_refl 0, by simpa using hu⟩
        · exact ⟨Or.inl hb, j + 1, Nat.zero_le _, by simpa using hj⟩
      · rintro ⟨hbefore, j, -, hj⟩
        rcases hbefore with hb | ⟨k, hk, hu⟩
        · cases j with
          | zero => exact Or.inl (by simpa using hj)
          | succ j => exact Or.inr ⟨hb, j, by simpa using hj⟩
        · obtain rfl : k = 0 := Nat.le_zero.mp hk
          exact Or.inl (by simpa using hu)
    | succ i =>
      -- the rest of the chain is handed what is alive in the first stage, which it uses if it uses it at all
      rw [hasAt_cons_succ, ih]
      constructor
      · rintro ⟨hbefore, j, hij, hj⟩
        refine ⟨?_, j + 1, Nat.succ_le_succ hij, by simpa using hj⟩
        rcases hbefore with ⟨b, hb, hm⟩ | ⟨k, hk, hu⟩
        · obtain rfl := Option.some.inj hb
          rcases (has_aliveFirst before u us).mp hm with hu | ⟨hb, -⟩
          · exact Or.inr ⟨0, Nat.zero_le _, by simpa using hu⟩
          · exact Or.inl hb
        · exact Or.inr ⟨k + 1, Nat.succ_le_succ hk, by simpa using hu⟩
      · rintro ⟨hbefore, j, hij, hj⟩
        obtain ⟨j, rfl⟩ : ∃ k, j = k + 1 := ⟨j - 1, by omega⟩
        rw [hasAt_cons_succ] at hj
        refine ⟨?_, j, Nat.le_of_succ_le_succ hij, hj⟩
        rcases hbefore with hb | ⟨k, hk, hu⟩
        · exact Or.inl ⟨_, rfl, (has_aliveFirst before u us).mpr (Or.inr ⟨hb, j, hj⟩)⟩
        · cases k with
          | zero => exact Or.inl ⟨_, rfl, (has_aliveFirst before u us).mpr (Or.inl (by simpa using hu))⟩
          | succ k => exact Or.inr ⟨k, Nat.le_of_succ_le_succ hk, by simpa using hu⟩

theorem has_of_alive {i : Nat} {here : SymbolSet} (hhere : (alive none us)[i]? = some here) :
    here.has m = true ↔ (∃ j, j ≤ i ∧ HasAt us m j) ∧ ∃ j, i ≤ j ∧ HasAt us m j := by
  have hnone : ¬ HandedOn none m := by
    rintro ⟨b, hb, -⟩
    nomatch hb
  have halive : HasAt (alive none us) m i ↔ here.has m = true := by simp [HasAt, hhere]
  rw [← halive, has_alive, or_iff_right hnone]

/-- Sets of variables stay over the domain they were built from. -/
theorem over_alive {D : List Symbol} (hus : ∀ u ∈ us, u.Over Γ D) {before : Option SymbolSet} :
    ∀ a ∈ alive before us, a.Over Γ D := by
  have hlater : ∀ us : List SymbolSet, (∀ u ∈ us, u.Over Γ D) →
      (us.foldr (fun u acc => acc.union u) ({} : SymbolSet)).Over Γ D := by
    intro us hus
    induction us with
    | nil => exact .empty Γ D
    | cons u us ih =>
      rw [forall_mem_cons] at hus
      exact (ih hus.2).union hus.1
  induction us generalizing before with
  | nil => simp [alive]
  | cons u us ih =>
    rw [forall_mem_cons] at hus
    rw [alive_cons, forall_mem_cons]
    refine ⟨?_, ih hus.2⟩
    cases before with
    | none => exact hus.1
    | some b => exact hus.1.union ((hlater us hus.2).inter b)

/-! ## The variables of an entity and of its stages -/

def pipelined (Γ : SymbolTable) (e : Entity) : List Symbol :=
  (e.decls.map (·.symbol)).filter fun s => (Γ.kind s).isPipeline

variable {e stage : Entity} {D : List Symbol} {v : Symbol}

theorem over_carried (hD : ∀ v ∈ pipelined Γ e, v ∈ D) : (carried Γ e).Over Γ D := .setOf hD

theorem mem_carried (hD : ∀ v ∈ pipelined Γ e, v ∈ D) (hn : Γ.Numbered D) : v ∈ (carried Γ e).symbols ↔ v ∈ pipelined Γ e := by
  constructor
  · intro hv
    have hmem := (over_carried (Γ := Γ) (e := e) (D := pipelined Γ e) fun _ h => h).mem_domain hv
    exact hmem
  · exact mem_setOf fun x hx y hy => hn x (hD x hx) y (hD y hy)

theorem has_used {vars : SymbolSet} (hvars : vars.Over Γ D) (hD : ∀ v ∈ refs stage.nodes, v ∈ D) (hn : Γ.Numbered D)
    (hv : v ∈ vars.symbols) : (used Γ vars stage).has (Γ.member v) = true ↔ v ∈ refs stage.nodes := by
  have hvD := hvars.mem_domain hv
  rw [used, has_setOf, any_eq_true]
  constructor
  · rintro ⟨x, hx, hid⟩
    have hx := (mem_filter.mp hx).1
    rwa [← hn x (hD x hx) v hvD (beq_iff_eq.mp hid)]
  · intro h
    exact ⟨v, mem_filter.mpr ⟨h, (hvars.mem_symbols hn hvD).mp hv⟩, by simp [member]⟩

/-! ## Ports between stages -/

def inputKind (k : Kind) : Kind := .input k .ready

def outputKind (k : Kind) : Kind := .output k .ready (.slices [.forward])

def newPort (suffix name : String) (wrap : Kind → Kind) (role : Role) (stage : Entity) (vars : Option SymbolSet) :
    ContextM (Option Carried) := do
  match vars with
  | some vs =>
    if vs.isEmpty then
      return none
    else
      let port ← newTerm name stage.loc (wrap (carrier (← symbols) stage.symbol suffix vs.symbols))
      setRole port role
      return some ⟨port, vs.symbols⟩
  | none => return none

theorem newInput_eq : newInput = newPort "in" inputName inputKind .pipelineIn := rfl

theorem newOutput_eq : newOutput = newPort "out" outputName outputKind .pipelineOut := rfl

end HdlLowering.Pipeline
