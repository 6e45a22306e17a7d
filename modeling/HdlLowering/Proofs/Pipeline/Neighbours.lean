import HdlLowering.Proofs.Pipeline.Chains
import HdlLowering.Proofs.Pipeline.Stages

/-!
# Neighbours in a chain

A variable crosses from one stage of a chain to the next when a stage up to the first refers to it and so does one from the
second on (`Crosses`).
-/

namespace HdlLowering.Pipeline

open List Node SymbolTable

variable {Γ Γ' : SymbolTable} {aborts : Prop} {before : Option SymbolSet} {stages : List (Entity × SymbolSet)} {i : Nat}
  {ls : List (Stage × Entity)} {x : Entity} {here next : SymbolSet}

/-! ## Positions in a chain -/

def entering (before : Option SymbolSet) (stages : List (Entity × SymbolSet)) (here : SymbolSet) : Nat → List Symbol
  | 0 => listed (before.map fun b => b.inter here)
  | i + 1 => listed (stages[i]?.map fun prev => prev.2.inter here)

def leaving (stages : List (Entity × SymbolSet)) (here : SymbolSet) (i : Nat) : List Symbol :=
  listed (stages[i + 1]?.map fun next => here.inter next.2)

theorem entering_cons (before : Option SymbolSet) (stage : Entity) (first : SymbolSet) (rest : List (Entity × SymbolSet))
    (here : SymbolSet) (i : Nat) : entering before ((stage, first) :: rest) here (i + 1) = entering (some first) rest here i := by
  cases i <;> rfl

theorem leaving_zero (stage : Entity) (here : SymbolSet) (rest : List (Entity × SymbolSet)) :
    leaving ((stage, here) :: rest) here 0 = listed (rest.head?.map fun next => here.inter next.2) := by
  rw [leaving, getElem?_cons_succ, head?_eq_getElem?]

theorem LoweredChain.stage (h : LoweredChain Γ Γ' before stages ls) {p : Stage × Entity}
    (hp : ls[i]? = some p) : ∃ stage here, stages[i]? = some (stage, here) ∧
      Lowered Γ Γ' stage here.symbols (entering before stages here i) (leaving stages here i) p.1 p.2 := by
  induction h generalizing i with
  | nil => simp at hp
  | @cons before stage here rest st e ls hfirst _ ih =>
    cases i with
    | zero =>
      obtain rfl : (st, e) = p := by simpa using hp
      exact ⟨stage, here, rfl, leaving_zero stage here rest ▸ hfirst⟩
    | succ i =>
      obtain ⟨stage', here', hat, hlowered⟩ := ih (by simpa using hp)
      refine ⟨stage', here', by simpa using hat, ?_⟩
      rw [entering_cons]
      exact hlowered

theorem FedChain.of_forall (h : ∀ i stage here, stages[i]? = some (stage, here) →
    Fed aborts (entering before stages here i) (leaving stages here i) stage) : FedChain aborts before stages := by
  induction stages generalizing before with
  | nil => exact .nil
  | cons p rest ih =>
    obtain ⟨stage, here⟩ := p
    refine .cons (leaving_zero stage here rest ▸ h 0 stage here rfl) (ih fun i stage' here' hat => ?_)
    have hfed := h (i + 1) stage' here' (by simpa using hat)
    rwa [entering_cons] at hfed

/-! ## Variables that cross -/

/-- A stage up to a position refers to a variable, and so does a stage behind it. -/
def Crosses (stages : List Entity) (i : Nat) (v : Symbol) : Prop :=
  (∃ j stage, j ≤ i ∧ stages[j]? = some stage ∧ v ∈ refs stage.nodes) ∧
    ∃ j stage, i + 1 ≤ j ∧ stages[j]? = some stage ∧ v ∈ refs stage.nodes

theorem crosses_iff {stages : List Entity} {v : Symbol} : Crosses stages i v ↔
    (∃ x ∈ stages.take (i + 1), v ∈ refs x.nodes) ∧ ∃ x ∈ stages.drop (i + 1), v ∈ refs x.nodes := by
  unfold Crosses
  refine and_congr ⟨?_, ?_⟩ ⟨?_, ?_⟩
  · rintro ⟨j, x, hj, hx, hv⟩
    refine ⟨x, mem_iff_getElem?.mpr ⟨j, ?_⟩, hv⟩
    rw [getElem?_take_of_lt (Nat.lt_succ_of_le hj), hx]
  · rintro ⟨x, hx, hv⟩
    obtain ⟨j, hj⟩ := mem_iff_getElem?.mp hx
    rw [getElem?_take] at hj
    split at hj
    · exact ⟨j, x, by omega, hj, hv⟩
    · nomatch hj
  · rintro ⟨j, x, hj, hx, hv⟩
    refine ⟨x, mem_iff_getElem?.mpr ⟨j - (i + 1), ?_⟩, hv⟩
    rw [getElem?_drop, Nat.add_sub_cancel' hj, hx]
  · rintro ⟨x, hx, hv⟩
    obtain ⟨j, hj⟩ := mem_iff_getElem?.mp hx
    rw [getElem?_drop] at hj
    exact ⟨i + 1 + j, x, by omega, hj, hv⟩

instance (stages : List Entity) (i : Nat) (v : Symbol) : Decidable (Crosses stages i v) := decidable_of_iff _ crosses_iff.symm

/-- A pipeline: its stages are different entities, and numbers tell its variables and all that the stages refer to apart. -/
structure Staged (Γ : SymbolTable) (e : Entity) : Prop where
  distinct : (e.entities.map (·.symbol)).Nodup
  entity : ∀ x ∈ e.entities, ∃ ports, Γ.kind x.symbol = .entity ports
  refs : ∀ x ∈ e.entities, ∀ v ∈ Node.refs x.nodes, v.index < Γ.entries.size
  numbered : Γ.Numbered (pipelined Γ e ++ e.entities.flatMap fun x => Node.refs x.nodes)

/-- A pipeline whose variables have bits. -/
structure Sound (Γ : SymbolTable) (e : Entity) : Prop extends Staged Γ e where
  width : ∀ v ∈ pipelined Γ e, 0 < (Γ.kind v).underlying.width

namespace Staged

variable {e : Entity} {v : Symbol}

theorem pipelined_listed (hv : v ∈ pipelined Γ e) : v.index < Γ.entries.size := by
  by_contra hnot
  have hkind := (mem_filter.mp hv).2
  rw [kind_of_not_listed hnot] at hkind
  nomatch hkind

variable (h : Staged Γ e)
include h

theorem entity_listed : ∀ x ∈ e.entities.map (·.symbol), x.index < Γ.entries.size := by
  intro x hx
  obtain ⟨child, hchild, rfl⟩ := mem_map.mp hx
  obtain ⟨ports, hkind⟩ := h.entity child hchild
  by_contra hnot
  rw [kind_of_not_listed hnot] at hkind
  nomatch hkind

theorem settled {vs : List Symbol} (hvs : ∀ v ∈ vs, v ∈ pipelined Γ e) : Settled Γ (e.entities.map (·.symbol)) vs := by
  intro v hv
  refine ⟨pipelined_listed (hvs v hv), fun hmem => ?_⟩
  obtain ⟨child, hchild, rfl⟩ := mem_map.mp hmem
  obtain ⟨ports, hkind⟩ := h.entity child hchild
  have hpipeline := (mem_filter.mp (hvs _ hv)).2
  rw [hkind] at hpipeline
  nomatch hpipeline

theorem numbered_pipelined : Γ.Numbered (pipelined Γ e) := fun x hx y hy =>
  h.numbered x (mem_append_left _ hx) y (mem_append_left _ hy)

theorem over_used (hx : x ∈ e.entities) : (used Γ (carried Γ e) x).Over Γ (pipelined Γ e) := by
  refine .setOf fun v hv => ?_
  obtain ⟨hv, hhas⟩ := mem_filter.mp hv
  have hover : (carried Γ e).Over Γ (pipelined Γ e ++ e.entities.flatMap fun x => Node.refs x.nodes) :=
    over_carried fun _ h => mem_append_left _ h
  have hdomain : v ∈ pipelined Γ e ++ e.entities.flatMap fun x => Node.refs x.nodes :=
    mem_append_right _ (mem_flatMap.mpr ⟨x, hx, hv⟩)
  have hcarried := (hover.mem_symbols h.numbered hdomain).mpr hhas
  exact (mem_carried (fun _ h => h) h.numbered_pipelined).mp hcarried

theorem has_used (hx : x ∈ e.entities) (hv : v ∈ pipelined Γ e) :
    (used Γ (carried Γ e) x).has (Γ.member v) = true ↔ v ∈ Node.refs x.nodes := by
  refine Pipeline.has_used (over_carried fun _ h => mem_append_left _ h)
    (fun y hy => mem_append_right _ (mem_flatMap.mpr ⟨x, hx, hy⟩)) h.numbered ?_
  exact (mem_carried (fun _ h => h) h.numbered_pipelined).mpr hv

end Staged

def live (Γ : SymbolTable) (e : Entity) (stages : List Entity) : List (Entity × SymbolSet) :=
  stages.zip (alive none (stages.map (used Γ (carried Γ e))))

section

variable {e : Entity} {chain : List Entity} {v : Symbol}

theorem map_fst_live (Γ : SymbolTable) (e : Entity) (chain : List Entity) : (live Γ e chain).map (·.1) = chain := by
  have hlength := length_alive none (chain.map (used Γ (carried Γ e)))
  exact map_fst_zip (Nat.le_of_eq (by rw [hlength, length_map]))

theorem length_live (Γ : SymbolTable) (e : Entity) (chain : List Entity) : (live Γ e chain).length = chain.length := by
  rw [← length_map (f := (·.1)), map_fst_live]

theorem getElem?_live {here : SymbolSet} (h : (live Γ e chain)[i]? = some (x, here)) :
    chain[i]? = some x ∧ (alive none (chain.map (used Γ (carried Γ e))))[i]? = some here :=
  getElem?_zip_eq_some.mp h

section

variable (h : Staged Γ e)
include h

theorem Staged.over_live (hchain : ∀ x ∈ chain, x ∈ e.entities) : ∀ p ∈ live Γ e chain, p.2.Over Γ (pipelined Γ e) := by
  intro p hp
  have hused : ∀ u ∈ chain.map (used Γ (carried Γ e)), u.Over Γ (pipelined Γ e) := by
    intro u hu
    obtain ⟨x, hx, rfl⟩ := mem_map.mp hu
    exact h.over_used (hchain x hx)
  exact over_alive hused p.2 (of_mem_zip hp).2

theorem Staged.hasAt_used (hchain : ∀ x ∈ chain, x ∈ e.entities) (hv : v ∈ pipelined Γ e) (j : Nat) :
    HasAt (chain.map (used Γ (carried Γ e))) (Γ.member v) j ↔
      ∃ stage, chain[j]? = some stage ∧ v ∈ Node.refs stage.nodes := by
  unfold HasAt
  constructor
  · rintro ⟨u, hu, hhas⟩
    rw [getElem?_map, Option.map_eq_some_iff] at hu
    obtain ⟨x, hx, rfl⟩ := hu
    exact ⟨x, hx, (h.has_used (hchain x (mem_of_getElem? hx)) hv).mp hhas⟩
  · rintro ⟨x, hx, href⟩
    refine ⟨_, by rw [getElem?_map, hx]; rfl, ?_⟩
    exact (h.has_used (hchain x (mem_of_getElem? hx)) hv).mpr href

theorem Staged.mem_iff {s : SymbolSet} (hs : s.Over Γ (pipelined Γ e)) :
    v ∈ s.symbols ↔ v ∈ pipelined Γ e ∧ s.has (Γ.member v) = true := by
  refine ⟨fun hv => ?_, fun hv => (hs.mem_symbols h.numbered_pipelined hv.1).mpr hv.2⟩
  have hmem := hs.mem_domain hv
  exact ⟨hmem, (hs.mem_symbols h.numbered_pipelined hmem).mp hv⟩

theorem Staged.mem_inter (hhere : here.Over Γ (pipelined Γ e)) (hnext : next.Over Γ (pipelined Γ e)) :
    v ∈ (here.inter next).symbols ↔ v ∈ here.symbols ∧ v ∈ next.symbols := by
  rw [h.mem_iff hhere, h.mem_iff hnext, h.mem_iff (hhere.inter next), SymbolSet.has_inter, Bool.and_eq_true, and_and_left]

variable (hchain : ∀ x ∈ chain, x ∈ e.entities)
include hchain

theorem Staged.mem_live (hat : (live Γ e chain)[i]? = some (x, here)) :
    v ∈ here.symbols ↔ v ∈ pipelined Γ e ∧ (∃ j stage, j ≤ i ∧ chain[j]? = some stage ∧ v ∈ Node.refs stage.nodes) ∧
      ∃ j stage, i ≤ j ∧ chain[j]? = some stage ∧ v ∈ Node.refs stage.nodes := by
  rw [h.mem_iff (h.over_live hchain _ (mem_of_getElem? hat)), and_congr_right_iff]
  intro hv
  rw [has_of_alive (getElem?_live hat).2]
  simp only [h.hasAt_used hchain hv, exists_and_left]

theorem Staged.mem_shared {x y : Entity} (hhere : (live Γ e chain)[i]? = some (x, here))
    (hnext : (live Γ e chain)[i + 1]? = some (y, next)) :
    v ∈ (here.inter next).symbols ↔ v ∈ pipelined Γ e ∧ Crosses chain i v := by
  rw [h.mem_inter (h.over_live hchain _ (mem_of_getElem? hhere)) (h.over_live hchain _ (mem_of_getElem? hnext)),
    h.mem_live hchain hhere, h.mem_live hchain hnext]
  constructor
  · rintro ⟨⟨hv, hupto, -⟩, -, -, hfrom⟩
    exact ⟨hv, hupto, hfrom⟩
  · rintro ⟨hv, ⟨j, y, hj, hy⟩, k, z, hk, hz⟩
    exact ⟨⟨hv, ⟨j, y, hj, hy⟩, k, z, Nat.le_of_succ_le hk, hz⟩, hv, ⟨j, y, Nat.le_succ_of_le hj, hy⟩, k, z, hk, hz⟩

end

/-- Two neighbours `x` and `y` taken out of the pipeline, the variables `vs` crossing between them. -/
structure Neighbours (Γ Γ' : SymbolTable) (vs : List Symbol) (x y : Entity) (p q : Stage × Entity) : Prop where
  ascending : (vs.map Γ.id).Pairwise (· < ·)
  source : ∃ here before, Lowered Γ Γ' x here before vs p.1 p.2 ∧ ∀ v ∈ vs, v ∈ here
  target : ∃ here after, Lowered Γ Γ' y here vs after q.1 q.2 ∧ ∀ v ∈ vs, v ∈ here

/-- Two neighbours get their ports for the variables that cross between them, by ascending number. -/
theorem LoweredChain.neighbours (h : Staged Γ e) (hchain : ∀ x ∈ chain, x ∈ e.entities)
    (hls : LoweredChain Γ Γ' none (live Γ e chain) ls) {p q : Stage × Entity} (hp : ls[i]? = some p)
    (hq : ls[i + 1]? = some q) :
    ∃ vs x y, (∀ v, v ∈ vs ↔ v ∈ pipelined Γ e ∧ Crosses chain i v) ∧ chain[i]? = some x ∧ chain[i + 1]? = some y ∧
      Neighbours Γ Γ' vs x y p q := by
  obtain ⟨x, here, hhere, hlowered⟩ := hls.stage hp
  obtain ⟨y, next, hnext, hlowered'⟩ := hls.stage hq
  rw [leaving, hnext] at hlowered
  rw [entering, hhere] at hlowered'
  have hover := h.over_live hchain _ (mem_of_getElem? hhere)
  have hover' := h.over_live hchain _ (mem_of_getElem? hnext)
  refine ⟨(here.inter next).symbols, x, y, fun v => h.mem_shared hchain hhere hnext, (getElem?_live hhere).1,
    (getElem?_live hnext).1, (hover.inter next).ascending, ?_, ?_⟩
  · exact ⟨_, _, hlowered, fun v => mem_of_mem_inter⟩
  · exact ⟨_, _, hlowered', fun v hv => ((h.mem_inter hover hover').mp hv).2⟩

/-- In a chain, a stage that reads has a variable crossing to it, and one that writes has one crossing from it. -/
structure Supplied (Γ : SymbolTable) (e : Entity) (chain : List Entity) : Prop where
  read : ∀ i stage l, chain[i]? = some stage → .stmt (.read l) ∈ stage.nodes →
    ∃ j, i = j + 1 ∧ ∃ v ∈ pipelined Γ e, Crosses chain j v
  write : ∀ i stage l, chain[i]? = some stage → .stmt (.write l) ∈ stage.nodes → ∃ v ∈ pipelined Γ e, Crosses chain i v

variable (h : Staged Γ e)
include h

variable (hchain : ∀ x ∈ chain, x ∈ e.entities)
include hchain

section

variable (hat : (live Γ e chain)[i]? = some (x, here))
include hat

theorem Staged.mem_entering : v ∈ entering none (live Γ e chain) here i ↔
      ∃ j, i = j + 1 ∧ v ∈ pipelined Γ e ∧ Crosses chain j v := by
  cases i with
  | zero => simp [entering, listed]
  | succ j =>
    have hlt := Nat.lt_of_succ_lt (List.getElem?_eq_some_iff.mp hat).1
    obtain ⟨⟨y, prev⟩, hprev⟩ : ∃ p, (live Γ e chain)[j]? = some p := ⟨_, getElem?_eq_getElem hlt⟩
    rw [entering, hprev]
    exact (h.mem_shared hchain hprev hat).trans (by simp)

theorem Staged.mem_leaving : v ∈ leaving (live Γ e chain) here i ↔ v ∈ pipelined Γ e ∧ Crosses chain i v := by
  rw [leaving]
  cases hnext : (live Γ e chain)[i + 1]? with
  | none =>
    -- a variable that crosses shows that there is a next stage
    refine ⟨nofun, ?_⟩
    rintro ⟨-, -, j, y, hij, hy, -⟩
    have hlt := (List.getElem?_eq_some_iff.mp hy).1
    rw [getElem?_eq_none_iff, length_live] at hnext
    omega
  | some next => exact h.mem_shared hchain hat hnext

end

theorem Staged.fed (hsup : ¬ aborts → Supplied Γ e chain) : FedChain aborts none (live Γ e chain) := by
  refine FedChain.of_forall fun i x here hat => ⟨fun l hl hnil => ?_, fun l hl hnil => ?_⟩ <;> by_contra hnot
  · obtain ⟨j, hj, v, hcross⟩ := (hsup hnot).read i x l (getElem?_live hat).1 hl
    exact ne_nil_of_mem ((h.mem_entering hchain hat).mpr ⟨j, hj, hcross⟩) hnil
  · obtain ⟨v, hcross⟩ := (hsup hnot).write i x l (getElem?_live hat).1 hl
    exact ne_nil_of_mem ((h.mem_leaving hchain hat).mpr hcross) hnil

end

end HdlLowering.Pipeline
