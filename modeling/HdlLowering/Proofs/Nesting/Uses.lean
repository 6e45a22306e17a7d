import HdlLowering.Lowering.Nesting
import HdlLowering.Proofs.Tree.Entities
import Mathlib.Data.List.Nodup
import Mathlib.Data.List.Perm.Subperm

/-!
# The outer symbols that an entity uses

`outerUses` starts from the outer symbols that an entity refers to and adds the constants that their values depend on. As many
steps as there are symbols suffice to find all of them (`outerUses_complete`).
-/

namespace HdlLowering.Nesting

open List Node Use

variable {Γ : SymbolTable} {outer : Symbol → Bool} {frames : Scopes Frame}

def names (us : List Use) : List Symbol := us.map (·.symbol)

theorem mem_names {us : List Use} {u : Use} (h : u ∈ us) : u.symbol ∈ names us := mem_map_of_mem h

theorem mem_dependencies {s t : Symbol} {init : Expr} (hs : (Γ.kind s).isConst = true) (hinit : Γ.init s = some init) :
    t ∈ names (dependencies Γ s) ↔ t ∈ names (references init.nodes) ∧ (Γ.kind t).isConst = true := by
  have hdeps : dependencies Γ s = (uses init.nodes).filter fun u => (Γ.kind u.symbol).isConst := by
    simp [dependencies, hs, hinit]
  simp only [names, hdeps, mem_map, mem_filter, uses]
  constructor
  · rintro ⟨u, ⟨hu, hconst⟩, rfl⟩
    exact ⟨⟨u, mem_of_mem_firsts hu, rfl⟩, hconst⟩
  · rintro ⟨⟨u, hu, rfl⟩, hconst⟩
    obtain ⟨v, hv, heq⟩ := exists_mem_firsts hu (not_mem_nil (a := u.symbol))
    exact ⟨v, ⟨hv, heq ▸ hconst⟩, heq⟩

theorem of_mem_dependencies {s t : Symbol} (h : t ∈ names (dependencies Γ s)) :
    (Γ.kind s).isConst = true ∧ ∃ init, Γ.init s = some init := by
  unfold dependencies at h
  split at h
  · split at h
    · exact ⟨‹_›, _, ‹_›⟩
    · nomatch h
  · nomatch h

/-! ## Adding uses -/

theorem addUses_cons (uses : List Use) (u : Use) (new : List Use) : addUses outer uses (u :: new) =
    addUses outer (if outer u.symbol && !uses.any (·.symbol == u.symbol) then uses ++ [u] else uses) new := rfl

theorem any_symbol_eq (us : List Use) (s : Symbol) : us.any (·.symbol == s) = true ↔ s ∈ names us := by
  simp [names, any_eq_true]

theorem prefix_addUses (outer : Symbol → Bool) : ∀ new uses : List Use, uses <+: addUses outer uses new
  | [], uses => prefix_rfl
  | u :: new, uses => by
    rw [addUses_cons]
    split
    · exact (prefix_append _ _).trans (prefix_addUses outer new _)
    · exact prefix_addUses outer new _

theorem mem_addUses {s : Symbol} : ∀ (new uses : List Use),
    s ∈ names (addUses outer uses new) ↔ s ∈ names uses ∨ (outer s = true ∧ s ∈ names new)
  | [], uses => by simp [addUses, names]
  | u :: new, uses => by
    rw [addUses_cons, mem_addUses new]
    by_cases hu : u.symbol ∈ names uses
    · have hany := (any_symbol_eq uses u.symbol).mpr hu
      simp only [hany, Bool.not_true, Bool.and_false, Bool.false_eq_true, ↓reduceIte, names, map_cons, mem_cons]
      grind [names]
    · have hany : uses.any (·.symbol == u.symbol) = false := by
        rw [← Bool.not_eq_true, any_symbol_eq]
        exact hu
      cases houter : outer u.symbol
      · simp only [Bool.false_and, Bool.false_eq_true, ↓reduceIte, names, map_cons, mem_cons]
        grind
      · simp only [hany, Bool.not_false, Bool.and_self, ↓reduceIte, names, map_append, map_cons, map_nil,
          mem_append, mem_cons, not_mem_nil, or_false]
        grind

theorem nodup_addUses : ∀ (new : List Use) {uses : List Use}, (names uses).Nodup → (names (addUses outer uses new)).Nodup
  | [], _, h => h
  | u :: new, uses, h => by
    rw [addUses_cons]
    split
    · rename_i hnew
      have hu : u.symbol ∉ names uses := by
        rw [← any_symbol_eq]
        simp_all
      refine nodup_addUses new ?_
      simpa [names, nodup_append] using ⟨h, fun v hv heq => hu (heq ▸ mem_names hv)⟩
    · exact nodup_addUses new h

/-! ## Adding what constants depend on -/

/-- Uses of symbols of a kind, each once; what those before a position depend on is among them. -/
structure Closing (Γ : SymbolTable) (outer : Symbol → Bool) (V : Symbol → Prop) (i : Nat) (uses : List Use) : Prop where
  nodup : (names uses).Nodup
  sound : ∀ s ∈ names uses, V s
  closed : ∀ j < i, ∀ u, uses[j]? = some u → ∀ t ∈ names (dependencies Γ u.symbol), outer t = true → t ∈ names uses

variable {V : Symbol → Prop}

theorem Closing.step (hdep : ∀ s, V s → ∀ t ∈ names (dependencies Γ s), outer t = true → V t) {i : Nat} {uses : List Use} {u : Use}
    (h : Closing Γ outer V i uses) (hu : uses[i]? = some u) :
    Closing Γ outer V (i + 1) (addUses outer uses (dependencies Γ u.symbol)) where
  nodup := nodup_addUses _ h.nodup
  sound s hs := by
    rcases (mem_addUses _ _).mp hs with hs | ⟨houter, hs⟩
    · exact h.sound s hs
    · exact hdep u.symbol (h.sound _ (mem_names (mem_of_getElem? hu))) s hs houter
  closed j hj v hv t ht houter := by
    -- the use at a position that was looked at is the one that stood there before
    have hlen : i < uses.length := (List.getElem?_eq_some_iff.mp hu).1
    obtain ⟨more, hmore⟩ := prefix_addUses outer (dependencies Γ u.symbol) uses
    have hv : uses[j]? = some v := by rw [← hv, ← hmore, getElem?_append_left (by omega)]
    rw [mem_addUses]
    rcases Nat.lt_succ_iff_lt_or_eq.mp hj with hj | rfl
    · exact Or.inl (h.closed j hj v hv t ht houter)
    · obtain rfl : u = v := Option.some.inj (hu.symm.trans hv)
      exact Or.inr ⟨houter, ht⟩

/-- The fuel suffices: there are no more uses than symbols, so every use is looked at. -/
theorem closing_closeUses (hV : ∀ s, V s → s.index < Γ.entries.size)
    (hdep : ∀ s, V s → ∀ t ∈ names (dependencies Γ s), outer t = true → V t) :
    ∀ (fuel i : Nat) (uses : List Use), Closing Γ outer V i uses → Γ.entries.size < fuel + i →
      ∃ n, (closeUses Γ outer fuel i uses).length ≤ n ∧ Closing Γ outer V n (closeUses Γ outer fuel i uses) ∧
        ∀ s ∈ names uses, s ∈ names (closeUses Γ outer fuel i uses)
  | 0, i, uses, h, hfuel => by
    have hlen : uses.length ≤ Γ.entries.size := by
      have hinj : Function.Injective Symbol.index := fun ⟨_⟩ ⟨_⟩ h => congrArg Symbol.mk h
      have hindex : ((names uses).map Symbol.index).Nodup := List.Nodup.map hinj h.nodup
      have hrange : (names uses).map Symbol.index ⊆ range Γ.entries.size := by
        intro n hn
        obtain ⟨s, hs, rfl⟩ := mem_map.mp hn
        exact mem_range.mpr (hV s (h.sound s hs))
      simpa [names] using (hindex.subperm hrange).length_le
    exact ⟨i, by rw [closeUses]; omega, h, fun s hs => hs⟩
  | fuel + 1, i, uses, h, hfuel => by
    rw [closeUses]
    cases hu : uses[i]? with
    | none => exact ⟨i, getElem?_eq_none_iff.mp hu, h, fun s hs => hs⟩
    | some u =>
      obtain ⟨n, hlen, hclosing, hsub⟩ := closing_closeUses hV hdep fuel (i + 1) _ (h.step hdep hu) (by omega)
      exact ⟨n, hlen, hclosing, fun s hs => hsub s ((mem_addUses _ _).mpr (Or.inl hs))⟩

theorem outerUses_of_isEmpty (h : frames.isEmpty = true) (e : Entity) : outerUses Γ frames e = [] := by
  have houter : ∀ s, isOuter Γ frames s = false := by
    intro s
    rw [isOuter, isEmpty_iff.mp h, any_nil]
  have hnone : addUses (isOuter Γ frames) [] (references e.ownNodes) = [] := by
    rw [eq_nil_iff_forall_not_mem]
    intro u hu
    rcases (mem_addUses _ _).mp (mem_names hu) with hu | ⟨hu, -⟩
    · nomatch hu
    · rw [houter] at hu
      nomatch hu
  simp [outerUses, hnone, closeUses]

structure OuterUses (Γ : SymbolTable) (outer : Symbol → Bool) (V : Symbol → Prop) (e : Entity) (ss : List Symbol) : Prop where
  nodup : ss.Nodup
  sound : ∀ s ∈ ss, V s
  direct : ∀ u ∈ references e.ownNodes, outer u.symbol = true → u.symbol ∈ ss
  closed : ∀ s ∈ ss, ∀ t ∈ names (dependencies Γ s), outer t = true → t ∈ ss

/-- The outer symbols that an entity refers to, and the constants that they depend on, are all found. -/
theorem outerUses_complete {e : Entity} (hV : ∀ s, V s → s.index < Γ.entries.size)
    (hdep : ∀ s, V s → ∀ t ∈ names (dependencies Γ s), isOuter Γ frames t = true → V t)
    (hdirect : ∀ u ∈ Node.references e.ownNodes, isOuter Γ frames u.symbol = true → V u.symbol) :
    OuterUses Γ (isOuter Γ frames) V e (names (outerUses Γ frames e)) := by
  have hstart : Closing Γ (isOuter Γ frames) V 0 (addUses (isOuter Γ frames) [] (Node.references e.ownNodes)) := by
    refine ⟨nodup_addUses _ nodup_nil, fun s hs => ?_, fun j hj => absurd hj (Nat.not_lt_zero j)⟩
    rcases (mem_addUses _ _).mp hs with hs | ⟨houter, hs⟩
    · nomatch hs
    · obtain ⟨u, hu, rfl⟩ := mem_map.mp hs
      exact hdirect u hu houter
  obtain ⟨n, hlen, hclosing, hsub⟩ := closing_closeUses hV hdep (Γ.entries.size + 1) 0 _ hstart (by omega)
  have hperm : (names (outerUses Γ frames e)).Perm (names (closeUses Γ (isOuter Γ frames) (Γ.entries.size + 1) 0
      (addUses (isOuter Γ frames) [] (Node.references e.ownNodes)))) := (mergeSort_perm _ _).map _
  refine ⟨hperm.nodup_iff.mpr hclosing.nodup, fun s hs => hclosing.sound s (hperm.mem_iff.mp hs), fun u hu houter => ?_,
    fun s hs t ht houter => ?_⟩
  · exact hperm.mem_iff.mpr (hsub _ ((mem_addUses _ _).mpr (Or.inr ⟨houter, mem_names hu⟩)))
  · obtain ⟨u, hu, rfl⟩ := mem_map.mp (hperm.mem_iff.mp hs)
    obtain ⟨j, hj⟩ := getElem?_of_mem hu
    have hjlen := (List.getElem?_eq_some_iff.mp hj).1
    exact hperm.mem_iff.mpr (hclosing.closed j (by omega) u hj t ht houter)

end HdlLowering.Nesting
