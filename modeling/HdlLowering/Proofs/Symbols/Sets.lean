import HdlLowering.SymbolSet
import Mathlib.Tactic.Common

/-!
# Sets of symbols

Members of a set are told apart by number. Sets built from symbols of a domain list them by ascending number (`SymbolSet.Over`).
-/

namespace HdlLowering

open List SymbolSet

/-! ## Lists of pairs -/

section Lookup

variable {α β : Type} [BEq α] [LawfulBEq α] {l : List (α × β)} {a : α} {b : β}

theorem mem_of_lookup (h : l.lookup a = some b) : (a, b) ∈ l := by
  obtain ⟨l1, l2, rfl, -⟩ := lookup_eq_some_iff.mp h
  exact mem_append_right _ mem_cons_self

theorem lookup_eq_none : l.lookup a = none ↔ a ∉ l.map (·.1) := by
  simp only [lookup_eq_none_iff, mem_map, not_exists, not_and, bne_iff_ne, ne_comm, ne_eq]

theorem exists_lookup (h : a ∈ l.map (·.1)) : ∃ b, l.lookup a = some b :=
  Option.ne_none_iff_exists'.mp fun hnone => lookup_eq_none.mp hnone h

theorem mem_lookup (h : a ∈ l.map (·.1)) (d : β) : (a, (l.lookup a).getD d) ∈ l := by
  obtain ⟨b, hb⟩ := exists_lookup h
  rw [hb]
  exact mem_of_lookup hb

end Lookup

/-! ## Members -/

variable {Γ : SymbolTable} {x : Symbol} {ss : List Symbol}

theorem SymbolSet.has_insert (s : SymbolSet) (m x : Member) : (s.insert m).has x = (m.id == x.id || s.has x) := by
  have key : ∀ ms : List Member,
      (insertMember m ms).any (·.id == x.id) = (m.id == x.id || ms.any (·.id == x.id)) := by
    intro ms
    induction ms with
    | nil => rfl
    | cons y ys ih =>
      unfold insertMember
      split
      · rfl
      · split
        · rename_i hid
          simp [hid]
        · rw [any_cons, ih, any_cons, Bool.or_left_comm]
  exact key s.members

/-- The set of some symbols has all of them. -/
theorem SymbolTable.has_setOf (ss : List Symbol) (x : Member) : (Γ.setOf ss).has x = ss.any fun s => Γ.id s == x.id := by
  have key : ∀ (ss : List Symbol) (set : SymbolSet), ((ss.map Γ.member).foldl insert set).has x =
      (set.has x || ss.any fun s => Γ.id s == x.id) := by
    intro ss
    induction ss with
    | nil => simp
    | cons s ss ih =>
      intro set
      rw [map_cons, foldl_cons, ih, has_insert, any_cons, ← Bool.or_assoc]
      congr 1
      exact Bool.or_comm _ _
  rw [SymbolTable.setOf, ofList, key]
  rfl

def SymbolTable.Numbered (Γ : SymbolTable) (ss : List Symbol) : Prop := ∀ x ∈ ss, ∀ y ∈ ss, Γ.id x = Γ.id y → x = y

def SymbolTable.all (Γ : SymbolTable) : List Symbol := (range Γ.entries.size).map Symbol.mk

@[simp] theorem SymbolTable.mem_all {Γ : SymbolTable} : x ∈ Γ.all ↔ x.index < Γ.entries.size := by
  rw [SymbolTable.all, mem_map]
  constructor
  · rintro ⟨i, hi, rfl⟩
    exact mem_range.mp hi
  · exact fun h => ⟨x.index, mem_range.mpr h, rfl⟩

theorem SymbolSet.mem_insertMember {m x : Member} {ms : List Member} (h : x = m ∨ (x ∈ ms ∧ x.id ≠ m.id)) :
    x ∈ insertMember m ms := by
  induction ms with
  | nil => simpa [insertMember] using h
  | cons y ys ih =>
    unfold insertMember
    split
    · rcases h with rfl | ⟨h, -⟩
      · simp
      · exact mem_cons_of_mem _ h
    · split
      · rename_i hid
        rcases h with rfl | ⟨h, hne⟩
        · simp
        · rcases mem_cons.mp h with rfl | h
          · exact absurd hid.symm hne
          · simp [h]
      · rcases h with rfl | ⟨h, hne⟩
        · exact mem_cons_of_mem _ (ih (Or.inl rfl))
        · rcases mem_cons.mp h with rfl | h
          · simp
          · exact mem_cons_of_mem _ (ih (Or.inr ⟨h, hne⟩))

/-- When numbers tell the symbols apart, their set has them as they are. -/
theorem SymbolTable.mem_setOf (hn : Γ.Numbered ss) {s : Symbol} (hs : s ∈ ss) : s ∈ (Γ.setOf ss).symbols := by
  -- a member put in later replaces none of those before it, unless it is the same
  have key : ∀ (ts : List Symbol) (set : SymbolSet), (∀ t ∈ ts, t ∈ ss) →
      (s ∈ ts ∨ Γ.member s ∈ set.members) → Γ.member s ∈ ((ts.map Γ.member).foldl insert set).members := by
    intro ts
    induction ts with
    | nil => intro set _ h; simpa using h
    | cons t ts ih =>
      intro set hsub h
      rw [map_cons, foldl_cons]
      refine ih _ (fun x hx => hsub x (by simp [hx])) ?_
      rcases h with h | h
      · rcases mem_cons.mp h with rfl | h
        · exact Or.inr (mem_insertMember (Or.inl rfl))
        · exact Or.inl h
      · refine Or.inr (mem_insertMember ?_)
        by_cases hid : Γ.id s = Γ.id t
        · exact Or.inl (by rw [hn s hs t (hsub t (by simp)) hid])
        · exact Or.inr ⟨h, hid⟩
  exact mem_map.mpr ⟨Γ.member s, key ss {} (fun _ h => h) (Or.inl hs), rfl⟩

/-! ## Sets over a domain -/

theorem SymbolSet.has_union (s o : SymbolSet) (x : Member) : (s.union o).has x = (s.has x || o.has x) := by
  have key : ∀ (ms : List Member) (s : SymbolSet),
      (ms.foldl insert s).has x = (s.has x || ms.any (·.id == x.id)) := by
    intro ms
    induction ms with
    | nil => simp
    | cons m ms ih =>
      intro s
      rw [foldl_cons, ih, has_insert, any_cons, ← Bool.or_assoc]
      congr 1
      exact Bool.or_comm _ _
  exact key o.members s

theorem SymbolSet.has_inter (s o : SymbolSet) (x : Member) : (s.inter o).has x = (s.has x && o.has x) := by
  -- whether the other set has a member depends on its number alone
  have hother : ∀ m : Member, (m.id == x.id) = true → o.has m = o.has x := by
    intro m hm
    rw [has, has, beq_iff_eq.mp hm]
  unfold inter
  rw [has, has, any_filter, Bool.eq_iff_iff]
  simp only [any_eq_true, Bool.and_eq_true]
  constructor
  · rintro ⟨m, hm, ho, hid⟩
    exact ⟨⟨m, hm, hid⟩, hother m hid ▸ ho⟩
  · rintro ⟨⟨m, hm, hid⟩, ho⟩
    exact ⟨m, hm, (hother m hid).symm ▸ ho, hid⟩

structure SymbolSet.Over (Γ : SymbolTable) (D : List Symbol) (s : SymbolSet) : Prop where
  sorted : s.members.Pairwise fun m n => m.id < n.id
  known : ∀ m ∈ s.members, ∃ x ∈ D, m = Γ.member x

namespace SymbolSet.Over

variable {D : List Symbol} {s o : SymbolSet}

theorem empty (Γ : SymbolTable) (D : List Symbol) : Over Γ D {} := ⟨.nil, fun _ h => nomatch h⟩

theorem of_mem_insertMember {m x : Member} : ∀ {ms : List Member}, x ∈ insertMember m ms → x = m ∨ x ∈ ms
  | [], h => Or.inl (by simpa [insertMember] using h)
  | y :: ys, h => by
    unfold insertMember at h
    split at h
    · simpa using h
    · split at h
      · rcases mem_cons.mp h with h | h
        · exact Or.inl h
        · exact Or.inr (mem_cons_of_mem _ h)
      · rcases mem_cons.mp h with h | h
        · exact Or.inr (by simp [h])
        · exact (of_mem_insertMember h).imp_right (mem_cons_of_mem _)

theorem sorted_insertMember (m : Member) : ∀ {ms : List Member}, ms.Pairwise (fun m n => m.id < n.id) →
    (insertMember m ms).Pairwise fun m n => m.id < n.id
  | [], _ => by simp [insertMember]
  | y :: ys, h => by
    obtain ⟨hy, hys⟩ := pairwise_cons.mp h
    unfold insertMember
    split
    · rename_i hlt
      refine pairwise_cons.mpr ⟨fun n hn => ?_, h⟩
      rcases mem_cons.mp hn with rfl | hn
      · exact hlt
      · exact Int64.lt_trans hlt (hy n hn)
    · rename_i hge
      split
      · rename_i heq
        exact pairwise_cons.mpr ⟨fun n hn => heq ▸ hy n hn, hys⟩
      · rename_i hne
        have hgt : y.id < m.id := Int64.lt_of_le_of_ne (Int64.not_lt.mp hge) fun h => hne h.symm
        refine pairwise_cons.mpr ⟨fun n hn => ?_, sorted_insertMember m hys⟩
        rcases of_mem_insertMember hn with rfl | hn
        · exact hgt
        · exact hy n hn

theorem insert (h : s.Over Γ D) (hx : x ∈ D) : (s.insert (Γ.member x)).Over Γ D where
  sorted := sorted_insertMember _ h.sorted
  known m hm := by
    rcases of_mem_insertMember hm with rfl | hm
    · exact ⟨x, hx, rfl⟩
    · exact h.known m hm

theorem foldl_insert (ss : List Symbol) (hss : ∀ x ∈ ss, x ∈ D) (h : s.Over Γ D) :
    ((ss.map Γ.member).foldl SymbolSet.insert s).Over Γ D := by
  induction ss generalizing s with
  | nil => exact h
  | cons x ss ih =>
    rw [forall_mem_cons] at hss
    exact ih hss.2 (h.insert hss.1)

theorem setOf (hss : ∀ x ∈ ss, x ∈ D) : (Γ.setOf ss).Over Γ D := foldl_insert ss hss (empty Γ D)

variable (h : s.Over Γ D)
include h

theorem members_eq : s.members = s.symbols.map Γ.member := by
  have hself : ∀ m ∈ s.members, m = Γ.member m.symbol := by
    intro m hm
    obtain ⟨x, -, rfl⟩ := h.known m hm
    rfl
  rw [symbols, map_map]
  calc s.members = s.members.map id := by simp
    _ = _ := map_congr_left hself

theorem mem_domain (hx : x ∈ s.symbols) : x ∈ D := by
  obtain ⟨m, hm, rfl⟩ := mem_map.mp hx
  obtain ⟨y, hy, rfl⟩ := h.known m hm
  exact hy

theorem union (h' : o.Over Γ D) : (s.union o).Over Γ D := by
  unfold SymbolSet.union
  rw [h'.members_eq]
  exact foldl_insert _ (fun x hx => h'.mem_domain hx) h

theorem inter (o : SymbolSet) : (s.inter o).Over Γ D where
  sorted := h.sorted.filter _
  known m hm := h.known m (mem_filter.mp hm).1

theorem mem_symbols (hn : Γ.Numbered D) (hx : x ∈ D) : x ∈ s.symbols ↔ s.has (Γ.member x) = true := by
  rw [has, any_eq_true, symbols, mem_map]
  constructor
  · rintro ⟨m, hm, rfl⟩
    obtain ⟨y, -, rfl⟩ := h.known m hm
    exact ⟨_, hm, by simp [SymbolTable.member]⟩
  · rintro ⟨m, hm, hid⟩
    obtain ⟨y, hy, rfl⟩ := h.known m hm
    exact ⟨_, hm, hn y hy x hx (by simpa [SymbolTable.member] using hid)⟩

theorem ascending : (s.symbols.map Γ.id).Pairwise (· < ·) := by
  have hids : s.symbols.map Γ.id = s.members.map (·.id) := by
    rw [h.members_eq, map_map]
    rfl
  rw [hids, pairwise_map]
  exact h.sorted

end SymbolSet.Over

end HdlLowering
