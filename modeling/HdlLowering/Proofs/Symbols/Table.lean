import HdlLowering.Context

/-!
# Growing symbol tables

`SymbolTable.Ends` lists the symbols that were made last. `SymbolTable.Extended` says that those there before kept their numbers
and names, and their kinds but for some.
-/

namespace HdlLowering

namespace SymbolTable

variable {Γ : SymbolTable} {n : Nat} {sig : List (String × Kind)} {f : SymbolEntry → SymbolEntry}

theorem entry_of_not_listed {x : Symbol} (hx : ¬ x.index < Γ.entries.size) : Γ.entry x = {} := by
  rw [entry, Array.getD, dif_neg hx]

theorem kind_of_not_listed {x : Symbol} (hx : ¬ x.index < Γ.entries.size) : Γ.kind x = .void := by
  rw [kind, entry_of_not_listed hx]

/-- What every symbol is after one was made. -/
theorem entry_push (Γ : SymbolTable) (e : SymbolEntry) (s : Symbol) :
    (Γ.push e).2.entry s = if s.index = Γ.entries.size then e else Γ.entry s := by
  unfold entry push
  rw [Array.getD_eq_getD_getElem?, Array.getD_eq_getD_getElem?, Array.getElem?_push]
  split <;> rfl

/-- What every symbol is after one was changed. -/
theorem entry_modify (Γ : SymbolTable) (t s : Symbol) (f : SymbolEntry → SymbolEntry) :
    (Γ.modify t f).entry s = if s = t ∧ s.index < Γ.entries.size then f (Γ.entry s) else Γ.entry s := by
  unfold entry modify
  rw [Array.getD_eq_getD_getElem?, Array.getD_eq_getD_getElem?, Array.getElem?_modify]
  by_cases hst : s = t
  · subst hst
    by_cases hs : s.index < Γ.entries.size
    · simp [hs]
    · simp [hs]
  · have hne : t.index ≠ s.index := fun h => hst (by cases s; cases t; simp_all)
    simp [hst, hne]

@[simp] theorem size_push (Γ : SymbolTable) (e : SymbolEntry) : (Γ.push e).2.entries.size = Γ.entries.size + 1 := by
  simp [push]

@[simp] theorem size_modify (Γ : SymbolTable) (s : Symbol) (f : SymbolEntry → SymbolEntry) :
    (Γ.modify s f).entries.size = Γ.entries.size := by
  simp [modify]

structure Ends (Γ : SymbolTable) (n : Nat) (sig : List (String × Kind)) : Prop where
  size : Γ.entries.size = n + sig.length
  listed : ∀ i p, sig[i]? = some p → Γ.name ⟨n + i⟩ = p.1 ∧ Γ.kind ⟨n + i⟩ = p.2

theorem ends_nil (Γ : SymbolTable) : Γ.Ends Γ.entries.size [] where
  size := rfl
  listed _ _ h := nomatch h

theorem Ends.push (h : Γ.Ends n sig) (e : SymbolEntry) : (Γ.push e).2.Ends n (sig ++ [(e.name, e.kind)]) where
  size := by
    simp [h.size, Nat.add_assoc]
  listed i p hp := by
    rw [name, kind, entry_push, h.size]
    by_cases hi : i = sig.length
    · subst hi
      have hp : (e.name, e.kind) = p := by simpa using hp
      simp [← hp]
    · have hlt : i < sig.length := by
        have := (List.getElem?_eq_some_iff.mp hp).1
        simp at this
        omega
      rw [List.getElem?_append_left hlt] at hp
      rw [if_neg (by simpa using hi)]
      exact h.listed i p hp

theorem Ends.modify (h : Γ.Ends n sig) (s : Symbol)
    (hname : ∀ e, (f e).name = e.name) (hkind : ∀ e, (f e).kind = e.kind) : (Γ.modify s f).Ends n sig where
  size := by
    simp [h.size]
  listed i p hp := by
    rw [name, kind, entry_modify]
    split
    · rw [hname, hkind]
      exact h.listed i p hp
    · exact h.listed i p hp

/-- A table that has grown: the symbols that were there keep number and name, and their kind unless they are in `ss`. -/
structure Extended (ss : List Symbol) (Γ Γ' : SymbolTable) : Prop where
  size : Γ.entries.size ≤ Γ'.entries.size
  id : ∀ x, x.index < Γ.entries.size → Γ'.id x = Γ.id x
  name : ∀ x, x.index < Γ.entries.size → Γ'.name x = Γ.name x
  kind : ∀ x, x.index < Γ.entries.size → x ∉ ss → Γ'.kind x = Γ.kind x

namespace Extended

variable {Γ' Γ'' : SymbolTable} {ss ts : List Symbol}

theorem refl (ss : List Symbol) (Γ : SymbolTable) : Extended ss Γ Γ :=
  ⟨Nat.le_refl _, fun _ _ => rfl, fun _ _ => rfl, fun _ _ _ => rfl⟩

theorem mono (h : Extended ss Γ Γ') (hsub : ∀ x ∈ ss, x ∈ ts) : Extended ts Γ Γ' :=
  ⟨h.size, h.id, h.name, fun x hx hts => h.kind x hx fun hss => hts (hsub x hss)⟩

theorem trans (h : Extended ss Γ Γ') (h' : Extended ts Γ' Γ'') : Extended (ss ++ ts) Γ Γ'' where
  size := Nat.le_trans h.size h'.size
  id x hx := (h'.id x (Nat.lt_of_lt_of_le hx h.size)).trans (h.id x hx)
  name x hx := (h'.name x (Nat.lt_of_lt_of_le hx h.size)).trans (h.name x hx)
  kind x hx hss := by
    rw [List.mem_append, not_or] at hss
    exact (h'.kind x (Nat.lt_of_lt_of_le hx h.size) hss.2).trans (h.kind x hx hss.1)

theorem push (Γ : SymbolTable) (e : SymbolEntry) : Extended [] Γ (Γ.push e).2 := by
  have hentry : ∀ x : Symbol, x.index < Γ.entries.size → (Γ.push e).2.entry x = Γ.entry x := by
    intro x hx
    rw [entry_push, if_neg (Nat.ne_of_lt hx)]
  refine ⟨by simp, fun x hx => ?_, fun x hx => ?_, fun x hx _ => ?_⟩
  · rw [SymbolTable.id, hentry x hx, SymbolTable.id]
  · rw [SymbolTable.name, hentry x hx, SymbolTable.name]
  · rw [SymbolTable.kind, hentry x hx, SymbolTable.kind]

theorem modify (Γ : SymbolTable) (t : Symbol) (hid : ∀ e, (f e).id = e.id)
    (hname : ∀ e, (f e).name = e.name) (hkind : t ∉ ss → ∀ e, (f e).kind = e.kind) : Extended ss Γ (Γ.modify t f) := by
  refine ⟨by simp, fun x _ => ?_, fun x _ => ?_, fun x _ hss => ?_⟩
  · rw [SymbolTable.id, entry_modify]
    split
    · rw [hid, SymbolTable.id]
    · rfl
  · rw [SymbolTable.name, entry_modify]
    split
    · rw [hname, SymbolTable.name]
    · rfl
  · rw [SymbolTable.kind, entry_modify]
    split
    · rename_i h
      rw [hkind (h.1 ▸ hss), SymbolTable.kind]
    · rfl

end Extended

end SymbolTable

/-! ## Steps that make symbols -/

theorem ContextM.newTerm_setRole (name : String) (loc : Loc) (kind : Kind) (role : Role) (c : Context) :
    ∃ c1 c2, ContextM.newTerm name loc kind c = .ok ⟨c.symbols.entries.size⟩ c1 ∧
      ContextM.setRole ⟨c.symbols.entries.size⟩ role c1 = .ok () c2 ∧ c.symbols.Extended [] c2.symbols ∧
      c2.symbols.entries.size = c.symbols.entries.size + 1 ∧ c2.symbols.name ⟨c.symbols.entries.size⟩ = name ∧
      c2.symbols.kind ⟨c.symbols.entries.size⟩ = kind := by
  let Γ := (c.symbols.push { id := c.nextId, name, loc, cls := .term, kind }).2
  have hgrown : c.symbols.Extended [] Γ := .push _ _
  refine ⟨{ c with nextId := c.nextId + 1, symbols := Γ },
    { c with nextId := c.nextId + 1, symbols := Γ.modify ⟨c.symbols.entries.size⟩ _ }, rfl, rfl, ?_, ?_, ?_, ?_⟩
  · exact hgrown.trans (.modify Γ _ (fun _ => rfl) (fun _ => rfl) fun _ _ => rfl)
  · simp [Γ]
  · rw [SymbolTable.name, SymbolTable.entry_modify]
    simp [Γ, SymbolTable.entry_push]
  · rw [SymbolTable.kind, SymbolTable.entry_modify]
    simp [Γ, SymbolTable.entry_push]

end HdlLowering
