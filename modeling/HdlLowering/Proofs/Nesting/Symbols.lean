import HdlLowering.Lowering.Nesting
import HdlLowering.Proofs.Symbols.Steps
import HdlLowering.Proofs.Symbols.Table
import HdlLowering.Proofs.Value.Normalize

/-!
# What lifting keeps of a symbol table

Lifting adds symbols to the table and changes others in place. `Stays` says what is left of the symbols that were there: numbers
and what they were lifted from, names and kinds of all but the entities, where outputs may become wires, and the recorded values
of all but some.
-/

namespace HdlLowering

open SymbolTable ContextM

variable {k k' : Kind}

theorem SymbolTable.modify_push (Γ : SymbolTable) (e : SymbolEntry) (f : SymbolEntry → SymbolEntry) :
    (Γ.push e).2.modify ⟨Γ.entries.size⟩ f = (Γ.push (f e)).2 := by
  simp only [push, modify, mk.injEq]
  apply Array.ext
  · simp
  · intro i hi hi'
    rw [Array.getElem_modify, Array.getElem_push, Array.getElem_push]
    split
    · subst_vars
      simp
    · rename_i hne
      rw [Array.size_push] at hi'
      rw [dif_pos (by omega), dif_pos (by omega)]

namespace Nesting

/-! ## Kinds up to storage -/

def isEntity : Kind → Bool
  | .entity _ => true
  | _ => false

def exported (k : Kind) : Bool := k.isPort || k.isConst

@[simp] theorem asWire_asWire (k : Kind) : asWire (asWire k) = asWire k := by
  cases k <;> rfl

theorem congr_asWire {α : Type} {g : Kind → α} (hg : ∀ k, g (asWire k) = g k) (h : asWire k = asWire k') :
    g k = g k' := by rw [← hg, h, hg]

section

variable (h : asWire k = asWire k')
include h

theorem isConst_congr : k.isConst = k'.isConst :=
  congr_asWire (fun k => by cases k <;> rfl) h

theorem isExclusive_congr : isExclusive k = isExclusive k' :=
  congr_asWire (fun k => by cases k <;> rfl) h

theorem exported_congr : exported k = exported k' :=
  congr_asWire (fun k => by cases k <;> rfl) h

end

theorem exported_of_isEntity (h : isEntity k = true) : exported k = false ∧ k.isConst = false := by
  cases k <;> first | exact ⟨rfl, rfl⟩ | cases h

theorem isEntity_asWire (k : Kind) : isEntity (asWire k) = isEntity k := by
  cases k <;> rfl

theorem ports_asWire (k : Kind) : (asWire k).ports = k.ports := by
  cases k <;> rfl

theorem asWire_of_not_exclusive (h : isExclusive k = false) : asWire k = k := by
  cases k <;> first | rfl | cases h

/-! ## What steps keep -/

/-- How an entry of the table may change: the entities `S` may get other names and more ports, the symbols `W` may become
wires, and the values `V` may be recorded. -/
structure Revised (S W : Symbol → Prop) (V : Symbol → Option Expr → Prop) (x : Symbol) (e e' : SymbolEntry) : Prop where
  id : e'.id = e.id
  lifted : (e'.attrs.getD {}).liftedFrom = (e.attrs.getD {}).liftedFrom
  name : ¬S x → e'.name = e.name
  kind : ¬S x → e'.kind = e.kind ∨ (W x ∧ e'.kind = asWire e.kind)
  entity : isEntity e.kind = true → isEntity e'.kind = true
  ports : ∀ p ∈ e.kind.ports, p ∈ e'.kind.ports
  init : (e'.attrs.getD {}).init = (e.attrs.getD {}).init ∨ V x (e'.attrs.getD {}).init

/-- What a step leaves of a compilation: its options, and the symbols that were there, up to revisions. -/
structure Stays (S W : Symbol → Prop) (V : Symbol → Option Expr → Prop) (c c' : Context) : Prop where
  size : c.symbols.entries.size ≤ c'.symbols.entries.size
  entry : ∀ x, x.index < c.symbols.entries.size → Revised S W V x (c.symbols.entry x) (c'.symbols.entry x)
  separator : c'.separator = c.separator
  checkTrees : c'.checkTrees = c.checkTrees

variable {S S' W W' : Symbol → Prop} {V V' : Symbol → Option Expr → Prop} {c c' c'' : Context} {x : Symbol}

namespace Revised

variable {e e' e'' : SymbolEntry}

theorem refl (x : Symbol) (e : SymbolEntry) : Revised S W V x e e :=
  ⟨rfl, rfl, fun _ => rfl, fun _ => Or.inl rfl, fun h => h, fun _ h => h, Or.inl rfl⟩

theorem trans (h : Revised S W V x e e') (h' : Revised S W V x e' e'') : Revised S W V x e e'' where
  id := h'.id.trans h.id
  lifted := h'.lifted.trans h.lifted
  name hS := (h'.name hS).trans (h.name hS)
  kind hS := by
    rcases h'.kind hS with hk' | ⟨hW, hk'⟩ <;> rw [hk']
    · exact h.kind hS
    · rcases h.kind hS with hk | ⟨-, hk⟩ <;> rw [hk]
      · exact Or.inr ⟨hW, rfl⟩
      · exact Or.inr ⟨hW, asWire_asWire _⟩
  entity he := h'.entity (h.entity he)
  ports p hp := h'.ports p (h.ports p hp)
  init := by
    rcases h'.init with hi | hi
    · rw [hi]
      exact h.init
    · exact Or.inr hi

end Revised

namespace Stays

theorem refl (S W : Symbol → Prop) (V : Symbol → Option Expr → Prop) (c : Context) : Stays S W V c c :=
  ⟨Nat.le_refl _, fun _ _ => .refl _ _, rfl, rfl⟩

section

variable (h : Stays S W V c c')
include h

theorem mono (hS : ∀ x, S x → S' x) (hW : ∀ x, W x → W' x) (hV : ∀ x i, V x i → V' x i) : Stays S' W' V' c c' where
  size := h.size
  entry x hx := by
    have he := h.entry x hx
    exact ⟨he.id, he.lifted, fun hS' => he.name fun h => hS' (hS x h), fun hS' =>
      (he.kind fun h => hS' (hS x h)).imp_right fun hk => ⟨hW x hk.1, hk.2⟩, he.entity, he.ports, he.init.imp_right (hV x _)⟩
  separator := h.separator
  checkTrees := h.checkTrees

/-- What is left after two steps. -/
theorem trans (h' : Stays S W V c' c'') : Stays S W V c c'' where
  size := Nat.le_trans h.size h'.size
  entry x hx := (h.entry x hx).trans (h'.entry x (Nat.lt_of_lt_of_le hx h.size))
  separator := h'.separator.trans h.separator
  checkTrees := h'.checkTrees.trans h.checkTrees

variable (hx : x.index < c.symbols.entries.size)
include hx

theorem listed : x.index < c'.symbols.entries.size :=
  Nat.lt_of_lt_of_le hx h.size

theorem id : c'.symbols.id x = c.symbols.id x :=
  (h.entry x hx).id

theorem liftedFrom : c'.symbols.liftedFrom x = c.symbols.liftedFrom x :=
  (h.entry x hx).lifted

section

variable (hS : ¬S x)
include hS

theorem name : c'.symbols.name x = c.symbols.name x :=
  (h.entry x hx).name hS

theorem kind : c'.symbols.kind x = c.symbols.kind x ∨ (W x ∧ c'.symbols.kind x = asWire (c.symbols.kind x)) :=
  (h.entry x hx).kind hS

theorem kind_eq (hW : ¬W x) : c'.symbols.kind x = c.symbols.kind x :=
  (h.kind hx hS).resolve_right fun hk => hW hk.1

theorem asWire_kind : asWire (c'.symbols.kind x) = asWire (c.symbols.kind x) := by
  rcases h.kind hx hS with hk | ⟨-, hk⟩ <;> rw [hk]
  exact asWire_asWire _

theorem wire (hk : c.symbols.kind x = asWire k) : c'.symbols.kind x = asWire k := by
  rcases h.kind hx hS with hk' | ⟨-, hk'⟩ <;> rw [hk', hk]
  exact asWire_asWire k

end

theorem init : c'.symbols.init x = c.symbols.init x ∨ V x (c'.symbols.init x) :=
  (h.entry x hx).init

end

theorem push (S W : Symbol → Prop) (V : Symbol → Option Expr → Prop) (c : Context) (e : SymbolEntry) (id : Int64) :
    Stays S W V c { c with nextId := id, symbols := (c.symbols.push e).2 } where
  size := by simp
  entry x hx := by
    rw [entry_push, if_neg (Nat.ne_of_lt hx)]
    exact .refl x _
  separator := rfl
  checkTrees := rfl

theorem modify {t : Symbol} {f : SymbolEntry → SymbolEntry} (h : Revised S W V t (c.symbols.entry t) (f (c.symbols.entry t))) :
    Stays S W V c { c with symbols := c.symbols.modify t f } where
  size := by simp
  entry x hx := by
    rw [entry_modify]
    split
    · rename_i hxt
      rw [hxt.1]
      exact h
    · exact .refl x _
  separator := rfl
  checkTrees := rfl

end Stays

/-! ## Changes of one symbol -/

theorem stays_setInit {init : Option Expr} (hV : V x init) (h : setInit x init c = .ok () c') :
    Stays S W V c c' ∧ c'.reporter = c.reporter := by
  cases h
  exact ⟨.modify ⟨rfl, rfl, fun _ => rfl, fun _ => Or.inl rfl, fun h => h, fun _ h => h, Or.inr hV⟩, rfl⟩

theorem stays_rename {name : String} (hS : S x) (h : rename x name c = .ok () c') : Stays S W V c c' := by
  cases h
  exact .modify ⟨rfl, rfl, fun h => absurd hS h, fun _ => Or.inl rfl, fun h => h, fun _ h => h, Or.inl rfl⟩

theorem stays_asWire (hW : W x) (h : setKind x (asWire (c.symbols.kind x)) c = .ok () c') : Stays S W V c c' := by
  cases h
  refine .modify ⟨rfl, rfl, fun _ => rfl, fun _ => Or.inr ⟨hW, rfl⟩, fun h => ?_, fun p hp => ?_, Or.inl rfl⟩
  · exact (isEntity_asWire _).trans h
  · exact (ports_asWire _).symm ▸ hp

theorem addPorts_ok (x : Symbol) (ports : List Symbol) (c : Context) : ∃ c', addPorts x ports c = .ok () c' ∧
    (∀ {S W V}, S x → Stays S W V c c') ∧ c'.reporter = c.reporter ∧ (∀ y, c'.symbols.name y = c.symbols.name y) ∧
    (x.index < c.symbols.entries.size → ∀ q ∈ ports, q ∈ c'.symbols.entityPorts x) := by
  unfold addPorts
  split
  · rename_i hempty
    obtain rfl : ports = [] := by simpa using hempty
    exact ⟨c, rfl, fun _ => .refl _ _ _ c, rfl, fun _ => rfl, fun _ => by simp⟩
  · refine ⟨_, rfl, fun hS => .modify ⟨rfl, rfl, fun h => absurd hS h, fun h => absurd hS h, fun _ => rfl, fun q hq => ?_,
      Or.inl rfl⟩, rfl, fun y => ?_, fun hx q hq => ?_⟩
    · exact List.mem_append_left _ hq
    · change (c.symbols.modify x _).name y = _
      rw [name, entry_modify]
      split
      · rename_i hy
        rw [hy.1, name]
      · rfl
    · change q ∈ (c.symbols.modify x _).entityPorts x
      rw [entityPorts, kind, entry_modify, if_pos ⟨rfl, hx⟩]
      exact List.mem_append_right _ hq

/-! ## New symbols -/

def withSymbol (c : Context) (e : SymbolEntry) : Context :=
  { c with nextId := c.nextId + 1, symbols := (c.symbols.push e).2 }

theorem modify_withSymbol (c : Context) (e : SymbolEntry) (f : SymbolEntry → SymbolEntry) :
    modifySymbols (·.modify ⟨c.symbols.entries.size⟩ f) (withSymbol c e) = .ok () (withSymbol c (f e)) := by
  change EStateM.Result.ok () { withSymbol c e with symbols := (c.symbols.push e).2.modify ⟨c.symbols.entries.size⟩ f } = _
  rw [modify_push]
  rfl

def withAlias (c : Context) (x : Symbol) (kind : Kind) : Context :=
  withSymbol c { c.symbols.entry x with id := c.nextId, kind, attrs := some { liftedFrom := some x, role := .lifted } }

theorem stays_withAlias (S W : Symbol → Prop) (V : Symbol → Option Expr → Prop) (c : Context) (x : Symbol) (k : Kind) :
    Stays S W V c (withAlias c x k) := .push S W V c _ _

theorem symbolLike_eq (x : Symbol) (c : Context) : symbolLike x c = .ok ⟨c.symbols.entries.size⟩
    (withSymbol c { c.symbols.entry x with id := c.nextId, attrs := none }) := by
  have hclone : symbolLike x c = .ok ⟨c.symbols.entries.size⟩ (withSymbol c
      { c.symbols.entry x with id := c.nextId, kind := (c.symbols.entry x).kind.clone, attrs := none }) := rfl
  rw [hclone, Kind.clone_eq]

/-- A symbol made since, as an alias of another and with a kind. -/
structure Makes (c c' : Context) (x a : Symbol) (k : Kind) : Prop where
  made : c.symbols.entries.size ≤ a.index
  listed : a.index < c'.symbols.entries.size
  lifted : c'.symbols.liftedFrom a = some x
  name : c'.symbols.name a = c.symbols.name x
  kind : c'.symbols.kind a = k

theorem makes_withAlias (c : Context) (x : Symbol) (k : Kind) : Makes c (withAlias c x k) x ⟨c.symbols.entries.size⟩ k := by
  refine ⟨Nat.le_refl _, by simp [withAlias, withSymbol], ?_, ?_, ?_⟩
  · simp [withAlias, withSymbol, liftedFrom, attrs, entry_push]
  · simp [withAlias, withSymbol, name, entry_push]
  · simp [withAlias, withSymbol, kind, entry_push]

namespace Makes

variable {a : Symbol} {k : Kind}

theorem later (h : Makes c c' x a k) (hstays : Stays S W V c' c'') (hS : ¬S a) (hW : ¬W a) : Makes c c'' x a k where
  made := h.made
  listed := hstays.listed h.listed
  lifted := (hstays.liftedFrom h.listed).trans h.lifted
  name := (hstays.name h.listed hS).trans h.name
  kind := (hstays.kind_eq h.listed hS hW).trans h.kind

theorem earlier (h : Makes c' c'' x a k) (hstays : Stays S W V c c') (hx : x.index < c.symbols.entries.size) (hS : ¬S x) :
    Makes c c'' x a k where
  made := Nat.le_trans hstays.size h.made
  listed := h.listed
  lifted := h.lifted
  name := h.name.trans (hstays.name hx hS)
  kind := h.kind

end Makes

end Nesting

end HdlLowering
