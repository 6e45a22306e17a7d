import HdlLowering.Proofs.Symbols.Sets
import HdlLowering.Proofs.Value.Knowledge
import HdlLowering.Proofs.Value.Running

/-!
# Stores

A store gives every symbol a value of its kind. The value of an expression in a store is the one `Expr.eval` finds when the
values of all its symbols are known; where there is none, it may have any value (`Expr.MayBe`). A value found from some
knowledge is the value under all further knowledge (`Expr.eval_stable`).
-/

namespace HdlLowering

open List Expr

/-- A value for every symbol, of the kind of the symbol. -/
@[ext]
structure Store (Γ : SymbolTable) where
  value : Symbol → Int
  fits : ∀ s, (Γ.kind s).normalize (value s) = value s

namespace Store

variable {Γ : SymbolTable} {ss : List Symbol}

instance : Inhabited (Store Γ) := ⟨⟨fun _ => 0, fun s => Kind.normalize_zero (Γ.kind s)⟩⟩

variable (st : Store Γ) (s : Symbol) (v : Int)

def set : Store Γ where
  value t := if t = s then (Γ.kind s).normalize v else st.value t
  fits t := by
    by_cases h : t = s
    · subst h
      simp
    · simp [h, st.fits t]

@[simp] theorem set_value_self : (st.set s v).value s = (Γ.kind s).normalize v := by
  simp [set]

theorem set_value_of_ne {s t : Symbol} (h : t ≠ s) : (st.set s v).value t = st.value t := by
  simp [set, h]

def known (ss : List Symbol) : Bindings := ⟨ss.map fun s => (s, st.value s)⟩

theorem get?_known {s : Symbol} (h : s ∈ ss) : (st.known ss).get? s = some (st.value s) := by
  unfold known Bindings.get?
  induction ss with
  | nil => simp at h
  | cons t ts ih =>
    by_cases hst : s = t
    · subst hst
      simp
    · have hs : (s == t) = false := by simpa using hst
      rw [map_cons, lookup_cons, hs]
      exact ih ((mem_cons.mp h).resolve_left hst)

def Agrees (b : Bindings) : Prop := ∀ e ∈ b.entries, st.value e.1 = e.2

theorem agrees_known (ss : List Symbol) : st.Agrees (st.known ss) := by
  intro e he
  obtain ⟨s, -, rfl⟩ := mem_map.mp he
  rfl

def SameOff (ss : List Symbol) (st st' : Store Γ) : Prop := ∀ s, s ∉ ss → st'.value s = st.value s

theorem SameOff.refl (ss : List Symbol) (st : Store Γ) : SameOff ss st st := fun _ _ => rfl

theorem sameOff_set : SameOff [s] st (st.set s v) := by
  intro t ht
  exact st.set_value_of_ne v (by simpa using ht)

end Store

variable {Γ : SymbolTable} {st : Store Γ} {b : Bindings} {e : Expr}

def Expr.valueIn (st : Store Γ) (e : Expr) : Option Int := e.eval Γ (st.known e.symbols)

/-- A value that an expression may have in a store: its value, or any when it has none. -/
def Expr.MayBe (st : Store Γ) (e : Expr) (v : Int) : Prop := ∀ w, e.valueIn st = some w → v = w

theorem Expr.eval_known (st : Store Γ) (e : Expr) (ss : List Symbol) (h : ∀ s ∈ e.symbols, s ∈ ss) :
    e.eval Γ (st.known ss) = e.valueIn st := by
  apply e.eval_congr
  intro s hs
  rw [st.get?_known (h s hs), st.get?_known hs]

@[simp] theorem Expr.valueIn_ref (st : Store Γ) (l : Loc) (s : Symbol) : (ref l s).valueIn st = some (st.value s) := by
  have h := st.get?_known (mem_singleton_self s)
  simp [valueIn, eval, fit, raw, type, h, st.fits s]

theorem Expr.valueIn_unary (st : Store Γ) (l : Loc) (op : UnaryOp) (x : Expr) :
    (unary l op x).valueIn st = (unary l op x).fit Γ ((x.valueIn st).bind (op.apply (x.width Γ))) := by
  simp only [valueIn, eval, raw, symbols_unary]

theorem Expr.valueIn_binary (st : Store Γ) (l : Loc) (op : BinaryOp) (x y : Expr) :
    (binary l op x y).valueIn st =
      (binary l op x y).fit Γ (op.eval (x.width Γ) (x.valueIn st) (y.valueIn st)) := by
  have hx := eval_known st x (x.symbols ++ y.symbols) fun s hs => mem_append_left _ hs
  have hy := eval_known st y (x.symbols ++ y.symbols) fun s hs => mem_append_right _ hs
  rw [← hx, ← hy]
  simp only [valueIn, eval, raw, symbols_binary]

section

variable (h : st.Agrees b)
include h

theorem Store.Agrees.within_known (ss : List Symbol) : b.WithinOn ss (st.known ss) := by
  intro s hs w hw
  rw [st.get?_known hs]
  exact congrArg some (h _ (mem_of_lookup hw))

theorem Store.Agrees.valueIn {v : Int} (hv : e.eval Γ b = some v) : e.valueIn st = some v :=
  e.eval_sharper (h.within_known e.symbols) v hv

theorem Store.Agrees.eq_of_mayBe {v w : Int} (hv : e.eval Γ b = some v) (hw : e.MayBe st w) : w = v :=
  hw v (h.valueIn hv)

theorem Store.Agrees.mayBe {v : Int} (hv : e.eval Γ b = some v) : e.MayBe st v := by
  intro w hw
  rw [h.valueIn hv] at hw
  exact Option.some.inj hw

end

namespace Undecided

def table : SymbolTable :=
  ⟨#[{ name := "c", id := 1, kind := .uint 2 }, { name := "x", id := 2, kind := .uint 2 },
     { name := "y", id := 3, kind := .uint 2 }, { name := "z", id := 4, kind := .uint 2 }]⟩

/-- `(c ? x : y) && z` -/
def guarded : Expr :=
  .binary default .both (.ternary default (.ofSymbol ⟨0⟩) (.ofSymbol ⟨1⟩) (.ofSymbol ⟨2⟩)) (.ofSymbol ⟨3⟩)

def branches : Bindings := ⟨[(⟨1⟩, 0), (⟨2⟩, 0)]⟩

end Undecided

end HdlLowering
