import HdlLowering.Proofs.Value.Normalize
import Mathlib.Data.Bool.Basic

/-!
# Knowing more values

Evaluation guesses nothing: a value does not depend on what is not known.
-/

namespace HdlLowering

open BinaryOp List

variable {b b' : Bindings} {x y : Option Int} {Γ : SymbolTable} {ss ts : List Symbol}

/-- Whatever the first value is known to be, the second is. -/
def Sharper (x y : Option Int) : Prop := ∀ v, x = some v → y = some v

theorem Sharper.refl (x : Option Int) : Sharper x x := fun _ h => h

theorem Sharper.none (x : Option Int) : Sharper none x := fun _ h => nomatch h

theorem Sharper.antisymm (h : Sharper x y) (h' : Sharper y x) : x = y := by
  cases x with
  | none =>
    cases y with
    | none => rfl
    | some v => exact h' v rfl
  | some v => exact (h v rfl).symm

theorem Sharper.cases (h : Sharper x y) : x = y ∨ x = Option.none := by
  cases x with
  | none => exact Or.inr rfl
  | some v => exact Or.inl (h v rfl).symm

theorem Sharper.map (h : Sharper x y) (f : Int → Int) : Sharper (x.map f) (y.map f) := by
  rcases h.cases with rfl | rfl
  · exact Sharper.refl _
  · exact Sharper.none _

theorem Sharper.bind (h : Sharper x y) (f : Int → Option Int) : Sharper (x.bind f) (y.bind f) := by
  rcases h.cases with rfl | rfl
  · exact Sharper.refl _
  · exact Sharper.none _

/-- The value of a binary operation is kept when more of its operands are known: a short circuit decides as the operation
itself would. -/
theorem BinaryOp.eval_sharper (op : BinaryOp) (w : Int64) {x x' y y' : Option Int} (hx : Sharper x x') (hy : Sharper y y') :
    Sharper (op.eval w x y) (op.eval w x' y') := by
  intro v h
  rcases hx.cases with rfl | rfl <;> rcases hy.cases with rfl | rfl
  · exact h
  · cases x with
    | none => cases op <;> simp [eval] at h
    | some a =>
      cases op <;> cases y' <;> grind [eval, apply, Bits.ofBool]
  · cases y with
    | none => cases op <;> simp [eval] at h
    | some a =>
      cases op <;> cases x' <;> grind [eval, apply, Bits.ofBool]
  · cases op <;> simp [eval] at h

/-- The value of a conditional is kept when more of it is known: two arms that agree are what either choice gives. -/
theorem ternaryValue_sharper {c c' x x' y y' : Option Int} (hc : Sharper c c') (hx : Sharper x x') (hy : Sharper y y') :
    Sharper (ternaryValue c x y) (ternaryValue c' x' y') := by
  intro v h
  cases c with
  | some c =>
    rw [hc c rfl]
    simp only [ternaryValue] at h ⊢
    split
    · rename_i h0
      rw [if_pos h0] at h
      exact hy v h
    · rename_i h0
      rw [if_neg h0] at h
      exact hx v h
  | none =>
    cases x with
    | none => simp [ternaryValue] at h
    | some a =>
      cases y with
      | none => simp [ternaryValue] at h
      | some b =>
        rw [hx a rfl, hy b rfl]
        simp only [ternaryValue] at h
        split at h
        · rename_i hab
          subst hab
          cases c' <;> simpa [ternaryValue] using h
        · nomatch h

theorem repValue_sharper (w : Int64) {n n' x x' : Option Int} (hn : Sharper n n') (hx : Sharper x x') :
    Sharper (repValue w n x) (repValue w n' x') := by
  intro v h
  rcases hn.cases with rfl | rfl
  · rcases hx.cases with rfl | rfl
    · exact h
    · cases n <;> simp [repValue] at h
  · simp [repValue] at h

theorem indexValue_sharper {x x' i i' : Option Int} (hx : Sharper x x') (hi : Sharper i i') :
    Sharper (indexValue x i) (indexValue x' i') := by
  intro v h
  rcases hx.cases with rfl | rfl
  · rcases hi.cases with rfl | rfl
    · exact h
    · cases x <;> simp [indexValue] at h
  · simp [indexValue] at h

theorem sliceValue_sharper {x x' m m' l l' : Option Int} (hx : Sharper x x') (hm : Sharper m m') (hl : Sharper l l') :
    Sharper (sliceValue x m l) (sliceValue x' m' l') := by
  intro v h
  rcases hx.cases with rfl | rfl
  · rcases hm.cases with rfl | rfl
    · rcases hl.cases with rfl | rfl
      · exact h
      · cases x <;> cases m <;> simp [sliceValue] at h
    · cases x <;> simp [sliceValue] at h
  · simp [sliceValue] at h

variable (e : Expr)

def Expr.symbols : List Symbol := e.subterms.filterMap symbol?

def Expr.symbolsList (es : List Expr) : List Symbol := (subtermsList es).filterMap symbol?

variable (l : Loc)

@[simp] theorem Expr.symbols_ref (s : Symbol) : (ref l s).symbols = [s] := rfl

@[simp] theorem Expr.symbols_unary (op : UnaryOp) (x : Expr) : (unary l op x).symbols = x.symbols := rfl

@[simp] theorem Expr.symbols_binary (op : BinaryOp) (x y : Expr) :
    (binary l op x y).symbols = x.symbols ++ y.symbols := by
  simp [symbols, subterms, filterMap_cons, symbol?]

@[simp] theorem Expr.symbols_ternary (c x y : Expr) :
    (ternary l c x y).symbols = c.symbols ++ x.symbols ++ y.symbols := by
  simp [symbols, subterms, filterMap_cons, symbol?]

@[simp] theorem Expr.symbols_cat (ps : List Expr) : (cat l ps).symbols = symbolsList ps := rfl

@[simp] theorem Expr.symbols_rep (n x : Expr) : (rep l n x).symbols = n.symbols ++ x.symbols := by
  simp [symbols, subterms, filterMap_cons, symbol?]

@[simp] theorem Expr.symbols_index (x i : Expr) : (index l x i).symbols = x.symbols ++ i.symbols := by
  simp [symbols, subterms, filterMap_cons, symbol?]

@[simp] theorem Expr.symbols_slice (x m n : Expr) :
    (slice l x m n).symbols = x.symbols ++ m.symbols ++ n.symbols := by
  simp [symbols, subterms, filterMap_cons, symbol?]

@[simp] theorem Expr.symbols_select (x : Expr) (f : String) : (select l x f).symbols = x.symbols := rfl

@[simp] theorem Expr.symbols_call (f : Expr) (as : List Expr) : (call l f as).symbols = f.symbols ++ symbolsList as := by
  simp [symbols, symbolsList, subterms, filterMap_cons, symbol?]

@[simp] theorem Expr.symbolsList_cons (es : List Expr) : symbolsList (e :: es) = e.symbols ++ symbolsList es := by
  simp [symbols, symbolsList, subtermsList]

/-- What the first bindings say of some symbols, the second say too. -/
def Bindings.WithinOn (ss : List Symbol) (b b' : Bindings) : Prop := ∀ s ∈ ss, Sharper (b.get? s) (b'.get? s)

theorem Bindings.WithinOn.left (h : b.WithinOn (ss ++ ts) b') : b.WithinOn ss b' :=
  fun s hs => h s (mem_append_left _ hs)

theorem Bindings.WithinOn.right (h : b.WithinOn (ss ++ ts) b') : b.WithinOn ts b' :=
  fun s hs => h s (mem_append_right _ hs)

mutual
theorem Expr.raw_sharper : ∀ e : Expr, b.WithinOn e.symbols b' → Sharper (e.raw Γ b) (e.raw Γ b')
  | .ref l s, h => h s (by simp)
  | .num .., _ => Sharper.refl _
  | .int .., _ => Sharper.refl _
  | .unary l op x, h => by
    simp only [raw]
    exact ((raw_sharper x h).map _).bind _
  | .binary l op x y, h => by
    rw [symbols_binary] at h
    simp only [raw]
    exact eval_sharper op _ ((raw_sharper x h.left).map _) ((raw_sharper y h.right).map _)
  | .ternary l c x y, h => by
    rw [symbols_ternary] at h
    simp only [raw]
    exact ternaryValue_sharper ((raw_sharper c h.left.left).map _) ((raw_sharper x h.left.right).map _)
      ((raw_sharper y h.right).map _)
  | .cat l ps, h => by
    simp only [raw]
    exact rawParts_sharper ps 0 h
  | .rep l n x, h => by
    rw [symbols_rep] at h
    simp only [raw]
    exact repValue_sharper _ ((raw_sharper n h.left).map _) ((raw_sharper x h.right).map _)
  | .index l x i, h => by
    rw [symbols_index] at h
    simp only [raw]
    split
    · exact Sharper.none _
    · exact indexValue_sharper ((raw_sharper x h.left).map _) ((raw_sharper i h.right).map _)
  | .slice l x m n, h => by
    rw [symbols_slice] at h
    simp only [raw]
    exact sliceValue_sharper ((raw_sharper x h.left.left).map _) ((raw_sharper m h.left.right).map _)
      ((raw_sharper n h.right).map _)
  | .select .., _ => Sharper.none _
  | .call .., _ => Sharper.none _

theorem Expr.rawParts_sharper :
    ∀ (ps : List Expr) (acc : Int), b.WithinOn (symbolsList ps) b' →
      Sharper (rawParts Γ b acc ps) (rawParts Γ b' acc ps)
  | [], _, _ => Sharper.refl _
  | p :: ps, acc, h => by
    rw [symbolsList_cons] at h
    have hp : Sharper (p.fit Γ (p.raw Γ b)) (p.fit Γ (p.raw Γ b')) := (raw_sharper p h.left).map _
    intro v hv
    simp only [rawParts] at hv ⊢
    split at hv
    · rename_i x hx
      rw [hp x hx]
      by_cases hw : p.width Γ = 0
      · simp [hw] at hv
      · simp only [hw, if_false] at hv ⊢
        exact rawParts_sharper ps _ h.right v hv
    · nomatch hv
end

/-- An expression keeps the value it has when more values of symbols become known. -/
theorem Expr.eval_sharper (h : b.WithinOn e.symbols b') : Sharper (e.eval Γ b) (e.eval Γ b') :=
  (raw_sharper e h).map _

/-- The value depends on the symbols of the expression only. -/
theorem Expr.eval_congr (h : ∀ s ∈ e.symbols, b.get? s = b'.get? s) : e.eval Γ b = e.eval Γ b' := by
  apply Sharper.antisymm
  · exact e.eval_sharper fun s hs => by rw [h s hs]; exact Sharper.refl _
  · exact e.eval_sharper fun s hs => by rw [h s hs]; exact Sharper.refl _

end HdlLowering
