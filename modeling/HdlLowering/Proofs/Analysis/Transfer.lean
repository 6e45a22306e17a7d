import HdlLowering.Proofs.Execution.Frame

/-!
# The steps of the analysis are sound

A store that agrees with the bindings before a step agrees with the bindings after it: recording an assigned value, forgetting
symbols, keeping what two ways of control agree on, and learning from a condition or from the arm of a case statement that is
taken.
-/

namespace HdlLowering

open List Expr Bindings Bits Kind

variable {Γ : SymbolTable} {st st' : Store Γ} {b b' : Bindings} {x y : Expr} {v : Int} {l : Loc} {truth : Bool} {c : Expr}
  {ss : List Symbol}

/-! ## Recording, forgetting and joining -/

section

variable (h : st.Agrees b)
include h

theorem Store.Agrees.bind {s : Symbol} (hv : st.value s = (Γ.kind s).normalize v) : st.Agrees (b.bind Γ s v) := by
  intro e he
  simp only [Bindings.bind, Bindings.set, Bindings.erase, normalize_underlying, mem_cons, mem_filter] at he
  rcases he with rfl | ⟨he, -⟩
  · exact hv
  · exact h e he

theorem Store.Agrees.set_bind (s : Symbol) (v : Int) : (st.set s v).Agrees (b.bind Γ s v) := by
  intro e he
  simp only [Bindings.bind, Bindings.set, Bindings.erase, normalize_underlying, mem_cons, mem_filter] at he
  rcases he with rfl | ⟨he, hne⟩
  · exact st.set_value_self s v
  · rw [st.set_value_of_ne v (by simpa using hne)]
    exact h e he

theorem Store.Agrees.drop (hs : Store.SameOff ss st st') : st'.Agrees (b.drop ss) := by
  intro e he
  simp only [Bindings.drop, mem_filter] at he
  obtain ⟨he, hne⟩ := he
  rw [hs e.1 (by simpa using hne)]
  exact h e he

theorem Store.Agrees.of_sameOff (hs : SameOff ss st st') (hb : ∀ e ∈ b.entries, e.1 ∉ ss) : st'.Agrees b := by
  intro e he
  rw [hs e.1 (hb e he)]
  exact h e he

theorem Store.Agrees.of_subset (hb : ∀ e ∈ b'.entries, e ∈ b.entries) : st.Agrees b' :=
  fun e he => h e (hb e he)

theorem Store.Agrees.meet?_left (o : Option Bindings) : ∃ m, meet? (some b) o = some m ∧ st.Agrees m := by
  cases o with
  | none => exact ⟨b, rfl, h⟩
  | some c => exact ⟨b.meet c, rfl, h.of_subset fun e he => (mem_filter.mp he).1⟩

theorem Store.Agrees.meet?_right (o : Option Bindings) : ∃ m, meet? o (some b) = some m ∧ st.Agrees m := by
  cases o with
  | none => exact ⟨b, rfl, h⟩
  | some c =>
    refine ⟨c.meet b, rfl, ?_⟩
    intro e he
    have hb : b.get? e.1 = some e.2 := by simpa using (mem_filter.mp he).2
    exact h _ (mem_of_lookup hb)

end

/-! ## Learning from conditions -/

def Expr.MayTurnOut (st : Store Γ) (c : Expr) (truth : Bool) : Prop := ∀ w, c.valueIn st = some w → (w != 0) = truth

theorem Expr.MayBe.mayTurnOut (h : c.MayBe st v) (hv : (v != 0) = truth) : c.MayTurnOut st truth := by
  intro w hw
  rw [← h w hw, hv]

theorem Expr.MayTurnOut.not {x : Expr} (h : (unary l .not x).MayTurnOut st truth) : x.MayTurnOut st (!truth) := by
  intro w hw
  have hv : (unary l .not x).valueIn st = some (ofBool (w == 0)) := by
    simp [valueIn_unary, hw, UnaryOp.apply, fit, type]
  rw [← h _ hv]
  by_cases h0 : w = 0 <;> simp [h0, ofBool]

theorem Expr.MayTurnOut.compared {op : BinaryOp} (h : (binary l op x y).MayTurnOut st (op = .eq)) (hop : op = .eq ∨ op = .ne)
    {v w : Int} (hv : x.valueIn st = some v) (hw : y.valueIn st = some w) : v = w := by
  by_contra hne
  have he : (binary l op x y).valueIn st = some (ofBool (op = .ne)) := by
    rcases hop with rfl | rfl <;> simp [valueIn_binary, hv, hw, BinaryOp.eval, BinaryOp.apply, fit, type, bne, beq_false_of_ne hne]
  have := h _ he
  rcases hop with rfl | rfl <;> simp [ofBool] at this

theorem Expr.MayTurnOut.both (h : (binary l .both x y).MayTurnOut st true) :
    x.MayTurnOut st true ∧ y.MayTurnOut st true := by
  have hv := valueIn_binary st l .both x y
  constructor
  · intro w hw
    by_contra h0
    have hz : w = 0 := by simpa using h0
    subst hz
    rw [hw] at hv
    have := h 0 (by rw [hv]; simp [BinaryOp.eval, fit, type])
    simp at this
  · intro w hw
    by_contra h0
    have hz : w = 0 := by simpa using h0
    subst hz
    rw [hw] at hv
    have he : BinaryOp.both.eval (x.width Γ) (x.valueIn st) (some 0) = some 0 := by
      unfold BinaryOp.eval
      split <;> simp_all
    have := h 0 (by rw [hv, he]; simp [fit])
    simp at this

theorem Expr.MayTurnOut.either (h : (binary l .either x y).MayTurnOut st false) :
    x.MayTurnOut st false ∧ y.MayTurnOut st false := by
  have hv := valueIn_binary st l .either x y
  have hone : (uint 1).normalize 1 = 1 := by decide
  constructor
  · intro w hw
    by_contra h0
    have hz : w ≠ 0 := by simpa using h0
    rw [hw] at hv
    have := h 1 (by
      rw [hv]
      cases y.valueIn st <;> simp [BinaryOp.eval, BinaryOp.apply, fit, type, ofBool, hz, hone])
    simp at this
  · intro w hw
    by_contra h0
    have hz : w ≠ 0 := by simpa using h0
    rw [hw] at hv
    have := h 1 (by
      rw [hv]
      cases x.valueIn st <;> simp [BinaryOp.eval, BinaryOp.apply, fit, type, ofBool, hz, hone])
    simp at this

theorem Store.Agrees.refineEq (h : st.Agrees b)
    (hxy : ∀ v w, x.valueIn st = some v → y.valueIn st = some w → v = w) : st.Agrees (refineEq Γ x y b) := by
  -- a plain reference has the value that the store holds, so what the other side is known to be is that value
  have key : ∀ (s : Symbol) (v : Int), st.value s = v → st.Agrees (b.bind Γ s v) := by
    rintro s v rfl
    exact h.bind (st.fits s).symm
  have hsym : ∀ (e : Expr) (s : Symbol), e.symbol? = some s → e.valueIn st = some (st.value s) := by
    intro e s he
    cases e <;> simp_all [symbol?]
  unfold HdlLowering.refineEq
  split
  · rename_i s v hs hv
    exact key s v (hxy _ _ (hsym x s hs) (h.valueIn hv))
  · split
    · rename_i s v hs hv
      exact key s v (hxy _ _ (h.valueIn hv) (hsym y s hs)).symm
    · exact h

/-- What is learnt from a condition holds of the stores in which it comes out that way. -/
theorem Store.Agrees.refine (h : st.Agrees b) (hc : c.MayTurnOut st truth) : st.Agrees (refine Γ c truth b) := by
  fun_induction HdlLowering.refine Γ c truth b with
  | case1 l x truth b ih => exact ih h hc.not
  | case2 l x y b => exact h.refineEq fun v w hv hw => hc.compared (.inl rfl) hv hw
  | case3 l x y b => exact h.refineEq fun v w hv hw => hc.compared (.inr rfl) hv hw
  | case4 l x y b ihx ihy => exact ihy (ihx h hc.both.1) hc.both.2
  | case5 l x y b ihx ihy => exact ihy (ihx h hc.either.1) hc.either.2
  | case6 l s b hw =>
    refine h.bind (eq_normalize_one hw (st.fits s) ?_)
    simpa using hc _ (valueIn_ref st l s)
  | case7 l s b => exact h
  | case8 l s b =>
    refine h.bind ?_
    simpa using hc _ (valueIn_ref st l s)
  | case9 => exact h

/-! ## The arm that is taken -/

theorem Store.Agrees.branches (h : st.Agrees b) (hc : c.eval Γ b = some v) {P Q : Prop} :
    (∃ w, c.MayBe st w ∧ ((w ≠ 0 ∧ P) ∨ (w = 0 ∧ Q))) ↔ if v ≠ 0 then P else Q := by
  constructor
  · rintro ⟨w, hw, hPQ⟩
    obtain rfl := h.eq_of_mayBe hc hw
    grind
  · intro hPQ
    exact ⟨v, h.mayBe hc, by grind⟩

/-- A value that equals a known condition hits the arm, and one that differs from all of them misses it. -/
theorem Store.Agrees.condsMatch (h : st.Agrees b) (v : Int) (conds : List Expr) :
    (condsMatch Γ b v conds = some true → st.Hits v conds ∧ ¬ st.Misses v conds) ∧
      (condsMatch Γ b v conds = some false → st.Misses v conds ∧ ¬ st.Hits v conds) := by
  fun_induction HdlLowering.condsMatch Γ b v conds with
  | case1 => simp [Hits, Misses]
  | case2 c cs hc => simp
  | case3 c cs hc =>
    refine ⟨fun _ => ⟨⟨c, by simp, h.mayBe hc⟩, fun hmiss => ?_⟩, nofun⟩
    obtain ⟨x, hx, hne⟩ := hmiss c (by simp)
    exact hne (h.eq_of_mayBe hc hx)
  | case4 c cs x hc hne ih =>
    constructor
    · intro hm
      obtain ⟨⟨c', hmem, hv⟩, hmiss⟩ := ih.1 hm
      exact ⟨⟨c', by simp [hmem], hv⟩, fun h' => hmiss fun c' hc' => h' c' (by simp [hc'])⟩
    · intro hm
      obtain ⟨hmiss, hhit⟩ := ih.2 hm
      constructor
      · intro c' hmem
        rcases mem_cons.mp hmem with rfl | hmem
        · exact ⟨x, h.mayBe hc, hne⟩
        · exact hmiss c' hmem
      · rintro ⟨c', hmem, hv⟩
        rcases mem_cons.mp hmem with rfl | hmem
        · exact hne (h.eq_of_mayBe hc hv).symm
        · exact hhit ⟨c', hmem, hv⟩

theorem Store.Agrees.clauseEntry (h : st.Agrees b) {x : Expr} (hx : x.MayBe st v) {conds : List Expr}
    (hit : st.Hits v conds) : st.Agrees (clauseEntry Γ x conds b) := by
  unfold HdlLowering.clauseEntry
  split
  · rename_i c
    obtain ⟨c', hmem, hc⟩ := hit
    obtain rfl := mem_singleton.mp hmem
    refine h.refineEq fun a w ha hw => ?_
    rw [← hx a ha, ← hc w hw]
  · exact h

end HdlLowering
