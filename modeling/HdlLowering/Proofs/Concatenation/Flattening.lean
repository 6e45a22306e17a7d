import HdlLowering.Proofs.Concatenation.Sizes

/-!
# Flattening concatenations

The parts of a concatenation that stands in another take its place, and a single part stands alone.
-/

namespace HdlLowering.Concatenation

open List Expr Bits

variable {Γ : SymbolTable} {ω : Unknowns} {st : Store Γ} {ps ps' : List Expr} {e : Expr}

/-- A concatenation with the parts of those in it; a single part stands alone. -/
def flattened (l : Loc) (ps : List Expr) : Expr :=
  match flatParts ps with
  | [e] => e
  | flat => .cat l flat

theorem flatParts_eq (ps : List Expr) : flatParts ps = ps.flatMap targets := by
  unfold flatParts
  congr 1

theorem flatParts_of_not_nested (h : isNested ps = false) : flatParts ps = ps := by
  rw [flatParts_eq]
  induction ps with
  | nil => rfl
  | cons p ps ih =>
    rw [isNested, any_cons, Bool.or_eq_false_iff] at h
    have hp : p.targets = [p] := by
      cases p <;> first | rfl | nomatch h.1
    rw [flatMap_cons, hp, ih h.2]
    rfl

theorem flattened_of_single {l : Loc} {q : Expr} (h : flatParts ps = [q]) : flattened l ps = q := by
  rw [flattened, h]

theorem flattened_of_not_single {l : Loc} (h : ∀ q, flatParts ps ≠ [q]) : flattened l ps = .cat l (flatParts ps) := by
  unfold flattened
  split
  · rename_i q hq
    exact absurd hq (h q)
  · rfl

theorem flatten?_getD (l : Loc) (ps : List Expr) : (flatten? l ps).getD (.cat l ps) = flattened l ps := by
  unfold flatten?
  split
  · rename_i q hq
    rw [flattened_of_single hq]
    rfl
  · rename_i hsingle
    rw [flattened_of_not_single hsingle]
    split
    · rfl
    · rename_i hnested
      rw [flatParts_of_not_nested (by simpa using hnested)]
      rfl

/-! ## Widths and values of the parts -/

section

variable (h : e.WellSized Γ)
include h

theorem span_targets : span Γ e.targets = (e.width Γ).toInt := by
  rcases cat_or_targets e with ⟨l, ps, rfl⟩ | ⟨-, htargets⟩
  · have hadds := h.2.1
    rw [width, type]
    exact hadds.toInt_widths.symm
  · rw [htargets, span_cons, span_nil, Int.add_zero]

theorem width_targets (h0 : 0 ≤ e.width Γ) : ∀ p ∈ e.targets, 0 ≤ p.width Γ := by
  rcases cat_or_targets e with ⟨l, ps, rfl⟩ | ⟨-, htargets⟩
  · exact h.2.1.width
  · rw [htargets, forall_mem_singleton]
    exact h0

theorem targets_ne_nil : e.targets ≠ [] := by
  rcases cat_or_targets e with ⟨l, ps, rfl⟩ | ⟨-, htargets⟩
  · exact h.1
  · rw [htargets]
    exact cons_ne_nil _ _

theorem join_targets (front : Int) (rest : List (Nat × Int)) :
    join front (fields ω st e.targets ++ rest) = join front ((e.bits Γ, e.value ω st) :: rest) := by
  rcases cat_or_targets e with ⟨l, ps, rfl⟩ | ⟨-, htargets⟩
  · have hadds := h.2.1
    rw [hadds.bits_cat l, hadds.value_cat l, ← count_fields (ω := ω) (Γ := Γ), join_nested]
    rfl
  · rw [htargets]
    rfl

end

theorem symbols_targets (e : Expr) : symbolsList e.targets = e.symbols := by
  rcases cat_or_targets e with ⟨l, ps, rfl⟩ | ⟨-, htargets⟩
  · rfl
  · rw [htargets, symbolsList_cons]
    exact append_nil _

theorem symbolsList_append (es fs : List Expr) : symbolsList (es ++ fs) = symbolsList es ++ symbolsList fs := by
  induction es with
  | nil => rfl
  | cons e es ih => rw [cons_append, symbolsList_cons, ih, symbolsList_cons, append_assoc]

section

variable (h : Forall₂ (Same Γ) ps ps')

include h

theorem span_flatParts : span Γ (flatParts ps') = span Γ ps := by
  rw [flatParts_eq]
  induction h with
  | nil => rfl
  | cons hp _ ih => rw [flatMap_cons, span_append, ih, span_targets hp.sized, span_cons, hp.width]

theorem adds_flatParts (hadds : Adds Γ ps) : Adds Γ (flatParts ps') where
  span := span_flatParts h ▸ hadds.span
  width := by
    have hwidth := hadds.width
    clear hadds
    rw [flatParts_eq]
    induction h with
    | nil => simp
    | cons hp _ ih =>
      rw [forall_mem_cons] at hwidth
      rw [flatMap_cons, forall_mem_append]
      exact ⟨width_targets hp.sized (hp.width ▸ hwidth.1), ih hwidth.2⟩

theorem join_flatParts (front : Int) : join front (fields ω st (flatParts ps')) = join front (fields ω st ps) := by
  rw [flatParts_eq]
  induction h generalizing front with
  | nil => rfl
  | @cons p p' ps ps' hp _ ih =>
    have hfields : fields ω st ((p' :: ps').flatMap targets) =
        fields ω st p'.targets ++ fields ω st (ps'.flatMap targets) := by
      simp [fields]
    rw [hfields, join_targets hp.sized, hp.bits, hp.value]
    exact ih _

theorem parts_flatParts : ∀ q ∈ flatParts ps', q.isCat = false ∧ q.WellSized Γ := by
  rw [flatParts_eq]
  induction h with
  | nil => simp
  | cons hp _ ih =>
    rw [flatMap_cons, forall_mem_append]
    exact ⟨hp.parts, ih⟩

theorem symbols_flatParts : ∀ s ∈ symbolsList (flatParts ps'), s ∈ symbolsList ps := by
  rw [flatParts_eq]
  induction h with
  | nil => exact fun _ h => h
  | cons hp _ ih =>
    rw [flatMap_cons, symbolsList_append, symbols_targets, symbolsList_cons]
    exact mem_append_of_imp hp.symbols ih

theorem flatParts_ne_nil (hne : ps ≠ []) : flatParts ps' ≠ [] := by
  rw [flatParts_eq]
  cases h with
  | nil => exact absurd rfl hne
  | cons hp _ =>
    rw [flatMap_cons]
    exact append_ne_nil_of_left_ne_nil (targets_ne_nil hp.sized) _

theorem single_of_flatParts {q : Expr} (hq : flatParts ps' = [q]) : ∃ p p', ps = [p] ∧ ps' = [p'] ∧ Same Γ p p' ∧
    p'.targets = [q] := by
  rw [flatParts_eq] at hq
  cases h with
  | nil => nomatch hq
  | @cons p p' ps ps' hp hrest =>
    rw [flatMap_cons] at hq
    cases hrest with
    | nil => exact ⟨p, p', rfl, rfl, hp, by simpa using hq⟩
    | cons hnext _ =>
      -- each of two expressions has a part of its own
      have hlength := congrArg length hq
      rw [flatMap_cons] at hlength
      have hfirst := length_pos_of_ne_nil (targets_ne_nil hp.sized)
      have hsecond := length_pos_of_ne_nil (targets_ne_nil hnext.sized)
      simp only [length_append, length_singleton] at hlength
      omega

/-- What comes of a concatenation has the type and the value of the whole. -/
theorem flattened_same (l : Loc) (hsized : (cat l ps).WellSized Γ) : Same Γ (.cat l ps) (flattened l ps') := by
  obtain ⟨hne, hadds, hsingle⟩ := hsized
  have hparts := parts_flatParts h
  by_cases hone : ∃ q, flatParts ps' = [q]
  · obtain ⟨q, hq⟩ := hone
    obtain ⟨p, p', rfl, rfl, hp, htargets⟩ := single_of_flatParts h hq
    obtain ⟨w, hw, hptype⟩ := hsingle p rfl
    obtain ⟨htype, hvalue⟩ := cat_single hw hptype l
    -- the part that is left is the one expression, or the only part of it
    have hself : q.type Γ = p'.type Γ ∧ ∀ ω (st : Store Γ), q.value ω st = p'.value ω st := by
      rcases cat_or_targets p' with ⟨l', qs, rfl⟩ | ⟨-, hown⟩
      · obtain rfl : qs = [q] := htargets
        obtain ⟨w', hw', hqtype⟩ := hp.sized.2.2 q rfl
        obtain ⟨htype', hvalue'⟩ := cat_single hw' hqtype l'
        exact ⟨htype'.symm, fun ω st => (hvalue' ω st).symm⟩
      · obtain rfl := singleton_inj.mp (hown.symm.trans htargets)
        exact ⟨rfl, fun _ _ => rfl⟩
    have hqtype : q.type Γ = (cat l [p]).type Γ := by rw [htype, hself.1, hp.type]
    obtain ⟨hqcat, hqsized⟩ := hparts q (hq ▸ mem_singleton_self q)
    rw [flattened_of_single hq]
    exact {
      type := hqtype
      value ω st := by rw [hself.2, hp.value, hvalue]
      symbols s hs := by
        have hsymbols := symbols_flatParts h s
        rw [hq, symbolsList_cons] at hsymbols
        exact hsymbols (mem_append_left _ hs)
      sized := hqsized
      parts := parts_of_not_cat hqcat hqsized
      cat h := by cases h
      literal h := by cases h
      method h := by cases h
      ref l' s href := by
        refine Or.inr ⟨w, ?_⟩
        rw [← hptype, ← htype, ← hqtype, href, type]
      target h := absurd rfl h }
  · rw [flattened_of_not_single fun q hq => hone ⟨q, hq⟩]
    have hflat := adds_flatParts h hadds
    have hwidths : widths Γ (flatParts ps') = widths Γ ps := by
      rw [← Int64.toInt_inj, hflat.toInt_widths, span_flatParts h, hadds.toInt_widths]
    have hsized : (cat l (flatParts ps')).WellSized Γ :=
      ⟨flatParts_ne_nil h hne, hflat, fun q hq => absurd ⟨q, hq⟩ hone⟩
    exact {
      type := by rw [type, type, hwidths]
      value ω st := by rw [hflat.value_cat, hadds.value_cat, join_flatParts h]
      symbols := symbols_flatParts h
      sized := hsized
      parts := hparts
      cat h := by cases h
      literal h := by cases h
      method h := by cases h
      ref _ _ h := by cases h
      target h := absurd rfl h }

end

end HdlLowering.Concatenation
