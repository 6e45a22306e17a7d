import HdlLowering.Netlist.Tables
import HdlLowering.Proofs.Concatenation.Flattening

/-!
# Flat expressions

`Expr.flat` flattens every concatenation in an expression. None is left in another or of a single part (`unnested_flat`).
-/

namespace HdlLowering

open List Concatenation

/-! ## Flattening all concatenations -/

mutual
def Expr.flat : Expr → Expr
  | .ref l s => .ref l s
  | .num l signed v => .num l signed v
  | .int l signed w v => .int l signed w v
  | .unary l op x => .unary l op x.flat
  | .binary l op x y => .binary l op x.flat y.flat
  | .ternary l c x y => .ternary l c.flat x.flat y.flat
  | .cat l ps => flattened l (flatList ps)
  | .rep l n x => .rep l n.flat x.flat
  | .index l x i => .index l x.flat i.flat
  | .slice l x m n => .slice l x.flat m.flat n.flat
  | .select l x f => .select l x.flat f
  | .call l f as => .call l f.flat (flatList as)

def Expr.flatList : List Expr → List Expr
  | [] => []
  | e :: es => e.flat :: flatList es
end

variable (es : List Expr)

theorem Expr.flatList_eq : flatList es = es.map flat := by
  induction es with
  | nil => rfl
  | cons e es ih => rw [flatList, ih, map_cons]

/-- An expression that takes no field of, and does not call, a concatenation of which flattening leaves a single part. -/
def Expr.Plain : Expr → Prop
  | .select _ b _ => b.isCat = true → b.flat.isCat = true
  | .call _ f _ => f.isCat = true → f.flat.isCat = true
  | _ => True

instance (e : Expr) : Decidable e.Plain :=
  match e with
  | .select _ b _ => inferInstanceAs (Decidable (b.isCat = true → b.flat.isCat = true))
  | .call _ f _ => inferInstanceAs (Decidable (f.isCat = true → f.flat.isCat = true))
  | .ref .. | .num .. | .int .. | .unary .. | .binary .. | .ternary .. | .cat .. | .rep .. | .index .. | .slice .. => isTrue trivial

/-- An expression that is no concatenation with another in it or of a single part. -/
def Expr.Unnested : Expr → Prop
  | .cat _ ps => isNested ps = false ∧ ∀ q, ps ≠ [q]
  | _ => True

def Connect.flat (c : Connect) : Connect := ⟨c.loc, c.source.flat, c.sinks.map Expr.flat⟩

namespace Concatenation

open Expr

variable {Γ : SymbolTable} {e : Expr} {ps : List Expr} {l : Loc}

theorem isCat_flat (h : e.isCat = false) : e.flat.isCat = false := by
  cases e <;> first | rfl | nomatch h

theorem operands_flat (h : e.isCat = false) : e.flat.operands = e.operands.map flat := by
  cases e with
  | cat l ps => nomatch h
  | _ => simp [flat, operands, flatList_eq]

theorem flattened_cases (l : Loc) (ps : List Expr) : (∃ q, flatParts ps = [q] ∧ flattened l ps = q) ∨
    ((∀ q, flatParts ps ≠ [q]) ∧ flattened l ps = .cat l (flatParts ps)) := by
  by_cases hone : ∃ q, flatParts ps = [q]
  · obtain ⟨q, hq⟩ := hone
    exact Or.inl ⟨q, hq, flattened_of_single hq⟩
  · have hnone : ∀ q, flatParts ps ≠ [q] := fun q hq => hone ⟨q, hq⟩
    exact Or.inr ⟨hnone, flattened_of_not_single hnone⟩

theorem mem_flatParts {q : Expr} : q ∈ flatParts ps ↔ ∃ p ∈ ps, q ∈ p.targets := by
  rw [flatParts_eq, mem_flatMap]

theorem subterms_targets {p q x : Expr} (hq : q ∈ p.targets) (hx : x ∈ q.subterms) : x ∈ p.subterms := by
  rcases cat_or_targets p with ⟨l, qs, rfl⟩ | ⟨-, htargets⟩
  · exact mem_subterms_of_operand (e := .cat l qs) hq hx
  · rw [htargets, mem_singleton] at hq
    exact hq ▸ hx

/-! ## Roots and signals -/

theorem flattened_flatMap {α : Type} {f : Expr → List α} (hcat : ∀ l ps, f (.cat l ps) = ps.flatMap f) (l : Loc) (ps : List Expr) :
    f (flattened l ps) = ps.flatMap f := by
  have hparts : (flatParts ps).flatMap f = ps.flatMap f := by
    rw [flatParts_eq, flatMap_assoc]
    refine flatMap_congr fun p _ => ?_
    rcases cat_or_targets p with ⟨l, qs, rfl⟩ | ⟨-, htargets⟩
    · exact (hcat l qs).symm
    · rw [htargets, flatMap_singleton]
  rcases flattened_cases l ps with ⟨q, hq, hflat⟩ | ⟨-, hflat⟩
  · rw [hflat, ← hparts, hq, flatMap_singleton]
  · rw [hflat, hcat, hparts]

theorem rootsList_eq : rootsList es = es.flatMap roots := by
  induction es with
  | nil => rfl
  | cons e es ih => rw [rootsList, ih, flatMap_cons]

theorem roots_cat (l : Loc) (ps : List Expr) : (cat l ps).roots = ps.flatMap roots := by
  rw [roots, rootsList_eq]

variable (e : Expr)

/-- A flat expression has the roots of the expression. -/
theorem roots_flat : e.flat.roots = e.roots := by
  induction e using of_operands with
  | h e ih =>
    cases e with
    | cat l ps =>
      rw [flat, flatList_eq, flattened_flatMap roots_cat, flatMap_map, roots_cat]
      exact flatMap_congr ih
    | index l x i => exact ih x (mem_cons_self)
    | slice l x m n => exact ih x (mem_cons_self)
    | select l x f => exact ih x (mem_cons_self)
    | _ => rfl

open Netlist (drivenSignals drivenSignalsList)

theorem drivenSignalsList_eq : drivenSignalsList Γ es = es.flatMap (drivenSignals Γ) := by
  induction es with
  | nil => rfl
  | cons e es ih => rw [drivenSignalsList, ih, flatMap_cons]

theorem drivenSignals_cat (l : Loc) (ps : List Expr) : drivenSignals Γ (.cat l ps) = ps.flatMap (drivenSignals Γ) := by
  rw [drivenSignals, drivenSignalsList_eq]

theorem drivenSignals_select {b : Expr} (h : ∀ l s, b ≠ .ref l s) (l : Loc) (f : String) :
    drivenSignals Γ (.select l b f) = b.roots.map Γ.name := by
  cases b with
  | ref l s => exact absurd rfl (h l s)
  | _ => rfl

/-- It drives the same signals unless a field is taken of a concatenation of which a single part is left. -/
theorem drivenSignals_flat (hplain : ∀ x ∈ e.subterms, x.Plain) : drivenSignals Γ e.flat = drivenSignals Γ e := by
  induction e using of_operands with
  | h e ih =>
    cases e with
    | cat l ps =>
      rw [flat, flatList_eq, flattened_flatMap drivenSignals_cat, flatMap_map, drivenSignals_cat]
      exact flatMap_congr fun p hp => ih p hp fun x hx => hplain x (mem_subterms_of_operand (e := .cat l ps) hp hx)
    | index l x i =>
      change (x.flat.roots).map Γ.name = _
      rw [roots_flat]
      rfl
    | slice l x m n =>
      change (x.flat.roots).map Γ.name = _
      rw [roots_flat]
      rfl
    | select l b f =>
      by_cases href : ∃ lb s, b = .ref lb s
      · obtain ⟨lb, s, rfl⟩ := href
        rfl
      · have hb : ∀ lb s, b ≠ .ref lb s := fun lb s h => href ⟨lb, s, h⟩
        rw [flat, drivenSignals_select hb, drivenSignals_select ?_, roots_flat]
        -- a concatenation is left one, and any other expression keeps its form
        intro lb s hflat
        cases hcat : b.isCat with
        | true =>
          have hleft := hplain _ (self_mem_subterms _) hcat
          rw [hflat] at hleft
          nomatch hleft
        | false =>
          cases b with
          | ref lb s => exact hb lb s rfl
          | cat => nomatch hcat
          | _ => nomatch hflat
    | _ => rfl

/-! ## Flat expressions stay as they are -/

theorem isNested_eq_false : isNested ps = false ↔ ∀ p ∈ ps, p.isCat = false := by
  rw [isNested, any_eq_false]
  refine forall₂_congr fun p _ => ?_
  cases p <;> simp [isCat]

theorem flatParts_unnested (h : ∀ p ∈ ps, ∀ x ∈ p.subterms, x.Unnested) :
    ∀ q ∈ flatParts ps, q.isCat = false ∧ ∀ x ∈ q.subterms, x.Unnested := by
  intro q hq
  obtain ⟨p, hp, hq⟩ := mem_flatParts.mp hq
  refine ⟨?_, fun x hx => h p hp x (subterms_targets hq hx)⟩
  rcases cat_or_targets p with ⟨l, qs, rfl⟩ | ⟨hcat, htargets⟩
  · exact isNested_eq_false.mp (h _ hp _ (self_mem_subterms _)).1 q hq
  · rw [htargets, mem_singleton] at hq
    exact hq ▸ hcat

/-- No concatenation stands in another after flattening, and none has a single part. -/
theorem unnested_flat : ∀ x ∈ e.flat.subterms, x.Unnested := by
  induction e using of_operands with
  | h e ih =>
    rcases cat_or_targets e with ⟨l, ps, rfl⟩ | ⟨hcat, -⟩
    · have hparts := flatParts_unnested (forall_mem_map.mpr ih)
      rw [flat, flatList_eq]
      rcases flattened_cases l (ps.map flat) with ⟨q, hq, hflat⟩ | ⟨hmany, hflat⟩
      · rw [hflat]
        exact (hparts q (hq ▸ mem_singleton_self q)).2
      · rw [hflat, subterms_eq, forall_mem_cons, forall_mem_flatMap]
        exact ⟨⟨isNested_eq_false.mpr fun q hq => (hparts q hq).1, hmany⟩, fun q hq => (hparts q hq).2⟩
    · rw [subterms_eq, operands_flat hcat, forall_mem_cons, forall_mem_flatMap, forall_mem_map]
      refine ⟨?_, ih⟩
      have hflat := isCat_flat hcat
      cases hform : e.flat with
      | cat => rw [hform] at hflat; nomatch hflat
      | _ => trivial

theorem flat_eq_self (h : ∀ x ∈ e.subterms, x.Unnested) : e.flat = e := by
  induction e using of_operands with
  | h e ih =>
    have hop : ∀ x ∈ e.operands, x.flat = x := fun x hx => ih x hx fun y hy => h y (mem_subterms_of_operand hx hy)
    have hlist : ∀ ps : List Expr, (∀ x ∈ ps, x ∈ e.operands) → ps.map flat = ps := fun ps hps =>
      (map_congr_left fun x hx => hop x (hps x hx)).trans (map_id' ps)
    cases e with
    | cat l ps =>
      obtain ⟨hnested, hsingle⟩ := h _ (self_mem_subterms _)
      have hparts := flatParts_of_not_nested hnested
      rw [flat, flatList_eq, hlist ps fun _ hx => hx, flattened_of_not_single (hparts.symm ▸ hsingle), hparts]
    | call l f as =>
      rw [flat, flatList_eq, hop f mem_cons_self, hlist as fun _ hx => mem_cons_of_mem _ hx]
    | _ => simp_all [flat, operands]

theorem flat_flat : e.flat.flat = e.flat := flat_eq_self _ (unnested_flat e)

theorem plain_of_unnested (h : ∀ x ∈ e.subterms, x.Unnested) : ∀ x ∈ e.subterms, x.Plain := by
  intro x hx
  have hop : ∀ y ∈ x.operands, y.flat = y := fun y hy =>
    flat_eq_self y fun z hz => h z (subterms_trans e hx (mem_subterms_of_operand hy hz))
  cases x with
  | select l b f => exact fun hb => (hop b mem_cons_self).symm ▸ hb
  | call l f as => exact fun hf => (hop f mem_cons_self).symm ▸ hf
  | _ => trivial

end Concatenation

end HdlLowering
