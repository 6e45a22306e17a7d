import HdlLowering.Proofs.Execution.Store
import HdlLowering.Value.Simplify

/-!
# Simplification keeps values

Where a part of an expression is replaced by a literal of its known value, the expression keeps its value in every store that
agrees with the known values (`Expr.valueIn_simplify`), and under all further knowledge (`Expr.eval_simplify`). The literal must
be of a type alike to that of the part; of some types, such as a structure without fields, there is none.
-/

namespace HdlLowering

open Expr Kind List

variable {k : Kind} {v : Int}

/-- A type that there are literals of: a number without a size, or of a positive width. -/
def Kind.Literal (k : Kind) : Prop := (∃ s, k = .num s) ∨ 0 < k.width

theorem Kind.Literal.width_nonneg (h : k.Literal) : 0 ≤ k.width := by
  rcases h with ⟨s, rfl⟩ | h
  · exact Int64.le_refl 0
  · exact Int64.le_of_lt h

/-- Types that evaluation does not tell apart. -/
def Kind.Alike (a b : Kind) : Prop :=
  a = b ∨ (∃ s s', a = .num s ∧ b = .num s') ∨ (0 < a.width ∧ a.width = b.width ∧ a.signed = b.signed)

namespace Kind.Alike

variable {a a' b b' : Kind}

theorem refl (a : Kind) : Alike a a := Or.inl rfl

variable (h : Alike a b)
include h

theorem width : a.width = b.width := by
  rcases h with rfl | ⟨s, s', rfl, rfl⟩ | ⟨-, h, -⟩
  · rfl
  · rfl
  · exact h

theorem normalize (v : Int) : a.normalize v = b.normalize v := by
  rcases h with rfl | ⟨s, s', rfl, rfl⟩ | ⟨-, hw, hs⟩
  · rfl
  · rw [normalize_of_width_eq_zero rfl, normalize_of_width_eq_zero rfl]
  · exact normalize_congr hw hs v

theorem num_iff : (∃ s, a = .num s) ↔ ∃ s, b = .num s := by
  rcases h with rfl | ⟨s, s', rfl, rfl⟩ | ⟨hp, hw, -⟩
  · rfl
  · simp
  · have hn : ∀ k : Kind, 0 < k.width → ¬ ∃ s, k = .num s := by
      rintro k hk ⟨s, rfl⟩
      exact absurd hk (by simp [Kind.width])
    exact iff_of_false (hn a hp) (hn b (hw ▸ hp))

theorem signed (hn : ¬ ∃ s, a = .num s) : a.signed = b.signed := by
  rcases h with rfl | ⟨s, s', rfl, rfl⟩ | ⟨-, -, hs⟩
  · rfl
  · exact absurd ⟨s, rfl⟩ hn
  · exact hs

theorem eq_of_not_packed (hn : ¬ ∃ s, a = .num s) (hp : a.packed = false) : a = b := by
  rcases h with rfl | ⟨s, s', rfl, rfl⟩ | ⟨hw, -, -⟩
  · rfl
  · exact absurd ⟨s, rfl⟩ hn
  · simp [packed, hw] at hp

end Kind.Alike

theorem Kind.num_join (s : Bool) (hk : ¬ ∃ s, k = .num s) : (num s).join k = k := by
  unfold join
  split <;> simp_all

theorem Kind.join_num (s : Bool) (hk : ¬ ∃ s, k = .num s) : k.join (.num s) = k := by
  unfold join
  split <;> simp_all

theorem Kind.join_of_not_num {a b : Kind} (ha : ¬ ∃ s, a = .num s) (hb : ¬ ∃ s, b = .num s) :
    a.join b =
      if a.signed && b.signed then .sint (if a.width < b.width then b.width else a.width)
      else if !a.packed then a
      else .uint (if a.width < b.width then b.width else a.width) := by
  unfold join
  split
  · exact absurd ⟨_, rfl⟩ ha
  · exact absurd ⟨_, rfl⟩ ha
  · exact absurd ⟨_, rfl⟩ hb
  · rfl

theorem Kind.Alike.join {a a' b b' : Kind} (ha : Alike a a') (hb : Alike b b') : Alike (a.join b) (a'.join b') := by
  by_cases hna : ∃ s, a = .num s
  · obtain ⟨s, rfl⟩ := hna
    obtain ⟨s', rfl⟩ := ha.num_iff.mp ⟨s, rfl⟩
    by_cases hnb : ∃ s, b = .num s
    · obtain ⟨r, rfl⟩ := hnb
      obtain ⟨r', rfl⟩ := hb.num_iff.mp ⟨r, rfl⟩
      exact Or.inr (Or.inl ⟨_, _, rfl, rfl⟩)
    · have hnb' : ¬ ∃ s, b' = .num s := fun h => hnb (hb.num_iff.mpr h)
      rw [num_join s hnb, num_join s' hnb']
      exact hb
  · have hna' : ¬ ∃ s, a' = .num s := fun h => hna (ha.num_iff.mpr h)
    by_cases hnb : ∃ s, b = .num s
    · obtain ⟨r, rfl⟩ := hnb
      obtain ⟨r', rfl⟩ := hb.num_iff.mp ⟨r, rfl⟩
      rw [join_num r hna, join_num r' hna']
      exact ha
    · have hnb' : ¬ ∃ s, b' = .num s := fun h => hnb (hb.num_iff.mpr h)
      have hpacked : a.packed = a'.packed := by simp [packed, ha.width]
      rw [join_of_not_num hna hnb, join_of_not_num hna' hnb', ← ha.signed hna, ← hb.signed hnb, ← ha.width, ← hb.width,
        ← hpacked]
      split
      · exact refl _
      · split
        · rename_i hp
          rw [← ha.eq_of_not_packed hna (by simpa using hp)]
          exact refl _
        · exact refl _

/-! ## Literals -/

variable (Γ : SymbolTable)

theorem Expr.type_ofValue (l : Loc) (v : Int) (hk : k.Literal) : k.Alike ((ofValue l v k).type Γ) := by
  unfold ofValue
  split
  · rename_i hw
    refine Or.inr (Or.inr ⟨hw, ?_, ?_⟩)
    · simp only [type]
      split <;> rfl
    · cases hs : k.signed <;> simp [type, signed, underlying]
  · rename_i hw
    obtain ⟨s, rfl⟩ := hk.resolve_right hw
    exact Or.inr (Or.inl ⟨_, _, rfl, rfl⟩)

variable (b : Bindings)

theorem Expr.eval_ofValue (l : Loc) (hk : k.Literal) (hv : k.normalize v = v) : (ofValue l v k).eval Γ b = some v := by
  have hraw : (ofValue l v k).raw Γ b = some v := by
    unfold ofValue
    split
    · simp only [raw, hv]
    · rfl
  rw [eval, fit, hraw, Option.map_some, ← (type_ofValue Γ l v hk).normalize, hv]

theorem Expr.symbols_ofValue (l : Loc) (v : Int) (k : Kind) : (ofValue l v k).symbols = [] := by
  unfold ofValue
  split <;> rfl

/-! ## Simplified expressions -/

section

variable {Γ : SymbolTable} {b : Bindings} {e : Expr} {l : Loc}

theorem Expr.simplify_of_eval (h : e.eval Γ b = some v) (hl : e.literal? = none) :
    e.simplify Γ b = .ofValue e.loc v (e.type Γ) := by
  have hf : e.folded? Γ b = some (.ofValue e.loc v (e.type Γ)) := by rw [folded?, h, Option.map_some]
  unfold simplify simplify?
  split <;> simp_all [literal?]

theorem Expr.simplify_unary {op : UnaryOp} {x : Expr} (h : (unary l op x).eval Γ b = none) :
    (unary l op x).simplify Γ b = .unary l op (x.simplify Γ b) := by
  unfold simplify
  rw [simplify?, folded?, h]
  cases x.simplify? Γ b <;> rfl

theorem Expr.simplify_binary {op : BinaryOp} {x y : Expr} (h : (binary l op x y).eval Γ b = none) :
    (binary l op x y).simplify Γ b = .binary l op (x.simplify Γ b) (y.simplify Γ b) := by
  unfold simplify
  rw [simplify?, folded?, h]
  cases x.simplify? Γ b <;> cases y.simplify? Γ b <;> rfl

theorem Expr.simplify_ternary {c x y : Expr} (h : (ternary l c x y).eval Γ b = none) :
    (ternary l c x y).simplify Γ b = .ternary l (c.simplify Γ b) (x.simplify Γ b) (y.simplify Γ b) := by
  unfold simplify
  rw [simplify?, folded?, h]
  cases c.simplify? Γ b <;> cases x.simplify? Γ b <;> cases y.simplify? Γ b <;> rfl

/-- An expression that stands for another: of a type alike to it, with no other symbols, and of the same value wherever
more is known than the bindings say, and its evaluation stops nowhere that the other does not stop. -/
structure Expr.StandsFor (Γ : SymbolTable) (b : Bindings) (e' e : Expr) : Prop where
  alike : (e.type Γ).Alike (e'.type Γ)
  symbols : ∀ s ∈ e'.symbols, s ∈ e.symbols
  eval : ∀ b', b.WithinOn e.symbols b' → e'.eval Γ b' = e.eval Γ b'
  works : ∀ b', b.WithinOn e.symbols b' → e.Works Γ b' → e'.Works Γ b'

theorem Expr.eval_unary (l : Loc) (op : UnaryOp) (x : Expr) :
    (unary l op x).eval Γ b = (unary l op x).fit Γ ((x.eval Γ b).bind (op.apply (x.width Γ))) := by
  simp only [eval, raw]

theorem Expr.eval_binary (l : Loc) (op : BinaryOp) (x y : Expr) :
    (binary l op x y).eval Γ b = (binary l op x y).fit Γ (op.eval (x.width Γ) (x.eval Γ b) (y.eval Γ b)) := by
  simp only [eval, raw]

theorem Expr.eval_ternary (l : Loc) (c x y : Expr) : (ternary l c x y).eval Γ b =
      (ternary l c x y).fit Γ (ternaryValue (c.eval Γ b) (x.eval Γ b) (y.eval Γ b)) := by
  simp only [eval, raw]

theorem Expr.StandsFor.refl (e : Expr) : e.StandsFor Γ b e := ⟨.refl _, fun _ h => h, fun _ _ => rfl, fun _ _ h => h⟩

theorem Expr.StandsFor.ofValue (h : e.eval Γ b = some v) (hk : (e.type Γ).Literal) (l : Loc) :
    (ofValue l v (e.type Γ)).StandsFor Γ b e where
  alike := type_ofValue Γ l v hk
  symbols := by simp [symbols_ofValue]
  eval b' hb' := by rw [eval_ofValue Γ b' l hk (normalize_of_eval h), e.eval_sharper hb' v h]
  works b' _ _ := by
    have hnone : (Expr.ofValue l v (e.type Γ)).consulted Γ b' = [] := by
      unfold Expr.ofValue
      split <;> rfl
    rw [works_iff, hnone]
    refine ⟨nofun, fun _ => ?_⟩
    rw [width, ← (type_ofValue Γ l v hk).width]
    exact hk.width_nonneg

theorem Expr.StandsFor.width {e e' : Expr} (h : e'.StandsFor Γ b e) : e'.width Γ = e.width Γ := h.alike.width.symm

theorem Expr.fit_of_alike {e e' : Expr} (h : (e.type Γ).Alike (e'.type Γ)) (v : Option Int) : e'.fit Γ v = e.fit Γ v := by
  unfold fit
  congr 1
  funext x
  exact (h.normalize x).symm

/-- Where evaluation stops in what stands for an expression, it is not at the expression itself. -/
theorem Expr.works_of_operands {e e' : Expr} {b' : Bindings} (halike : (e.type Γ).Alike (e'.type Γ))
    (heval : e'.eval Γ b' = e.eval Γ b') (hworks : e.Works Γ b')
    (hbelow : (∀ x ∈ e.consulted Γ b', x.Works Γ b') → ∀ x ∈ e'.consulted Γ b', x.Works Γ b') : e'.Works Γ b' := by
  rw [works_iff] at hworks ⊢
  refine ⟨hbelow hworks.1, fun hvalue => ?_⟩
  have hsome : (e.raw Γ b').isSome = (e'.raw Γ b').isSome := by simpa [Expr.eval, fit] using congrArg Option.isSome heval.symm
  rw [width, ← halike.width]
  exact hworks.2 (hsome.trans hvalue)

theorem Expr.StandsFor.unary {x x' : Expr} (h : x'.StandsFor Γ b x) (l : Loc) (op : UnaryOp) :
    (Expr.unary l op x').StandsFor Γ b (.unary l op x) := by
  have halike : ((Expr.unary l op x).type Γ).Alike ((Expr.unary l op x').type Γ) := by
    simp only [type]
    split
    all_goals first | exact .refl _ | exact h.alike
  have heval : ∀ b', b.WithinOn x.symbols b' → (Expr.unary l op x').eval Γ b' = (Expr.unary l op x).eval Γ b' := fun b' hb' => by
    rw [eval_unary, eval_unary, fit_of_alike halike, h.eval b' hb', h.width]
  refine ⟨halike, h.symbols, heval, fun b' hb' hworks => works_of_operands halike (heval b' hb') hworks fun hx => ?_⟩
  simpa [consulted, operands] using h.works b' hb' (hx x (by simp [consulted, operands]))

theorem Expr.StandsFor.binary {x x' y y' : Expr} (hx : x'.StandsFor Γ b x) (hy : y'.StandsFor Γ b y) (l : Loc)
    (op : BinaryOp) : (binary l op x' y').StandsFor Γ b (.binary l op x y) := by
  have halike : ((Expr.binary l op x y).type Γ).Alike ((Expr.binary l op x' y').type Γ) := by
    simp only [type]
    split
    all_goals first | exact .refl _ | exact hx.alike | exact hx.alike.join hy.alike
  have heval : ∀ b', b.WithinOn (Expr.binary l op x y).symbols b' →
      (Expr.binary l op x' y').eval Γ b' = (Expr.binary l op x y).eval Γ b' := fun b' hb' => by
    rw [symbols_binary] at hb'
    rw [eval_binary, eval_binary, fit_of_alike halike, hx.eval b' hb'.left, hy.eval b' hb'.right, hx.width]
  refine ⟨halike, ?_, heval, fun b' hb' hworks => works_of_operands halike (heval b' hb') hworks fun h => ?_⟩
  · intro s hs
    rw [symbols_binary, mem_append] at hs ⊢
    exact hs.imp (hx.symbols s) (hy.symbols s)
  · rw [symbols_binary] at hb'
    have hwx := hx.works b' hb'.left
    have hwy := hy.works b' hb'.right
    rw [consulted] at h ⊢
    rw [hx.eval b' hb'.left]
    cases hdecided : op.decided (x.eval Γ b') <;> simp_all

theorem Expr.StandsFor.ternary {c c' x x' y y' : Expr} (hc : c'.StandsFor Γ b c) (hx : x'.StandsFor Γ b x)
    (hy : y'.StandsFor Γ b y) (l : Loc) : (ternary l c' x' y').StandsFor Γ b (.ternary l c x y) := by
  have halike : ((Expr.ternary l c x y).type Γ).Alike ((Expr.ternary l c' x' y').type Γ) := hx.alike.join hy.alike
  have heval : ∀ b', b.WithinOn (Expr.ternary l c x y).symbols b' →
      (Expr.ternary l c' x' y').eval Γ b' = (Expr.ternary l c x y).eval Γ b' := fun b' hb' => by
    rw [symbols_ternary] at hb'
    rw [eval_ternary, eval_ternary, fit_of_alike halike, hc.eval b' hb'.left.left, hx.eval b' hb'.left.right,
      hy.eval b' hb'.right]
  refine ⟨halike, ?_, heval, fun b' hb' hworks => works_of_operands halike (heval b' hb') hworks fun h => ?_⟩
  · intro s hs
    simp only [symbols_ternary, mem_append] at hs ⊢
    exact hs.imp (Or.imp (hc.symbols s) (hx.symbols s)) (hy.symbols s)
  · rw [symbols_ternary] at hb'
    have hwc := hc.works b' hb'.left.left
    have hwx := hx.works b' hb'.left.right
    have hwy := hy.works b' hb'.right
    rw [consulted] at h ⊢
    rw [hc.eval b' hb'.left.left]
    cases hcond : c.eval Γ b' with
    | none => simp_all
    | some v => by_cases hzero : v = 0 <;> simp_all

theorem Expr.simplify_standsFor_of (hl : e.literal? = none) (h : ∀ x ∈ e.subterms, x.eval Γ b ≠ none → (x.type Γ).Literal)
    (hnone : e.eval Γ b = none → (e.simplify Γ b).StandsFor Γ b e) : (e.simplify Γ b).StandsFor Γ b e := by
  cases hv : e.eval Γ b with
  | some v =>
    rw [simplify_of_eval hv hl]
    exact .ofValue hv (h e (by cases e <;> simp [subterms]) (by simp [hv])) _
  | none => exact hnone hv

theorem Expr.folded_standsFor (hl : e.literal? = none) (he : e.simplify? Γ b = e.folded? Γ b)
    (h : ∀ x ∈ e.subterms, x.eval Γ b ≠ none → (x.type Γ).Literal) : (e.simplify Γ b).StandsFor Γ b e := by
  refine simplify_standsFor_of hl h fun hv => ?_
  rw [simplify, he, folded?, hv]
  exact .refl e

theorem Expr.simplify_standsFor : ∀ e : Expr,
    (∀ x ∈ e.subterms, x.eval Γ b ≠ none → (x.type Γ).Literal) → (e.simplify Γ b).StandsFor Γ b e
  | .num .., _ => .refl _
  | .int .., _ => .refl _
  | .unary l op x, h => simplify_standsFor_of rfl h fun hv => by
    rw [simplify_unary hv]
    exact (simplify_standsFor x fun z hz => h z (by simp [subterms, hz])).unary l op
  | .binary l op x y, h => simplify_standsFor_of rfl h fun hv => by
    rw [simplify_binary hv]
    exact (simplify_standsFor x fun z hz => h z (by simp [subterms, hz])).binary
      (simplify_standsFor y fun z hz => h z (by simp [subterms, hz])) l op
  | .ternary l c x y, h => simplify_standsFor_of rfl h fun hv => by
    rw [simplify_ternary hv]
    exact (simplify_standsFor c fun z hz => h z (by simp [subterms, hz])).ternary
      (simplify_standsFor x fun z hz => h z (by simp [subterms, hz]))
      (simplify_standsFor y fun z hz => h z (by simp [subterms, hz])) l
  | .ref l s, h => folded_standsFor rfl rfl h
  | .cat l ps, h => folded_standsFor rfl rfl h
  | .rep l n x, h => folded_standsFor rfl rfl h
  | .index l x i, h => folded_standsFor rfl rfl h
  | .slice l x m n, h => folded_standsFor rfl rfl h
  | .select l x f, h => folded_standsFor rfl rfl h
  | .call l f as, h => folded_standsFor rfl rfl h

theorem Expr.valueIn_simplify {st : Store Γ} (hst : st.Agrees b)
    (h : ∀ x ∈ e.subterms, x.eval Γ b ≠ none → (x.type Γ).Literal) : (e.simplify Γ b).valueIn st = e.valueIn st := by
  have hs := simplify_standsFor e h
  rw [← eval_known st _ e.symbols hs.symbols]
  exact hs.eval _ (hst.within_known e.symbols)

theorem Expr.mem_examined {x : Expr} (h : x ∈ e.examined Γ b) : x = e ∨ ∃ y ∈ e.operands, x ∈ y.examined Γ b := by
  cases e <;> grind [examined, operands]

theorem Expr.examined_subterms (e : Expr) {x : Expr} (hx : x ∈ e.examined Γ b) : x ∈ e.subterms := by
  induction e using of_operands with
  | h e ih =>
    rcases mem_examined hx with rfl | ⟨y, hy, hx⟩
    · exact x.self_mem_subterms
    · exact mem_subterms_of_operand hy (ih y hy hx)

/-- Types that there are literals of have no negative width. -/
theorem Expr.works_of_literal (e : Expr) (h : ∀ x ∈ e.subterms, x.eval Γ b ≠ none → (x.type Γ).Literal) : e.Works Γ b := by
  induction e using of_operands with
  | h e ih =>
    refine works_iff.mpr ⟨fun x hx => ?_, fun hvalue => (h e e.self_mem_subterms ?_).width_nonneg⟩
    · have hmem := operand_of_consulted hx
      exact ih x hmem fun y hy => h y (mem_subterms_of_operand hmem hy)
    · simpa [Expr.eval, fit] using Option.isSome_iff_ne_none.mp hvalue

theorem Expr.simplified_eq_ok (h : ∀ x ∈ e.subterms, x.eval Γ b ≠ none → (x.type Γ).Literal) :
    e.simplified Γ b = .ok (e.simplify? Γ b) := by
  have hall : ∀ xs : List Expr, (∀ x ∈ xs, x.Works Γ b) →
      (xs.forM fun x => discard (x.evaluate Γ b)) = (pure () : Except Crash PUnit) := by
    intro xs hxs
    induction xs with
    | nil => rfl
    | cons x xs ih =>
      rw [forM_eq_forM, forM_cons, (hxs x mem_cons_self).evaluate, ← ih fun y hy => hxs y (mem_cons_of_mem x hy)]
      rfl
  rw [simplified, hall _ fun x hx => ?_]
  · rfl
  · have hmem := examined_subterms e hx
    exact works_of_literal x fun y hy => h y (subterms_trans e hmem hy)

/-- Where the known parts of an expression are of types that there are literals of, it is simplified to an expression of its width,
and its sign unless that is a number without a size. Under all further knowledge for which the evaluation of the expression does
not stop, the simplified one has its value, or none when that has none. -/
theorem Expr.eval_simplify {e : Expr} (h : ∀ x ∈ e.subterms, x.eval Γ b ≠ none → (x.type Γ).Literal) :
    e.simplified Γ b = .ok (e.simplify? Γ b) ∧
    (∀ b' : Bindings, (∀ s w, b.get? s = some w → b'.get? s = some w) → ∀ u, e.evaluate Γ b' = .ok u →
      (e.simplify Γ b).evaluate Γ b' = .ok u) ∧
    (e.simplify Γ b).width Γ = e.width Γ ∧
    ((¬ ∃ s, e.type Γ = .num s) → ((e.simplify Γ b).type Γ).signed = (e.type Γ).signed) := by
  have hs := simplify_standsFor e h
  refine ⟨simplified_eq_ok h, ?_, hs.width, ?_⟩
  · intro b' hmore u hu
    have hwithin : b.WithinOn e.symbols b' := fun s _ w hw => hmore s w hw
    obtain ⟨hworks, rfl⟩ := (evaluate_answers e u).mp hu
    rw [(hs.works b' hwithin hworks).evaluate, hs.eval b' hwithin]
  · intro hsized
    exact (hs.alike.signed hsized).symm

end

namespace PackedOperand

/-- A structure of two fields, and two signed variables. -/
def table : SymbolTable :=
  ⟨#[.value 1 "p" (.struct "pair_t" [("hi", .uint 2), ("lo", .sint 2)]), .value 2 "x" (.sint 6), .value 3 "y" (.sint 6)]⟩

/-- `p + (x ? 5 - 7 : y)` -/
def mixed : Expr :=
  .binary {} .add (.ref {} ⟨0⟩) (.ternary {} (.ref {} ⟨1⟩)
    (.binary {} .sub (.num {} false 5) (.num {} false 7)) (.ref {} ⟨2⟩))

def known : Bindings := ⟨[(⟨0⟩, 9)]⟩

/-- The structure becomes a word and the difference a negative number, and the sum keeps its value when the variables become
known. -/
theorem mixed_kept : mixed.simplified table known = .ok (some (.binary {} .add (.int {} false 4 9)
      (.ternary {} (.ref {} ⟨1⟩) (.num {} true (-2)) (.ref {} ⟨2⟩)))) ∧
    mixed.evaluate table ⟨known.entries ++ [(⟨1⟩, 1)]⟩ = .ok (some 7) ∧
    (mixed.simplify table known).evaluate table ⟨known.entries ++ [(⟨1⟩, 1)]⟩ = .ok (some 7) ∧
    (mixed.simplify table known).width table = 6 := by
  have hkinds : ∀ x ∈ mixed.subterms, x.eval table known ≠ none → (x.type table).Literal := by
    intro x hx hknown
    simp only [mixed, subterms, cons_append, nil_append, mem_cons, not_mem_nil, or_false] at hx
    rcases hx with rfl | rfl | rfl | rfl | rfl | rfl | rfl | rfl
    · exact absurd (by decide) hknown
    · exact Or.inr (by decide)
    · exact absurd (by decide) hknown
    · exact absurd (by decide) hknown
    · exact Or.inl ⟨false, rfl⟩
    · exact Or.inl ⟨false, rfl⟩
    · exact Or.inl ⟨false, rfl⟩
    · exact absurd (by decide) hknown
  obtain ⟨hdone, hvalue, hwidth, -⟩ := eval_simplify hkinds
  have heval : mixed.evaluate table ⟨known.entries ++ [(⟨1⟩, 1)]⟩ = .ok (some 7) := by decide
  refine ⟨hdone, heval, hvalue _ (fun s w hw => ?_) _ heval, hwidth.trans (by decide)⟩
  rw [Bindings.get?] at hw ⊢
  rw [lookup_append, hw]
  rfl

end PackedOperand

/-- The literal in place of an expression is evaluated where the expression is not. -/
theorem ReversedBranch.guarded_folded : guarded.simplified table {} = .ok (some (.int {} false 1 0)) ∧
    (Expr.int {} false 1 0).evaluate table five = .ok (some 0) ∧ guarded.evaluate table five = .error .negativeWidth :=
  ⟨rfl, by decide, by decide⟩

end HdlLowering
