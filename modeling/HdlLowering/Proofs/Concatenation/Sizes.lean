import HdlLowering.Normal.Concatenations
import HdlLowering.Proofs.Execution.Writes

/-!
# Sizes of concatenations

Concatenations whose parts have widths that fit together (`Expr.WellSized`) can be flattened. `Expr.Same` says when an
expression may stand for another as a value, and as a target when it is one.
-/

namespace HdlLowering

open List Bits Word

variable {Γ : SymbolTable} {ω : Unknowns} {st : Store Γ} {es : List Expr} {w : Int64} {e e' : Expr} {as as' : List Expr}

def Expr.isCat : Expr → Bool
  | .cat .. => true
  | _ => false

def Expr.span (Γ : SymbolTable) (es : List Expr) : Int := (es.map fun e => (e.width Γ).toInt).sum

/-- Parts whose widths are not negative and add up to a word. -/
structure Expr.Adds (Γ : SymbolTable) (es : List Expr) : Prop where
  width : ∀ e ∈ es, 0 ≤ e.width Γ
  span : span Γ es < limit

/-- The bounds of a slice are in order and within the widths they are written with, and not of elements of an array. -/
structure Expr.InOrder (Γ : SymbolTable) (x m l : Expr) (hi lo : Int) : Prop where
  low : 0 ≤ lo
  order : lo ≤ hi
  high : hi + 1 < limit
  msb : (m.type Γ).normalize hi = hi
  lsb : (l.type Γ).normalize lo = lo
  base : ∀ loc s elem n, x = .ref loc s → (Γ.kind s).underlying ≠ .array elem n

/-- An expression whose own size is as it looks: the parts of a concatenation add up, a single one is an unsigned word, and
bounds, counts and functions are no concatenations. -/
def Expr.WellSized (Γ : SymbolTable) : Expr → Prop
  | .cat _ ps => ps ≠ [] ∧ Adds Γ ps ∧ ∀ p, ps = [p] → ∃ w, w ≠ 0 ∧ p.type Γ = .uint w
  | .rep _ n _ => n.isCat = false
  | .slice _ x m l => m.isCat = false ∧ l.isCat = false ∧
    ∀ hi lo, m.literal? = some hi → l.literal? = some lo → InOrder Γ x m l hi lo
  | .call _ f _ => f.isCat = false
  | _ => True

def Expr.Sized (Γ : SymbolTable) (e : Expr) : Prop := ∀ x ∈ e.subterms, x.WellSized Γ

/-! ## Widths -/

namespace Expr

@[simp] theorem span_nil : span Γ [] = 0 := rfl

@[simp] theorem span_cons (e : Expr) (es : List Expr) : span Γ (e :: es) = (e.width Γ).toInt + span Γ es := by
  simp [span]

@[simp] theorem span_append (es fs : List Expr) : span Γ (es ++ fs) = span Γ es + span Γ fs := by
  simp [span]

theorem toInt_nonneg (h : 0 ≤ w) : 0 ≤ w.toInt := by
  simpa using Int64.le_iff_toInt_le.mp h

theorem toInt_pos (h : 0 < w) : 0 < w.toInt := by
  simpa using Int64.lt_iff_toInt_lt.mp h

theorem size_pos : 0 < size w ↔ 0 < w := by
  simp [Int64.lt_iff_toInt_lt, size]

theorem size_eq (h : 0 ≤ w) : (size w : Int) = w.toInt := Int.toNat_of_nonneg (toInt_nonneg h)

theorem Adds.tail (h : Adds Γ (e :: es)) : Adds Γ es where
  width x hx := h.width x (mem_cons_of_mem _ hx)
  span := by
    have hspan := h.span
    rw [span_cons] at hspan
    have := toInt_nonneg (h.width e mem_cons_self)
    omega

theorem Adds.span_nonneg (h : Adds Γ es) : 0 ≤ Expr.span Γ es := by
  induction es with
  | nil => simp
  | cons e es ih =>
    rw [span_cons]
    have := toInt_nonneg (h.width e mem_cons_self)
    have := ih h.tail
    omega

theorem toInt_add {a b : Int64} (h0 : 0 ≤ a.toInt + b.toInt) (h : a.toInt + b.toInt < limit) :
    (a + b).toInt = a.toInt + b.toInt := by
  rw [Int64.toInt_add]
  refine Int.bmod_eq_of_le ?_ ?_ <;> simp only [limit] at h <;> omega

theorem Adds.toInt_widths (h : Adds Γ es) : (widths Γ es).toInt = Expr.span Γ es := by
  induction es with
  | nil => rfl
  | cons e es ih =>
    have hspan := h.span
    have h0 := h.span_nonneg
    rw [span_cons] at hspan h0 ⊢
    rw [widths, toInt_add, ih h.tail]
    · rfl
    · rw [ih h.tail]
      exact h0
    · rw [ih h.tail]
      exact hspan

theorem bitsList_eq_span (h : ∀ e ∈ es, 0 ≤ e.width Γ) : (bitsList Γ es : Int) = span Γ es := by
  induction es with
  | nil => rfl
  | cons e es ih =>
    rw [forall_mem_cons] at h
    rw [bitsList_cons, span_cons, Nat.cast_add, ih h.2, bits, size_eq h.1]

section

variable (h : Adds Γ es)
include h

theorem Adds.room : (bitsList Γ es : Int) < limit :=
  bitsList_eq_span h.width ▸ h.span

theorem Adds.toInt_width_cat (l : Loc) : ((cat l es).width Γ).toInt = bitsList Γ es := by
  rw [bitsList_eq_span h.width, ← h.toInt_widths, Expr.width, Expr.type]
  rfl

theorem Adds.bits_cat (l : Loc) : (cat l es).bits Γ = bitsList Γ es := by
  rw [bits, size, h.toInt_width_cat]
  exact Int.toNat_natCast _

/-- A concatenation has the values of its parts side by side. -/
theorem Adds.value_cat (l : Loc) : (cat l es).value ω st = join 0 (fields ω st es) := by
  have hbits := h.bits_cat l
  obtain ⟨h0, hlt⟩ := join_bounds (fields ω st es)
  rw [count_fields, ← hbits, bits] at hlt
  have htype : (cat l es).type Γ = .uint ((cat l es).width Γ) := by
    rw [Expr.width, Expr.type]
    rfl
  rw [value, rawValue_cat, htype]
  exact Kind.normalize_uint h0 (by rwa [values_eq])

end

/-- An unsigned part alone is that part. -/
theorem cat_single {p : Expr} (hw : w ≠ 0) (hp : p.type Γ = .uint w) (l : Loc) :
    (cat l [p]).type Γ = p.type Γ ∧ ∀ ω (st : Store Γ), (cat l [p]).value ω st = p.value ω st := by
  have htype : (cat l [p]).type Γ = .uint w := by
    rw [type, widths, widths, hp]
    simp [Kind.width]
  refine ⟨htype.trans hp.symm, fun ω st => ?_⟩
  have hvalue : p.value ω st = unsigned (p.rawValue ω st) w := by
    rw [value, hp]
    simp [Kind.normalize, Kind.width, hw, Kind.signed, Kind.underlying]
  have hbits : (2 : Int) ^ p.bits Γ = values w := by
    rw [values_eq, bits, width, hp]
    rfl
  have hjoin : join 0 (fields ω st [p]) = p.value ω st := by
    change 0 * 2 ^ p.bits Γ + p.value ω st % 2 ^ p.bits Γ = _
    rw [hbits, Int.zero_mul, Int.zero_add, hvalue, ← unsigned_eq, unsigned_unsigned]
  rw [value, rawValue_cat, hjoin, htype, hvalue]
  exact Kind.normalize_uint (unsigned_nonneg _ _) (unsigned_lt _ _)

/-! ## Expressions that stand for others -/

structure SameTarget (Γ : SymbolTable) (e e' : Expr) : Prop where
  root : e'.root? = e.root?
  steers : ∀ x ∈ e'.steers, x ∈ e.steers
  held : ∀ ω (st : Store Γ) h, e'.held ω st h = e.held ω st h
  put : ∀ ω (st : Store Γ) h v, e'.put ω st h v = e.put ω st h v

/-- An expression that stands for another: it has its type and value, is a target, a literal or a function when the other is,
unless that is a concatenation, and has well sized parts that are no concatenations. -/
structure Same (Γ : SymbolTable) (e e' : Expr) : Prop where
  type : e'.type Γ = e.type Γ
  value : ∀ ω (st : Store Γ), e'.value ω st = e.value ω st
  symbols : ∀ x ∈ e'.symbols, x ∈ e.symbols
  sized : e'.WellSized Γ
  parts : ∀ p ∈ e'.targets, p.isCat = false ∧ p.WellSized Γ
  cat : e.isCat = false → e'.isCat = false
  literal : e.isCat = false → e'.literal? = e.literal?
  method : e.isCat = false → ∀ l as as', (call l e' as').type Γ = (call l e as).type Γ
  ref : ∀ l s, e' = .ref l s → e = .ref l s ∨ ∃ w, (Γ.kind s).underlying = .uint w
  target : e.root? ≠ none → SameTarget Γ e e'

theorem Same.width (h : Same Γ e e') : e'.width Γ = e.width Γ := by
  rw [Expr.width, Expr.width, h.type]

theorem Same.bits (h : Same Γ e e') : e'.bits Γ = e.bits Γ := by
  rw [Expr.bits, Expr.bits, h.width]

theorem targets_of_not_cat (h : e.isCat = false) : e.targets = [e] := by
  cases e <;> first | rfl | nomatch h

theorem cat_or_targets (e : Expr) : (∃ l ps, e = .cat l ps) ∨ e.isCat = false ∧ e.targets = [e] := by
  cases e with
  | cat l ps => exact Or.inl ⟨l, ps, rfl⟩
  | _ => exact Or.inr ⟨rfl, rfl⟩

theorem parts_of_not_cat (h : e.isCat = false) (hsized : e.WellSized Γ) : ∀ p ∈ e.targets, p.isCat = false ∧ p.WellSized Γ := by
  rw [targets_of_not_cat h, forall_mem_singleton]
  exact ⟨h, hsized⟩

theorem Same.leaf (hcat : e.isCat = false) (hsized : e.WellSized Γ) : Same Γ e e where
  type := rfl
  value _ _ := rfl
  symbols _ h := h
  sized := hsized
  parts := parts_of_not_cat hcat hsized
  cat _ := hcat
  literal _ := rfl
  method _ l as as' := by cases e <;> rfl
  ref _ _ h := Or.inl h
  target _ := ⟨rfl, fun _ h => h, fun _ _ _ => rfl, fun _ _ _ _ => rfl⟩

theorem Same.operation (hcat : e'.isCat = false) (hroot : e.root? = none) (hliteral : e'.literal? = e.literal?)
    (hmethod : ∀ l as as', (call l e' as').type Γ = (call l e as).type Γ) (href : ∀ l s, e' ≠ .ref l s)
    (hsized : e'.WellSized Γ) (htype : e'.type Γ = e.type Γ)
    (hvalue : ∀ ω (st : Store Γ), e'.rawValue ω st = e.rawValue ω st) (hsymbols : ∀ x ∈ e'.symbols, x ∈ e.symbols) :
    Same Γ e e' where
  type := htype
  value ω st := by rw [Expr.value, Expr.value, htype, hvalue]
  symbols := hsymbols
  sized := hsized
  parts := parts_of_not_cat hcat hsized
  cat _ := hcat
  literal _ := hliteral
  method _ := hmethod
  ref l s h := absurd h (href l s)
  target h := absurd hroot h

theorem Same.normalize (h : Same Γ e e') (ω : Unknowns) (st : Store Γ) :
    (e'.type Γ).normalize (e'.rawValue ω st) = (e.type Γ).normalize (e.rawValue ω st) := h.value ω st

theorem mem_append_of_imp {xs ys xs' ys' : List Symbol} (hx : ∀ s ∈ xs', s ∈ xs) (hy : ∀ s ∈ ys', s ∈ ys) :
    ∀ s ∈ xs' ++ ys', s ∈ xs ++ ys := fun s hs => mem_append.mpr ((mem_append.mp hs).imp (hx s) (hy s))

section

variable {x x' y y' c c' n n' m m' : Expr}

theorem Same.unary (hx : Same Γ x x') (l : Loc) (op : UnaryOp) : Same Γ (.unary l op x) (.unary l op x') := by
  refine .operation rfl rfl rfl (fun _ _ _ => rfl) nofun trivial ?_ (fun ω st => ?_) hx.symbols
  · cases op <;> simp only [Expr.type, hx.type]
  · rw [rawValue, rawValue, hx.normalize, hx.width]

theorem Same.binary (hx : Same Γ x x') (hy : Same Γ y y') (l : Loc) (op : BinaryOp) :
    Same Γ (.binary l op x y) (.binary l op x' y') := by
  refine .operation rfl rfl rfl (fun _ _ _ => rfl) nofun trivial ?_ (fun ω st => ?_) ?_
  · cases op <;> simp only [Expr.type, hx.type, hy.type]
  · rw [rawValue, rawValue, hx.normalize, hy.normalize, hx.width]
  · simpa using mem_append_of_imp hx.symbols hy.symbols

theorem Same.ternary (hc : Same Γ c c') (hx : Same Γ x x') (hy : Same Γ y y') (l : Loc) :
    Same Γ (.ternary l c x y) (.ternary l c' x' y') := by
  refine .operation rfl rfl rfl (fun _ _ _ => rfl) nofun trivial ?_ (fun ω st => ?_) ?_
  · simp only [Expr.type, hx.type, hy.type]
  · rw [rawValue, rawValue, hc.normalize, hx.normalize, hy.normalize]
  · simpa using mem_append_of_imp (mem_append_of_imp hc.symbols hx.symbols) hy.symbols

theorem Same.rep (hn : Same Γ n n') (hx : Same Γ x x') (l : Loc) (hsized : (rep l n x).WellSized Γ) :
    Same Γ (.rep l n x) (.rep l n' x') := by
  refine .operation rfl rfl rfl (fun _ _ _ => rfl) nofun (hn.cat hsized) ?_ (fun ω st => ?_) ?_
  · simp only [Expr.type, hn.literal hsized, hx.type]
  · rw [rawValue, rawValue, hn.normalize, hx.normalize, hx.width]
  · simpa using mem_append_of_imp hn.symbols hx.symbols

theorem Same.select (hx : Same Γ x x') (l : Loc) (f : String) : Same Γ (.select l x f) (.select l x' f) := by
  refine .operation rfl rfl rfl (fun _ _ _ => ?_) nofun trivial ?_ (fun ω st => ?_) hx.symbols
  · simp only [Expr.type, hx.type]
  · simp only [Expr.type, hx.type]
  · rw [rawValue, rawValue, hx.normalize, hx.type]

theorem rawValues_eq (h : Forall₂ (Same Γ) as as') : rawValues ω st as' = rawValues ω st as := by
  induction h with
  | nil => rfl
  | cons ha _ ih => rw [rawValues, rawValues, ha.normalize, ih]

theorem symbolsList_imp (h : Forall₂ (Same Γ) as as') : ∀ s ∈ symbolsList as', s ∈ symbolsList as := by
  induction h with
  | nil => exact fun _ h => h
  | cons ha _ ih => simpa using mem_append_of_imp ha.symbols ih

theorem Same.call {f f' : Expr} (hf : Same Γ f f') (has : Forall₂ (Same Γ) as as') (l : Loc)
    (hsized : (call l f as).WellSized Γ) : Same Γ (.call l f as) (.call l f' as') := by
  refine .operation rfl rfl rfl (fun _ _ _ => rfl) nofun (hf.cat hsized) (hf.method hsized _ _ _) (fun ω st => ?_) ?_
  · rw [rawValue, rawValue, hf.normalize, hf.type, rawValues_eq has]
  · simpa using mem_append_of_imp hf.symbols (symbolsList_imp has)

theorem Same.index {i i' : Expr} (hx : Same Γ x x') (hi : Same Γ i i') (l : Loc) : Same Γ (.index l x i) (.index l x' i') where
  type := by simp only [Expr.type, hx.type]
  value ω st := by
    have htype : (Expr.index l x' i').type Γ = (Expr.index l x i).type Γ := by simp only [Expr.type, hx.type]
    rw [Expr.value, Expr.value, htype, rawValue, rawValue, hx.normalize, hi.normalize, hx.type]
  symbols := by simpa using mem_append_of_imp hx.symbols hi.symbols
  sized := trivial
  parts := parts_of_not_cat rfl trivial
  cat _ := rfl
  literal _ := rfl
  method _ _ _ _ := rfl
  ref _ _ h := nomatch h
  target h := by
    obtain ⟨hroot, hsteers, hheld, hput⟩ := hx.target h
    refine ⟨hroot, mem_append_of_imp hsteers hi.symbols, fun ω st h => ?_, fun ω st h v => ?_⟩
    · rw [Expr.held, Expr.held, hx.type, hi.value, hheld]
    · rw [Expr.put, Expr.put, hx.type, hi.value, hheld, hput]

theorem Same.slice (hx : Same Γ x x') (hm : Same Γ m m') (hn : Same Γ n n') (l : Loc)
    (hsized : (Expr.slice l x m n).WellSized Γ) : Same Γ (.slice l x m n) (.slice l x' m' n') := by
  obtain ⟨hmcat, hncat, horder⟩ := hsized
  have htype : (Expr.slice l x' m' n').type Γ = (Expr.slice l x m n).type Γ := by
    simp only [Expr.type, hm.literal hmcat, hn.literal hncat]
  have hsized : (Expr.slice l x' m' n').WellSized Γ := by
    refine ⟨hm.cat hmcat, hn.cat hncat, fun hi lo hhi hlo => ?_⟩
    rw [hm.literal hmcat] at hhi
    rw [hn.literal hncat] at hlo
    have h := horder hi lo hhi hlo
    refine ⟨h.low, h.order, h.high, hm.type ▸ h.msb, hn.type ▸ h.lsb, fun loc s elem k hbase => ?_⟩
    rcases hx.ref loc s hbase with hx | ⟨w, hw⟩
    · exact h.base loc s elem k hx
    · rw [hw]
      simp
  exact {
    type := htype
    value ω st := by
      rw [Expr.value, Expr.value, htype, rawValue, rawValue, hx.normalize, hm.normalize, hn.normalize]
    symbols := by simpa using mem_append_of_imp (mem_append_of_imp hx.symbols hm.symbols) hn.symbols
    sized := hsized
    parts := parts_of_not_cat rfl hsized
    cat _ := rfl
    literal _ := rfl
    method _ _ _ _ := rfl
    ref _ _ h := by cases h
    target h := by
      obtain ⟨hroot, hsteers, hheld, hput⟩ := hx.target h
      refine ⟨hroot, mem_append_of_imp (mem_append_of_imp hsteers hm.symbols) hn.symbols, fun ω st h => ?_, fun ω st h v => ?_⟩
      · rw [Expr.held, Expr.held, hm.value, hn.value, hheld]
      · rw [Expr.put, Expr.put, hm.value, hn.value, hheld, hput] }

end

end Expr

end HdlLowering
