import HdlLowering.Proofs.Execution.Store
import HdlLowering.Proofs.Value.Fields

/-!
# Values of all expressions

Evaluation leaves some operations open: fields and calls, elements of arrays, and operands out of range. `Expr.value` gives
every expression a value in a store, whatever these operations give (`Unknowns`).
-/

namespace HdlLowering

open Expr Bits List Sharper BinaryOp

/-- What the operations give that evaluation leaves open, from the values of their operands. -/
structure Unknowns where
  unary : UnaryOp → Int64 → Int → Int
  binary : BinaryOp → Int64 → Int → Int → Int
  rep : Int64 → Int → Int → Int
  index : Kind → Int → Int → Int
  slice : Int → Int → Int → Int
  select : Kind → String → Int → Int
  call : Kind → Int → List Int → Int

def Expr.bits (Γ : SymbolTable) (e : Expr) : Nat := size (e.width Γ)

variable (ω : Unknowns)

/-- What stands at a position of a value: a bit of it, unless it is an array or there is no such position. -/
def Unknowns.at (k : Kind) (v i : Int) : Int :=
  match k with
  | .array .. => ω.index k v i
  | _ => if 0 ≤ i then bit v i.toNat else ω.index k v i

/-- The bits of a value from a position on, if the bounds are in order. -/
def Unknowns.bitsFrom (v msb lsb : Int) : Int :=
  if 0 ≤ lsb ∧ lsb ≤ msb then v >>> lsb.toNat else ω.slice v msb lsb

variable {Γ : SymbolTable} {b : Bindings} {ss ts : List Symbol} {st st' : Store Γ}

mutual
/-- The value of an expression in a store, before it is cut to the type of the expression. -/
def Expr.rawValue (ω : Unknowns) (st : Store Γ) : Expr → Int
  | .ref _ s => st.value s
  | .num _ _ v => v
  | .int _ _ _ v => v
  | .unary _ op x =>
    let v := (x.type Γ).normalize (rawValue ω st x)
    (op.apply (x.width Γ) v).getD (ω.unary op (x.width Γ) v)
  | .binary _ op x y =>
    let v := (x.type Γ).normalize (rawValue ω st x)
    let v' := (y.type Γ).normalize (rawValue ω st y)
    (op.apply (x.width Γ) v v').getD (ω.binary op (x.width Γ) v v')
  | .ternary _ c x y =>
    if (c.type Γ).normalize (rawValue ω st c) = 0 then (y.type Γ).normalize (rawValue ω st y)
    else (x.type Γ).normalize (rawValue ω st x)
  | .cat _ ps => rawJoin ω st 0 ps
  | .rep _ n x =>
    let v := (n.type Γ).normalize (rawValue ω st n)
    let v' := (x.type Γ).normalize (rawValue ω st x)
    (repValue (x.width Γ) (some v) (some v')).getD (ω.rep (x.width Γ) v v')
  | .index _ x i =>
    ω.at (x.type Γ) ((x.type Γ).normalize (rawValue ω st x)) ((i.type Γ).normalize (rawValue ω st i))
  | .slice _ x m l =>
    ω.bitsFrom ((x.type Γ).normalize (rawValue ω st x)) ((m.type Γ).normalize (rawValue ω st m))
      ((l.type Γ).normalize (rawValue ω st l))
  | .select _ x f => ω.select (x.type Γ) f ((x.type Γ).normalize (rawValue ω st x))
  | .call _ f as => ω.call (f.type Γ) ((f.type Γ).normalize (rawValue ω st f)) (rawValues ω st as)

/-- The value of the parts of a concatenation behind a value. -/
def Expr.rawJoin (ω : Unknowns) (st : Store Γ) (front : Int) : List Expr → Int
  | [] => front
  | p :: ps =>
    rawJoin ω st (front * 2 ^ p.bits Γ + (p.type Γ).normalize (rawValue ω st p) % 2 ^ p.bits Γ) ps

def Expr.rawValues (ω : Unknowns) (st : Store Γ) : List Expr → List Int
  | [] => []
  | e :: es => (e.type Γ).normalize (rawValue ω st e) :: rawValues ω st es
end

def Expr.value (st : Store Γ) (e : Expr) : Int := (e.type Γ).normalize (e.rawValue ω st)

def Expr.fields (st : Store Γ) (es : List Expr) : List (Nat × Int) :=
  es.map fun e => (e.bits Γ, e.value ω st)

section

variable {ω : Unknowns} {st : Store Γ}

@[simp] theorem Expr.value_ref (l : Loc) (s : Symbol) : (ref l s).value ω st = st.value s := by
  simp [value, rawValue, type, st.fits s]

theorem Expr.bits_ref (l : Loc) (s : Symbol) : (Expr.ref l s).bits Γ = size (Γ.kind s).width := by
  change size (Γ.kind s).underlying.width = _
  rw [Kind.width_underlying]

theorem Expr.rawJoin_eq (front : Int) (ps : List Expr) : rawJoin ω st front ps = join front (fields ω st ps) := by
  induction ps generalizing front with
  | nil => simp [rawJoin, fields, join]
  | cons p ps ih =>
    rw [rawJoin, ih]
    rfl

theorem Expr.rawValue_cat (l : Loc) (ps : List Expr) : (Expr.cat l ps).rawValue ω st = join 0 (fields ω st ps) := by
  rw [rawValue, rawJoin_eq]

/-! ## Agreement with evaluation -/

theorem BinaryOp.apply_of_eval {op : BinaryOp} {w : Int64} {x y : Option Int} {u v r : Int} (hx : Sharper x (some u))
    (hy : Sharper y (some v)) (h : op.eval w x y = some r) : op.apply w u v = some r := by
  have hknown := eval_sharper op w hx hy r h
  cases op <;> grind [eval, apply, ofBool]

theorem Unknowns.at_of_indexValue {k : Kind} {x i : Option Int} {u j r : Int} (hk : ∀ elem n, k ≠ .array elem n)
    (hx : Sharper x (some u)) (hi : Sharper i (some j)) (h : indexValue x i = some r) : ω.at k u j = r := by
  have hknown := indexValue_sharper hx hi r h
  simp only [indexValue, inShiftRange, Bool.and_eq_true, decide_eq_true_eq] at hknown
  split at hknown
  · rename_i hj
    unfold Unknowns.at
    split
    · exact absurd rfl (hk _ _)
    · rw [if_pos hj.1]
      exact Option.some.inj hknown
  · cases hknown

theorem Unknowns.bitsFrom_of_sliceValue {x m l : Option Int} {u hi lo r : Int} (hx : Sharper x (some u))
    (hm : Sharper m (some hi)) (hl : Sharper l (some lo)) (h : sliceValue x m l = some r) : ω.bitsFrom u hi lo = r := by
  have hknown := sliceValue_sharper hx hm hl r h
  simp only [sliceValue, inShiftRange, Bool.and_eq_true, decide_eq_true_eq] at hknown
  split at hknown
  · rename_i hlo
    rw [Unknowns.bitsFrom, if_pos ⟨hlo.1.1, hlo.2⟩]
    exact Option.some.inj hknown
  · cases hknown

theorem Store.Agrees.value_eq (h : st.Agrees b) {s : Symbol} {v : Int} (hv : b.get? s = some v) : st.value s = v := by
  have hknown := h.within_known [s] s (by simp) v hv
  rw [st.get?_known (by simp)] at hknown
  exact Option.some.inj hknown

mutual
/-- Where evaluation finds a value, it is the value in every store that agrees with what is known. -/
theorem Expr.rawValue_of_raw (h : st.Agrees b) : ∀ e : Expr, Sharper (e.raw Γ b) (some (e.rawValue ω st))
  | .ref l s => fun v hv => by rw [rawValue, h.value_eq hv]
  | .num .. => by
    rw [raw, rawValue]
    exact refl _
  | .int .. => by
    rw [raw, rawValue]
    exact refl _
  | .unary l op x => by
    intro v hv
    rw [raw, Option.bind_eq_some_iff] at hv
    obtain ⟨u, hu, hop⟩ := hv
    have hx := Option.some.inj ((rawValue_of_raw h x).map (x.type Γ).normalize u hu)
    simp only [rawValue, hx, hop, Option.getD_some]
  | .binary l op x y => by
    intro v hv
    rw [raw] at hv
    have hop := apply_of_eval ((rawValue_of_raw h x).map _) ((rawValue_of_raw h y).map _) hv
    simp only [rawValue, hop, Option.getD_some]
  | .ternary l c x y => by
    intro v hv
    rw [raw] at hv
    have hknown := ternaryValue_sharper ((rawValue_of_raw h c).map _) ((rawValue_of_raw h x).map _)
      ((rawValue_of_raw h y).map _) v hv
    simp only [Option.map_some, ternaryValue] at hknown
    rw [rawValue, ← hknown]
    split <;> rfl
  | .cat l ps => by
    rw [raw, rawValue]
    exact rawJoin_of_rawParts h ps 0
  | .rep l n x => by
    intro v hv
    rw [raw] at hv
    have hknown := repValue_sharper (x.width Γ) ((rawValue_of_raw h n).map (n.type Γ).normalize)
      ((rawValue_of_raw h x).map (x.type Γ).normalize) v hv
    simp only [Option.map_some] at hknown
    simp only [rawValue, hknown, Option.getD_some]
  | .index l x i => by
    intro v hv
    rw [raw] at hv
    rw [rawValue]
    split at hv
    · nomatch hv
    · rename_i hk
      exact congrArg some
        (Unknowns.at_of_indexValue hk ((rawValue_of_raw h x).map _) ((rawValue_of_raw h i).map _) hv)
  | .slice l x m n => by
    intro v hv
    rw [raw] at hv
    rw [rawValue]
    exact congrArg some (Unknowns.bitsFrom_of_sliceValue ((rawValue_of_raw h x).map _)
      ((rawValue_of_raw h m).map _) ((rawValue_of_raw h n).map _) hv)
  | .select .. => none _
  | .call .. => none _

theorem Expr.rawJoin_of_rawParts (h : st.Agrees b) :
    ∀ (ps : List Expr) (front : Int), Sharper (rawParts Γ b front ps) (some (rawJoin ω st front ps))
  | [], front => by
    rw [rawParts, rawJoin]
    exact refl _
  | p :: ps, front => by
    intro v hv
    rw [rawParts] at hv
    split at hv
    · rename_i u hu
      have hp := Option.some.inj ((rawValue_of_raw h p).map (p.type Γ).normalize u hu)
      split at hv
      · nomatch hv
      · rw [unsigned_eq, values_eq] at hv
        rw [rawJoin, hp]
        exact rawJoin_of_rawParts h ps _ v hv
    · nomatch hv
end

/-- Where evaluation finds a value it is this one. -/
theorem Expr.value_of_eval (h : st.Agrees b) {e : Expr} {v : Int} (hv : e.eval Γ b = some v) : e.value ω st = v :=
  Option.some.inj ((rawValue_of_raw h e).map (e.type Γ).normalize v hv)

/-! ## The symbols that count -/

def Store.SameOn (ss : List Symbol) (st st' : Store Γ) : Prop := ∀ s ∈ ss, st.value s = st'.value s

theorem Store.SameOn.left (h : SameOn (ss ++ ts) st st') : SameOn ss st st' :=
  fun s hs => h s (mem_append_left _ hs)

theorem Store.SameOn.right (h : SameOn (ss ++ ts) st st') : SameOn ts st st' :=
  fun s hs => h s (mem_append_right _ hs)

variable {st' : Store Γ}

theorem Store.SameOn.operand {e x : Expr} (h : st.SameOn e.symbols st') (hx : x ∈ e.operands) : st.SameOn x.symbols st' := by
  intro s hs
  obtain ⟨y, hy, hs⟩ := mem_filterMap.mp hs
  exact h s (mem_filterMap.mpr ⟨y, mem_subterms_of_operand hx hy, hs⟩)

theorem Expr.rawValues_map (es : List Expr) : rawValues ω st es = es.map (value ω st) := by
  induction es with
  | nil => rw [rawValues, map_nil]
  | cons e es ih => rw [rawValues, ih, map_cons, value]

theorem Expr.rawValue_congr (e : Expr) (h : st.SameOn e.symbols st') : e.rawValue ω st = e.rawValue ω st' := by
  induction e using of_operands with
  | h e ih =>
    have hop : ∀ x ∈ e.operands, x.rawValue ω st = x.rawValue ω st' := fun x hx => ih x hx (h.operand hx)
    have hvalue : ∀ x ∈ e.operands, x.value ω st = x.value ω st' := fun x hx => by rw [value, value, hop x hx]
    cases e with
    | ref l s => simpa [rawValue] using h s (by simp)
    | cat l ps =>
      rw [rawValue_cat, rawValue_cat]
      exact congrArg (join 0) (map_congr_left fun p hp => by rw [hvalue p hp])
    | call l f as =>
      rw [operands, forall_mem_cons] at hop hvalue
      rw [rawValue, rawValue, hop.1, rawValues_map, rawValues_map, map_congr_left hvalue.2]
    | _ => simp_all [rawValue, operands]

/-- The value depends on the symbols of the expression only. -/
theorem Expr.value_congr {e : Expr} (h : st.SameOn e.symbols st') : e.value ω st = e.value ω st' := by
  rw [value, value, rawValue_congr e h]

end

end HdlLowering
