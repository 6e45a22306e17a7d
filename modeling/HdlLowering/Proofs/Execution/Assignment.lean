import HdlLowering.Proofs.Execution.Valuation

/-!
# Assignments

A target is a variable, an index or a slice of a target, or several targets side by side. The value is cut into fields for the
targets (`Expr.cut`), and all are written at once (`Store.writeAll`).
-/

namespace HdlLowering

open List Expr Bits

variable {Γ : SymbolTable} {fields : List (Expr × Int)}

/-! ## Targets -/

def Expr.root? : Expr → Option Symbol
  | .ref _ s => some s
  | .index _ x _ => x.root?
  | .slice _ x _ _ => x.root?
  | _ => none

/-- The symbols that the positions in a target depend on. -/
def Expr.steers : Expr → List Symbol
  | .index _ x i => x.steers ++ i.symbols
  | .slice _ x m l => x.steers ++ m.symbols ++ l.symbols
  | _ => []

/-- Some bits of a value: a number of them from a position on. -/
structure BitRange where
  lo : Nat
  count : Nat
  deriving DecidableEq

def Kind.step : Kind → Nat
  | .array elem _ => size elem.width
  | _ => 1

/-- The bits at a position of a value of a kind. -/
def Kind.rangeAt (k : Kind) (i : Int) : BitRange := if 0 ≤ i then ⟨i.toNat * k.step, k.step⟩ else ⟨0, 0⟩

def BitRange.between (msb lsb : Int) : BitRange :=
  if 0 ≤ lsb ∧ lsb ≤ msb then ⟨lsb.toNat, (msb - lsb + 1).toNat⟩ else ⟨0, 0⟩

/-- What a target holds when its variable holds a value. The positions are read in a store. -/
def Expr.held (ω : Unknowns) (st : Store Γ) : Expr → Int → Int
  | .index _ x i, h =>
    let r := (x.type Γ).rangeAt (i.value ω st)
    (x.held ω st h >>> r.lo) % 2 ^ r.count
  | .slice _ x m l, h =>
    let r := BitRange.between (m.value ω st) (l.value ω st)
    (x.held ω st h >>> r.lo) % 2 ^ r.count
  | _, h => h

/-- What a variable holds, when it held a value, after another one is written to a target in it. -/
def Expr.put (ω : Unknowns) (st : Store Γ) : Expr → Int → Int → Int
  | .index _ x i, h, v =>
    let r := (x.type Γ).rangeAt (i.value ω st)
    x.put ω st h (replace (x.held ω st h) r.lo r.count v)
  | .slice _ x m l, h, v =>
    let r := BitRange.between (m.value ω st) (l.value ω st)
    x.put ω st h (replace (x.held ω st h) r.lo r.count v)
  | _, _, v => v

/-! ## Writing -/

variable (ω : Unknowns) (st : Store Γ)

/-- Writes a value to each of some targets, all at once: what a variable holds afterwards is found in the old store. -/
def Store.writeAll (fields : List (Expr × Int)) : Store Γ where
  value s :=
    match fields.find? (fun f => f.1.root? == some s) with
    | some f => (Γ.kind s).normalize (f.1.put ω st (st.value s) f.2)
    | none => st.value s
  fits s := by
    split
    · exact Kind.normalize_normalize _ _
    · exact st.fits s

def Expr.bitsList (Γ : SymbolTable) (ts : List Expr) : Nat := (ts.map (bits Γ)).sum

def Expr.cut (Γ : SymbolTable) : List Expr → Int → List (Expr × Int)
  | [], _ => []
  | t :: ts, v => (t, v >>> bitsList Γ ts) :: cut Γ ts v

def Expr.targets : Expr → List Expr
  | .cat _ ps => ps
  | e => [e]

def Store.receive (lhs : Expr) (v : Int) : Store Γ := st.writeAll ω (cut Γ lhs.targets v)

def Store.assign (lhs rhs : Expr) : Store Γ := st.receive ω lhs (rhs.value ω st)

section

variable {ω : Unknowns} {st : Store Γ}

@[simp] theorem Expr.bitsList_nil : bitsList Γ [] = 0 := rfl

@[simp] theorem Expr.bitsList_cons (t : Expr) (ts : List Expr) : bitsList Γ (t :: ts) = t.bits Γ + bitsList Γ ts := by
  simp [bitsList]

@[simp] theorem Expr.bitsList_append (ts ts' : List Expr) : bitsList Γ (ts ++ ts') = bitsList Γ ts + bitsList Γ ts' := by
  simp [bitsList]

theorem Expr.count_fields (es : List Expr) : Bits.count (Expr.fields ω st es) = bitsList Γ es := by
  simp [Bits.count, Expr.fields, bitsList, Function.comp_def]

theorem Expr.map_fst_cut (ts : List Expr) (v : Int) : (cut Γ ts v).map (·.1) = ts := by
  induction ts with
  | nil => rfl
  | cons t ts ih => rw [cut, map_cons, ih]

theorem Expr.mem_cut (before after : List Expr) (t : Expr) (v : Int) :
    (t, v >>> bitsList Γ after) ∈ cut Γ (before ++ t :: after) v := by
  induction before with
  | nil => exact mem_cons_self
  | cons b before ih => exact mem_cons_of_mem _ ih

theorem Store.writeAll_of_not_root {s : Symbol} (h : ∀ f ∈ fields, f.1.root? ≠ some s) :
    (st.writeAll ω fields).value s = st.value s := by
  have hnone : fields.find? (fun f => f.1.root? == some s) = none := by
    rw [find?_eq_none]
    intro f hf
    simpa using h f hf
  simp only [Store.writeAll, hnone]

/-- Positions, and what a partly written variable held, are read in the old store. -/
theorem Store.writeAll_of_mem {f : Expr × Int} {s : Symbol}
    (hroots : (fields.map fun f => f.1.root?).Nodup) (hf : f ∈ fields) (hs : f.1.root? = some s) :
    (st.writeAll ω fields).value s = (Γ.kind s).normalize (f.1.put ω st (st.value s) f.2) := by
  have hfind : fields.find? (fun f => f.1.root? == some s) = some f := by
    induction fields with
    | nil => nomatch hf
    | cons g fields ih =>
      rw [map_cons, nodup_cons] at hroots
      rcases mem_cons.mp hf with rfl | hf
      · exact find?_cons_of_pos (by simpa using hs)
      · -- the variable of an earlier target is another one
        have hne : ¬ (g.1.root? == some s) = true := by
          intro heq
          refine hroots.1 (mem_map.mpr ⟨f, hf, ?_⟩)
          rw [hs]
          exact (beq_iff_eq.mp heq).symm
        rw [find?_cons_of_neg (p := fun f : Expr × Int => f.1.root? == some s) hne]
        exact ih hroots.2 hf
  simp only [Store.writeAll, hfind]

end

end HdlLowering
