import HdlLowering.Proofs.Execution.Clocked
import HdlLowering.Proofs.Stack.Layout

/-!
# The circuit of a stack

What the body of a stack computes in a clock cycle, on the values of its registers alone.
-/

namespace HdlLowering.StackEntity

open Expr Bits Stmt List Kind Machine

structure Inputs where
  en : Bool
  push : Bool
  pop : Bool
  set : Bool
  d : Int

def Inputs.pins (i : Inputs) : List (String × Int) :=
  [("en", ofBool i.en), ("push", ofBool i.push), ("pop", ofBool i.pop), ("set", ofBool i.set), ("d", i.d)]

variable {Γ : SymbolTable} {loc : Loc} {n : Nat} {rows : List Row} {connects : List Connect} {stmts : List Stmt} {e : Entity}
  {k : Nat} {elem : Kind}

section

variable (h : MadeOf loc n rows connects stmts e Γ)
include h

theorem MadeOf.listed {r : Row} (hr : rows[k]? = some r) : Γ.name ⟨n + k⟩ = r.name ∧ Γ.kind ⟨n + k⟩ = r.kind := by
  obtain ⟨more, hends⟩ := h.ends
  refine hends.listed k (r.name, r.kind) ?_
  have hlt := (List.getElem?_eq_some_iff.mp hr).1
  rw [List.getElem?_append_left (by simpa [signature] using hlt), signature, List.getElem?_map, hr]
  rfl

theorem MadeOf.underlying {r : Row} (hr : rows[k]? = some r) : (Γ.kind ⟨n + k⟩).underlying = r.kind.underlying :=
  congrArg Kind.underlying (h.listed hr).2

theorem MadeOf.declared {name : String}
    (hk : (rows.map Row.name)[k]? = some name) (hfirst : name ∉ (rows.map Row.name).take k) :
    e.declared? Γ name = some ⟨n + k⟩ := by
  obtain ⟨r, hr, rfl⟩ : ∃ r, rows[k]? = some r ∧ r.name = name := by simpa using hk
  have hlt := (List.getElem?_eq_some_iff.mp hr).1
  have hfind : e.decls.find? (fun d => Γ.name d.symbol == r.name) = some ⟨loc, ⟨n + k⟩, r.init⟩ := by
    rw [List.find?_eq_some_iff_getElem]
    refine ⟨by simpa using (h.listed hr).1, k, by simpa [h.decls, declsAt] using hlt, ?_, ?_⟩
    · have hrow := (List.getElem?_eq_some_iff.mp hr).2
      simp [h.decls, declsAt, hrow]
    · intro j hj
      have hname : Γ.name ⟨n + j⟩ = rows[j].name := (h.listed (List.getElem?_eq_getElem (by omega))).1
      have hne : rows[j].name ≠ r.name := by
        intro heq
        refine hfirst (List.mem_take_iff_getElem.mpr ⟨j, by simp; omega, ?_⟩)
        simpa using heq
      simpa [h.decls, declsAt, hname] using hne
  rw [Entity.declared?, hfind]
  rfl

end

/-! ## Frames -/

/-- The values of the symbols of a stack, by their positions, and of the cells of its array. -/
structure Frame where
  reg : Nat → Int
  cell : Int → Int

variable (f : Frame)

def Frame.set (k : Nat) (v : Int) : Frame := { f with reg := fun j => if j = k then v else f.reg j }

def Frame.setCell (i v : Int) : Frame := { f with cell := fun j => if j = i then v else f.cell j }

@[simp] theorem Frame.set_reg (j k : Nat) (v : Int) : (f.set k v).reg j = if j = k then v else f.reg j := rfl

@[simp] theorem Frame.set_cell (k : Nat) (v : Int) : (f.set k v).cell = f.cell := rfl

@[simp] theorem Frame.setCell_reg (i v : Int) : (f.setCell i v).reg = f.reg := rfl

/-- A machine holds the values of a frame. No assignment was made to an element outside of a size, and no value assigned to the
first register was cut. -/
structure Held (n cap : Nat) (m : Machine Γ) (f : Frame) : Prop where
  reg : ∀ k, m.store.value ⟨n + k⟩ = f.reg k
  cell : m.cell ⟨n + 9⟩ = f.cell
  writes : ∀ w ∈ m.writes, w.Inside cap ∧ (w.target = pin n 8 → w.Exact)

variable {cap : Nat} {m : Machine Γ} {f : Frame}

section

variable (h : Held n cap m f)
include h

theorem Held.congr {f' : Frame} (hreg : ∀ k, f'.reg k = f.reg k) (hcell : f'.cell = f.cell) : Held n cap m f' where
  reg k := (h.reg k).trans (hreg k).symm
  cell := h.cell.trans hcell.symm
  writes := h.writes

theorem Held.valueIn (k : Nat) : (pin n k).valueIn m.store = some (f.reg k) := by
  rw [← h.reg k]
  exact valueIn_ref _ _ _

theorem Held.isBit {b : Bool} (hkind : (Γ.kind ⟨n + k⟩).underlying = .uint 1)
    (hb : f.reg k = ofBool b) : (pin n k).IsBit m.store b :=
  isWord_ref _ hkind ((h.reg k).trans hb)

theorem Held.set (k : Nat) (v : Int) : Held n cap (m.set ⟨n + k⟩ v) (f.set k ((Γ.kind ⟨n + k⟩).normalize v)) where
  reg j := by
    by_cases hj : j = k
    · subst hj
      simp [Machine.set]
    · have hne : (⟨n + j⟩ : Symbol) ≠ ⟨n + k⟩ := by simpa using hj
      rw [Frame.set_reg, if_neg hj, ← h.reg j]
      exact Store.set_value_of_ne _ v hne
  cell := h.cell
  writes := h.writes

theorem Held.note {target value : Expr}
    (hinside : ∀ l a i, target = .index l a i → ∃ v, i.valueIn m.store = some v ∧ 0 ≤ v ∧ v < cap)
    (hexact : target = pin n 8 → value.rawIn m.store = value.valueIn m.store) : Held n cap (m.note target value) f where
  reg := h.reg
  cell := h.cell
  writes w hw := by
    rcases mem_append.mp hw with hw | hw
    · exact h.writes w hw
    · obtain rfl := mem_singleton.mp hw
      exact ⟨hinside, hexact⟩

theorem assign_held {rhs : Expr} {v : Int} (hkind : (Γ.kind ⟨n + k⟩).underlying = rhs.type Γ)
    (hv : rhs.valueIn m.store = some v) (hexact : k = 8 → rhs.rawIn m.store = some v) :
    ∃ m', (assign (pin n k) rhs).exec m = some m' ∧ Held n cap m' (f.set k v) := by
  refine ⟨_, exec_assign _ _ _ hv, ?_⟩
  have hnote : Held n cap (m.note (pin n k) rhs) f := by
    refine h.note nofun fun heq => ?_
    have hk : k = 8 := by simpa [pin, ofSymbol] using heq
    rw [hexact hk, hv]
  have hset := hnote.set k v
  rw [← normalize_underlying, hkind, normalize_of_eval hv] at hset
  exact hset

theorem assign_top_held {size : Int64} {rhs : Expr} {v : Int}
    (hkind : (Γ.kind ⟨n + 9⟩).underlying = .array elem size) (h0 : 0 ≤ f.reg 8) (hcap : f.reg 8 < cap)
    (hsize : f.reg 8 < size.toInt) (hv : rhs.valueIn m.store = some v) :
    ∃ m', (assign (top n) rhs).exec m = some m' ∧ Held n cap m' (f.setCell (f.reg 8) (elem.normalize v)) := by
  refine ⟨_, exec_assign_element _ _ _ hkind (h.valueIn 8) h0 hsize hv, ?_⟩
  have hnote : Held n cap (m.note (top n) rhs) f := by
    refine h.note (fun l a i heq => ?_) fun heq => nomatch heq
    obtain rfl : pin n 8 = i := by
      rw [top] at heq
      injection heq
    exact ⟨f.reg 8, h.valueIn 8, h0, hcap⟩
  refine ⟨hnote.reg, ?_, hnote.writes⟩
  funext j
  simp [setCell, Frame.setCell, note, h.cell]

end

def Frame.drive (elem : Kind) (i : Inputs) : Frame :=
  ((((f.set 0 (ofBool i.en)).set 1 (ofBool i.push)).set 2 (ofBool i.pop)).set 3 (ofBool i.set)).set 4
    (elem.normalize i.d)

theorem drive_held {depth : Int64} {more : List Row}
    (hΓ : MadeOf loc n (portRows elem depth ++ more) connects stmts e Γ) (h : Held n cap m f) (i : Inputs) :
    Held n cap (i.pins.foldl e.drive m) (f.drive elem i) := by
  have k0 := hΓ.underlying (k := 0) rfl
  have k1 := hΓ.underlying (k := 1) rfl
  have k2 := hΓ.underlying (k := 2) rfl
  have k3 := hΓ.underlying (k := 3) rfl
  have k4 := hΓ.underlying (k := 4) rfl
  have hbit : ∀ {k : Nat} (b : Bool), (Γ.kind ⟨n + k⟩).underlying = .uint 1 →
      (Γ.kind ⟨n + k⟩).normalize (ofBool b) = ofBool b := by
    intro k b hk
    rw [← normalize_underlying, hk, normalize_ofBool]
  have hd : (Γ.kind ⟨n + 4⟩).normalize i.d = elem.normalize i.d := by
    rw [← normalize_underlying, k4]
    simp [underlying]
  have hset := ((((h.set 0 (ofBool i.en)).set 1 (ofBool i.push)).set 2 (ofBool i.pop)).set 3
    (ofBool i.set)).set 4 i.d
  rw [hbit i.en k0, hbit i.push k1, hbit i.pop k2, hbit i.set k3, hd] at hset
  have hpins : i.pins.foldl e.drive m = ((((m.set ⟨n + 0⟩ (ofBool i.en)).set ⟨n + 1⟩ (ofBool i.push)).set ⟨n + 2⟩
      (ofBool i.pop)).set ⟨n + 3⟩ (ofBool i.set)).set ⟨n + 4⟩ i.d := by
    simp only [Inputs.pins, foldl, Entity.drive]
    rw [hΓ.declared (k := 0) rfl (of_decide_eq_true rfl), hΓ.declared (k := 1) rfl (of_decide_eq_true rfl),
      hΓ.declared (k := 2) rfl (of_decide_eq_true rfl), hΓ.declared (k := 3) rfl (of_decide_eq_true rfl),
      hΓ.declared (k := 4) rfl (of_decide_eq_true rfl)]
  rw [hpins]
  exact hset

/-! ## One element -/

/-- The body of a stack of one element. -/
theorem latch_held (hΓ : MadeOf loc n (oneRows elem) connects stmts e Γ) (h : Held n cap m f)
    {push pop valid : Bool}
    (hpush : f.reg 1 = ofBool push) (hpop : f.reg 2 = ofBool pop) (hvalid : f.reg 9 = ofBool valid) :
    ∃ m', execList [assign (pin n 8) (pin n 4),
        assign (pin n 9) (binary .and (complement (pin n 2)) (binary .or (pin n 9) (pin n 1)))] m = some m' ∧
      Held n cap m' ((f.set 8 (f.reg 4)).set 9 (ofBool (!pop && (valid || push)))) := by
  have k1 := hΓ.underlying (k := 1) rfl
  have k2 := hΓ.underlying (k := 2) rfl
  have k4 := hΓ.underlying (k := 4) rfl
  have k8 := hΓ.underlying (k := 8) rfl
  have k9 := hΓ.underlying (k := 9) rfl
  have hraw : (pin n 4).rawIn m.store = some (f.reg 4) := by
    rw [← h.reg 4]
    exact rawIn_ref _ _
  have hkind : (Γ.kind ⟨n + 8⟩).underlying = (pin n 4).type Γ := k8.trans k4.symm
  obtain ⟨m1, hm1, h1⟩ := assign_held h hkind (h.valueIn 4) fun _ => hraw
  have hflag := ((h1.isBit k2 hpop).complement .synthetic).and .synthetic
    ((h1.isBit k9 hvalid).or .synthetic (h1.isBit k1 hpush))
  obtain ⟨m2, hm2, h2⟩ := assign_held h1 (k9.trans hflag.type.symm) hflag.value nofun
  exact ⟨m2, execList_cons hm1 (execList_cons hm2 rfl), h2⟩

/-! ## Several elements -/

section Many

variable {elem : Kind} {depth : Int64}

variable (hΓ : MadeOf loc n (manyRows elem depth) connects stmts e Γ)
include hΓ

/-- A stack of several elements that is popped. -/
theorem onPop_held (h : Held n cap m f) (h0 : 0 ≤ f.reg 8)
    (hw : f.reg 8 < values (pointerWidth depth)) (hone : 1 < values (pointerWidth depth)) :
    ∃ m', execList (onPop n (pointerWidth depth)) m = some m' ∧
      Held n cap m' (((f.set 6 (ofBool (decide (f.reg 8 = 0)))).set 7 (ofBool false)).set 8
        (if f.reg 8 = 0 then 0 else f.reg 8 - 1)) := by
  have k6 := hΓ.underlying (k := 6) rfl
  have k7 := hΓ.underlying (k := 7) rfl
  have k8 := hΓ.underlying (k := 8) rfl
  have hptr : (pin n 8).IsWord m.store (pointerWidth depth) (f.reg 8) := isWord_ref _ k8 (h.reg 8)
  have hempty := hptr.eq .synthetic (isWord_int .synthetic (Int.le_refl 0) (values_pos _))
  obtain ⟨m1, hm1, h1⟩ := assign_held h (k6.trans hempty.type.symm) hempty.value nofun
  have hfull : (ofUInt 1 0).IsBit m1.store false := isWord_int .synthetic (by decide) (by decide)
  obtain ⟨m2, hm2, h2⟩ := assign_held h1 (k7.trans hfull.type.symm) hfull.value nofun
  have hcond := (h2.isBit k6 rfl).complement .synthetic
  by_cases hz : f.reg 8 = 0
  · rw [hz] at hcond h2
    refine ⟨m2, execList_cons hm1 (execList_cons hm2 (execList_cons (exec_no _ _ hcond rfl) rfl)), ?_⟩
    refine h2.congr (fun k => ?_) rfl
    by_cases hk : k = 8
    · simp [hk, hz]
    · simp [hk, hz]
  · simp only [hz, decide_false] at hcond h2 ⊢
    have hptr2 : (pin n 8).IsWord m2.store (pointerWidth depth) (f.reg 8) := isWord_ref _ k8 (h2.reg 8)
    have hlit : (ofUInt (pointerWidth depth) 1).IsWord m2.store _ 1 := isWord_int .synthetic (by decide) hone
    have hsub := hptr2.sub .synthetic hlit (by omega) (by omega)
    obtain ⟨m3, hm3, h3⟩ := assign_held h2 (k8.trans hsub.type.symm) hsub.value fun _ =>
      hptr2.rawIn_binary .synthetic .sub hlit
    exact ⟨m3, execList_cons hm1 (execList_cons hm2
      (execList_cons (exec_yes _ _ hcond (execList_cons hm3 rfl)) rfl)), h3⟩

/-- A stack of several elements that is pushed, or whose top is set. -/
theorem onPush_held (h : Held n cap m f) {push empty full : Bool}
    (hpush : f.reg 1 = ofBool push) (hempty : f.reg 6 = ofBool empty) (hfull : f.reg 7 = ofBool full)
    {ptr : Int} (hptr : ptr = if !empty && !full && push then f.reg 8 + 1 else f.reg 8) (h0 : 0 ≤ f.reg 8)
    (hdepth : ptr < depth.toInt) (hcap : ptr < cap) (hlast : (depth - 1).toInt < values (pointerWidth depth))
    (hlast0 : 0 ≤ (depth - 1).toInt) (hw : ptr < values (pointerWidth depth))
    (hone : 1 < values (pointerWidth depth)) :
    ∃ m', execList (onPush n (pointerWidth depth) depth) m = some m' ∧
      Held n cap m' ((((f.set 8 ptr).setCell ptr (elem.clone.normalize (f.reg 4))).set 6 (ofBool (empty && !push))).set 7
        (ofBool (decide (ptr = (depth - 1).toInt)))) := by
  have k1 := hΓ.underlying (k := 1) rfl
  have k6 := hΓ.underlying (k := 6) rfl
  have k7 := hΓ.underlying (k := 7) rfl
  have k8 := hΓ.underlying (k := 8) rfl
  have k9 := hΓ.underlying (k := 9) rfl
  have hroom := (((h.isBit k6 hempty).complement .synthetic).and .synthetic ((h.isBit k7 hfull).complement .synthetic)).and
    .synthetic (h.isBit k1 hpush)
  obtain ⟨m1, hm1, h1⟩ : ∃ m1, (Stmt.cond .synthetic
      (binary .and (binary .and (complement (pin n 6)) (complement (pin n 7))) (pin n 1))
      [assign (pin n 8) (binary .add (pin n 8) (.ofUInt (pointerWidth depth) 1))] []).exec m = some m1 ∧
      Held n cap m1 (f.set 8 ptr) := by
    cases hr : !empty && !full && push with
    | true =>
      rw [hr] at hroom hptr
      have hptr0 : (pin n 8).IsWord m.store (pointerWidth depth) (f.reg 8) := isWord_ref _ k8 (h.reg 8)
      have hlit : (ofUInt (pointerWidth depth) 1).IsWord m.store _ 1 := isWord_int .synthetic (by decide) hone
      have hadd := hptr0.add .synthetic hlit (by omega) (by simpa [hptr] using hw)
      obtain ⟨m1, hm1, h1⟩ := assign_held h (k8.trans hadd.type.symm) hadd.value fun _ =>
        hptr0.rawIn_binary .synthetic .add hlit
      rw [hptr]
      exact ⟨m1, exec_yes _ _ hroom (execList_cons hm1 rfl), h1⟩
    | false =>
      rw [hr] at hroom hptr
      refine ⟨m, exec_no _ _ hroom rfl, h.congr (fun k => ?_) rfl⟩
      by_cases hk : k = 8
      · simp [hk, hptr]
      · simp [hk]
  obtain ⟨m2, hm2, h2⟩ := assign_top_held h1 k9 (by simp; omega) (by simpa using hcap) (by simpa using hdepth) (h1.valueIn 4)
  have hflag := (h2.isBit k6 hempty).and .synthetic ((h2.isBit k1 hpush).complement .synthetic)
  obtain ⟨m3, hm3, h3⟩ := assign_held h2 (k6.trans hflag.type.symm) hflag.value nofun
  have hptr3 : (pin n 8).IsWord m3.store (pointerWidth depth) ptr := isWord_ref _ k8 (h3.reg 8)
  have hfull3 := hptr3.eq .synthetic (isWord_int .synthetic hlast0 hlast)
  obtain ⟨m4, hm4, h4⟩ := assign_held h3 (k7.trans hfull3.type.symm) hfull3.value nofun
  exact ⟨m4, execList_cons hm1 (execList_cons hm2 (execList_cons hm3 (execList_cons hm4 rfl))), h4⟩

end Many

end HdlLowering.StackEntity
