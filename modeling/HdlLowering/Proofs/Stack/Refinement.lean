import HdlLowering.Proofs.Stack.Circuit

/-!
# Stacks refine bounded lists

In every clock cycle a generated stack does what `Inputs.next` does to a list of bounded capacity, and its outputs tell what is
in the list (`StackEntity.ofDepth_refines`), for every element type and every depth. The pointer of a stack of several elements
stays inside the array and never wraps around.
-/

namespace HdlLowering.StackEntity

open List Expr Bits Stmt Entity

variable {l : List Int} {cap : Nat} {f : Frame} {connects : List Connect} {Γ : SymbolTable}

/-- What a list of bounded capacity does in a clock cycle; its top comes first. -/
def Inputs.next (elem : Kind) (cap : Nat) (l : List Int) (i : Inputs) : List Int :=
  if !i.en then l
  else if i.pop then l.tail
  else if i.push then elem.normalize i.d :: (if l.length < cap then l else l.tail)
  else
    match l with
    | [] => []
    | _ :: rest => elem.normalize i.d :: rest

/-! ## Several elements -/

/-- The registers of a stack of several elements stand for a list: the cells hold it from the bottom up. -/
structure StandsFor (cap : Nat) (f : Frame) (l : List Int) : Prop where
  length : l.length ≤ cap
  empty : f.reg 6 = ofBool (decide (l.length = 0))
  full : f.reg 7 = ofBool (decide (l.length = cap))
  ptr : f.reg 8 = (l.length - 1 : Nat)
  cells : ∀ (k : Nat) (v : Int), l.reverse[k]? = some v → f.cell k = v

theorem cells_cons {cell : Int → Int} (h : ∀ (k : Nat) (v : Int), l.reverse[k]? = some v → cell k = v) (x : Int)
    (k : Nat) (v : Int) (hv : (x :: l).reverse[k]? = some v) : (if (k : Int) = l.length then x else cell k) = v := by
  rw [reverse_cons, getElem?_append, length_reverse] at hv
  by_cases hk : k < l.length
  · rw [if_pos hk] at hv
    rw [if_neg (by omega)]
    exact h k v hv
  · rw [if_neg hk] at hv
    have hk0 : k - l.length = 0 := by
      have := (List.getElem?_eq_some_iff.mp hv).1
      simp at this
      omega
    rw [hk0] at hv
    rw [if_pos (by omega)]
    exact Option.some.inj hv

theorem StandsFor.cells_tail (h : StandsFor cap f l) (k : Nat) (v : Int) (hv : l.tail.reverse[k]? = some v) : f.cell k = v := by
  cases l with
  | nil => simp at hv
  | cons x l =>
    rw [tail_cons] at hv
    refine h.cells k v ?_
    rw [reverse_cons, getElem?_append_left (List.getElem?_eq_some_iff.mp hv).1]
    exact hv

theorem ofBool_congr {p q : Prop} [Decidable p] [Decidable q] (h : p ↔ q) : ofBool (decide p) = ofBool (decide q) :=
  congrArg ofBool (decide_eq_decide.mpr h)

theorem StandsFor.pop (h : StandsFor cap f l) (hcap : 0 < cap) :
    StandsFor cap (((f.set 6 (ofBool (decide (f.reg 8 = 0)))).set 7 (ofBool false)).set 8
      (if f.reg 8 = 0 then 0 else f.reg 8 - 1)) l.tail := by
  have hlen := h.length
  have hptr := h.ptr
  have htail := length_tail (l := l)
  refine ⟨by omega, ofBool_congr (by omega), ?_, ?_, h.cells_tail⟩
  · exact congrArg ofBool (decide_eq_false (by omega)).symm
  · change (if f.reg 8 = 0 then 0 else f.reg 8 - 1) = _
    split <;> omega

theorem StandsFor.put {rest : List Int}
    (hcells : ∀ (k : Nat) (v : Int), rest.reverse[k]? = some v → f.cell k = v) (hlen : rest.length < cap) (v : Int) :
    StandsFor cap ((((f.set 8 rest.length).setCell rest.length v).set 6 (ofBool false)).set 7
      (ofBool (decide ((rest.length : Int) = cap - 1)))) (v :: rest) := by
  have hcons : (v :: rest).length = rest.length + 1 := rfl
  refine ⟨by omega, ?_, ofBool_congr (by omega), ?_, cells_cons hcells v⟩
  · exact congrArg ofBool (decide_eq_false (by omega)).symm
  · simp

theorem StandsFor.push (h : StandsFor cap f l) (hcap : 2 ≤ cap) (i : Inputs)
    (elem : Kind) (hen : i.en = true) (hpop : i.pop = false) {ptr : Int}
    (hptr : ptr = if !decide (l.length = 0) && !decide (l.length = cap) && i.push then f.reg 8 + 1 else f.reg 8) :
    StandsFor cap ((((f.set 8 ptr).setCell ptr (elem.normalize i.d)).set 6
      (ofBool (decide (l.length = 0) && !i.push))).set 7 (ofBool (decide (ptr = cap - 1)))) (i.next elem cap l) := by
  rw [h.ptr] at hptr
  cases l with
  | nil =>
    obtain rfl : ptr = 0 := by simpa using hptr
    cases hpush : i.push with
    | true =>
      have hnext : i.next elem cap [] = [elem.normalize i.d] := by simp [Inputs.next, hen, hpop, hpush]
      rw [hnext]
      exact StandsFor.put h.cells (by simp; omega) _
    | false =>
      have hnext : i.next elem cap [] = [] := by simp [Inputs.next, hen, hpop, hpush]
      rw [hnext]
      refine ⟨by simp, rfl, ofBool_congr (by simp; omega), rfl, nofun⟩
  | cons x rest =>
    have hlen : rest.length + 1 ≤ cap := h.length
    by_cases hroom : i.push = true ∧ rest.length + 1 < cap
    · have hnext : i.next elem cap (x :: rest) = elem.normalize i.d :: x :: rest := by
        simp [Inputs.next, hen, hpop, hroom]
      obtain rfl : ptr = (x :: rest).length := by
        rw [hptr]
        simp [hroom]
        omega
      rw [hnext]
      exact StandsFor.put h.cells hroom.2 _
    · have hnext : i.next elem cap (x :: rest) = elem.normalize i.d :: rest := by
        cases hpush : i.push <;> simp_all [Inputs.next]
      obtain rfl : ptr = rest.length := by
        rw [hptr]
        cases hpush : i.push with
        | true =>
          have hfull : rest.length + 1 = cap := by
            have := mt (And.intro hpush) hroom
            omega
          simp [hfull]
          omega
        | false => simp
      have hcells : ∀ (k : Nat) (v : Int), rest.reverse[k]? = some v → f.cell k = v := h.cells_tail
      rw [hnext]
      exact StandsFor.put hcells hlen _

theorem toNat_toUInt64 {x : Int64} (h : 0 ≤ x.toInt) : (x.toUInt64.toNat : Int) = x.toInt := by
  have hlt := x.toUInt64.toBitVec.isLt
  change ((x.toUInt64.toBitVec.toNat : Nat) : Int) = x.toInt
  rw [Int64.toBitVec_toUInt64] at hlt ⊢
  rw [Int64.toInt.eq_1, BitVec.toInt_eq_toNat_cond] at h ⊢
  split at h <;> omega

theorem lt_values_bitsFor {n : UInt64} (h : n ≠ 0) : (n.toNat : Int) < values (bitsFor n) := by
  have hlog : n.toNat.log2 + 1 < 2 ^ 63 := by
    have hlt : n.toNat.log2 < 64 := (Nat.log2_lt (by simpa [← UInt64.toNat_inj] using h)).mpr n.toNat_lt
    omega
  rw [bitsFor, if_neg h, values, size, Int64.toInt_ofNat_of_lt hlog, Int.toNat_natCast]
  exact Int.ofNat_lt.mpr Nat.lt_log2_self

theorem depth_facts {depth : Int64} (h : 0 < depth) (h1 : depth ≠ 1) : 2 ≤ depth.toInt ∧
    (depth - 1).toInt = depth.toInt - 1 ∧ depth.toInt - 1 < values (pointerWidth depth) := by
  have hpos : 0 < depth.toInt := Int64.lt_iff_toInt_lt.mp h
  have hne : depth.toInt ≠ 1 := fun heq => h1 (Int64.toInt_inj.mp heq)
  have hlt := depth.toInt_lt
  have hsub : (depth - 1).toInt = depth.toInt - 1 := by
    rw [Int64.toInt_sub]
    exact Int.bmod_eq_of_le (by simp; omega) (by simp; omega)
  refine ⟨by omega, hsub, ?_⟩
  have hnat := toNat_toUInt64 (x := depth - 1) (by omega)
  rw [← hsub, ← hnat]
  refine lt_values_bitsFor fun hzero => ?_
  rw [hzero] at hnat
  have : (0 : Int) = (depth - 1).toInt := hnat
  omega

theorem cycle_many {loc : Loc} {n : Nat} {e : Entity} {elem : Kind} {depth : Int64}
    (h : 0 < depth) (h1 : depth ≠ 1) (hΓ : MadeOf loc n (manyRows elem depth) connects (manyStmts loc n depth) e Γ)
    (l : List Int) (m : Machine Γ) (i : Inputs) (hm : ∃ f, Held n depth.toInt.toNat m f ∧ StandsFor depth.toInt.toNat f l) :
    ∃ m', e.cycle m i.pins = some m' ∧
      ∃ f, Held n depth.toInt.toNat m' f ∧ StandsFor depth.toInt.toNat f (i.next elem depth.toInt.toNat l) := by
  obtain ⟨f, hheld, hl⟩ := hm
  obtain ⟨htwo, hsub, hwidth⟩ := depth_facts h h1
  have hdriven := drive_held hΓ hheld i
  have hstands : StandsFor depth.toInt.toNat (f.drive elem i) l := ⟨hl.length, hl.empty, hl.full, hl.ptr, hl.cells⟩
  have k0 := hΓ.underlying (k := 0) rfl
  have k2 := hΓ.underlying (k := 2) rfl
  have hen := hdriven.isBit (b := i.en) k0 rfl
  have hpop := hdriven.isBit (b := i.pop) k2 rfl
  have hlen := hl.length
  have hptr := hstands.ptr
  rw [cycle, hΓ.stmts, manyStmts]
  cases hien : i.en with
  | false =>
    rw [hien] at hen
    have hnext : i.next elem depth.toInt.toNat l = l := by simp [Inputs.next, hien]
    rw [hnext]
    exact ⟨_, execList_cons (exec_no _ _ hen rfl) rfl, _, hdriven, hstands⟩
  | true =>
    rw [hien] at hen
    cases hipop : i.pop with
    | true =>
      rw [hipop] at hpop
      obtain ⟨m', hm', hheld'⟩ := onPop_held hΓ hdriven (by omega) (by omega) (by omega)
      have hnext : i.next elem depth.toInt.toNat l = l.tail := by simp [Inputs.next, hien, hipop]
      rw [hnext]
      exact ⟨m', execList_cons (exec_yes _ _ hen (execList_cons (exec_yes _ _ hpop hm') rfl)) rfl, _,
        hheld', hstands.pop (by omega)⟩
    | false =>
      rw [hipop] at hpop
      have hpush : (f.drive elem i).reg 1 = ofBool i.push := rfl
      have hd : elem.clone.normalize ((f.drive elem i).reg 4) = elem.normalize i.d := by
        change elem.clone.normalize (elem.normalize i.d) = _
        simp
      have hlast : (depth - 1).toInt = depth.toInt.toNat - 1 := by omega
      obtain ⟨ptr, hptr'⟩ : ∃ ptr, ptr = if !decide (l.length = 0) && !decide (l.length = depth.toInt.toNat) && i.push
          then (f.drive elem i).reg 8 + 1 else (f.drive elem i).reg 8 := ⟨_, rfl⟩
      have hinside : ptr < depth.toInt := by
        rw [hptr']
        split
        · rename_i hroom
          simp only [Bool.and_eq_true, Bool.not_eq_true', decide_eq_false_iff_not] at hroom
          omega
        · omega
      obtain ⟨m', hm', hheld'⟩ := onPush_held hΓ hdriven hpush hstands.empty hstands.full hptr' (by omega) hinside
        (by omega) (by omega) (by omega) (by omega) (by omega)
      rw [hd, hlast] at hheld'
      exact ⟨m', execList_cons (exec_yes _ _ hen (execList_cons (exec_no _ _ hpop hm') rfl)) rfl, _,
        hheld', hstands.push (by omega) i elem hien hipop hptr'⟩

/-! ## One element -/

/-- The registers of a stack of one element stand for a list. -/
structure OneStandsFor (f : Frame) (l : List Int) : Prop where
  length : l.length ≤ 1
  valid : f.reg 9 = ofBool (decide (l.length = 1))
  top : ∀ v, l.head? = some v → f.reg 8 = v

theorem OneStandsFor.latch (h : OneStandsFor f l) (i : Inputs) (elem : Kind) (hen : i.en = true) :
    OneStandsFor ((f.set 8 (elem.normalize i.d)).set 9 (ofBool (!i.pop && (decide (l.length = 1) || i.push))))
      (i.next elem 1 l) := by
  have hlen := h.length
  obtain rfl | ⟨x, rfl⟩ : l = [] ∨ ∃ x, l = [x] := by
    cases l with
    | nil => exact Or.inl rfl
    | cons x l =>
      obtain rfl : l = [] := eq_nil_of_length_eq_zero (by simpa using hlen)
      exact Or.inr ⟨x, rfl⟩
  · cases hpop : i.pop <;> cases hpush : i.push <;> constructor <;> simp [Inputs.next, hen, hpop, hpush]
  · cases hpop : i.pop <;> cases hpush : i.push <;> constructor <;> simp [Inputs.next, hen, hpop, hpush]

theorem cycle_one {loc : Loc} {n : Nat} {e : Entity} {elem : Kind}
    (hΓ : MadeOf loc n (oneRows elem) connects (oneStmts loc n) e Γ) (l : List Int) (m : Machine Γ) (i : Inputs)
    (hm : ∃ f, Held n 1 m f ∧ OneStandsFor f l) :
    ∃ m', e.cycle m i.pins = some m' ∧ ∃ f, Held n 1 m' f ∧ OneStandsFor f (i.next elem 1 l) := by
  obtain ⟨f, hheld, hl⟩ := hm
  have hdriven := drive_held hΓ hheld i
  have hstands : OneStandsFor (f.drive elem i) l := ⟨hl.length, hl.valid, hl.top⟩
  have k0 := hΓ.underlying (k := 0) rfl
  have hen := hdriven.isBit (b := i.en) k0 rfl
  have hpush : (f.drive elem i).reg 1 = ofBool i.push := rfl
  have hpop : (f.drive elem i).reg 2 = ofBool i.pop := rfl
  rw [cycle, hΓ.stmts, oneStmts]
  cases hien : i.en with
  | false =>
    rw [hien] at hen
    have hnext : i.next elem 1 l = l := by simp [Inputs.next, hien]
    rw [hnext]
    exact ⟨_, execList_cons (exec_no _ _ hen rfl) rfl, _, hdriven, hstands⟩
  | true =>
    rw [hien] at hen
    obtain ⟨m', hm', hheld'⟩ := latch_held hΓ hdriven hpush hpop hstands.valid
    exact ⟨m', execList_cons (exec_yes _ _ hen hm') rfl, _, hheld', hstands.latch i elem hien⟩

/-! ## Starting and observing -/

section

variable {Γ : SymbolTable} {loc : Loc} {n : Nat} {e : Entity} {elem : Kind} {depth : Int64} {connects : List Connect}
  {stmts : List Stmt} {m : Machine Γ} {f : Frame}

/-- What a machine holds is a frame, once the assignments are forgotten. -/
theorem held_forget (n cap : Nat) (m : Machine Γ) : ∃ f, Held n cap { m with writes := [] } f :=
  ⟨⟨fun k => m.store.value ⟨n + k⟩, m.cell ⟨n + 9⟩⟩, fun _ => rfl, rfl, nofun⟩

theorem start_many (h : 0 < depth) (h1 : depth ≠ 1) (hΓ : MadeOf loc n (manyRows elem depth) connects stmts e Γ)
    (m : Machine Γ) :
    ∃ f, Held n depth.toInt.toNat (e.start m) f ∧ StandsFor depth.toInt.toNat f [] := by
  obtain ⟨f, hf⟩ := held_forget n depth.toInt.toNat m
  obtain ⟨htwo, -, -⟩ := depth_facts h h1
  have hstart : e.start m = ((({ m with writes := [] } : Machine Γ).set ⟨n + 6⟩ 1).set ⟨n + 7⟩ 0).set ⟨n + 8⟩
      ((Kind.uint (pointerWidth depth)).normalize 0) := by
    rw [start, hΓ.decls]
    simp only [declsAt, manyRows, portRows, if_neg h1]
    rfl
  have k6 := hΓ.underlying (k := 6) rfl
  have hempty : (Γ.kind ⟨n + 6⟩).normalize 1 = 1 := by
    rw [← Kind.normalize_underlying, k6]
    rfl
  have hheld := ((hf.set 6 1).set 7 0).set 8 ((Kind.uint (pointerWidth depth)).normalize 0)
  rw [← hstart] at hheld
  simp only [hempty, Kind.normalize_zero] at hheld
  have hcap : 0 ≠ depth.toInt.toNat := by omega
  exact ⟨_, hheld, Nat.zero_le _, rfl, congrArg ofBool (decide_eq_false hcap).symm, rfl, by simp⟩

theorem start_one (hΓ : MadeOf loc n (oneRows elem) connects stmts e Γ) (m : Machine Γ) :
    ∃ f, Held n 1 (e.start m) f ∧ OneStandsFor f [] := by
  obtain ⟨f, hf⟩ := held_forget n 1 m
  have hstart : e.start m = ({ m with writes := [] } : Machine Γ).set ⟨n + 9⟩ 0 := by
    rw [start, hΓ.decls]
    rfl
  have hheld := hf.set 9 0
  rw [← hstart, Kind.normalize_zero] at hheld
  exact ⟨_, hheld, Nat.zero_le _, rfl, nofun⟩

/-- What is seen of a stack that holds a list. A pointer points into the array, only elements in the array were assigned to, and
every value assigned to the pointer was kept as it was computed. -/
structure Shows (e : Entity) (m : Machine Γ) (cap : Nat) (l : List Int) : Prop where
  capacity : l.length ≤ cap
  empty : e.output m "empty" = some (ofBool (decide (l.length = 0)))
  full : e.output m "full" = some (ofBool (decide (l.length = cap)))
  top : ∀ v, l.head? = some v → e.output m "q" = some v
  pointer : 2 ≤ cap → ∃ p, e.declared? Γ "ptr" = some p ∧ 0 ≤ m.store.value p ∧ m.store.value p < cap ∧
    ∀ w ∈ m.writes, w.Inside cap ∧ (w.target = .ofSymbol p → w.Exact)

theorem output_reg (hm : Held n cap m f) {name : String} {k : Nat} (hname : e.declared? Γ name = some ⟨n + k⟩)
    (hfind : (e.connects.find? fun c => c.sinks.any fun x => x.symbol? == some ⟨n + k⟩) = none) :
    e.output m name = some (f.reg k) := by
  rw [output, hname, Option.bind_some, hfind]
  exact congrArg some (hm.reg k)

theorem output_wire {name : String} {k : Nat} {c : Connect} (hname : e.declared? Γ name = some ⟨n + k⟩)
    (hfind : (e.connects.find? fun c => c.sinks.any fun x => x.symbol? == some ⟨n + k⟩) = some c) :
    e.output m name = m.read c.source := by
  rw [output, hname, Option.bind_some, hfind]

theorem StandsFor.shows (h : 0 < depth) (h1 : depth ≠ 1)
    (hΓ : MadeOf loc n (manyRows elem depth) [wire loc (top n) (pin n 5)] stmts e Γ)
    (hm : Held n depth.toInt.toNat m f) (hl : StandsFor depth.toInt.toNat f l) : Shows e m depth.toInt.toNat l where
  capacity := hl.length
  empty := by
    rw [← hl.empty]
    exact output_reg hm (hΓ.declared rfl (of_decide_eq_true rfl))
      (by simp [hΓ.connects, wire, pin, ofSymbol, symbol?])
  full := by
    rw [← hl.full]
    exact output_reg hm (hΓ.declared rfl (of_decide_eq_true rfl))
      (by simp [hΓ.connects, wire, pin, ofSymbol, symbol?])
  top v hv := by
    have hout := output_wire (m := m) (hΓ.declared (k := 5) rfl (of_decide_eq_true rfl))
      (by simp [hΓ.connects, wire, pin, ofSymbol, symbol?]; rfl)
    have hlen := hl.length
    have hptr := hl.ptr
    have k9 := hΓ.underlying (k := 9) rfl
    cases l with
    | nil => simp at hv
    | cons x rest =>
      obtain rfl : x = v := by simpa using hv
      have hcell : f.cell rest.length = x := hl.cells rest.length x (by simp)
      have hat : f.reg 8 = rest.length := by simpa using hptr
      have hinside : rest.length + 1 ≤ depth.toInt.toNat := hlen
      have helement : m.element? (top n) = some (⟨n + 9⟩, elem.clone, f.reg 8) :=
        m.element?_index .synthetic .synthetic k9 (hm.valueIn 8) (by omega) (by omega)
      have hread : m.read (top n) = some (m.cell ⟨n + 9⟩ (f.reg 8)) := by
        rw [Machine.read, helement]
      rw [hm.cell, hat, hcell] at hread
      exact hout.trans hread
  pointer _ := by
    obtain ⟨htwo, -, -⟩ := depth_facts h h1
    refine ⟨⟨n + 8⟩, hΓ.declared rfl (of_decide_eq_true rfl), ?_, ?_, hm.writes⟩
    · rw [hm.reg 8, hl.ptr]
      omega
    · have := hl.length
      rw [hm.reg 8, hl.ptr]
      omega

theorem OneStandsFor.shows (hΓ : MadeOf loc n (oneRows elem) (oneConnects loc n) stmts e Γ) (hm : Held n 1 m f)
    (hl : OneStandsFor f l) : Shows e m 1 l := by
  have k9 := hΓ.underlying (k := 9) rfl
  have hlen := hl.length
  have hvalid := hm.isBit k9 hl.valid
  refine ⟨hl.length, ?_, ?_, ?_, nofun⟩
  · have hout := output_wire (m := m) (hΓ.declared (k := 6) rfl (of_decide_eq_true rfl))
      (by simp [hΓ.connects, oneConnects, wire, pin, ofSymbol, symbol?]; rfl)
    have hempty : (!decide (l.length = 1)) = decide (l.length = 0) := by
      rw [← decide_not, decide_eq_decide]
      omega
    have hread := (hvalid.complement .synthetic).value
    rw [hempty] at hread
    exact hout.trans hread
  · have hout := output_wire (m := m) (hΓ.declared (k := 7) rfl (of_decide_eq_true rfl))
      (by simp [hΓ.connects, oneConnects, wire, pin, ofSymbol, symbol?]; rfl)
    exact hout.trans hvalid.value
  · intro v hv
    have hout := output_wire (m := m) (hΓ.declared (k := 5) rfl (of_decide_eq_true rfl))
      (by simp [hΓ.connects, oneConnects, wire, pin, ofSymbol, symbol?]; rfl)
    rw [← hl.top v hv]
    exact hout.trans (hm.valueIn 8)

end

/-- Generated stacks refine bounded lists. For every element type and every depth a stack can be made, and from whatever its
machine held before it was started, it runs through every sequence of cycles, using no element outside of its array. After them
it shows what is in the list that goes through the same cycles. -/
theorem ofDepth_refines (c : Context) (name : String) (loc : Loc) (elem : Kind) (depth : Int64) (hdepth : 0 < depth) :
    ∃ e c', ofDepth name loc elem depth c = .ok e c' ∧
      ∀ (m : Machine c'.symbols) (is : List Inputs), ∃ m', e.run (e.start m) (is.map Inputs.pins) = some m' ∧
        Shows e m' depth.toInt.toNat (is.foldl (Inputs.next elem depth.toInt.toNat) []) := by
  by_cases h1 : depth = 1
  · subst h1
    obtain ⟨e, c', hmade, hΓ⟩ := ofDepth_one c name loc elem
    refine ⟨e, c', hmade, fun m is => ?_⟩
    obtain ⟨m', hrun, f, hheld, hl⟩ := e.run_follows (cycle_one hΓ) is (start_one hΓ m)
    exact ⟨m', hrun, hl.shows hΓ hheld⟩
  · obtain ⟨e, c', hmade, hΓ⟩ := ofDepth_many c name loc elem h1
    refine ⟨e, c', hmade, fun m is => ?_⟩
    obtain ⟨m', hrun, f, hheld, hl⟩ := e.run_follows (cycle_many hdepth h1 hΓ) is (start_many hdepth h1 hΓ m)
    exact ⟨m', hrun, hl.shows hdepth h1 hΓ hheld⟩

def pushesAndPop : List Inputs :=
  [⟨true, true, false, false, 1⟩, ⟨true, true, false, false, 2⟩, ⟨true, true, false, false, 3⟩, ⟨true, true, false, false, 4⟩,
    ⟨true, false, true, false, 0⟩]

/-- In a stack of three elements the fourth push replaces the third one, which the pop then takes. -/
theorem pushesAndPop_shown : (0 : Int64) < 3 ∧ ∃ e c', ofDepth "stk" {} (.uint 8) 3 {} = .ok e c' ∧
    ∀ m : Machine c'.symbols, ∃ m', e.run (e.start m) (pushesAndPop.map Inputs.pins) = some m' ∧ Shows e m' 3 [2, 1] := by
  obtain ⟨e, c', hmade, hrun⟩ := ofDepth_refines {} "stk" {} (.uint 8) 3 (by decide)
  exact ⟨by decide, e, c', hmade, fun m => hrun m pushesAndPop⟩

end HdlLowering.StackEntity
