import HdlLowering.Proofs.Interchange.Acceptance
import HdlLowering.Proofs.Symbols.Steps
import Mathlib.Algebra.Ring.Int.Defs
import Mathlib.Algebra.Ring.Nat

/-!
# Numbers of new symbols

Reading a design moves the counter of the compilation above the numbers in the file (`Interchange.lt_reserveAll`), and symbols
that are made afterwards get the numbers from there on (`Interchange.made_above_read`). The counter is a word: above the largest
number there is none, and a file may hold it (`LargestNumber.made_collides`).
-/

namespace HdlLowering

open List ContextM

/-! ## Making symbols -/

/-- A symbol to be made: one of its own, or one like another. -/
inductive Request where
  | new (cls : SymbolClass) (name : String) (loc : Loc) (kind : Kind)
  | like (s : Symbol)

namespace Request

def make : Request → ContextM Symbol
  | .new cls name loc kind => newSymbol cls name loc kind
  | .like s => symbolLike s

theorem newSymbol_ok (cls : SymbolClass) (name : String) (loc : Loc) (kind : Kind) (c : Context) :
    ∃ s c', newSymbol cls name loc kind c = .ok s c' ∧ c.symbols.Extended [] c'.symbols ∧
      s.index < c'.symbols.entries.size ∧ c'.symbols.id s = c.nextId ∧ c'.nextId = c.nextId + 1 := by
  let e : SymbolEntry := { id := c.nextId, name, loc, cls, kind }
  refine ⟨⟨c.symbols.entries.size⟩, { c with nextId := c.nextId + 1, symbols := (c.symbols.push e).2 }, rfl, .push _ _,
    by simp, ?_, rfl⟩
  change ((c.symbols.push e).2.entry _).id = e.id
  rw [SymbolTable.entry_push, if_pos rfl]

theorem make_ok (q : Request) (c : Context) : ∃ s c', q.make c = .ok s c' ∧ c.symbols.Extended [] c'.symbols ∧
    s.index < c'.symbols.entries.size ∧ c'.symbols.id s = c.nextId ∧ c'.nextId = c.nextId + 1 := by
  cases q with
  | new cls name loc kind => exact newSymbol_ok cls name loc kind c
  | like s => exact newSymbol_ok _ _ _ _ c

theorem makeAll_ok (qs : List Request) (c : Context) : ∃ ss c', qs.mapM make c = .ok ss c' ∧
    c.symbols.Extended [] c'.symbols ∧
    ss.map c'.symbols.id = (range qs.length).map fun i => c.nextId + Int64.ofNat i := by
  induction qs generalizing c with
  | nil => exact ⟨[], c, rfl, .refl _ _, rfl⟩
  | cons q qs ih =>
    obtain ⟨s, c1, hs, hext1, hlt, hid, hnext⟩ := make_ok q c
    obtain ⟨ss, c2, hss, hext2, hids⟩ := ih c1
    refine ⟨s :: ss, c2, ?_, hext1.trans hext2, ?_⟩
    · rw [mapM_cons, bind_ok hs, bind_ok hss]
      rfl
    · have hrest : ∀ i : Nat, c1.nextId + Int64.ofNat i = c.nextId + Int64.ofNat (i + 1) := by
        intro i
        rw [hnext, Nat.add_comm i 1, Int64.ofNat_add, Int64.add_assoc]
        rfl
      rw [map_cons, hids, hext2.id s hlt, hid, length_cons, range_succ_eq_map]
      simp [hrest]

theorem nodup_numbers (first : Int64) {n : Nat} (hn : n ≤ 2 ^ 64) :
    ((range n).map fun i => first + Int64.ofNat i).Nodup := by
  refine List.Nodup.map_on (fun i hi j hj hij => ?_) nodup_range
  have heq : Int64.ofNat i = Int64.ofNat j := (Int64.add_right_inj first).mp hij
  have hbits := congrArg (fun x : Int64 => x.toBitVec.toNat) heq
  simp only [Int64.toBitVec_ofNat', BitVec.toNat_ofNat] at hbits
  rw [mem_range] at hi hj
  omega

theorem toInt_number {first : Int64} {i : Nat} (hi : first.toInt + i < 2 ^ 63) :
    (first + Int64.ofNat i).toInt = first.toInt + i := by
  have hfirst := first.le_toInt
  have hsize : Int64.size = 2 ^ 64 := rfl
  rw [Int64.toInt_add, Int64.toInt_ofNat', hsize, Int.add_bmod_bmod]
  exact Int.bmod_eq_of_le (by omega) (by omega)

end Request

/-! ## Numbers in a file -/

namespace Interchange

/-- The counter after reserving some numbers, none of which is the largest: it is above all of them, and no higher than
needed. -/
theorem lt_reserveAll {ids : List Int64} (hids : ∀ id ∈ ids, id.toInt < 2 ^ 63 - 1) (next : Int64) :
    next ≤ reserveAll next ids ∧ (∀ id ∈ ids, id < reserveAll next ids) ∧
      (reserveAll next ids = next ∨ ∃ id ∈ ids, (reserveAll next ids).toInt = id.toInt + 1) := by
  induction ids generalizing next with
  | nil => exact ⟨Int64.le_refl _, by simp, .inl rfl⟩
  | cons id ids ih =>
    rw [forall_mem_cons] at hids
    -- the counter after the first number
    obtain ⟨next', hnext', hle, hlt, hcase⟩ : ∃ next', reserveAll next (id :: ids) = reserveAll next' ids ∧ next ≤ next' ∧
        id < next' ∧ (next' = next ∨ next'.toInt = id.toInt + 1) := by
      by_cases h : id < next
      · exact ⟨next, by simp [reserveAll, h], Int64.le_refl _, h, .inl rfl⟩
      · have hsucc : (id + 1).toInt = id.toInt + 1 := Request.toInt_number (i := 1) (by omega)
        refine ⟨id + 1, by simp [reserveAll, h], ?_, ?_, .inr hsucc⟩
        · rw [Int64.lt_iff_toInt_lt] at h
          rw [Int64.le_iff_toInt_le]
          omega
        · rw [Int64.lt_iff_toInt_lt]
          omega
    obtain ⟨hle', hlt', hcase'⟩ := ih hids.2 next'
    rw [hnext', forall_mem_cons]
    refine ⟨Int64.le_trans hle hle', ⟨Int64.lt_of_lt_of_le hlt hle', hlt'⟩, ?_⟩
    rcases hcase' with heq | ⟨x, hx, heq⟩
    · rw [heq]
      exact hcase.imp_right fun h => ⟨id, mem_cons_self, h⟩
    · exact .inr ⟨x, mem_cons_of_mem _ hx, heq⟩

theorem nextId_build {c c' : Context} {f : File} {r : Root} (h : f.build c = .ok (r, c')) :
    c'.nextId = reserveAll c.nextId (f.symbols.map (·.id)) := by
  obtain ⟨-, -, -, rfl⟩ := File.build_eq_ok.mp h
  rfl

/-- Symbols made after a design was read are different from each other, and above all symbols of the file when there are enough
numbers above those and above the counter. -/
theorem made_above_read {c c' : Context} {f : File} {r : Root} (hbuild : f.build c = .ok (r, c')) (qs : List Request) :
    ∃ ss c'', qs.mapM Request.make c' = .ok ss c'' ∧ ss.length = qs.length ∧
      (qs.length ≤ 2 ^ 64 → (ss.map c''.symbols.id).Nodup) ∧
      (c.nextId.toInt + qs.length ≤ 2 ^ 63 → (∀ x ∈ f.symbols, x.id.toInt + qs.length < 2 ^ 63) →
        ∀ s ∈ ss, ∀ x ∈ f.symbols, x.id < c''.symbols.id s) := by
  obtain ⟨ss, c'', hmade, -, hids⟩ := Request.makeAll_ok qs c'
  refine ⟨ss, c'', hmade, by simpa using congrArg List.length hids, fun hn => ?_, fun hcounter hread s hs x hx => ?_⟩
  · rw [hids]
    exact Request.nodup_numbers _ hn
  · obtain ⟨i, hi, hnumber⟩ : ∃ i < qs.length, c'.nextId + Int64.ofNat i = c''.symbols.id s := by
      have hmem := mem_map_of_mem (f := c''.symbols.id) hs
      rw [hids, mem_map] at hmem
      simpa using hmem
    have hroom : ∀ id ∈ f.symbols.map (·.id), id.toInt < 2 ^ 63 - 1 := by
      intro id hid
      obtain ⟨y, hy, rfl⟩ := mem_map.mp hid
      have := hread y hy
      omega
    obtain ⟨-, hlt, hcase⟩ := lt_reserveAll hroom c.nextId
    rw [← nextId_build hbuild] at hlt hcase
    have hfirst : c'.nextId.toInt + qs.length ≤ 2 ^ 63 := by
      rcases hcase with heq | ⟨id, hid, heq⟩
      · rwa [heq]
      · obtain ⟨y, hy, rfl⟩ := mem_map.mp hid
        have := hread y hy
        omega
    have hx' := Int64.lt_iff_toInt_lt.mp (hlt x.id (mem_map_of_mem hx))
    rw [Int64.lt_iff_toInt_lt, ← hnumber, Request.toInt_number (by omega)]
    omega

end Interchange

/-! ## A file with the largest number -/

namespace LargestNumber

/-- A file with three symbols, the second with a given number. -/
def file (id : Int64) : Interchange.File :=
  { version := 1
    symbols := [
      { id := 2, name := "a", cls := "term", type := some { kind := "uint", width := 4 } },
      { id, name := "b", cls := "term", type := some { kind := "uint", width := 4 } },
      { id := 1, name := "top", cls := "type", type := some { kind := "entity" } }]
    entities := [some { symbol := 1, decls := [some { symbol := 2 }, some { symbol := id }] }] }

/-- A variable, and one like the first symbol of the file. -/
def requests : List Request := [.new .term "c" {} (.uint 1), .like ⟨0⟩]

/-- The two numbers above the third largest are left for new symbols. -/
theorem made_above_third : ∃ r c', (file 9223372036854775805).build {} = .ok (r, c') ∧
    ∃ ss c'', requests.mapM Request.make c' = .ok ss c'' ∧ ss.length = 2 ∧ (ss.map c''.symbols.id).Nodup ∧
      ∀ s ∈ ss, ∀ x ∈ (file 9223372036854775805).symbols, x.id < c''.symbols.id s := by
  refine ⟨_, _, rfl, ?_⟩
  obtain ⟨ss, c'', hmade, hlength, hnodup, habove⟩ :=
    Interchange.made_above_read (f := file 9223372036854775805) (c := {}) rfl requests
  exact ⟨ss, c'', hmade, hlength, hnodup (by decide), habove (by decide) (by decide)⟩

/-- After the largest number was read, the counter starts again from the smallest: a new symbol gets the number of `a`. -/
theorem made_collides : ∃ r c', (file 9223372036854775807).build {} = .ok (r, c') ∧
    ∃ s c'', (Request.new .term "c" {} (.uint 1)).make c' = .ok s c'' ∧ s ∉ c'.symbols.all ∧
      ∃ x ∈ (file 9223372036854775807).symbols, c''.symbols.id s = x.id :=
  ⟨_, _, rfl, _, _, rfl, by decide, _, mem_cons_self, rfl⟩

end LargestNumber

end HdlLowering
