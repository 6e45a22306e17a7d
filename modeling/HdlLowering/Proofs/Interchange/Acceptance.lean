import HdlLowering.Proofs.Interchange.Checks
import HdlLowering.Proofs.Symbols.Table
import Mathlib.Data.List.Nodup

/-!
# Files that give a design

Building enters the symbols of a file in the table, gives them their kinds, and goes over its entities. Each phase notes a
defect exactly when its part of the file is not well-formed, whatever the phases before it met (`Decides`). So the files that
give a design are the well-formed ones, and the design has no symbols but theirs (`File.build_iff_wellFormed`).
-/

namespace HdlLowering.Interchange

open EntitySpec SymbolSpec TypeSpec BuildM

/-! ## Phases -/

section Phases

variable {α β : Type} {A : Builder → Prop} {P P' : Prop} {B : α → Builder → Prop} {C : β → Builder → Prop} {x : BuildM α}

/-- A phase never removes a defect, and from states of some form it adds one exactly when something fails; otherwise it ends in
another form. -/
structure Decides (A : Builder → Prop) (x : BuildM α) (P : Prop) (B : α → Builder → Prop) : Prop where
  notes : ∀ b, b.defects.length ≤ (x b).2.defects.length
  decides : ∀ b, A b → (P ∧ (x b).2.defects.length = b.defects.length ∧ B (x b).1 (x b).2) ∨
    (¬ P ∧ b.defects.length < (x b).2.defects.length)

namespace Decides

variable (h : Decides A x P B)
include h

theorem congr (hP : P ↔ P') : Decides A x P' B := by
  rwa [← propext hP]

theorem of_imp {H : Builder → Prop} (hA : ∀ b, H b → A b) : Decides H x P B :=
  ⟨h.notes, fun b hb => h.decides b (hA b hb)⟩

theorem bind {f : α → BuildM β} (hf : ∀ a, Decides (B a) (f a) P' C) : Decides A (x >>= f) (P ∧ P') C where
  notes b := Nat.le_trans (h.notes b) ((hf (x b).1).notes (x b).2)
  decides b hA := by
    have hnotes := (hf (x b).1).notes (x b).2
    change (_ ∧ (f (x b).1 (x b).2).2.defects.length = _ ∧ C (f (x b).1 (x b).2).1 (f (x b).1 (x b).2).2) ∨
      (_ ∧ _ < (f (x b).1 (x b).2).2.defects.length)
    rcases h.decides b hA with ⟨hP, hlength, hB⟩ | ⟨hP, hlt⟩
    · rcases (hf (x b).1).decides (x b).2 hB with ⟨hP', hlength', hC⟩ | ⟨hP', hlt'⟩
      · exact .inl ⟨⟨hP, hP'⟩, hlength'.trans hlength, hC⟩
      · exact .inr ⟨fun hboth => hP' hboth.2, hlength ▸ hlt'⟩
    · exact .inr ⟨fun hboth => hP hboth.1, Nat.lt_of_lt_of_le hlt hnotes⟩

end Decides

theorem Checks.notes (h : ∀ N Γ, ∃ P Q, Checks N Γ x P Q) (b : Builder) : b.defects.length ≤ (x b).2.defects.length := by
  obtain ⟨P, Q, hx⟩ := h b.numbers b.symbols
  exact (hx b rfl).2.1

end Phases

/-! ## Entering symbols -/

variable (s : SymbolSpec)

def SymbolSpec.entry : SymbolEntry :=
  { id := s.id, name := s.name, loc := s.loc, cls := if s.cls = "type" then .type else .term }

variable (ss : List SymbolSpec)

def numbersOf : List (Int64 × Symbol) := (ss.map (·.id)).zip ((List.range ss.length).map Symbol.mk)

variable {ss done : List SymbolSpec} {s : SymbolSpec} {b : Builder} {n i : Nat} {N : List (Int64 × Symbol)} {id : Int64}

@[simp] theorem idsOf_numbersOf : idsOf (numbersOf ss) = ss.map (·.id) :=
  List.map_fst_zip (by simp)

theorem symbolsOf_numbersOf : symbolsOf (numbersOf ss) = (List.range ss.length).map Symbol.mk :=
  List.map_snd_zip (by simp)

theorem numbersOf_concat : numbersOf (ss ++ [s]) = numbersOf ss ++ [(s.id, ⟨ss.length⟩)] := by
  simp [numbersOf, List.range_succ, List.zip_append]

theorem mem_numbersOf {x : Symbol} : (id, x) ∈ numbersOf ss ↔ ∃ s, ss[x.index]? = some s ∧ s.id = id := by
  rw [List.mem_iff_getElem?]
  simp only [numbersOf, List.getElem?_zip_eq_some, List.getElem?_map, Option.map_eq_some_iff]
  constructor
  · rintro ⟨i, ⟨s, hs, rfl⟩, j, hj, rfl⟩
    obtain ⟨hi, rfl⟩ := List.getElem?_eq_some_iff.mp hj
    exact ⟨s, by simpa using hs, rfl⟩
  · rintro ⟨s, hs, rfl⟩
    have hi := (List.getElem?_eq_some_iff.mp hs).1
    exact ⟨x.index, ⟨s, hs, rfl⟩, x.index, by simp [hi], rfl⟩

theorem lookup_of_mem {x : Symbol} : ∀ {N : List (Int64 × Symbol)}, (idsOf N).Nodup → (id, x) ∈ N → N.lookup id = some x
  | (id', x') :: N, hnodup, hmem => by
    rw [idsOf, List.map_cons, List.nodup_cons] at hnodup
    rcases List.mem_cons.mp hmem with heq | hmem
    · cases heq
      simp
    · have hne : id ≠ id' := fun h => hnodup.1 (h ▸ List.mem_map_of_mem (f := (·.1)) hmem)
      rw [List.lookup_cons, beq_false_of_ne hne]
      exact lookup_of_mem hnodup.2 hmem

structure Entered (ss : List SymbolSpec) (b : Builder) : Prop where
  nodup : (ss.map (·.id)).Nodup
  numbers : b.numbers = numbersOf ss
  entries : b.symbols.entries.toList = ss.map entry

theorem isSome_lookup_iff : (N.lookup id).isSome ↔ id ∈ idsOf N := by
  rw [← Option.ne_none_iff_isSome, ne_eq, lookup_eq_none, not_not]

theorem SymbolSpec.declare_cases (b : Builder) :
    (s.id ∉ idsOf b.numbers ∧ s.cls ∈ ["term", "type"] ∧ (s.declare b).2 = { b with
      symbols := (b.symbols.push s.entry).2, numbers := b.numbers ++ [(s.id, ⟨b.symbols.entries.size⟩)] }) ∨
    (¬ (s.id ∉ idsOf b.numbers ∧ s.cls ∈ ["term", "type"]) ∧ (s.declare b).2.defects.length = b.defects.length + 1) := by
  by_cases hid : (b.numbers.lookup s.id).isSome
  · refine .inr ⟨fun h => h.1 (isSome_lookup_iff.mp hid), ?_⟩
    have hrun : s.declare b = defect s.loc (.declaredTwice s.id s.name) b := by
      change (if (b.numbers.lookup s.id).isSome then _ else _ : BuildM Unit) b = _
      rw [if_pos hid]
    rw [hrun]
    exact List.length_append
  · have hnew : s.id ∉ idsOf b.numbers := fun h => hid (isSome_lookup_iff.mpr h)
    obtain ⟨id, name, cls, loc, type⟩ := s
    simp only [declare, bind, StateT.bind, get, getThe, MonadStateOf.get, StateT.get, pure]
    rw [if_neg hid]
    split
    · exact .inl ⟨hnew, by simp, rfl⟩
    · exact .inl ⟨hnew, by simp, rfl⟩
    · rename_i hterm htype
      refine .inr ⟨fun h => ?_, List.length_append⟩
      simp only [List.mem_cons, List.not_mem_nil, or_false] at h
      exact h.2.elim hterm htype

theorem SymbolSpec.declare_decides (done : List SymbolSpec) (s : SymbolSpec) : Decides (Entered done) s.declare
    (s.id ∉ done.map (·.id) ∧ s.cls ∈ ["term", "type"]) fun _ => Entered (done ++ [s]) where
  notes b := by
    rcases s.declare_cases b with ⟨-, -, heq⟩ | ⟨-, hlength⟩
    · exact Nat.le_of_eq (by rw [heq])
    · omega
  decides b hb := by
    rw [← idsOf_numbersOf, ← hb.numbers]
    rcases s.declare_cases b with ⟨hid, hcls, heq⟩ | ⟨hbad, hlength⟩
    · have hsize : b.symbols.entries.size = done.length := by simpa using congrArg List.length hb.entries
      rw [hb.numbers, idsOf_numbersOf] at hid
      refine .inl ⟨⟨by rwa [hb.numbers, idsOf_numbersOf], hcls⟩, by rw [heq], ?_⟩
      rw [heq]
      refine ⟨?_, ?_, ?_⟩
      · rw [List.map_append, List.map_singleton, List.nodup_append_comm]
        exact List.nodup_cons.mpr ⟨hid, hb.nodup⟩
      · rw [numbersOf_concat, ← hb.numbers, hsize]
      · rw [List.map_append, ← hb.entries]
        exact Array.toList_push
    · exact .inr ⟨hbad, by omega⟩

theorem SymbolSpec.declareAll_decides (done ss : List SymbolSpec) : Decides (Entered done) (ss.forM declare)
    (((done ++ ss).map (·.id)).Nodup ∧ ∀ s ∈ ss, s.cls ∈ ["term", "type"]) fun _ => Entered (done ++ ss) := by
  induction ss generalizing done with
  | nil =>
    rw [List.append_nil]
    exact ⟨fun _ => Nat.le_refl _, fun b hb => .inl ⟨⟨hb.nodup, by simp⟩, rfl, hb⟩⟩
  | cons s ss ih =>
    have hrest := ih (done ++ [s])
    rw [List.append_assoc, List.singleton_append] at hrest
    refine .congr ((declare_decides done s).bind fun _ => hrest) ?_
    rw [List.forall_mem_cons]
    constructor
    · rintro ⟨⟨-, hcls⟩, hnodup, hall⟩
      exact ⟨hnodup, hcls, hall⟩
    · rintro ⟨hnodup, hcls, hall⟩
      refine ⟨⟨fun hmem => ?_, hcls⟩, hnodup, hall⟩
      rw [List.map_append, List.nodup_append] at hnodup
      exact hnodup.2.2 _ hmem _ (by simp) rfl

/-! ## Giving symbols their kinds -/

structure Defined (ss : List SymbolSpec) (n : Nat) (b : Builder) : Prop where
  nodup : (ss.map (·.id)).Nodup
  numbers : b.numbers = numbersOf ss
  size : b.symbols.entries.size = ss.length
  entry : ∀ i s, ss[i]? = some s → b.symbols.entry ⟨i⟩ = { s.entry with kind := b.symbols.kind ⟨i⟩ }
  kind : ∀ i s, i < n → ss[i]? = some s → ∃ t, s.type = some t ∧ Built (numbersOf ss) t.kind (b.symbols.kind ⟨i⟩)

theorem Entered.defined (h : Entered ss b) : Defined ss 0 b where
  nodup := h.nodup
  numbers := h.numbers
  size := by simpa using congrArg List.length h.entries
  entry i s hs := by
    have hentry : b.symbols.entry ⟨i⟩ = s.entry := by
      rw [SymbolTable.entry, Array.getD_eq_getD_getElem?, ← Array.getElem?_toList, h.entries, List.getElem?_map, hs]
      rfl
    rw [SymbolTable.kind, hentry]
  kind i s hi := nomatch hi

def SymbolSpec.define : BuildM Unit := do
  let sym ← resolve s.loc s.id
  let kind ← buildAt s.loc s.type
  modify fun b => { b with symbols := b.symbols.modify sym fun e => { e with kind } }

theorem SymbolSpec.defineList_cons (numbers : List Int64) (s : SymbolSpec) (ss : List SymbolSpec) :
    defineList numbers (s :: ss) = (do
      unless numbers.contains s.id do s.define
      defineList (s.id :: numbers) ss) := by
  rfl

theorem SymbolSpec.define_notes (b : Builder) : b.defects.length ≤ (s.define b).2.defects.length := by
  have hsteps := Checks.notes (x := do
    let sym ← resolve s.loc s.id
    return (sym, ← buildAt s.loc s.type))
    (fun N Γ => ⟨_, fun _ => True, (Checks.resolve s.loc s.id).bind fun _ =>
      (buildAt_checks s.loc s.type).map fun _ _ _ => trivial⟩) b
  exact hsteps

theorem SymbolSpec.defineList_notes (numbers : List Int64) (ss : List SymbolSpec) (b : Builder) :
    b.defects.length ≤ (defineList numbers ss b).2.defects.length := by
  induction ss generalizing numbers b with
  | nil => exact Nat.le_refl _
  | cons s ss ih =>
    rw [defineList_cons]
    split
    · exact ih (s.id :: numbers) b
    · exact Nat.le_trans (s.define_notes b) (ih (s.id :: numbers) (s.define b).2)

theorem TypeSpec.buildAt_checks_built (loc : Loc) (o : Option TypeSpec) {Γ : SymbolTable} :
    Checks N Γ (buildAt loc o) (∃ t, o = some t ∧ t.WellFormed (idsOf N)) fun k => ∃ t, o = some t ∧ Built N t.kind k := by
  cases o with
  | some t => exact .congr ((build_checks loc t).imp fun k hk => ⟨t, rfl, hk⟩)
  | none => exact .congr (Checks.defect_bind _ _ (.pure trivial))

theorem SymbolSpec.define_decides (hs : ss[n]? = some s) : Decides (Defined ss n) s.define
    (∃ t, s.type = some t ∧ t.WellFormed (ss.map (·.id))) fun _ => Defined ss (n + 1) where
  notes := s.define_notes
  decides b hb := by
    have hlookup : b.numbers.lookup s.id = some ⟨n⟩ := by
      rw [hb.numbers]
      exact lookup_of_mem (by simpa using hb.nodup) (mem_numbersOf.mpr ⟨s, hs, rfl⟩)
    have hresolve : resolve s.loc s.id b = (⟨n⟩, b) := resolve_of_lookup hlookup
    have hrun : (s.define b).2 = { (buildAt s.loc s.type (resolve s.loc s.id b).2).2 with
        symbols := (buildAt s.loc s.type (resolve s.loc s.id b).2).2.symbols.modify
          (resolve s.loc s.id b).1 fun e =>
            { e with kind := (buildAt s.loc s.type (resolve s.loc s.id b).2).1 } } := rfl
    rw [hresolve] at hrun
    have hn : n < ss.length := (List.getElem?_eq_some_iff.mp hs).1
    rw [hrun]
    obtain ⟨hnumbers, -, hcases⟩ := buildAt_checks_built s.loc s.type (Γ := b.symbols) b hb.numbers
    rw [idsOf_numbersOf] at hcases
    rcases hcases rfl with ⟨hwf, hlength, hsymbols, hk⟩ | ⟨hwf, hlt⟩
    · refine .inl ⟨hwf, hlength, hb.nodup, hnumbers, ?_, fun i x hx => ?_, fun i x hi hx => ?_⟩
      · rw [SymbolTable.size_modify, hsymbols, hb.size]
      · rw [SymbolTable.kind, SymbolTable.entry_modify, hsymbols]
        split
        · rw [hb.entry i x hx]
        · rw [hb.entry i x hx]
      · rw [SymbolTable.kind, SymbolTable.entry_modify, hsymbols, hb.size]
        rcases Nat.lt_succ_iff_lt_or_eq.mp hi with hi | rfl
        · rw [if_neg (by simp; omega)]
          exact hb.kind i x hi hx
        · rw [if_pos ⟨rfl, hn⟩]
          obtain rfl := Option.some.inj (hs.symm.trans hx)
          exact hk
    · exact .inr ⟨hwf, hlt⟩

theorem SymbolSpec.defineList_decides (rest : List SymbolSpec) (n : Nat) (numbers : List Int64) (hrest : ss.drop n = rest)
    (hnumbers : ∀ id ∈ numbers, id ∈ (ss.take n).map (·.id)) : Decides (Defined ss n) (defineList numbers rest)
    (∀ s ∈ rest, ∃ t, s.type = some t ∧ t.WellFormed (ss.map (·.id))) fun _ => Defined ss ss.length := by
  induction rest generalizing n numbers with
  | nil =>
    refine ⟨fun _ => Nat.le_refl _, fun b hb => .inl ⟨by simp, rfl, ?_⟩⟩
    have hn : ss.length ≤ n := List.drop_eq_nil_iff.mp hrest
    exact ⟨hb.nodup, hb.numbers, hb.size, hb.entry, fun i s hi => hb.kind i s (by omega)⟩
  | cons s rest ih =>
    have hs : ss[n]? = some s := by rw [← List.head?_drop, hrest]; rfl
    have hrest' : ss.drop (n + 1) = rest := by rw [← List.tail_drop, hrest]; rfl
    have htake : ss.take (n + 1) = ss.take n ++ [s] := by rw [List.take_add_one, hs]; rfl
    have hnext := ih (n + 1) (s.id :: numbers) hrest' (by
      rw [htake, List.map_append, List.forall_mem_cons]
      exact ⟨by simp, fun id hid => List.mem_append_left _ (hnumbers id hid)⟩)
    refine ⟨defineList_notes numbers (s :: rest), fun b hb => ?_⟩
    have hnew : numbers.contains s.id = false := by
      rw [List.contains_eq_mem, decide_eq_false_iff_not]
      intro hmem
      have hnodup := hb.nodup
      rw [← List.take_append_drop n ss, hrest, List.map_append, List.nodup_append] at hnodup
      exact hnodup.2.2 _ (hnumbers _ hmem) _ (by simp) rfl
    rw [defineList_cons, hnew]
    have hboth := ((define_decides hs).bind fun _ => hnext).decides b hb
    rw [List.forall_mem_cons]
    exact hboth

/-! ## Designs -/

theorem isEntitySymbol_iff {e : SymbolEntry} : isEntitySymbol e = true ↔ (∃ ps, e.kind = .entity ps) ∧ e.cls = .type := by
  unfold isEntitySymbol
  split
  · rename_i hkind hcls
    simp [hkind, hcls]
  · rename_i hnot
    simp only [Bool.false_eq_true, false_iff, not_and]
    rintro ⟨ps, hps⟩ hcls
    exact hnot ps hps hcls

theorem Defined.tells {f : File} (h : Defined f.symbols f.symbols.length b) :
    Tells (numbersOf f.symbols) b.symbols f.IsEntity := by
  refine ⟨fun id hid => ?_, fun id x hx => ?_⟩
  · obtain ⟨s, hs, rfl, -⟩ := hid
    rw [idsOf_numbersOf]
    exact List.mem_map_of_mem hs
  · obtain ⟨s, hs, rfl⟩ := mem_numbersOf.mp (mem_of_lookup hx)
    have hmem := List.mem_of_getElem? hs
    obtain ⟨t, ht, -, hentity⟩ := h.kind x.index s (List.getElem?_eq_some_iff.mp hs).1 hs
    have hcls : (b.symbols.entry x).cls = if s.cls = "type" then .type else .term := by rw [h.entry x.index s hs]; rfl
    rw [isEntitySymbol_iff, hcls]
    change (∃ ps, b.symbols.kind x = .entity ps) ∧ _ ↔ _
    rw [hentity]
    constructor
    · rintro ⟨hkind, htype⟩
      exact ⟨s, hmem, rfl, by simpa using htype, t, ht, hkind⟩
    · rintro ⟨s', hs', hid, htype, t', ht', hkind⟩
      obtain rfl := List.inj_on_of_nodup_map h.nodup hs' hmem hid
      obtain rfl := Option.some.inj (ht.symm.trans ht')
      exact ⟨hkind, by rw [if_pos htype]⟩

/-- A design with the symbols of a file and no others, in its tree and in the kinds of its symbols, and with entities named by
symbols that stand for them. -/
structure File.Holds (f : File) (r : Root) (Γ : SymbolTable) : Prop where
  size : Γ.entries.size = f.symbols.length
  entry : ∀ i s, f.symbols[i]? = some s → Γ.entry ⟨i⟩ = { s.entry with kind := Γ.kind ⟨i⟩ }
  tree : (Node.root r).Over Γ.all
  kinds : ∀ x ∈ Γ.all, (Γ.kind x).Over Γ.all
  entities : ∀ e ∈ Node.entities r.nodes, isEntitySymbol (Γ.entry e.symbol) = true

theorem EntitySpec.buildList_notes (es : List (Option EntitySpec)) (b : Builder) :
    b.defects.length ≤ (buildList es b).2.defects.length := by
  have htells : ∀ N Γ, Tells N Γ fun id => ∃ x, N.lookup id = some x ∧ isEntitySymbol (Γ.entry x) = true := by
    refine fun N Γ => ⟨?_, ?_⟩
    · rintro id ⟨x, hx, -⟩
      exact isSome_lookup_iff.mp (by rw [hx]; rfl)
    · intro id x hx
      simp [hx]
  exact Checks.notes (fun N Γ => ⟨_, _, buildList_checks (htells N Γ) es⟩) b

theorem EntitySpec.buildList_decides (f : File) : Decides (Defined f.symbols f.symbols.length) (buildList f.entities)
    (AllSome (·.WellFormed f.ids f.IsEntity) f.entities) fun es b => f.Holds { entities := es } b.symbols where
  notes := buildList_notes f.entities
  decides b hb := by
    obtain ⟨-, -, hcases⟩ := buildList_checks hb.tells f.entities b hb.numbers
    rw [idsOf_numbersOf] at hcases
    refine (hcases rfl).imp_left fun ⟨hwf, hlength, hsymbols, hbuilt⟩ => ⟨hwf, hlength, ?_⟩
    have hall : symbolsOf (numbersOf f.symbols) = b.symbols.all := by
      rw [symbolsOf_numbersOf, SymbolTable.all, hb.size]
    have hentities : ∀ e ∈ (buildList f.entities b).1, (Node.entity e).Over b.symbols.all ∧
        ∀ y ∈ Node.entities e.nodes, isEntitySymbol (b.symbols.entry y.symbol) = true := by
      rw [← hall]
      exact hbuilt
    rw [hsymbols]
    refine ⟨hb.size, hb.entry, ?_, fun x hx => ?_, fun y hy => ?_⟩
    · rw [Node.over_iff]
      exact ⟨fun _ h => (by cases h), by simpa [Node.children] using fun e he => (hentities e he).1⟩
    · rw [SymbolTable.mem_all, hb.size] at hx
      obtain ⟨t, -, hover, -⟩ := hb.kind x.index _ hx (List.getElem?_eq_getElem hx)
      rwa [← hall]
    · change y ∈ Node.entities (Entity.nodesList (buildList f.entities b).1) at hy
      obtain ⟨e, he, hy⟩ := Node.mem_entities_nodesList_iff.mp hy
      exact (hentities e he).2 y (by rwa [Node.entities_entity, List.mem_cons])

theorem File.buildRoot_decides (f : File) : Decides (· = {}) f.buildRoot
    ((f.ids.Nodup ∧ ∀ s ∈ f.symbols, s.cls ∈ ["term", "type"]) ∧ (∀ s ∈ f.symbols, ∃ t, s.type = some t ∧ t.WellFormed f.ids) ∧
      AllSome (·.WellFormed f.ids f.IsEntity) f.entities) fun r b => f.Holds r b.symbols := by
  have hdeclare := (declareAll_decides [] f.symbols).of_imp (H := (· = {})) fun b hb =>
    ⟨List.nodup_nil, by rw [hb]; rfl, by rw [hb]; rfl⟩
  have hdefine := (defineList_decides f.symbols 0 [] (List.drop_zero : f.symbols.drop 0 = f.symbols) (by simp)).of_imp fun b hb =>
    Entered.defined hb
  have hentities := buildList_decides f
  exact hdeclare.bind fun _ => hdefine.bind fun _ => ⟨hentities.notes, hentities.decides⟩

theorem File.build_eq_ok {f : File} {c c' : Context} {r : Root} : f.build c = .ok (r, c') ↔ f.version = 1 ∧
    (f.buildRoot {}).2.defects = [] ∧ r = (f.buildRoot {}).1 ∧
    c' = { c with symbols := (f.buildRoot {}).2.symbols, nextId := reserveAll c.nextId f.ids } := by
  unfold File.build
  change (if f.version ≠ 1 then _ else if (f.buildRoot {}).2.defects.isEmpty then
    Except.ok ((f.buildRoot {}).1, { c with symbols := (f.buildRoot {}).2.symbols, nextId := reserveAll c.nextId f.ids })
    else _) = _ ↔ _
  split
  · rename_i hversion
    simp [hversion]
  · rename_i hversion
    split
    · rename_i hdefects
      simp [not_not.mp hversion, List.isEmpty_iff.mp hdefects, eq_comm]
    · rename_i hdefects
      simp [mt List.isEmpty_iff.mpr hdefects]

/-- The files that give a design are the well-formed ones, and the design has their symbols and no others. -/
theorem File.build_iff_wellFormed (c : Context) (f : File) : ((∃ r c', f.build c = .ok (r, c')) ↔ f.WellFormed) ∧
    ∀ r c', f.build c = .ok (r, c') → f.Holds r c'.symbols := by
  have hdecides := f.buildRoot_decides.decides {} rfl
  simp only [List.length_nil, List.length_eq_zero_iff, List.length_pos_iff] at hdecides
  refine ⟨⟨?_, fun hwf => ?_⟩, fun r c' hbuild => ?_⟩
  · rintro ⟨r, c', hbuild⟩
    obtain ⟨hversion, hdefects, -⟩ := build_eq_ok.mp hbuild
    rcases hdecides with ⟨⟨⟨hids, hclasses⟩, hkinds, hentities⟩, -⟩ | ⟨-, hsome⟩
    · exact ⟨hversion, hids, hclasses, hkinds, hentities⟩
    · exact absurd hdefects hsome
  · rcases hdecides with ⟨-, hdefects, -⟩ | ⟨hnot, -⟩
    · exact ⟨_, _, build_eq_ok.mpr ⟨hwf.version, hdefects, rfl, rfl⟩⟩
    · exact absurd ⟨⟨hwf.numbers, hwf.classes⟩, hwf.kinds, hwf.entities⟩ hnot
  · obtain ⟨-, hdefects, rfl, rfl⟩ := build_eq_ok.mp hbuild
    rcases hdecides with ⟨-, -, hholds⟩ | ⟨-, hsome⟩
    · exact hholds
    · exact absurd hdefects hsome

/-- A file with an entity `inner` nested in `top`, and a stack in it, as deep as a constant of `top`. The symbol with which the
statement of `inner` starts has a given number. -/
def nestedFile (id : Int64) : File :=
  { version := 1
    symbols := [
      { id := 7, name := "s", cls := "term"
        type := some { kind := "stack", elem := some { kind := "uint", width := 4 }, depth := some { op := "ref", symbol := -2 } } },
      { id := -2, name := "d", cls := "term", type := some { kind := "const", elem := some { kind := "uint", width := 4 } } },
      { id := 0, name := "top", cls := "type", type := some { kind := "entity" } },
      { id := 9, name := "inner", cls := "type", type := some { kind := "entity" } }]
    entities := [some
      { symbol := 0
        decls := [some { symbol := -2, init := some { op := "num", value := "-3" } }]
        entities := [some
          { symbol := 9
            decls := [some { symbol := 7 }]
            stmts := [some
              { stmt := "expr", expr := some { op := "select", field := "pop", expr := some { op := "ref", symbol := id } } }] }] }] }

/-- A symbol in the statement that the file does not have is the only thing that can make it lose its design. -/
theorem File.nested_holds : (∃ r c', (nestedFile 7).build {} = .ok (r, c') ∧ (nestedFile 7).Holds r c'.symbols) ∧
    (nestedFile 7).WellFormed ∧ ¬ (nestedFile 8).WellFormed := by
  have hkept : ((nestedFile 7).build {}).toBool = true := by decide +kernel
  have hlost : ((nestedFile 8).build {}).toBool = false := by decide +kernel
  obtain ⟨r, c', hbuild⟩ : ∃ r c', (nestedFile 7).build {} = .ok (r, c') := by
    cases hbuild : (nestedFile 7).build {} with
    | ok built => exact ⟨built.1, built.2, rfl⟩
    | error e => nomatch hbuild ▸ hkept
  obtain ⟨hiff, hholds⟩ := File.build_iff_wellFormed {} (nestedFile 7)
  refine ⟨⟨r, c', hbuild, hholds r c' hbuild⟩, hiff.mp ⟨r, c', hbuild⟩, fun hwf => ?_⟩
  obtain ⟨r, c', hbuild⟩ := (File.build_iff_wellFormed {} (nestedFile 8)).1.mpr hwf
  nomatch hbuild ▸ hlost

end HdlLowering.Interchange
