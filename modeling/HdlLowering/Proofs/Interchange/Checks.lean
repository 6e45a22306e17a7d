import HdlLowering.Interchange.Build
import HdlLowering.Proofs.Interchange.WellFormed
import HdlLowering.Proofs.Symbols.Sets
import HdlLowering.Proofs.Tree.Entities
import HdlLowering.Tree.Mentions

/-!
# What building a design checks

`Checks` says that a step of building notes a defect exactly when what it builds is not well-formed, and otherwise leaves the
symbol table alone and gives something over the symbols of the file. It is proved for expressions, kinds, statements and
entities, by the recursion of each.
-/

namespace HdlLowering

open Node Expr

variable {S : List Symbol} {ids : List Int64} {s : Symbol} {loc : Loc} {id : Int64}

/-! ## Symbols of a tree -/

def Node.Over (S : List Symbol) (n : Node) : Prop := ∀ m ∈ n.nodes, ∀ s ∈ m.symbols, s ∈ S

theorem Node.over_iff {n : Node} : n.Over S ↔ (∀ s ∈ n.symbols, s ∈ S) ∧ ∀ m ∈ n.children, m.Over S := by
  unfold Over
  rw [nodes_eq, List.forall_mem_cons]
  simp only [List.mem_flatMap]
  exact and_congr_right fun _ => ⟨fun h m hm k hk => h k ⟨m, hm, hk⟩, fun h k ⟨m, hm, hk⟩ => h m hm k hk⟩

mutual
def Kind.Over (S : List Symbol) : Kind → Prop
  | .struct _ fs => Kind.OverFields S fs
  | .array k _ | .input k _ | .output k _ _ | .const k | .pipeline k => k.Over S
  | .stack k d => k.Over S ∧ (expr d.expr).Over S
  | .entity ps => ∀ s ∈ ps, s ∈ S
  | .inst e => e ∈ S
  | _ => True

def Kind.OverFields (S : List Symbol) : List (String × Kind) → Prop
  | [] => True
  | (_, k) :: fs => k.Over S ∧ Kind.OverFields S fs
end

namespace Interchange

/-! ## Parts that are present -/

section Parts

variable {α : Type} {p : α → Prop} {o : Option α} {os os' : List (Option α)}

@[simp] theorem allPresent_nil : AllPresent p [] := ⟨List.not_mem_nil, fun _ h => nomatch h⟩

@[simp] theorem allPresent_cons : AllPresent p (o :: os) ↔ (∃ x, o = some x ∧ p x) ∧ AllPresent p os := by
  cases o with
  | none => simp [AllPresent]
  | some x =>
    simp only [AllPresent, List.mem_cons, reduceCtorEq, false_or, Option.some.injEq, exists_eq_left']
    exact ⟨fun ⟨hnone, h⟩ => ⟨h x (.inl rfl), hnone, fun y hy => h y (.inr hy)⟩,
      fun ⟨hx, hnone, h⟩ => ⟨hnone, fun y hy => hy.elim (fun heq => heq ▸ hx) (h y)⟩⟩

@[simp] theorem allSome_nil : AllSome p [] := fun _ h => nomatch h

@[simp] theorem allSome_none : AllSome p (none :: os) ↔ AllSome p os := by
  simp [AllSome]

@[simp] theorem allSome_some {x : α} : AllSome p (some x :: os) ↔ p x ∧ AllSome p os := by
  simp [AllSome]

@[simp] theorem allSome_append : AllSome p (os ++ os') ↔ AllSome p os ∧ AllSome p os' := by
  simp only [AllSome, List.mem_append]
  exact ⟨fun h => ⟨fun x hx => h x (.inl hx), fun x hx => h x (.inr hx)⟩, fun h x hx => hx.elim (h.1 x) (h.2 x)⟩

end Parts

/-! ## Steps that check -/

section Steps

variable {α β : Type} {N : List (Int64 × Symbol)} {Γ : SymbolTable} {P P' : Prop} {Q : α → Prop} {R : β → Prop} {x : BuildM α}
  {f : α → BuildM β}

/-- A step that notes a defect exactly when `P` fails. When `P` holds, it leaves the table as it is and gives something such
that `Q`. The numbers of symbols stay in any case. -/
def Checks (N : List (Int64 × Symbol)) (Γ : SymbolTable) (x : BuildM α) (P : Prop) (Q : α → Prop) : Prop :=
  ∀ b : Builder, b.numbers = N → (x b).2.numbers = N ∧ b.defects.length ≤ (x b).2.defects.length ∧
    (b.symbols = Γ → (P ∧ (x b).2.defects.length = b.defects.length ∧ (x b).2.symbols = Γ ∧ Q (x b).1) ∨
      (¬ P ∧ b.defects.length < (x b).2.defects.length))

theorem resolve_of_lookup {b : Builder} (h : b.numbers.lookup id = some s) : BuildM.resolve loc id b = (s, b) := by
  simp only [BuildM.resolve, bind, StateT.bind, get, getThe, MonadStateOf.get, StateT.get, pure, h]
  rfl

namespace Checks

theorem pure {a : α} (h : Q a) : Checks N Γ (Pure.pure a : BuildM α) True Q := fun _ hN =>
  ⟨hN, Nat.le_refl _, fun hΓ => .inl ⟨trivial, rfl, hΓ, h⟩⟩

section

variable (h : Checks N Γ x P Q)
include h

theorem congr (hP : P ↔ P' := by simp) : Checks N Γ x P' Q := by
  rwa [← propext hP]

theorem imp {Q' : α → Prop} (hQ : ∀ a, Q a → Q' a) : Checks N Γ x P Q' := by
  intro b hN
  obtain ⟨hnumbers, hle, hcases⟩ := h b hN
  refine ⟨hnumbers, hle, fun hΓ => (hcases hΓ).imp_left fun ⟨hP, hlength, hsymbols, ha⟩ => ⟨hP, hlength, hsymbols, hQ _ ha⟩⟩

/-- Two steps check what each of them checks; what the second one checks may be said by what the first one gives. -/
theorem bind_of {p : α → Prop} (hf : ∀ a, Checks N Γ (f a) (p a) fun r => Q a → R r) (hp : ∀ a, Q a → (p a ↔ P')) :
    Checks N Γ (x >>= f) (P ∧ P') R := by
  intro b hN
  obtain ⟨hnumbers, hle, hcases⟩ := h b hN
  obtain ⟨hnumbers', hle', hcases'⟩ := hf (x b).1 (x b).2 hnumbers
  change (f (x b).1 (x b).2).2.numbers = N ∧ b.defects.length ≤ (f (x b).1 (x b).2).2.defects.length ∧ (b.symbols = Γ →
    ((P ∧ P') ∧ (f (x b).1 (x b).2).2.defects.length = b.defects.length ∧ (f (x b).1 (x b).2).2.symbols = Γ ∧
      R (f (x b).1 (x b).2).1) ∨ ¬ (P ∧ P') ∧ b.defects.length < (f (x b).1 (x b).2).2.defects.length)
  refine ⟨hnumbers', Nat.le_trans hle hle', fun hΓ => ?_⟩
  rcases hcases hΓ with ⟨hP, hlength, hsymbols, ha⟩ | ⟨hP, hlt⟩
  · rcases hcases' hsymbols with ⟨hP', hlength', hsymbols', hr⟩ | ⟨hP', hlt'⟩
    · exact .inl ⟨⟨hP, (hp _ ha).mp hP'⟩, hlength'.trans hlength, hsymbols', hr ha⟩
    · exact .inr ⟨fun hboth => hP' ((hp _ ha).mpr hboth.2), hlength ▸ hlt'⟩
  · exact .inr ⟨fun hboth => hP hboth.1, Nat.lt_of_lt_of_le hlt hle'⟩

/-- Two steps one after the other check both. -/
theorem bind (hf : ∀ a, Checks N Γ (f a) P' fun r => Q a → R r) : Checks N Γ (x >>= f) (P ∧ P') R :=
  h.bind_of hf fun _ _ => Iff.rfl

theorem map {g : α → β} (hg : ∀ a, Q a → R (g a)) : Checks N Γ (x >>= fun a => Pure.pure (g a)) P R :=
  (h.bind fun a => pure (hg a)).congr (and_iff_left trivial)

end

theorem defect (loc : Loc) (d : Defect) {Q : Unit → Prop} : Checks N Γ (BuildM.defect loc d) False Q := by
  intro b hN
  have hlength : (b.defects ++ [(loc, d)]).length = b.defects.length + 1 := by simp
  exact ⟨hN, by change _ ≤ (b.defects ++ [(loc, d)]).length; omega,
    fun _ => .inr ⟨id, by change _ < (b.defects ++ [(loc, d)]).length; omega⟩⟩

theorem defect_bind (loc : Loc) (d : Defect) (h : Checks N Γ x P fun _ => True) :
    Checks N Γ (BuildM.defect loc d >>= fun _ => x) False Q :=
  ((defect loc d (Q := fun _ => False)).bind fun _ => h.imp fun _ _ => False.elim).congr

theorem test {c : Prop} [Decidable c] {d : Defect} (h : Checks N Γ x P Q) :
    Checks N Γ (if c then BuildM.defect loc d >>= fun _ => x else x) (¬ c ∧ P) Q := by
  split
  · rename_i hc
    exact (defect_bind loc d (h.imp fun _ _ => trivial)).congr (by simp [hc])
  · rename_i hc
    exact h.congr (by simp [hc])

theorem depth (e : Expr) : Checks N Γ (BuildM.depth e) True fun d => d.expr = e := fun _ hN =>
  ⟨hN, Nat.le_refl _, fun hΓ => .inl ⟨trivial, rfl, hΓ, rfl⟩⟩

theorem resolve (loc : Loc) (id : Int64) :
    Checks N Γ (BuildM.resolve loc id) (id ∈ N.map (·.1)) fun s => N.lookup id = some s := by
  intro b hN
  cases hs : N.lookup id with
  | some s =>
    rw [resolve_of_lookup (hN ▸ hs)]
    refine ⟨hN, Nat.le_refl _, fun hΓ => .inl ⟨?_, rfl, hΓ, rfl⟩⟩
    exact List.mem_map_of_mem (f := (·.1)) (mem_of_lookup hs)
  | none =>
    have hrun : BuildM.resolve loc id b =
        (BuildM.defect loc (.unknownSymbol id) >>= fun _ => BuildM.push { id, name := s!"<unknown {id.toInt}>", loc }) b := by
      simp only [BuildM.resolve, Bind.bind, StateT.bind, get, getThe, MonadStateOf.get, StateT.get, Pure.pure, hN, hs]
    have hlength : (b.defects ++ [(loc, Defect.unknownSymbol id)]).length = b.defects.length + 1 := by simp
    rw [hrun]
    refine ⟨hN, ?_, fun _ => .inr ⟨lookup_eq_none.mp hs, ?_⟩⟩
    · change _ ≤ (b.defects ++ [(loc, Defect.unknownSymbol id)]).length
      omega
    · change _ < (b.defects ++ [(loc, Defect.unknownSymbol id)]).length
      omega

end Checks

end Steps

/-! ## Expressions -/

variable {N : List (Int64 × Symbol)} {Γ : SymbolTable}

abbrev idsOf (N : List (Int64 × Symbol)) : List Int64 := N.map (·.1)

abbrev symbolsOf (N : List (Int64 × Symbol)) : List Symbol := N.map (·.2)

theorem mem_symbolsOf (h : N.lookup id = some s) : s ∈ symbolsOf N :=
  List.mem_map_of_mem (f := (·.2)) (mem_of_lookup h)

theorem isDecimal_iff {cs : List Char} : IsDecimal cs ↔ ∃ digits, (cs = digits ∨ cs = '+' :: digits ∨ cs = '-' :: digits) ∧
    digits ≠ [] ∧ ∀ d ∈ digits, d.isDigit := by
  constructor
  · rintro ⟨sign, digits, rfl, hsign, hdigits⟩
    refine ⟨digits, ?_, hdigits⟩
    simp only [List.mem_cons, List.not_mem_nil, or_false] at hsign
    rcases hsign with rfl | rfl | rfl <;> simp
  · rintro ⟨digits, rfl | rfl | rfl, hdigits⟩
    · exact ⟨[], _, rfl, by simp, hdigits⟩
    · exact ⟨['+'], digits, rfl, by simp, hdigits⟩
    · exact ⟨['-'], digits, rfl, by simp, hdigits⟩

theorem isSome_decimal? (cs : List Char) : (Json.decimal? cs).isSome ↔ IsDecimal cs := by
  rw [isDecimal_iff]
  unfold Json.decimal?
  split
  · rename_i ds
    simp only [ne_eq, List.all_eq_true, Option.isSome_ite]
    refine ⟨fun h => ⟨ds, .inr (.inr rfl), h⟩, ?_⟩
    rintro ⟨digits, rfl | h | h, hdigits⟩
    · exact absurd (hdigits.2 '-' List.mem_cons_self) (by decide)
    · nomatch h
    · rwa [List.cons.inj h |>.2]
  · rename_i ds
    simp only [ne_eq, List.all_eq_true, Option.isSome_ite]
    refine ⟨fun h => ⟨ds, .inr (.inl rfl), h⟩, ?_⟩
    rintro ⟨digits, rfl | h | h, hdigits⟩
    · exact absurd (hdigits.2 '+' List.mem_cons_self) (by decide)
    · rwa [List.cons.inj h |>.2]
    · nomatch h
  · rename_i hminus hplus
    simp only [ne_eq, List.all_eq_true, Option.isSome_ite]
    refine ⟨fun h => ⟨cs, .inl rfl, h⟩, ?_⟩
    rintro ⟨digits, rfl | rfl | rfl, hdigits⟩
    · exact hdigits
    · exact absurd rfl (hplus digits)
    · exact absurd rfl (hminus digits)

theorem buildLiteral_checks (loc : Loc) (value : String) :
    Checks N Γ (buildLiteral loc value) (IsDecimal value.toList) fun _ => True := by
  rw [← isSome_decimal?]
  unfold buildLiteral
  cases Json.decimal? value.toList with
  | some v => exact (Checks.pure trivial).congr
  | none => exact (Checks.defect_bind _ _ (.pure trivial)).congr

namespace ExprSpec

theorem wellFormed_iff {e : ExprSpec} : e.WellFormed ids ↔ e.op ∈ exprOps ∧
    (e.op = "ref" → e.symbol ∈ ids) ∧ (e.op ∈ ["num", "int"] → IsDecimal e.value.toList) ∧ (e.op = "int" → 0 < e.width) ∧
    (e.op = "cat" → e.parts ≠ []) ∧ AllPresent (·.WellFormed ids) e.required ∧ AllSome (·.WellFormed ids) e.listed := by
  constructor
  · rintro ⟨op, symbol, literal, width, parts, present, operands⟩
    exact ⟨op, symbol, literal, width, parts, ⟨present, fun x hx => operands x (List.mem_append_left _ hx)⟩,
      fun x hx => operands x (List.mem_append_right _ hx)⟩
  · rintro ⟨op, symbol, literal, width, parts, ⟨present, required⟩, listed⟩
    exact ⟨op, symbol, literal, width, parts, present, fun x hx => (List.mem_append.mp hx).elim (required x) (listed x)⟩

theorem over_of_operands {x : Expr} (hsymbols : (Node.expr x).symbols = [])
    (h : ∀ y ∈ x.operands, (Node.expr y).Over S) : (Node.expr x).Over S := by
  rw [over_iff]
  refine ⟨fun s hs => ?_, by simpa [children] using h⟩
  rw [hsymbols] at hs
  exact absurd hs List.not_mem_nil

theorem over_ref (loc : Loc) (hs : s ∈ S) : (Node.expr (.ref loc s)).Over S := by
  rw [over_iff]
  exact ⟨by simpa [Node.symbols] using hs, fun _ h => nomatch h⟩

theorem over_ofInt (S : List Symbol) (v : Int) : (Node.expr (.ofInt v)).Over S := over_of_operands rfl fun _ h => nomatch h

mutual
theorem build_checks : ∀ e : ExprSpec, Checks N Γ e.build (e.WellFormed (idsOf N)) fun x => (Node.expr x).Over (symbolsOf N)
  | { op, loc, symbol, value, signed, width, operator, expr, lhs, rhs, cond, yes, no, parts, count, index, msb, lsb, field,
      func, args } => by
    rw [wellFormed_iff]
    unfold ExprSpec.build
    split
    · exact .congr ((Checks.resolve loc symbol).map fun s hs => over_ref loc (mem_symbolsOf hs))
    · exact .congr ((buildLiteral_checks loc value).map fun v _ => over_of_operands rfl (by simp [operands]))
    · exact .congr (Checks.test ((buildLiteral_checks loc value).map fun v _ =>
        over_of_operands rfl (by simp [operands]))) (by simp [and_comm])
    · exact .congr ((buildAt_checks loc expr).map fun x hx => over_of_operands rfl (by simpa [operands] using hx))
    · exact .congr ((buildAt_checks loc lhs).bind fun x => (buildAt_checks loc rhs).map fun y hy hx =>
        over_of_operands rfl (by simpa [operands] using ⟨hx, hy⟩))
    · exact .congr ((buildAt_checks loc cond).bind fun c => (buildAt_checks loc yes).bind fun x => (buildAt_checks loc no).map
        fun y hy hx hc => over_of_operands rfl (by simpa [operands] using ⟨hc, hx, hy⟩))
    · exact .congr (Checks.test ((buildList_checks parts).map fun xs hxs => over_of_operands rfl hxs))
    · exact .congr ((buildAt_checks loc count).bind fun n => (buildAt_checks loc expr).map fun x hx hn =>
        over_of_operands rfl (by simpa [operands] using ⟨hn, hx⟩))
    · exact .congr ((buildAt_checks loc expr).bind fun x => (buildAt_checks loc index).map fun i hi hx =>
        over_of_operands rfl (by simpa [operands] using ⟨hx, hi⟩))
    · exact .congr ((buildAt_checks loc expr).bind fun x => (buildAt_checks loc msb).bind fun m => (buildAt_checks loc lsb).map
        fun l hl hm hx => over_of_operands rfl (by simpa [operands] using ⟨hx, hm, hl⟩))
    · exact .congr ((buildAt_checks loc expr).map fun x hx => over_of_operands rfl (by simpa [operands] using hx))
    · exact .congr ((buildAt_checks loc func).bind fun f => (buildList_checks args).map fun xs hxs hf =>
        over_of_operands rfl (by simpa [operands] using ⟨hf, hxs⟩))
    · exact .congr (Checks.defect_bind _ _ (.pure trivial)) (by simp_all)

theorem buildAt_checks (loc : Loc) : ∀ o : Option ExprSpec, Checks N Γ (ExprSpec.buildAt loc o)
    (∃ e, o = some e ∧ e.WellFormed (idsOf N)) fun x => (Node.expr x).Over (symbolsOf N)
  | some e => by
    rw [ExprSpec.buildAt]
    exact .congr (build_checks e)
  | none => by
    rw [ExprSpec.buildAt]
    exact .congr (Checks.defect_bind _ _ (.pure trivial))

theorem buildList_checks : ∀ os : List (Option ExprSpec), Checks N Γ (ExprSpec.buildList os)
    (AllSome (·.WellFormed (idsOf N)) os) fun xs => ∀ x ∈ xs, (Node.expr x).Over (symbolsOf N)
  | [] => by
    rw [ExprSpec.buildList]
    exact .congr (Checks.pure (by simp))
  | some e :: os => by
    rw [ExprSpec.buildList]
    exact .congr ((build_checks e).bind fun x => (buildList_checks os).map fun xs hxs hx =>
      (List.forall_mem_cons (p := fun x => (Node.expr x).Over _)).mpr ⟨hx, hxs⟩)
  | none :: os => by
    rw [ExprSpec.buildList]
    exact .congr ((buildList_checks os).map fun xs hxs =>
      (List.forall_mem_cons (p := fun x => (Node.expr x).Over _)).mpr ⟨over_ofInt _ 0, hxs⟩)
end

end ExprSpec

/-! ## Kinds -/

theorem buildWidth_checks (loc : Loc) (kind : String) (width : Int64) :
    Checks N Γ (buildWidth loc kind width) (0 < width) fun _ => True := by
  unfold buildWidth
  split
  · rename_i hw
    exact .congr (Checks.defect_bind _ _ (.pure trivial)) (by simpa using hw)
  · rename_i hw
    exact .congr (Checks.pure trivial) (by simpa using hw)

theorem buildFlow_checks (loc : Loc) (flow : String) :
    Checks N Γ (buildFlow loc flow) (flow ∈ ["", "none", "valid", "ready"]) fun _ => True := by
  unfold buildFlow
  split
  any_goals exact .congr (Checks.pure trivial)
  exact .congr (Checks.defect_bind _ _ (.pure trivial)) (by simp_all)

theorem buildSlices_checks (loc : Loc) : ∀ slices : List String,
    Checks N Γ (buildSlices loc slices) (∀ s ∈ slices, s ∈ ["fslice", "bslice", "bubble"]) fun _ => True
  | [] => .congr (Checks.pure trivial)
  | s :: ss => by
    have hrest : ∀ k, Checks N Γ (do return k :: (← buildSlices loc ss)) (∀ s ∈ ss, s ∈ ["fslice", "bslice", "bubble"])
        fun _ => True := fun k => (buildSlices_checks loc ss).map fun _ _ => trivial
    unfold buildSlices
    split
    · exact .congr (hrest .forward)
    · exact .congr (hrest .backward)
    · exact .congr (hrest .bubble)
    · exact .congr (Checks.defect_bind _ _ (hrest .forward)) (by simp_all)

theorem buildStorage_checks (loc : Loc) (storage : String) (slices : List String) :
    Checks N Γ (buildStorage loc storage slices) (StorageKnown storage slices) fun _ => True := by
  unfold buildStorage StorageKnown
  split
  any_goals exact .congr (Checks.pure trivial)
  · split
    · exact .congr (Checks.defect_bind _ _ (.pure trivial)) (by simp_all)
    · exact .congr ((buildSlices_checks loc slices).map fun _ _ => trivial) (by simp_all)
  · exact .congr (Checks.defect_bind _ _ (.pure trivial)) (by simp_all)

theorem resolveList_checks (loc : Loc) : ∀ ids : List Int64,
    Checks N Γ (resolveList loc ids) (∀ id ∈ ids, id ∈ idsOf N) fun ss => ∀ s ∈ ss, s ∈ symbolsOf N
  | [] => .congr (Checks.pure (by simp))
  | id :: ids => by
    rw [resolveList]
    exact .congr ((Checks.resolve loc id).bind fun s => (resolveList_checks loc ids).map fun ss hss hs =>
      List.forall_mem_cons.mpr ⟨mem_symbolsOf hs, hss⟩) (by simp)

namespace TypeSpec

theorem wellFormed_iff {t : TypeSpec} : t.WellFormed ids ↔ t.kind ∈ typeKinds ∧
    (t.kind ∈ ["uint", "sint"] → 0 < t.width) ∧ (t.kind = "array" → 0 < t.size) ∧
    (t.kind ∈ ["in", "out"] → t.flow ∈ ["", "none", "valid", "ready"]) ∧ (t.kind = "out" → StorageKnown t.storage t.slices) ∧
    (t.kind = "stack" → ∃ d, t.depth = some d ∧ d.WellFormed ids) ∧ (t.kind = "entity" → ∀ id ∈ t.ports, id ∈ ids) ∧
    (t.kind = "instance" → t.entity ∈ ids) ∧ AllPresent (·.WellFormed ids) t.required := by
  constructor <;>
  · rintro ⟨kind, width, size, flow, storage, depth, ports, entity, present, parts⟩
    exact ⟨kind, width, size, flow, storage, depth, ports, entity, present, parts⟩

/-- What is built of a kind: it is over the symbols of the file, and it is that of an entity if the file says so. -/
def Built (N : List (Int64 × Symbol)) (kind : String) (k : Kind) : Prop :=
  k.Over (symbolsOf N) ∧ ((∃ ps, k = .entity ps) ↔ kind = "entity")

mutual
theorem build_checks (loc : Loc) : ∀ t : TypeSpec, Checks N Γ (TypeSpec.build loc t) (t.WellFormed (idsOf N)) (Built N t.kind)
  | { kind, width, signed, name, fields, elem, size, flow, storage, slices, depth, ports, entity } => by
    rw [wellFormed_iff]
    unfold TypeSpec.build
    split
    · exact .congr ((buildWidth_checks loc _ width).map fun w _ => ⟨trivial, by simp⟩)
    · exact .congr ((buildWidth_checks loc _ width).map fun w _ => ⟨trivial, by simp⟩)
    · exact .congr (Checks.pure ⟨trivial, by simp⟩)
    · exact .congr (Checks.pure ⟨trivial, by simp⟩)
    · exact .congr ((buildFields_checks loc fields).map fun fs hfs => ⟨hfs, by simp⟩)
    · exact .congr (Checks.test ((buildAt_checks loc elem).map fun k hk => ⟨hk, by simp⟩))
    · exact .congr ((buildAt_checks loc elem).bind fun k => (buildFlow_checks loc flow).map fun f _ hk => ⟨hk, by simp⟩)
        (by simp [and_comm])
    · exact .congr ((buildAt_checks loc elem).bind fun k => (buildFlow_checks loc flow).bind fun f =>
        (buildStorage_checks loc storage slices).map fun st _ _ hk => ⟨hk, by simp⟩) (by
        simp only [typeKinds, required, allPresent_cons, allPresent_nil]
        simp [and_assoc, and_comm])
    · exact .congr ((buildAt_checks loc elem).map fun k hk => ⟨hk, by simp⟩)
    · exact .congr ((buildAt_checks loc elem).map fun k hk => ⟨hk, by simp⟩)
    · split
      · exact .congr (Checks.defect_bind _ _ ((buildAt_checks loc elem).bind fun k => (Checks.depth _).map fun _ _ _ => trivial))
      · rename_i d
        exact .congr ((buildAt_checks loc elem).bind fun k => (ExprSpec.build_checks d).bind fun x => (Checks.depth x).map
          fun depth hdepth hx hk => ⟨⟨hk, by rwa [hdepth]⟩, by simp⟩) (by simp [and_comm])
    · exact .congr ((resolveList_checks loc ports).map fun ps hps => ⟨hps, by simp⟩)
    · exact .congr ((Checks.resolve loc entity).map fun s hs => ⟨mem_symbolsOf hs, by simp⟩)
    · exact .congr (Checks.defect_bind _ _ (.pure trivial)) (by simp_all)

theorem buildAt_checks (loc : Loc) : ∀ o : Option TypeSpec, Checks N Γ (TypeSpec.buildAt loc o)
    (∃ t, o = some t ∧ t.WellFormed (idsOf N)) fun k => k.Over (symbolsOf N)
  | some t => by
    rw [TypeSpec.buildAt]
    exact .congr ((build_checks loc t).imp fun _ hk => hk.1)
  | none => by
    rw [TypeSpec.buildAt]
    exact .congr (Checks.defect_bind _ _ (.pure trivial))

theorem buildFields_checks (loc : Loc) : ∀ fs : List FieldSpec, Checks N Γ (FieldSpec.buildList loc fs)
    (AllPresent (·.WellFormed (idsOf N)) (fs.map (·.type))) (Kind.OverFields (symbolsOf N))
  | [] => by
    rw [FieldSpec.buildList]
    exact .congr (Checks.pure trivial)
  | { name, type } :: fs => by
    rw [FieldSpec.buildList]
    exact .congr ((buildAt_checks loc type).bind fun k => (buildFields_checks loc fs).map fun ks hks hk => ⟨hk, hks⟩)
end

end TypeSpec

/-! ## Statements -/

theorem over_decl {d : Decl} (hsymbol : d.symbol ∈ S) (hinit : ∀ e, d.init = some e → (expr e).Over S) :
    (decl d).Over S := by
  rw [over_iff]
  refine ⟨by simpa [Node.symbols] using hsymbol, fun m hm => ?_⟩
  obtain ⟨e, he, rfl⟩ := List.mem_map.mp hm
  exact hinit e (Option.mem_toList.mp he)

theorem DeclSpec.build_checks (d : DeclSpec) :
    Checks N Γ d.build (d.WellFormed (idsOf N)) fun x => (decl x).Over (symbolsOf N) := by
  unfold DeclSpec.build DeclSpec.WellFormed
  refine .congr (P := d.symbol ∈ idsOf N ∧ ∀ e, d.init = some e → e.WellFormed (idsOf N))
    ((Checks.resolve d.loc d.symbol).bind fun s => ?_) Iff.rfl
  split
  · rename_i e he
    exact .congr ((ExprSpec.build_checks e).map fun x hx hs => over_decl (mem_symbolsOf hs) (by simpa using hx)) (by simp [he])
  · rename_i he
    exact .congr (Checks.pure fun hs => over_decl (mem_symbolsOf hs) (by simp)) (by simp [he])

theorem fallbackOf_getD (ss : List Stmt) : (fallbackOf ss).getD [] = ss := by
  cases ss <;> rfl

namespace StmtSpec

theorem wellFormed_iff {s : StmtSpec} : s.WellFormed ids ↔ s.stmt ∈ stmtNames ∧
    AllPresent (·.WellFormed ids) s.required ∧ AllSome (·.WellFormed ids) (s.arms.flatMap (·.conds)) ∧
    (s.stmt = "decl" → ∃ d, s.decl = some d ∧ d.WellFormed ids) ∧ AllSome (·.WellFormed ids) s.nested := by
  constructor <;>
  · rintro ⟨name, exprs, conds, decl, nested⟩
    exact ⟨name, exprs, conds, decl, nested⟩

theorem over_of_children {s : Stmt} (h : ∀ m ∈ s.children, m.Over S) : ∀ x, some s = some x → (Node.stmt x).Over S := by
  rintro _ ⟨⟩
  rw [over_iff]
  exact ⟨fun _ hs => (nomatch hs), h⟩

theorem over_clause {xs : List Expr} {ss : List Stmt} (hxs : ∀ x ∈ xs, (Node.expr x).Over S)
    (hss : ∀ s ∈ ss, (Node.stmt s).Over S) : (clause ⟨loc, xs, ss⟩).Over S := by
  rw [over_iff]
  exact ⟨fun _ hs => (nomatch hs), by simpa [children, or_imp, forall_and] using ⟨hxs, hss⟩⟩

mutual
theorem build_checks : ∀ s : StmtSpec, Checks N Γ s.build (s.WellFormed (idsOf N))
    fun o => ∀ x, o = some x → (Node.stmt x).Over (symbolsOf N)
  | { stmt, loc, body, cond, yes, no, expr, clauses, fallback, target, lhs, rhs, decl } => by
    rw [wellFormed_iff]
    unfold StmtSpec.build
    split
    -- statements without parts
    any_goals exact .congr (Checks.pure (over_of_children (by simp [Stmt.children])))
    · exact .congr ((buildList_checks body).map fun ss hss => over_of_children (by simpa [Stmt.children] using hss))
    · exact .congr ((ExprSpec.buildAt_checks loc cond).bind fun c => (buildList_checks yes).bind fun t =>
        (buildList_checks no).map fun e he ht hc => over_of_children (by
          simpa [Stmt.children, or_imp, forall_and] using ⟨hc, ht, he⟩))
    · exact .congr ((ExprSpec.buildAt_checks loc expr).bind fun x => (buildList_checks fallback).bind fun d =>
        (buildClauses_checks clauses).map fun cs hcs hd hx => over_of_children (by
          simpa [Stmt.children, fallbackOf_getD, or_imp, forall_and] using ⟨hx, hcs, hd⟩)) (by simp [and_left_comm])
    · exact .congr ((buildList_checks body).map fun ss hss => over_of_children (by simpa [Stmt.children] using hss))
    · exact .congr ((ExprSpec.buildAt_checks loc lhs).bind fun x => (ExprSpec.buildAt_checks loc rhs).map fun y hy hx =>
        over_of_children (by simpa [Stmt.children] using ⟨hx, hy⟩))
    · exact .congr ((ExprSpec.buildAt_checks loc expr).map fun x hx => over_of_children (by simpa [Stmt.children] using hx))
    · split
      · exact .congr (Checks.defect_bind _ _ (.pure trivial))
      · rename_i d
        exact .congr ((DeclSpec.build_checks d).map fun x hx => over_of_children (by simpa [Stmt.children] using hx))
    · exact .congr ((ExprSpec.buildAt_checks loc cond).map fun x hx => over_of_children (by simpa [Stmt.children] using hx))
    · exact .congr (Checks.defect_bind _ _ (.pure trivial)) (by simp_all)

theorem buildList_checks : ∀ os : List (Option StmtSpec), Checks N Γ (StmtSpec.buildList os)
    (AllSome (·.WellFormed (idsOf N)) os) fun xs => ∀ x ∈ xs, (Node.stmt x).Over (symbolsOf N)
  | [] => by
    rw [StmtSpec.buildList]
    exact .congr (Checks.pure (by simp))
  | some s :: os => by
    rw [StmtSpec.buildList]
    exact .congr ((build_checks s).bind fun o => (buildList_checks os).map fun xs hxs ho x hx =>
      (List.mem_append.mp hx).elim (fun hx => ho x (Option.mem_toList.mp hx)) (hxs x))
  | none :: os => by
    rw [StmtSpec.buildList]
    exact .congr (buildList_checks os)

theorem buildClauses_checks : ∀ os : List (Option ClauseSpec), Checks N Γ (ClauseSpec.buildList os)
    (AllSome (·.WellFormed (idsOf N)) (os.reduceOption.flatMap (·.conds)) ∧
      AllSome (·.WellFormed (idsOf N)) (os.reduceOption.flatMap (·.body)))
    fun cs => ∀ c ∈ cs, (clause c).Over (symbolsOf N)
  | [] => by
    rw [ClauseSpec.buildList]
    exact .congr (Checks.pure (by simp))
  | some { loc, conds, body } :: os => by
    rw [ClauseSpec.buildList]
    exact .congr ((ExprSpec.buildList_checks conds).bind fun xs => (buildList_checks body).bind fun ss =>
      (buildClauses_checks os).map fun cs hcs hss hxs => (List.forall_mem_cons (p := fun c => (clause c).Over _)).mpr
        ⟨over_clause hxs hss, hcs⟩) (by
      simp [List.reduceOption_cons_of_some, and_assoc, and_left_comm])
  | none :: os => by
    rw [ClauseSpec.buildList]
    exact .congr (buildClauses_checks os)
end

end StmtSpec

/-! ## Entities -/

theorem buildAll_checks {α β : Type} {build : α → BuildM β} {P : α → Prop} {Q : β → Prop}
    (h : ∀ x, Checks N Γ (build x) (P x) Q) (os : List (Option α)) :
    Checks N Γ (buildAll build os) (AllSome P os) fun ys => ∀ y ∈ ys, Q y := by
  unfold buildAll
  induction os with
  | nil => exact .congr (Checks.pure (by simp))
  | cons o os ih =>
    cases o with
    | none => exact .congr ih (by simp)
    | some x =>
      rw [List.reduceOption_cons_of_some, List.mapM_cons]
      exact .congr ((h x).bind fun y => ih.map fun ys hys hy => List.forall_mem_cons.mpr ⟨hy, hys⟩)

theorem InstanceSpec.build_checks (i : InstanceSpec) :
    Checks N Γ i.build (i.WellFormed (idsOf N)) fun x => (inst x).Over (symbolsOf N) :=
  .congr ((Checks.resolve i.loc i.symbol).bind fun s => (Checks.resolve i.loc i.entity).map fun e he hs => by
    rw [over_iff]
    exact ⟨List.forall_mem_cons.mpr ⟨mem_symbolsOf hs, by simpa [Node.symbols] using mem_symbolsOf he⟩, fun _ h => (nomatch h)⟩)
    Iff.rfl

theorem ConnectSpec.build_checks (c : ConnectSpec) :
    Checks N Γ c.build (c.WellFormed (idsOf N)) fun x => (connect x).Over (symbolsOf N) :=
  .congr ((ExprSpec.buildAt_checks c.loc c.lhs).bind fun x => Checks.test ((ExprSpec.buildList_checks c.rhs).map
    fun ys hys hx => by
      rw [over_iff]
      exact ⟨fun _ h => (nomatch h), by simpa [children] using ⟨hx, hys⟩⟩)) (by simp [ConnectSpec.WellFormed])

namespace EntitySpec

/-- An entity over some symbols, and with it all that are nested in it, named by symbols that stand for entities. -/
def Built (N : List (Int64 × Symbol)) (Γ : SymbolTable) (x : Entity) : Prop :=
  (Node.entity x).Over (symbolsOf N) ∧ ∀ y ∈ Node.entities x.nodes, isEntitySymbol (Γ.entry y.symbol) = true

theorem wellFormed_iff {isEntity : Int64 → Prop} {e : EntitySpec} : e.WellFormed ids isEntity ↔
    isEntity e.symbol ∧ AllSome (·.WellFormed ids) e.decls ∧ AllSome (·.WellFormed ids isEntity) e.entities ∧
    AllSome (·.WellFormed ids) e.instances ∧ AllSome (·.WellFormed ids) e.connects ∧ AllSome (·.WellFormed ids) e.stmts := by
  constructor <;>
  · rintro ⟨symbol, decls, entities, instances, connects, stmts⟩
    exact ⟨symbol, decls, entities, instances, connects, stmts⟩

theorem test_checks {α : Type} {P : Prop} {Q : α → Prop} {x : BuildM α}
    (h : Checks N Γ x P fun r => isEntitySymbol (Γ.entry s) = true → Q r) :
    Checks N Γ (do
      let entry := (← get).symbols.entry s
      unless isEntitySymbol entry do BuildM.defect loc (.notEntity entry.name)
      x) (isEntitySymbol (Γ.entry s) = true ∧ P) Q := by
  have htest : ∀ entry, Checks N Γ (do
      unless isEntitySymbol entry do BuildM.defect loc (.notEntity entry.name)
      x) (isEntitySymbol entry = true ∧ P) fun r => isEntitySymbol (Γ.entry s) = true → Q r := by
    intro entry
    dsimp only
    split
    · rename_i hentry
      exact h.congr (by simp [hentry])
    · rename_i hentry
      exact .congr (Checks.defect_bind _ _ (h.imp fun _ _ => trivial)) (by simp [hentry])
  intro b hN
  obtain ⟨hnumbers, hle, hcases⟩ := htest (b.symbols.entry s) b hN
  refine ⟨hnumbers, hle, fun hΓ => ?_⟩
  subst hΓ
  exact (hcases rfl).imp_left fun ⟨hP, hlength, hsymbols, hr⟩ => ⟨hP, hlength, hsymbols, hr hP.1⟩

theorem over_entity {e : Entity} (hsymbol : e.symbol ∈ S) (hdecls : ∀ d ∈ e.decls, (decl d).Over S)
    (hentities : ∀ c ∈ e.entities, (entity c).Over S) (hinstances : ∀ i ∈ e.instances, (inst i).Over S)
    (hconnects : ∀ c ∈ e.connects, (connect c).Over S) (hstmts : ∀ s ∈ e.stmts, (stmt s).Over S) :
    (entity e).Over S := by
  rw [over_iff]
  refine ⟨by simpa [Node.symbols] using hsymbol, ?_⟩
  simpa [children, or_imp, forall_and] using ⟨hdecls, hentities, hinstances, hconnects, hstmts⟩

theorem built_nested {e : Entity} (hsymbol : isEntitySymbol (Γ.entry e.symbol) = true) (hentities : ∀ c ∈ e.entities, Built N Γ c) :
    ∀ y ∈ Node.entities e.nodes, isEntitySymbol (Γ.entry y.symbol) = true := by
  rw [entities_entity, List.forall_mem_cons]
  refine ⟨hsymbol, fun y hy => ?_⟩
  obtain ⟨c, hc, hy⟩ := mem_entities_nodesList_iff.mp hy
  exact (hentities c hc).2 y (by rwa [entities_entity, List.mem_cons])

def Tells (N : List (Int64 × Symbol)) (Γ : SymbolTable) (isEntity : Int64 → Prop) : Prop :=
  (∀ id, isEntity id → id ∈ idsOf N) ∧ ∀ id s, N.lookup id = some s → (isEntitySymbol (Γ.entry s) = true ↔ isEntity id)

variable {isEntity : Int64 → Prop}

mutual
theorem build_checks (htells : Tells N Γ isEntity) :
    ∀ e : EntitySpec, Checks N Γ e.build (e.WellFormed (idsOf N) isEntity) (Built N Γ)
  | { symbol, loc, decls, entities, instances, connects, stmts } => by
    rw [wellFormed_iff, EntitySpec.build]
    refine .congr ((Checks.resolve loc symbol).bind_of (fun s => test_checks
      ((buildAll_checks DeclSpec.build_checks decls).bind fun ds => (buildList_checks htells entities).bind fun es =>
        (buildAll_checks InstanceSpec.build_checks instances).bind fun is =>
        (buildAll_checks ConnectSpec.build_checks connects).bind fun cs =>
        (StmtSpec.buildList_checks stmts).map fun ss hss hcs his hes hds hentity hs => ⟨over_entity (mem_symbolsOf hs) hds
          (fun c hc => (hes c hc).1) his hcs hss, built_nested hentity hes⟩))
      fun s hs => and_congr_left fun _ => htells.2 symbol s hs) ?_
    exact and_iff_right_of_imp fun ⟨hsymbol, _⟩ => htells.1 symbol hsymbol

theorem buildList_checks (htells : Tells N Γ isEntity) :
    ∀ os : List (Option EntitySpec), Checks N Γ (EntitySpec.buildList os)
      (AllSome (·.WellFormed (idsOf N) isEntity) os) fun xs => ∀ x ∈ xs, Built N Γ x
  | [] => by
    rw [EntitySpec.buildList]
    exact .congr (Checks.pure (by simp))
  | some e :: os => by
    rw [EntitySpec.buildList]
    exact .congr ((build_checks htells e).bind fun x => (buildList_checks htells os).map fun xs hxs hx =>
      List.forall_mem_cons.mpr ⟨hx, hxs⟩)
  | none :: os => by
    rw [EntitySpec.buildList]
    exact .congr (buildList_checks htells os)
end

end EntitySpec

end Interchange

end HdlLowering
