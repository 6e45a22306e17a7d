import HdlLowering.Proofs.Execution.Clocked
import HdlLowering.Proofs.Execution.Writes
import HdlLowering.Proofs.Pipeline.Rewiring

/-!
# Values on the bus

What a stage writes are the values of its copies side by side, and the next stage reads them back into copies of its own.
-/

namespace HdlLowering

open List Expr Bits

variable {Γ : SymbolTable} {xs : List Symbol}

/-! ## Symbols side by side -/

namespace Expr

theorem symbolsList_ofSymbol (xs : List Symbol) : symbolsList (xs.map ofSymbol) = xs := by
  induction xs with
  | nil => rfl
  | cons x xs ih =>
    rw [map_cons, symbolsList_cons, ih]
    rfl

theorem targets_concat_ofSymbol (xs : List Symbol) : (concat (xs.map ofSymbol)).targets = xs.map ofSymbol := by
  match xs with
  | [] => rfl
  | [_] => rfl
  | _ :: _ :: _ => rfl

theorem rawParts_ofSymbol {b : Bindings} {st : Store Γ} (hb : ∀ x ∈ xs, b.get? x = some (st.value x))
    (hw : ∀ x ∈ xs, (Γ.kind x).width ≠ 0) (front : Int) : ∃ word, rawParts Γ b front (xs.map ofSymbol) = some word := by
  induction xs generalizing front with
  | nil => exact ⟨front, rfl⟩
  | cons x xs ih =>
    rw [forall_mem_cons] at hb hw
    have hfit : (ofSymbol x).fit Γ (raw Γ b (ofSymbol x)) = some ((Γ.kind x).underlying.normalize (st.value x)) := by
      change (b.get? x).map _ = _
      rw [hb.1]
      rfl
    have hwidth : (ofSymbol x).width Γ ≠ 0 := by
      change (Γ.kind x).underlying.width ≠ 0
      rw [Kind.width_underlying]
      exact hw.1
    obtain ⟨word, hword⟩ := ih hb.2 hw.2 _
    refine ⟨word, ?_⟩
    rw [map_cons, rawParts, hfit]
    dsimp only
    rw [if_neg hwidth]
    exact hword

theorem bits_ofSymbol (x : Symbol) : (ofSymbol x).bits Γ = size (Γ.kind x).width := bits_ref _ x

theorem rawIn_concat (st : Store Γ) (hw : ∀ x ∈ xs, (Γ.kind x).width ≠ 0) :
    ∃ word, (concat (xs.map ofSymbol)).rawIn st = some word ∧ ∀ before x after, xs = before ++ x :: after →
      unsigned (word >>> bitsList Γ (after.map ofSymbol)) (Γ.kind x).width =
        unsigned (st.value x) (Γ.kind x).width := by
  have hsingle : ∀ x, ∃ word, (concat ([x].map ofSymbol)).rawIn st = some word ∧ ∀ before y after,
      [x] = before ++ y :: after → unsigned (word >>> bitsList Γ (after.map ofSymbol)) (Γ.kind y).width =
        unsigned (st.value y) (Γ.kind y).width := by
    intro x
    refine ⟨st.value x, rawIn_ref _ x, fun before y after heq => ?_⟩
    obtain ⟨rfl, rfl, rfl⟩ : before = [] ∧ y = x ∧ after = [] := by
      cases before with
      | nil => simp_all
      | cons b before => simp at heq
    rw [map_nil, bitsList_nil, Int.shiftRight_zero]
  have hseveral : ∀ l, ∃ word, (cat l (xs.map ofSymbol)).rawIn st = some word ∧ ∀ before x after,
      xs = before ++ x :: after → unsigned (word >>> bitsList Γ (after.map ofSymbol)) (Γ.kind x).width =
        unsigned (st.value x) (Γ.kind x).width := by
    intro l
    have hb : ∀ x ∈ xs, (st.known (cat l (xs.map ofSymbol)).symbols).get? x = some (st.value x) := by
      intro x hx
      have hsymbols : (cat l (xs.map ofSymbol)).symbols = xs := symbolsList_ofSymbol xs
      exact st.get?_known (hsymbols.symm ▸ hx)
    obtain ⟨word, hword⟩ := rawParts_ofSymbol hb hw 0
    refine ⟨word, hword, ?_⟩
    rintro before x after rfl
    -- the word is the join of the values, whatever is left open elsewhere
    let ω : Unknowns := ⟨fun _ _ => id, fun _ _ _ => id, fun _ _ => id, fun _ _ => id, fun _ _ => id, fun _ _ => id,
      fun _ v _ => v⟩
    have hjoin : word = join 0 (fields ω st ((before ++ x :: after).map ofSymbol)) := by
      have hraw := rawValue_of_raw (ω := ω) (st.agrees_known _) (.cat l ((before ++ x :: after).map ofSymbol)) word hword
      rw [rawValue_cat] at hraw
      exact (Option.some.inj hraw).symm
    have hfields : fields ω st ((before ++ x :: after).map ofSymbol) =
        fields ω st (before.map ofSymbol) ++
          ((ofSymbol x).bits Γ, (ofSymbol x).value ω st) :: fields ω st (after.map ofSymbol) := by
      simp [fields]
    have hfield := join_field 0 (fields ω st (before.map ofSymbol))
      (fields ω st (after.map ofSymbol)) ((ofSymbol x).bits Γ) ((ofSymbol x).value ω st)
    rw [← hfields, ← hjoin, count_fields, bits_ofSymbol] at hfield
    rw [unsigned_eq, values_eq, hfield, unsigned_eq, values_eq, ofSymbol, value_ref]
  rcases xs with - | ⟨x, - | ⟨y, ys⟩⟩
  · exact hseveral _
  · exact hsingle x
  · exact hseveral _

end Expr

theorem Store.receive_concat {ω : Unknowns} (st : Store Γ) (before : List Symbol) (x : Symbol) (after : List Symbol)
    (hnodup : (before ++ x :: after).Nodup) (word : Int) :
    (st.receive ω (concat ((before ++ x :: after).map ofSymbol)) word).value x =
      (Γ.kind x).normalize (word >>> bitsList Γ (after.map ofSymbol)) := by
  rw [Store.receive, targets_concat_ofSymbol]
  have hroots : ((cut Γ ((before ++ x :: after).map ofSymbol) word).map fun f => f.1.root?).Nodup := by
    rw [map_root?_cut, map_map]
    exact hnodup.map (Option.some_injective _)
  have hmem := mem_cut (Γ := Γ) (before.map ofSymbol) (after.map ofSymbol) (ofSymbol x) word
  have hsplit : before.map ofSymbol ++ ofSymbol x :: after.map ofSymbol =
      (before ++ x :: after).map ofSymbol := by simp
  rw [hsplit] at hmem
  rw [Store.writeAll_of_mem hroots hmem (s := x) rfl]
  rfl

namespace Pipeline

variable {Γ' : SymbolTable} {st : Stage} {here : List Symbol}

/-! ## Copies of variables -/

def Stage.copy (st : Stage) (v : Symbol) : Symbol := (st.locals.lookup v).getD v

theorem Stage.pack_eq (st : Stage) (vs : List Symbol) : st.pack vs = Expr.concat ((vs.map st.copy).map ofSymbol) := by
  rw [Stage.pack, map_map]
  rfl

theorem Copies.mem_locals (h : Copies Γ Γ' here st.locals) {v : Symbol} (hv : v ∈ here) : (v, st.copy v) ∈ st.locals := by
  rw [← h.keys] at hv
  exact mem_lookup hv v

theorem Copies.kind_copy (h : Copies Γ Γ' here st.locals) {v : Symbol} (hv : v ∈ here) :
    Γ'.kind (st.copy v) = (Γ.kind v).underlying := h.kind _ (h.mem_locals hv)

theorem Copies.nodup_copy {here vs : List Symbol} (h : Copies Γ Γ' here st.locals) (hvs : ∀ v ∈ vs, v ∈ here)
    (hnodup : vs.Nodup) : (vs.map st.copy).Nodup := by
  refine hnodup.map_on fun v hv w hw heq => ?_
  have hv := h.mem_locals (hvs v hv)
  have hw := h.mem_locals (hvs w hw)
  have hpair := inj_on_of_nodup_map h.distinct hv hw heq
  exact congrArg Prod.fst hpair

/-! ## From a stage to the next one -/

/-- Both stages list the variables in the same order, and the copies of a variable have one type, so every variable keeps its
value. -/
theorem Neighbours.transfer {vs : List Symbol} {x y : Entity} {p q : Stage × Entity} (h : Neighbours Γ Γ' vs x y p q)
    (hwidth : ∀ v ∈ vs, (Γ.kind v).underlying.width ≠ 0) (sent : Store Γ') : ∃ word, (p.1.pack vs).rawIn sent = some word ∧
      ∀ (ω : Unknowns) (held : Store Γ'), ∀ v ∈ vs,
        (held.receive ω (q.1.pack vs) word).value (q.1.copy v) = sent.value (p.1.copy v) := by
  obtain ⟨here, before, hp, hhere⟩ := h.source
  obtain ⟨next, after, hq, hnext⟩ := h.target
  have hnodup : vs.Nodup := by
    refine (pairwise_map.mp h.ascending).imp fun {v w} hlt heq => ?_
    subst heq
    exact Int64.lt_irrefl hlt
  have hkind : ∀ v ∈ vs, Γ'.kind (p.1.copy v) = (Γ.kind v).underlying := fun v hv => hp.copies.kind_copy (hhere v hv)
  have hkind' : ∀ v ∈ vs, Γ'.kind (q.1.copy v) = (Γ.kind v).underlying := fun v hv => hq.copies.kind_copy (hnext v hv)
  have hw : ∀ x ∈ vs.map p.1.copy, (Γ'.kind x).width ≠ 0 := by
    intro x hx
    obtain ⟨v, hv, rfl⟩ := mem_map.mp hx
    rw [hkind v hv]
    exact hwidth v hv
  obtain ⟨word, hword, hfield⟩ := rawIn_concat sent hw
  refine ⟨word, by rw [Stage.pack_eq, hword], fun ω held v hv => ?_⟩
  obtain ⟨front, back, rfl⟩ := append_of_mem hv
  have hback : bitsList Γ' ((back.map q.1.copy).map ofSymbol) =
      bitsList Γ' ((back.map p.1.copy).map ofSymbol) := by
    simp only [bitsList, map_map]
    refine congrArg sum (map_congr_left fun w hw => ?_)
    have hw : w ∈ front ++ v :: back := by simp [hw]
    simp only [Function.comp, bits_ofSymbol, hkind w hw, hkind' w hw]
  have hreceive := held.receive_concat (ω := ω) (front.map q.1.copy) (q.1.copy v) (back.map q.1.copy)
    (by simpa using hq.copies.nodup_copy hnext hnodup) word
  have hsent := hfield (front.map p.1.copy) (p.1.copy v) (back.map p.1.copy) (by simp)
  rw [Stage.pack_eq, map_append, map_cons, hreceive, hback, hkind' v hv, ← hkind v hv]
  calc (Γ'.kind (p.1.copy v)).normalize (word >>> bitsList Γ' ((back.map p.1.copy).map ofSymbol))
    _ = (Γ'.kind (p.1.copy v)).normalize (sent.value (p.1.copy v)) :=
      Kind.normalize_eq_of_unsigned (hw _ (mem_map_of_mem hv)) hsent
    _ = sent.value (p.1.copy v) := sent.fits _

end Pipeline

end HdlLowering
