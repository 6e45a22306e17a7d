import HdlLowering.Proofs.Pipeline.Neighbours

/-!
# A pipeline taken apart

The chains of a pipeline are taken out of it, and its connections go to what was made of the stages.
-/

namespace HdlLowering.Pipeline

open List PassM

variable {Γ Γ' : SymbolTable} {e : Entity} {found : List (List Symbol)} {ch : List Symbol} {lowered : List (Stage × Entity)}
  {x : Entity} {aborts : Prop}

/-! ## Elements with different keys -/

theorem find?_of_nodup {α β : Type} [BEq β] [LawfulBEq β] {f : α → β} {xs : List α} {x : α} (h : (xs.map f).Nodup)
    (hx : x ∈ xs) : xs.find? (fun y => f y == f x) = some x := by
  induction xs with
  | nil => nomatch hx
  | cons y ys ih =>
    rw [map_cons, nodup_cons] at h
    rcases mem_cons.mp hx with rfl | hx
    · exact find?_cons_of_pos (by simp)
    · have hne : f y ≠ f x := fun heq => h.1 (heq ▸ mem_map_of_mem hx)
      rw [find?_cons_of_neg (by simpa using hne)]
      exact ih h.2 hx

theorem find?_reverse_of_nodup {α β : Type} [BEq β] [LawfulBEq β] {f : α → β} {xs : List α} {x : α} (h : (xs.map f).Nodup)
    (hx : x ∈ xs) : xs.reverse.find? (fun y => f y == f x) = some x := by
  refine find?_of_nodup ?_ (mem_reverse.mpr hx)
  rwa [map_reverse, nodup_reverse]

/-! ## The stages of a chain -/

def stagesOf (e : Entity) (ch : List Symbol) : List Entity := ch.filterMap (nested? e)

theorem nested?_eq (h : (e.entities.map (·.symbol)).Nodup) (hx : x ∈ e.entities) :
    nested? e x.symbol = some x := find?_reverse_of_nodup h hx

theorem mem_of_mem_stagesOf (hx : x ∈ stagesOf e ch) : x ∈ e.entities := by
  obtain ⟨s, -, hs⟩ := mem_filterMap.mp hx
  exact mem_reverse.mp (mem_of_find?_eq_some hs)

theorem map_symbol_stagesOf (h : (e.entities.map (·.symbol)).Nodup)
    (hch : ∀ x ∈ ch, x ∈ e.entities.map (·.symbol)) : (stagesOf e ch).map (·.symbol) = ch := by
  induction ch with
  | nil => rfl
  | cons s ch ih =>
    rw [forall_mem_cons] at hch
    obtain ⟨x, hx, rfl⟩ := mem_map.mp hch.1
    rw [stagesOf, filterMap_cons_some (nested?_eq h hx), map_cons]
    exact congrArg _ (ih hch.2)

theorem map_symbol_live (h : (e.entities.map (·.symbol)).Nodup)
    (hch : ∀ x ∈ ch, x ∈ e.entities.map (·.symbol)) : (live Γ e (stagesOf e ch)).map (·.1.symbol) = ch := by
  calc (live Γ e (stagesOf e ch)).map (·.1.symbol)
    _ = ((live Γ e (stagesOf e ch)).map (·.1)).map (·.symbol) := by rw [map_map]; rfl
    _ = ch := by rw [map_fst_live, map_symbol_stagesOf h hch]

theorem LoweredChain.symbols_eq {before : Option SymbolSet} {stages : List (Entity × SymbolSet)} {ls : List (Stage × Entity)}
    (h : LoweredChain Γ Γ' before stages ls) : ls.map (·.1.symbol) = stages.map (·.1.symbol) := by
  induction h with
  | nil => rfl
  | cons hfirst _ ih => rw [map_cons, ih, hfirst.symbol, map_cons]

/-! ## All chains -/

structure LoweredAll (Γ Γ' : SymbolTable) (e : Entity) (found : List (List Symbol)) (lowered : List (Stage × Entity)) :
    Prop where
  symbols : lowered.map (·.1.symbol) = found.flatten
  chain : ∀ ch ∈ found, ∃ ls, (∀ p ∈ ls, p ∈ lowered) ∧ LoweredChain Γ Γ' none (live Γ e (stagesOf e ch)) ls
  origin : ∀ p ∈ lowered, ∃ ch ls, p ∈ ls ∧ LoweredChain Γ Γ' none (live Γ e (stagesOf e ch)) ls

theorem used_of_extended (h : Staged Γ e) {ss : List Symbol} (hext : Γ.Extended ss Γ') (vars : SymbolSet)
    (hx : x ∈ e.entities) : used Γ' vars x = used Γ vars x := by
  have hmember : ∀ v ∈ Node.refs x.nodes, Γ'.member v = Γ.member v := by
    intro v hv
    rw [SymbolTable.member, SymbolTable.member, hext.id v (h.refs x hx v hv)]
  have hfilter : (Node.refs x.nodes).filter (fun s => vars.has (Γ'.member s)) =
      (Node.refs x.nodes).filter fun s => vars.has (Γ.member s) :=
    filter_congr fun v hv => by rw [hmember v hv]
  rw [used, used, hfilter, SymbolTable.setOf, SymbolTable.setOf]
  congr 1
  exact map_congr_left fun v hv => hmember v (mem_filter.mp hv).1

/-- All chains of a pipeline are taken out of it. -/
theorem lowerChains_yields (h : Staged Γ e) : ∀ (found : List (List Symbol)) (s : Session Unit),
    Γ.Extended (e.entities.map (·.symbol)) s.ctx.symbols → (∀ ch ∈ found, ∀ x ∈ ch, x ∈ e.entities.map (·.symbol)) →
    found.flatten.Nodup → (∀ ch ∈ found, FedChain aborts none (live Γ e (stagesOf e ch))) →
    Lands (Fatal aborts) (fun lowered s' => ∃ c', s' = { s with ctx := c' } ∧ s.ctx.symbols.Extended found.flatten c'.symbols ∧
      LoweredAll Γ c'.symbols e found lowered)
      ((found.flatMapM fun chain => do
        let stages := chain.filterMap (nested? e)
        lowerChain none (stages.zip (alive none (stages.map (used (← symbols) (carried Γ e))))) :
        PassM Unit (List (Stage × Entity))) s)
  | [], s, _, _, _, _ => by
    rw [flatMapM_nil]
    exact ⟨s.ctx, rfl, .refl _ _, rfl, forall_mem_nil _, forall_mem_nil _⟩
  | ch :: found, s, hext, hmem, hnodup, hfed => by
    rw [forall_mem_cons] at hmem hfed
    rw [flatten_cons, nodup_append] at hnodup
    obtain ⟨hfirst, hrest, hdisjoint⟩ := hnodup
    have hchain : ∀ x ∈ stagesOf e ch, x ∈ e.entities := fun x => mem_of_mem_stagesOf
    have hused : (stagesOf e ch).map (used s.ctx.symbols (carried Γ e)) = (stagesOf e ch).map (used Γ (carried Γ e)) :=
      map_congr_left fun x hx => used_of_extended h hext _ (hchain x hx)
    have hsymbols := map_symbol_live (Γ := Γ) h.distinct hmem.1
    have hstages : ∀ p ∈ live Γ e (stagesOf e ch), p.1.symbol ∈ ch := fun p hp =>
      hsymbols ▸ mem_map_of_mem (f := fun q : Entity × SymbolSet => q.1.symbol) hp
    rw [flatMapM_cons, bind_assoc, bind_ok (symbols_ok s)]
    rw [stagesOf] at hused
    dsimp only
    rw [hused]
    refine (lowerChain_yields h.entity_listed (hfed.1) s hext (fun p hp => hmem.1 _ (hstages p hp))
      (hsymbols.symm ▸ hfirst) (fun p hp => h.settled fun v hv => (h.over_live hchain p hp).mem_domain hv) nofun).bind ?_
    rintro ls s1 ⟨c1, rfl, hext1, hls⟩
    rw [hsymbols] at hext1
    have hext' : Γ.Extended (e.entities.map (·.symbol)) c1.symbols := (hext.trans hext1).mono fun x hx =>
      (mem_append.mp hx).elim (fun hx => hx) (hmem.1 x)
    refine (lowerChains_yields h found { s with ctx := c1 } hext' hmem.2 hrest hfed.2).bind ?_
    rintro lowered s2 ⟨c2, rfl, hext2, hlowered⟩
    have hlisted : ∀ x ∈ found.flatten, x.index < Γ.entries.size := by
      intro x hx
      obtain ⟨ch', hch', hx⟩ := mem_flatten.mp hx
      exact h.entity_listed x (hmem.2 ch' hch' x hx)
    -- the stages of this chain are none of the later ones
    have hkeep := hls.later hext2 hlisted fun p hp =>
      ⟨Nat.lt_of_lt_of_le (h.entity_listed _ (hmem.1 _ (hstages p hp))) hext'.size,
        fun hx => hdisjoint _ (hstages p hp) _ hx rfl⟩
    refine ⟨c2, rfl, hext1.trans hext2, ?_, ?_, forall_mem_append.mpr ⟨fun p hp => ⟨ch, ls, hp, hkeep⟩, hlowered.origin⟩⟩
    · rw [map_append, hls.symbols_eq, hsymbols, hlowered.symbols, flatten_cons]
    · rw [forall_mem_cons]
      refine ⟨⟨ls, fun p hp => mem_append_left _ hp, hkeep⟩, fun ch' hch' => ?_⟩
      obtain ⟨ls', hsub, hls'⟩ := hlowered.chain ch' hch'
      exact ⟨ls', fun p hp => mem_append_right _ (hsub p hp), hls'⟩

/-! ## Entities and connections in their new form -/

theorem replaced_cons (hlowered : (lowered.map (·.1.symbol)).Nodup) {p : Stage × Entity} (hp : p ∈ lowered) {child : Entity}
    {rest : List Entity} (hchild : p.1.symbol = child.symbol) (hnot : child.symbol ∉ rest.map (·.symbol)) :
    replaced lowered (child :: rest) = p.2 :: replaced lowered rest := by
  have hlast : ¬ rest.any (·.symbol == child.symbol) = true := by
    rw [any_eq_true]
    rintro ⟨x, hx, heq⟩
    exact hnot (beq_iff_eq.mp heq ▸ mem_map_of_mem hx)
  have hfind := find?_reverse_of_nodup (f := fun p : Stage × Entity => p.1.symbol) hlowered hp
  rw [hchild] at hfind
  rw [replaced, if_neg hlast, hfind]
  rfl

/-- What was made of a nested entity takes its place. -/
theorem mem_replaced (hlowered : (lowered.map (·.1.symbol)).Nodup) {p : Stage × Entity}
    (hp : p ∈ lowered) : ∀ {children : List Entity}, (children.map (·.symbol)).Nodup → p.1.symbol ∈ children.map (·.symbol) →
    p.2 ∈ replaced lowered children
  | child :: rest, hnodup, hmem => by
    rw [map_cons, nodup_cons] at hnodup
    rcases mem_cons.mp hmem with hchild | hrest
    · rw [replaced_cons hlowered hp hchild hnodup.1]
      exact mem_cons_self
    · exact mem_cons_of_mem _ (mem_replaced hlowered hp hnodup.2 hrest)

theorem of_mem_replaced (hlowered : (lowered.map (·.1.symbol)).Nodup) : ∀ {children : List Entity},
    (children.map (·.symbol)).Nodup → (∀ s ∈ children.map (·.symbol), s ∈ lowered.map (·.1.symbol)) →
    x ∈ replaced lowered children → ∃ p ∈ lowered, p.2 = x
  | child :: rest, hnodup, hcover, hx => by
    rw [map_cons, forall_mem_cons] at hcover
    rw [map_cons, nodup_cons] at hnodup
    obtain ⟨p, hp, hchild⟩ := mem_map.mp hcover.1
    rw [replaced_cons hlowered hp hchild hnodup.1] at hx
    rcases mem_cons.mp hx with rfl | hx
    · exact ⟨p, hp, rfl⟩
    · exact of_mem_replaced hlowered hnodup.2 hcover.2 hx

/-- A connection from a stage to the next one goes from the output of the one to the input of the other, or is dropped when no
variable crosses. -/
theorem rewired_eq (hlowered : (lowered.map (·.1.symbol)).Nodup) {p q : Stage × Entity}
    (hp : p ∈ lowered) (hq : q ∈ lowered) {vs : List Symbol}
    (hout : Carries Γ Γ' outputKind outputName vs p.1.output) (hin : Carries Γ Γ' inputKind inputName vs q.1.input)
    (c : Connect) : rewired Γ' lowered c ⟨p.1.symbol, q.1.symbol⟩ =
      if vs = [] then none else some ⟨c.loc, c.source.dot outputName, c.sinks.map (·.dot inputName)⟩ := by
  have hsource := find?_reverse_of_nodup (f := fun p : Stage × Entity => p.1.symbol) hlowered hp
  have htarget := find?_reverse_of_nodup (f := fun p : Stage × Entity => p.1.symbol) hlowered hq
  simp only [rewired, hsource, htarget, Option.map_some, Option.bind_some]
  cases hpo : p.1.output with
  | none =>
    rw [hpo] at hout
    rw [if_pos (show vs = [] from hout)]
    rfl
  | some o =>
    cases hqi : q.1.input with
    | none =>
      rw [hqi] at hin
      rw [if_pos (show vs = [] from hin)]
      rfl
    | some i =>
      rw [hpo] at hout
      rw [hqi] at hin
      obtain ⟨hne, -, -, -, hname, -⟩ := hout
      obtain ⟨-, -, -, -, hname', -⟩ := hin
      rw [if_neg hne, ← hname, ← hname']
      rfl

end HdlLowering.Pipeline
