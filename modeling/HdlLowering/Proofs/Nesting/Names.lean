import HdlLowering.Proofs.Nesting.Lifting

/-!
# Names of lifted entities

A lifted entity is named after the entities it was nested in, with the separator in between (`Entity.flatNames`). For a name to
be taken apart again, a parent's name must not end in a part of the separator that makes it occur too early.
-/

namespace HdlLowering

open List Node SymbolTable Entity

variable {sep w w' t t' : List Char} {n : String}

/-! ## Joined names -/

/-- A word that ends before the first place where the separator occurs, when it is followed by the separator. -/
def EndsAt (sep w : List Char) : Prop := ¬ sep <:+: (w ++ sep).dropLast

instance (sep w : List Char) : Decidable (EndsAt sep w) := inferInstanceAs (Decidable (¬ _))

/-- The shorter one of two words cannot be followed by the separator inside the longer one. -/
theorem EndsAt.length_le (hw' : EndsAt sep w') (h : w ++ sep ++ t = w' ++ sep ++ t') : w'.length ≤ w.length := by
  by_contra hlt
  have hlen : (w ++ sep).length ≤ (w' ++ sep).dropLast.length := by
    simp only [length_append, length_dropLast]
    omega
  have hdrop : (w' ++ sep).dropLast <+: w ++ sep ++ t := by
    rw [h]
    exact ( dropLast_prefix _).trans (prefix_append _ _)
  have hpre : w ++ sep <+: (w' ++ sep).dropLast := prefix_of_prefix_length_le (prefix_append _ _) hdrop hlen
  exact hw' ((suffix_append w sep).isInfix.trans hpre.isInfix)

/-- A name can be taken apart again when the separator is found first where a parent's name ends. -/
theorem joined_inj (hw : EndsAt sep w) (hw' : EndsAt sep w') (h : w ++ sep ++ t = w' ++ sep ++ t') : w = w' := by
  have hlen : w.length = w'.length := Nat.le_antisymm (hw.length_le h.symm) (hw'.length_le h)
  rw [append_assoc, append_assoc] at h
  exact (append_inj h hlen).1

mutual
/-- The name of an entity and the names of all entities in it, each after those of the entities around it. -/
def Entity.flatNames (Γ : SymbolTable) (sep : String) : Entity → List String
  | ⟨_, s, _, es, _, _, _⟩ => Γ.name s :: (flatNamesList Γ sep es).map (Γ.name s ++ sep ++ ·)

def Entity.flatNamesList (Γ : SymbolTable) (sep : String) : List Entity → List String
  | [] => []
  | e :: es => e.flatNames Γ sep ++ flatNamesList Γ sep es
end

namespace Entity

variable {Γ Γ' : SymbolTable} {sep : String}

theorem flatNames_eq (Γ : SymbolTable) (sep : String) (e : Entity) : e.flatNames Γ sep =
    Γ.name e.symbol :: (flatNamesList Γ sep e.entities).map (Γ.name e.symbol ++ sep ++ ·) := by
  cases e
  rw [flatNames]

theorem exists_of_mem_flatNamesList : ∀ {es : List Entity}, n ∈ flatNamesList Γ sep es → ∃ e ∈ es, n ∈ e.flatNames Γ sep
  | [], h => nomatch h
  | e :: es, h => by
    rw [flatNamesList, mem_append] at h
    rcases h with h | h
    · exact ⟨e, mem_cons_self, h⟩
    · obtain ⟨c, hc, h⟩ := exists_of_mem_flatNamesList h
      exact ⟨c, mem_cons_of_mem _ hc, h⟩

theorem of_mem_flatNames {e : Entity} (h : n ∈ e.flatNames Γ sep) : n = Γ.name e.symbol ∨
    (e.entities ≠ [] ∧ ∃ t, n = Γ.name e.symbol ++ sep ++ t) := by
  rw [flatNames_eq, mem_cons, mem_map] at h
  refine h.imp_right fun ⟨t, ht, hn⟩ => ⟨fun hnil => ?_, t, hn.symm⟩
  rw [hnil] at ht
  nomatch ht

mutual
theorem flatNames_congr (sep : String) : ∀ (e : Entity),
    (∀ c ∈ Node.entities e.nodes, Γ'.name c.symbol = Γ.name c.symbol) → e.flatNames Γ' sep = e.flatNames Γ sep
  | ⟨l, s, ds, es, is, cs, ss⟩, h => by
    rw [entities_entity, forall_mem_cons] at h
    obtain ⟨hs, hes⟩ := h
    change Γ'.name s = Γ.name s at hs
    rw [flatNames, flatNames, hs, flatNamesList_congr sep es hes]

theorem flatNamesList_congr (sep : String) : ∀ (es : List Entity),
    (∀ c ∈ Node.entities (nodesList es), Γ'.name c.symbol = Γ.name c.symbol) →
      flatNamesList Γ' sep es = flatNamesList Γ sep es
  | [], _ => rfl
  | e :: es, h => by
    rw [nodesList, entities_append, forall_mem_append] at h
    rw [flatNamesList, flatNamesList, flatNames_congr sep e h.1, flatNamesList_congr sep es h.2]
end

/-- Entities whose names can be joined: siblings have different names, no name contains the separator, and the name of one with
others in it, followed by the separator, does not contain the separator earlier. -/
structure Joinable (Γ : SymbolTable) (sep : String) (es : List Entity) : Prop where
  siblings : (es.map fun e => Γ.name e.symbol).Nodup
  nested : ∀ e ∈ Node.entities (nodesList es), (e.entities.map fun c => Γ.name c.symbol).Nodup
  free : ∀ e ∈ Node.entities (nodesList es), ¬ sep.toList <:+: (Γ.name e.symbol).toList
  ends : ∀ e ∈ Node.entities (nodesList es), e.entities ≠ [] → EndsAt sep.toList (Γ.name e.symbol).toList

namespace Joinable

variable {e : Entity} {es : List Entity}

theorem tail (h : Joinable Γ sep (e :: es)) : Joinable Γ sep es := by
  obtain ⟨hsiblings, hnested, hfree, hends⟩ := h
  rw [entities_nodesList_cons, forall_mem_cons, forall_mem_append] at hnested hfree hends
  exact ⟨(nodup_cons.mp hsiblings).2, hnested.2.2, hfree.2.2, hends.2.2⟩

theorem inside (h : Joinable Γ sep (e :: es)) : Joinable Γ sep e.entities := by
  obtain ⟨hsiblings, hnested, hfree, hends⟩ := h
  rw [entities_nodesList_cons, forall_mem_cons, forall_mem_append] at hnested hfree hends
  exact ⟨hnested.1, hnested.2.1, hfree.2.1, hends.2.1⟩

theorem name_eq (h : Joinable Γ sep es) {e c : Entity} (he : e ∈ es) (hc : c ∈ es) (hne : n ∈ e.flatNames Γ sep)
    (hnc : n ∈ c.flatNames Γ sep) : Γ.name e.symbol = Γ.name c.symbol := by
  have hjoined : ∀ (w t : String), ¬ sep.toList <:+: (w ++ sep ++ t).toList → False := by
    intro w t hfree
    refine hfree ⟨w.toList, t.toList, ?_⟩
    simp only [String.toList_append]
  have hfreee := h.free e (mem_entities_nodesList he)
  have hfreec := h.free c (mem_entities_nodesList hc)
  rcases of_mem_flatNames hne with rfl | ⟨hnestede, t, rfl⟩
  · rcases of_mem_flatNames hnc with hn | ⟨-, t', hn⟩
    · exact hn
    · rw [hn] at hfreee
      exact (hjoined _ _ hfreee).elim
  · rcases of_mem_flatNames hnc with hn | ⟨hnestedc, t', hn⟩
    · rw [← hn] at hfreec
      exact (hjoined _ _ hfreec).elim
    · have hjoin : (Γ.name e.symbol).toList ++ sep.toList ++ t.toList = (Γ.name c.symbol).toList ++ sep.toList ++ t'.toList := by
        simpa only [String.toList_append] using congrArg String.toList hn
      exact String.toList_injective (joined_inj (h.ends e (mem_entities_nodesList he) hnestede)
        (h.ends c (mem_entities_nodesList hc) hnestedc) hjoin)

mutual
theorem nodup_flatNames : ∀ (e : Entity), Joinable Γ sep [e] → (e.flatNames Γ sep).Nodup
  | ⟨l, s, ds, es, is, cs, ss⟩, h => by
    have hfree := h.free ⟨l, s, ds, es, is, cs, ss⟩ (mem_entities_nodesList mem_cons_self)
    rw [flatNames, nodup_cons]
    refine ⟨fun hmem => ?_, (nodup h.inside).map fun t t' ht => ?_⟩
    · obtain ⟨t, -, ht⟩ := mem_map.mp hmem
      refine hfree ⟨(Γ.name s).toList, t.toList, ?_⟩
      rw [← String.toList_append, ← String.toList_append, ht]
    · have hjoin : (Γ.name s ++ sep).toList ++ t.toList = (Γ.name s ++ sep).toList ++ t'.toList := by
        simpa only [String.toList_append] using congrArg String.toList ht
      exact String.toList_injective (append_cancel_left hjoin)

/-- Then the names of all lifted entities are different. -/
theorem nodup : ∀ {es : List Entity}, Joinable Γ sep es → (flatNamesList Γ sep es).Nodup
  | [], _ => nodup_nil
  | e :: es, h => by
    have hhead : Joinable Γ sep [e] := by
      obtain ⟨hsiblings, hnested, hfree, hends⟩ := h
      rw [entities_nodesList_cons, forall_mem_cons, forall_mem_append] at hnested hfree hends
      refine ⟨by simp, ?_, ?_, ?_⟩ <;>
        simp only [entities_nodesList_cons, entities_nodesList_nil, append_nil, forall_mem_cons]
      exacts [⟨hnested.1, hnested.2.1⟩, ⟨hfree.1, hfree.2.1⟩, ⟨hends.1, hends.2.1⟩]
    rw [flatNamesList, nodup_append]
    refine ⟨nodup_flatNames e hhead, nodup h.tail, ?_⟩
    rintro n hn _ hn' rfl
    obtain ⟨c, hc, hn'⟩ := exists_of_mem_flatNamesList hn'
    have hname := h.name_eq mem_cons_self (mem_cons_of_mem _ hc) hn hn'
    exact (nodup_cons.mp h.siblings).1 (mem_map.mpr ⟨c, hc, hname.symm⟩)
end

end Joinable

end Entity

/-! ## The names that lifting gives -/

namespace Nesting

variable {e e' : Entity} {es out : List Entity} {s s' : Session State}

theorem name_renameChildren {parent : String} : ∀ {cs : List Entity} {s s' : Session State},
    cs.forM (renameChild parent) s = .ok () s' → (cs.map (·.symbol)).Nodup →
      (∀ c ∈ cs, c.symbol.index < s.ctx.symbols.entries.size) →
      ∀ c ∈ cs, s'.ctx.symbols.name c.symbol = parent ++ s.ctx.symbols.name c.symbol
  | [], _, _, _, _, _ => nofun
  | c :: cs, s, s', h, hnodup, hlisted => by
    obtain ⟨⟨⟩, s1, hrename, hrest⟩ := of_bind_ok h
    rw [map_cons, nodup_cons] at hnodup
    rw [forall_mem_cons] at hlisted
    have hstays : Stays (· = c.symbol) (fun _ => False) (fun _ _ => False) s.ctx s1.ctx := by
      cases hrename
      exact stays_rename rfl rfl
    have hname : s1.ctx.symbols.name c.symbol = parent ++ s.ctx.symbols.name c.symbol := by
      cases hrename
      change (s.ctx.symbols.modify c.symbol _).name c.symbol = _
      rw [name, entry_modify, if_pos ⟨rfl, hlisted.1⟩]
    obtain ⟨-, -, hstays'⟩ := of_done (renameChildren_ok parent cs s1) hrest
    have hlater : Stays (· ∈ cs.map (·.symbol)) (fun _ => False) (fun _ _ => False) s1.ctx s'.ctx :=
      hstays' fun d hd => mem_map_of_mem hd
    have hcs := name_renameChildren hrest hnodup.2 fun d hd => hstays.listed (hlisted.2 d hd)
    rw [forall_mem_cons]
    constructor
    · rw [hlater.name (hstays.listed hlisted.1) hnodup.1, hname]
    · intro d hd
      rw [hcs d hd, hstays.name (hlisted.2 d hd) fun heq => hnodup.1 (heq ▸ mem_map_of_mem hd)]

theorem Closed.names (h : Closed e s e' s') (hnodup : ((e :: e.entities).map (·.symbol)).Nodup)
    (hlisted : ∀ c ∈ e :: e.entities, c.symbol.index < s.ctx.symbols.entries.size) :
    s'.ctx.symbols.name e.symbol = s.ctx.symbols.name e.symbol ∧ ∀ c ∈ e.entities,
      s'.ctx.symbols.name c.symbol = s.ctx.symbols.name e.symbol ++ s.ctx.separator ++ s.ctx.symbols.name c.symbol := by
  obtain @⟨decls, s1, s2, s3, _, c, declare, ports, hand, rename, report⟩ := h
  obtain ⟨-, -, hstays1, -⟩ := of_ends (declareAliases_ok _ _ _ _) declare
  obtain ⟨hstays2, -, hnames, -⟩ := of_done (addPorts_ok _ _ _) ports
  obtain ⟨-, -, hstays3⟩ := of_done (handPorts_ok _ _ _ _) hand
  obtain ⟨r, users, hreport, -, -⟩ := reportConflicts_ok s3
  cases hreport.symm.trans report
  have hdeclared : Stays (fun _ => False) (fun _ => False) (fun _ _ => True) s.ctx s1.ctx := hstays1 fun _ _ _ => trivial
  have hported : Stays (fun _ => True) (fun _ => False) (fun _ _ => False) s1.ctx c := hstays2 trivial
  have hhanded : Stays (fun _ => False) (fun _ => True) (fun _ _ => False) c s2.ctx := hstays3 fun _ _ => trivial
  have hlisted2 : ∀ d ∈ e :: e.entities, d.symbol.index < s2.ctx.symbols.entries.size := fun d hd =>
    hhanded.listed (hported.listed (hdeclared.listed (hlisted d hd)))
  have hkept : ∀ d ∈ e :: e.entities, s2.ctx.symbols.name d.symbol = s.ctx.symbols.name d.symbol := by
    intro d hd
    rw [hhanded.name (hported.listed (hdeclared.listed (hlisted d hd))) fun h => h, hnames,
      hdeclared.name (hlisted d hd) fun h => h]
  have hseparator : s2.ctx.separator = s.ctx.separator := hhanded.separator.trans (hported.separator.trans hdeclared.separator)
  obtain ⟨-, -, hstays4⟩ := of_done (renameChildren_ok _ _ _) rename
  have hrenamed : Stays (· ∈ e.entities.map (·.symbol)) (fun _ => False) (fun _ _ => False) s2.ctx s3.ctx :=
    hstays4 fun d hd => mem_map_of_mem hd
  rw [map_cons, nodup_cons] at hnodup
  constructor
  · exact (hrenamed.name (hlisted2 e mem_cons_self) hnodup.1).trans (hkept e mem_cons_self)
  · intro d hd
    refine (name_renameChildren rename hnodup.2 (fun d hd => hlisted2 d (mem_cons_of_mem _ hd)) d hd).trans ?_
    rw [hseparator, hkept e mem_cons_self]
    exact congrArg (_ ++ ·) (hkept d (mem_cons_of_mem e hd))

theorem Closed.symbol (h : Closed e s e' s') : e'.symbol = e.symbol := by
  cases h
  rfl

theorem names_of_closed {nested : List Entity} {m m' : Substitution} {s2 s3 : Session State}
    {W : Symbol → Prop} {V : Symbol → Option Expr → Prop}
    (hstays : Stays (· ∈ (entities (nodesList e.entities)).map (·.symbol)) W V s.ctx s2.ctx)
    (hsymbols : nested.map (·.symbol) = (entities (nodesList e.entities)).map (·.symbol))
    (hnames : nested.map (fun c => s2.ctx.symbols.name c.symbol) =
      flatNamesList s.ctx.symbols s.ctx.separator e.entities)
    (hclose : Closed (e.renamed m m' nested) s2 e' s3)
    (hnodup : ((entities e.nodes).map (·.symbol)).Nodup)
    (hlisted : ∀ c ∈ entities e.nodes, c.symbol.index < s.ctx.symbols.entries.size) :
    (e' :: nested).map (fun c => s3.ctx.symbols.name c.symbol) = e.flatNames s.ctx.symbols s.ctx.separator := by
  rw [entities_entity, map_cons, ← hsymbols] at hnodup
  rw [entities_entity, forall_mem_cons] at hlisted
  obtain ⟨hlisted, hbelow⟩ := hlisted
  have hbelow : ∀ c ∈ nested, c.symbol.index < s.ctx.symbols.entries.size := by
    intro c hc
    have hmem : c.symbol ∈ nested.map (·.symbol) := mem_map_of_mem hc
    rw [hsymbols] at hmem
    obtain ⟨d, hd, heq⟩ := mem_map.mp hmem
    exact heq ▸ hbelow d hd
  obtain ⟨hown, hothers⟩ := hclose.names hnodup
    (forall_mem_cons.mpr ⟨hstays.listed hlisted, fun c hc => hstays.listed (hbelow c hc)⟩)
  have hname : s2.ctx.symbols.name e.symbol = s.ctx.symbols.name e.symbol :=
    hstays.name hlisted (hsymbols ▸ (nodup_cons.mp hnodup).1)
  rw [flatNames_eq, map_cons, hclose.symbol, ← hnames, map_map]
  refine congrArg₂ List.cons (hown.trans hname) (map_congr_left fun c hc => ?_)
  rw [hothers c hc, hstays.separator]
  exact congrArg (· ++ _ ++ _) hname

/-- The names that lifting gives. -/
theorem Lifting.names (h : Lifting es s out s') (hnodup : ((entities (nodesList es)).map (·.symbol)).Nodup)
    (hlisted : ∀ e ∈ entities (nodesList es), e.symbol.index < s.ctx.symbols.entries.size) :
    out.map (fun e => s'.ctx.symbols.name e.symbol) = flatNamesList s.ctx.symbols s.ctx.separator es := by
  induction h with
  | nil => rfl
  | @cons e e' es nested rest s s1 s2 s3 s' enter inside close after ih ih' =>
    rw [nodesList, entities_append, map_append, nodup_append] at hnodup
    rw [nodesList, entities_append, forall_mem_append] at hlisted
    obtain ⟨hhead, hrest, hapart⟩ := hnodup
    obtain ⟨hlistede, hlistedrest⟩ := hlisted
    have hbelow : ∀ c ∈ entities (nodesList e.entities), c ∈ entities e.nodes := by
      rw [entities_entity]
      exact fun c hc => mem_cons_of_mem _ hc
    obtain ⟨_, _, -, -, -, hstays0, hstays1, -⟩ := of_done (enterEntity_ok e s) enter
    have hopened : Stays (fun _ => False) (fun _ => True) (fun _ _ => True) s.ctx s1.ctx :=
      (hstays0 fun _ _ => trivial).trans hstays1
    have hinside := (hopened.mono (fun _ h => h.elim) (fun _ h => h) fun _ _ h => h).trans
      (inside.stays fun c hc => mem_map_of_mem (f := (·.symbol)) hc)
    -- the entity and what was nested in it
    have hnested : nested.map (fun c => s2.ctx.symbols.name c.symbol) =
        flatNamesList s.ctx.symbols s.ctx.separator e.entities := by
      rw [ih ?_ fun c hc => hopened.listed (hlistede c (hbelow c hc)), hopened.separator]
      · exact flatNamesList_congr _ _ fun c hc => hopened.name (hlistede c (hbelow c hc)) fun h => h
      · rw [entities_entity, map_cons] at hhead
        exact (nodup_cons.mp hhead).2
    have hentity := names_of_closed hinside inside.symbols hnested close hhead hlistede
    have hsymbols : (e' :: nested).map (·.symbol) = (entities e.nodes).map (·.symbol) := by
      rw [entities_entity, map_cons, map_cons, inside.symbols, close.symbol]
      rfl
    have hclosed : Stays (· ∈ (entities e.nodes).map (·.symbol)) (fun _ => True) (fun _ _ => True) s.ctx s3.ctx := by
      refine (hinside.mono (fun x hx => ?_) (fun _ h => h) fun _ _ h => h).trans
        (close.stays (fun c hc => ?_) (fun _ _ => trivial) fun _ _ _ => trivial)
      · rw [entities_entity, map_cons]
        exact mem_cons_of_mem _ hx
      · rw [← hsymbols, map_cons, close.symbol]
        exact mem_map_of_mem (f := (·.symbol)) hc
    -- the entities after it
    have hkept : ∀ c ∈ e' :: nested, s'.ctx.symbols.name c.symbol = s3.ctx.symbols.name c.symbol := by
      intro c hc
      have hmem : c.symbol ∈ (entities e.nodes).map (·.symbol) := hsymbols ▸ mem_map_of_mem hc
      obtain ⟨d, hd, heq⟩ := mem_map.mp hmem
      refine (after.stays fun c hc => mem_map_of_mem (f := (·.symbol)) hc).name (hclosed.listed (heq ▸ hlistede d hd))
        fun hmem' => ?_
      exact hapart _ hmem _ hmem' rfl
    have hrest' : flatNamesList s3.ctx.symbols s3.ctx.separator es =
        flatNamesList s.ctx.symbols s.ctx.separator es := by
      rw [hclosed.separator]
      refine flatNamesList_congr _ _ fun c hc => hclosed.name (hlistedrest c hc) fun hmem => ?_
      exact hapart _ hmem _ (mem_map_of_mem hc) rfl
    rw [map_append, map_congr_left hkept, hentity, ih' hrest fun c hc => hclosed.listed (hlistedrest c hc), hrest',
      flatNamesList]

theorem run_names {r : Root} {c : Context} (hlisted : ∀ e ∈ r.allEntities, e.symbol.index < c.symbols.entries.size)
    (hsymbols : (r.allEntities.map (·.symbol)).Nodup) : Yields (c.checkTrees = true) (fun out s' =>
      (out.getD r).entities.map (fun e => s'.ctx.symbols.name e.symbol) = flatNamesList c.symbols c.separator r.entities)
      (pass.run r ⟨c, {}⟩) := by
  rw [Root.allEntities_eq] at hlisted hsymbols
  exact (run_lifting r c {}).mono fun out s' h => h.names hsymbols hlisted

/-- After a run of the pass all entities have different names, each made of the names of the entities that it was nested in and
its own, when the names can be joined by the separator. -/
theorem lifted_names_nodup {r : Root} {c : Context} (hlisted : ∀ e ∈ r.allEntities, e.symbol.index < c.symbols.entries.size)
    (hsymbols : (r.allEntities.map (·.symbol)).Nodup) (hnames : Joinable c.symbols c.separator r.entities) :
    Yields (c.checkTrees = true) (fun out s' =>
      (out.getD r).entities.map (fun e => s'.ctx.symbols.name e.symbol) = flatNamesList c.symbols c.separator r.entities ∧
      ((out.getD r).entities.map fun e => s'.ctx.symbols.name e.symbol).Nodup) (pass.run r ⟨c, {}⟩) :=
  (run_names hlisted hsymbols).mono fun _ _ h => ⟨h, h ▸ hnames.nodup⟩

/-! ## Designs with two families of entities -/

namespace TwoFamilies

def table (parent child parent' child' : String) : SymbolTable :=
  ⟨#[.entity 1 parent [], .entity 2 child [], .entity 3 parent' [], .entity 4 child' []]⟩

def design : Root :=
  { entities := [{ loc := {}, symbol := ⟨0⟩, entities := [{ loc := {}, symbol := ⟨1⟩ }] },
      { loc := {}, symbol := ⟨2⟩, entities := [{ loc := {}, symbol := ⟨3⟩ }] }] }

/-- Names may begin with parts of the separator, and entities that are nested in different ones may have the same name. -/
theorem families_nodup : Joinable (table "a" "_b" "a_b" "_b") "__" design.entities ∧
    ∃ out s', pass.run design ⟨{ symbols := table "a" "_b" "a_b" "_b" }, {}⟩ = .ok out s' ∧
      ((out.getD design).entities.map fun e => s'.ctx.symbols.name e.symbol).Nodup := by
  have hnames : Joinable (table "a" "_b" "a_b" "_b") "__" design.entities := by
    refine ⟨?_, ?_, ?_, ?_⟩ <;> decide
  obtain ⟨out, s', hrun, -, hnodup⟩ := (lifted_names_nodup (r := design) (c := { symbols := table "a" "_b" "a_b" "_b" })
    (by decide) (by decide) hnames).ends nofun
  exact ⟨hnames, out, s', hrun, hnodup⟩

/-- Siblings have different names and no name contains the separator, but a parent's name ends in a part of it. -/
theorem families_clash : ((design.entities.map fun e => (table "a_" "b" "a" "_b").name e.symbol).Nodup ∧
    (∀ e ∈ design.allEntities, (e.entities.map fun c => (table "a_" "b" "a" "_b").name c.symbol).Nodup) ∧
    ∀ e ∈ design.allEntities, ¬ "__".toList <:+: ((table "a_" "b" "a" "_b").name e.symbol).toList) ∧
    ∃ out s', pass.run design ⟨{ symbols := table "a_" "b" "a" "_b" }, {}⟩ = .ok out s' ∧
      ¬ ((out.getD design).entities.map fun e => s'.ctx.symbols.name e.symbol).Nodup := by
  refine ⟨by decide, ?_⟩
  obtain ⟨out, s', hrun, hnames⟩ := (run_names (r := design) (c := { symbols := table "a_" "b" "a" "_b" })
    (by decide) (by decide)).ends nofun
  refine ⟨out, s', hrun, ?_⟩
  rw [hnames]
  decide

end TwoFamilies

end Nesting

end HdlLowering
