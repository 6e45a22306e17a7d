import HdlLowering.Proofs.Tree.Children

/-!
# Entities and references

Entities stand in entities and in designs only. `Node.refs` lists the symbols referenced among some nodes once each.
-/

namespace HdlLowering

open List Entity Use

def Node.entities (ns : List Node) : List Entity :=
  ns.filterMap fun
    | .entity e => some e
    | _ => none

@[simp] theorem Node.entities_nil : entities [] = [] := rfl

@[simp] theorem Node.entities_append (ms ns : List Node) : entities (ms ++ ns) = entities ms ++ entities ns := by
  simp [entities]

theorem Node.entities_flatMap_inside {ns : List Node} (h : ∀ n ∈ ns, n.inside = true) : entities (ns.flatMap nodes) = [] := by
  rw [entities, filterMap_eq_nil_iff]
  intro k hk
  obtain ⟨n, hn, hk⟩ := mem_flatMap.mp hk
  have hinside := n.inside_of_mem_nodes (h n hn) k hk
  cases k <;> first | rfl | nomatch hinside

/-- The entities in an entity are itself and, in the order they are written, those of the entities nested in it. -/
theorem Node.entities_entity (e : Entity) : entities e.nodes = e :: entities (nodesList e.entities) := by
  have hinside {α : Type} (mk : α → Node) (hmk : ∀ x, (mk x).inside = true) (xs : List α) :
      entities ((xs.map mk).flatMap nodes) = [] :=
    entities_flatMap_inside (forall_mem_map.mpr fun x _ => hmk x)
  have hnodes := nodes_eq (.entity e)
  rw [nodes] at hnodes
  rw [hnodes, children, nodesList_eq]
  change e :: entities _ = _
  simp only [flatMap_append, entities_append]
  rw [hinside .decl fun _ => rfl, hinside .inst fun _ => rfl, hinside .connect fun _ => rfl, hinside .stmt fun _ => rfl]
  simp

@[simp] theorem Node.entities_nodesList_nil : entities (nodesList []) = [] := rfl

@[simp] theorem Node.entities_nodesList_cons (e : Entity) (es : List Entity) :
    entities (nodesList (e :: es)) =
      e :: (entities (nodesList e.entities) ++ entities (nodesList es)) := by
  rw [nodesList, entities_append, entities_entity, cons_append]

theorem Node.mem_entities_nodesList_iff {e : Entity} {es : List Entity} : e ∈ entities (nodesList es) ↔
    ∃ c ∈ es, e = c ∨ e ∈ entities (nodesList c.entities) := by
  induction es with
  | nil => simp
  | cons c es ih => simp [ih, or_assoc]

theorem Node.mem_entities_nodesList {e : Entity} {es : List Entity} (h : e ∈ es) : e ∈ entities (nodesList es) :=
  mem_entities_nodesList_iff.mpr ⟨e, h, Or.inl rfl⟩

theorem Root.allEntities_eq (r : Root) : r.allEntities = Node.entities (nodesList r.entities) := rfl

/-! ## First references -/

theorem Use.mem_of_mem_firsts {u : Use} : ∀ {seen : List Symbol} {us : List Use}, u ∈ firsts seen us → u ∈ us
  | seen, [], h => h
  | seen, v :: us, h => by
    rw [firsts] at h
    split at h
    · exact mem_cons_of_mem _ (mem_of_mem_firsts h)
    · rcases mem_cons.mp h with rfl | h
      · exact mem_cons_self
      · exact mem_cons_of_mem _ (mem_of_mem_firsts h)

theorem Use.exists_mem_firsts {u : Use} : ∀ {seen : List Symbol} {us : List Use}, u ∈ us → u.symbol ∉ seen →
    ∃ v ∈ firsts seen us, v.symbol = u.symbol
  | seen, v :: us, h, hseen => by
    rw [firsts]
    by_cases huv : v.symbol = u.symbol
    · have hv : v.symbol ∉ seen := huv ▸ hseen
      refine ⟨v, ?_, huv⟩
      rw [if_neg (by simpa using hv)]
      exact mem_cons_self
    · have hu : u ∈ us := (mem_cons.mp h).resolve_left fun h => huv (by rw [h])
      split
      · exact exists_mem_firsts hu hseen
      · have hseen : u.symbol ∉ v.symbol :: seen := by simp [hseen, Ne.symm huv]
        obtain ⟨w, hw, heq⟩ := exists_mem_firsts hu hseen
        exact ⟨w, mem_cons_of_mem _ hw, heq⟩

/-- No referenced symbol is left out. -/
theorem Node.mem_refs {ns : List Node} {x : Symbol} : x ∈ refs ns ↔ ∃ u ∈ references ns, u.symbol = x := by
  rw [refs, uses, mem_map]
  constructor
  · rintro ⟨u, hu, rfl⟩
    exact ⟨u, mem_of_mem_firsts hu, rfl⟩
  · rintro ⟨u, hu, rfl⟩
    exact exists_mem_firsts hu (by simp)

end HdlLowering
