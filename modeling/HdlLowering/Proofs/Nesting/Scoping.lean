import HdlLowering.Lowering.Nesting
import HdlLowering.Proofs.Symbols.Sets
import HdlLowering.Proofs.Tree.Entities
import HdlLowering.Proofs.Tree.Renaming

/-!
# Scoped and self-contained entities

Before it is lifted (`Entity.Scoped`), an entity refers to what it declares and to the ports and constants of the entities
around it; afterwards (`Entity.SelfContained`) nothing is nested in it and it refers only to what it declares.
`Entity.selfContained_flattened` says when renaming and new declarations and connections make it so.
-/

namespace HdlLowering

open List Node Entity

/-! ## What entities declare -/

variable (e : Entity)

/-- The symbols that an entity itself declares: declarations, instances and local declarations. -/
def Entity.ownSymbols : List Symbol :=
  e.decls.map (·.symbol) ++ e.instances.map (·.symbol) ++ locals e.ownNodes

variable (Γ : SymbolTable)

/-- The symbols of an entity that the entities nested in it may refer to: its ports and constants. -/
def Entity.exports : List Symbol :=
  (e.decls.map (·.symbol)).filter fun s => (Γ.kind s).isPort || (Γ.kind s).isConst

/-- An entity among others whose ports and constants are known: it refers to these and to what it declares, initial values of its
constants to constants only, and nested entities also to its ports and constants. -/
inductive Entity.Scoped : List Symbol → Entity → Prop where
  | intro {outer : List Symbol} {e : Entity}
      (references : ∀ u ∈ Node.references e.ownNodes, u.symbol ∈ e.ownSymbols ∨ u.symbol ∈ outer)
      (constants : ∀ d ∈ e.decls, (Γ.kind d.symbol).isConst = true → ∀ init, d.init = some init ∨ Γ.init d.symbol = some init →
        ∀ u ∈ Node.references init.nodes, u.symbol ∈ e.exports Γ ++ outer ∧ (Γ.kind u.symbol).isConst = true)
      (nested : ∀ c ∈ e.entities, Scoped (e.exports Γ ++ outer) c) : Scoped outer e

/-- An entity with nothing nested in it that refers only to what it declares. -/
structure Entity.SelfContained (e : Entity) : Prop where
  flat : e.entities = []
  closed : ∀ u ∈ references e.nodes, u.symbol ∈ e.ownSymbols

def Entity.ownSymbolsList (es : List Entity) : List Symbol :=
  (Node.entities (nodesList es)).flatMap ownSymbols

@[simp] theorem Entity.ownSymbolsList_nil : ownSymbolsList [] = [] := rfl

@[simp] theorem Entity.ownSymbolsList_cons (es : List Entity) : ownSymbolsList (e :: es) =
    e.ownSymbols ++ (ownSymbolsList e.entities ++ ownSymbolsList es) := by
  simp [ownSymbolsList]

/-- What holds of every design as it is read in: the symbols that entities declare are in the table, with numbers of their own. -/
structure Root.Tabled (r : Root) : Prop where
  listed : ∀ s ∈ r.allEntities.flatMap ownSymbols, s.index < Γ.entries.size
  numbered : Γ.Numbered (r.allEntities.flatMap ownSymbols)

/-- A design whose entities can be taken out of each other: every symbol, also that of an entity, is declared once, and entities
refer only to what they may. -/
structure Root.Liftable (r : Root) : Prop extends r.Tabled Γ where
  once : (r.allEntities.flatMap fun e => e.symbol :: e.ownSymbols).Nodup
  inScope : ∀ e ∈ r.entities, e.Scoped Γ []

namespace Entity

variable {e : Entity}

theorem mem_ownSymbols_of_mem_exports {Γ : SymbolTable} {s : Symbol} (h : s ∈ e.exports Γ) : s ∈ e.ownSymbols :=
  mem_append_left _ (mem_append_left _ (mem_filter.mp h).1)

theorem nodes_of_flat (h : e.entities = []) : e.nodes = .entity e :: e.ownNodes := by
  obtain ⟨l, x, decls, es, insts, connects, ss⟩ := e
  obtain rfl : es = [] := h
  simp [nodes, ownNodes, nodesList]

theorem locals_ownNodes : locals e.ownNodes = locals (Stmt.nodesList e.stmts) := by
  have hexpr (x : Expr) : locals x.nodes = [] := by simp [locals, Expr.nodes]
  have hdecls : locals (e.decls.flatMap Decl.nodes) = [] := by
    rw [locals, filterMap_flatMap, flatMap_eq_nil_iff]
    intro d _
    obtain ⟨l, x, init⟩ := d
    cases init with
    | none => rfl
    | some y => exact hexpr y
  have hconnects : locals (e.connects.flatMap Connect.nodes) = [] := by
    rw [locals, filterMap_flatMap, flatMap_eq_nil_iff]
    intro c _
    change locals (c.source.nodes ++ c.sinks.flatMap Expr.nodes) = []
    rw [locals, filterMap_append, filterMap_flatMap, append_eq_nil_iff, flatMap_eq_nil_iff]
    exact ⟨hexpr _, fun x _ => hexpr x⟩
  simp only [locals] at hdecls hconnects
  simp [ownNodes, locals, hdecls, hconnects]

theorem references_ownNodes : references e.ownNodes = references (e.decls.flatMap Decl.nodes) ++
    (references (e.connects.flatMap Connect.nodes) ++ references (Stmt.nodesList e.stmts)) := by
  have hinsts : references (e.instances.map .inst) = [] := by simp [references]
  simp [ownNodes, hinsts]

end Entity

namespace Substitution

variable {m : Substitution} {s : Symbol}

def keys (m : Substitution) : List Symbol := m.map (·.1)

def targets (m : Substitution) : List Symbol := m.map (·.2)

theorem rename_mem_targets (h : s ∈ m.keys) : m.rename s ∈ m.targets := mem_map_of_mem (mem_lookup h s)

theorem rename_eq_or_mem (m : Substitution) (s : Symbol) : m.rename s = s ∨ m.rename s ∈ m.targets := by
  by_cases h : s ∈ m.keys
  · exact Or.inr (rename_mem_targets h)
  · rw [rename, lookup_eq_none.mpr h]
    exact Or.inl rfl

end Substitution

theorem Use.renamed_mem {m : Substitution} {us : List Use} {own : List Symbol} (htargets : ∀ t ∈ m.targets, t ∈ own)
    (hus : ∀ u ∈ us, u.symbol ∈ own ∨ u.symbol ∈ m.keys) : ∀ u ∈ us.map (renamed m), u.symbol ∈ own := by
  intro u hu
  obtain ⟨v, hv, rfl⟩ := mem_map.mp hu
  rcases hus v hv with h | h
  · rcases m.rename_eq_or_mem v.symbol with heq | hmem
    · rw [renamed, heq]
      exact h
    · exact htargets _ hmem
  · exact htargets _ (Substitution.rename_mem_targets h)

/-- An entity with nothing nested in it, and with more declarations and connections. -/
def Entity.flattened (decls : List Decl) (connects : List Connect) : Entity :=
  { e with decls := e.decls ++ decls, entities := [], connects := e.connects ++ connects }

section

variable {e : Entity} {es : List Entity} {m m' : Substitution} {decls : List Decl} {connects : List Connect}

theorem Entity.mem_ownSymbols_flattened {s : Symbol} :
    s ∈ ((e.renamed m m' es).flattened decls connects).ownSymbols ↔ s ∈ e.ownSymbols ∨ s ∈ decls.map (·.symbol) := by
  have hdecls : (e.decls.map (Decl.renamed m)).map (·.symbol) = e.decls.map (·.symbol) := by simp [Decl.renamed]
  simp only [ownSymbols, locals_ownNodes, flattened, renamed, Stmt.nodesList_renamed,
    locals_renamed, map_append, hdecls, mem_append]
  tauto

/-- An entity whose references are declared or known to both maps is self-contained afterwards, when the new declarations declare
what the maps send to, and neither they nor the new connections refer to anything else. -/
theorem Entity.selfContained_flattened
    (hrefs : ∀ u ∈ references e.ownNodes, u.symbol ∈ e.ownSymbols ∨ u.symbol ∈ m.keys)
    (hkeys : ∀ s ∈ m.keys, s ∈ m'.keys) (htargets : ∀ s ∈ m.targets, s ∈ m'.targets)
    (hsymbols : decls.map (·.symbol) = m'.targets)
    (hdecls : ∀ u ∈ references (decls.flatMap Decl.nodes), u.symbol ∈ m'.targets)
    (hconnects : ∀ u ∈ references (connects.flatMap Connect.nodes), u.symbol ∈ e.ownSymbols ∨ u.symbol ∈ m'.targets) :
    ((e.renamed m m' es).flattened decls connects).SelfContained := by
  have hown : ∀ s, s ∈ ((e.renamed m m' es).flattened decls connects).ownSymbols ↔ s ∈ e.ownSymbols ∨ s ∈ m'.targets := by
    intro s
    rw [mem_ownSymbols_flattened, hsymbols]
  rw [references_ownNodes] at hrefs
  simp only [forall_mem_append] at hrefs
  obtain ⟨hrefs1, hrefs2, hrefs3⟩ := hrefs
  refine ⟨rfl, ?_⟩
  rw [nodes_of_flat rfl]
  change ∀ u ∈ references (ownNodes _), _
  rw [references_ownNodes, flattened, renamed]
  simp only [flatMap_append, references_append, Decl.nodes_map_renamed, Connect.nodes_map_renamed,
    Stmt.nodesList_renamed, references_renamed, forall_mem_append]
  refine ⟨⟨Use.renamed_mem (fun t ht => (hown t).mpr (Or.inr (htargets t ht))) fun u hu => ?_, fun u hu => ?_⟩,
    ⟨Use.renamed_mem (fun t ht => (hown t).mpr (Or.inr ht)) fun u hu => ?_, fun u hu => ?_⟩,
    Use.renamed_mem (fun t ht => (hown t).mpr (Or.inr ht)) fun u hu => ?_⟩
  · exact (hrefs1 u hu).imp_left fun h => (hown _).mpr (Or.inl h)
  · exact (hown _).mpr (Or.inr (hdecls u hu))
  · exact (hrefs2 u hu).imp (fun h => (hown _).mpr (Or.inl h)) (hkeys _)
  · exact (hown _).mpr (hconnects u hu)
  · exact (hrefs3 u hu).imp (fun h => (hown _).mpr (Or.inl h)) (hkeys _)

end

/-! ## The check of the result -/

namespace Nesting

theorem declared_of_flat {e : Entity} (h : e.entities = []) : declared e = e.ownSymbols := by
  unfold declared ownSymbols
  rw [nodes_of_flat h]
  rfl

theorem check_ok {e : Entity} (h : e.SelfContained) (Γ : SymbolTable) (c : Context) : check Γ e c = .ok () c := by
  have hnone : ((references e.nodes).find? fun u => !(Γ.setOf (declared e)).has (Γ.member u.symbol)) = none := by
    rw [find?_eq_none]
    intro u hu
    have hown := h.closed u hu
    rw [declared_of_flat h.flat, SymbolTable.has_setOf]
    simpa using ⟨u.symbol, hown, rfl⟩
  unfold check
  simp only [h.flat, isEmpty_nil, ↓reduceIte, hnone]
  rfl

end Nesting

end HdlLowering
