import HdlLowering.Proofs.Pipeline.Chains
import HdlLowering.Proofs.Sequence.Lasting
import HdlLowering.Proofs.Symbols.Table
import Mathlib.Data.List.Flatten

/-!
# The struct types of a pipeline

Stages that follow each other get ports whose values are structs, named after the stage alone, so names tell the struct types
apart when they do the stages.
-/

namespace HdlLowering

open List SymbolTable Entity Kind Leads Pass ContextM List.Subperm

/-! ## Struct types -/

abbrev StructType := String × List (String × Kind)

mutual
def Kind.structs : Kind → List StructType
  | .struct n fs => (n, fs) :: structsFields fs
  | .array k _ => k.structs
  | .input k _ => k.structs
  | .output k _ _ => k.structs
  | .const k => k.structs
  | .pipeline k => k.structs
  | .stack k _ => k.structs
  | _ => []

def Kind.structsFields : List (String × Kind) → List StructType
  | [] => []
  | (_, k) :: fs => k.structs ++ structsFields fs
end

def SymbolTable.structs (Γ : SymbolTable) : List StructType := Γ.entries.toList.flatMap fun e => e.kind.structs

theorem SymbolTable.mem_structs {Γ : SymbolTable} {t : StructType} : t ∈ Γ.structs ↔ ∃ x, t ∈ (Γ.kind x).structs := by
  rw [structs, mem_flatMap]
  constructor
  · rintro ⟨e, he, ht⟩
    obtain ⟨i, hi⟩ := getElem?_of_mem he
    refine ⟨⟨i⟩, ?_⟩
    rw [kind, entry, Array.getD_eq_getD_getElem?, ← Array.getElem?_toList, hi]
    exact ht
  · rintro ⟨x, ht⟩
    by_cases hx : x.index < Γ.entries.size
    · refine ⟨Γ.entries[x.index], Array.getElem_mem_toList hx, ?_⟩
      rwa [kind, entry, Array.getD, dif_pos hx] at ht
    · rw [kind_of_not_listed hx] at ht
      cases ht

theorem Kind.mem_structsFields {t : StructType} {fs : List (String × Kind)} :
    t ∈ structsFields fs ↔ ∃ f ∈ fs, t ∈ f.2.structs := by
  induction fs with
  | nil => simp [structsFields]
  | cons f fs ih => simp [structsFields, ih]

theorem Kind.structs_underlying (k : Kind) : k.underlying.structs = k.structs := by
  fun_induction underlying k <;> simp_all [structs]

variable {F F' : StructType → Prop} {Γ : SymbolTable} {c : Context} {stage : Entity}

theorem Kind.closed_structs (F : StructType → Prop) : Closed fun k => ∀ t ∈ k.structs, F t where
  uint _ := nofun
  entity _ := nofun
  inst _ := nofun
  input _ h := h
  output _ _ h := h
  array _ h := h
  driven h := h
  underlying h := by rwa [structs_underlying]
  elem h := h

namespace Pipeline

/-- All struct types are such that `F`. The symbols of a table have the names that they had, and no other of them are pipeline
variables. -/
structure Kept (Γ : SymbolTable) (F : StructType → Prop) (c : Context) : Prop where
  structs : ∀ x, ∀ t ∈ (c.symbols.kind x).structs, F t
  size : Γ.entries.size ≤ c.symbols.entries.size
  name : ∀ x : Symbol, x.index < Γ.entries.size → c.symbols.name x = Γ.name x
  pipeline : ∀ x : Symbol, x.index < Γ.entries.size → (c.symbols.kind x).isPipeline = true → (Γ.kind x).isPipeline = true

theorem Kept.mono (h : Kept Γ F c) (hF : ∀ t, F t → F' t) : Kept Γ F' c :=
  ⟨fun x t ht => hF t (h.structs x t ht), h.size, h.name, h.pipeline⟩

theorem Kept.append {new new' : List StructType} (h : Kept Γ (fun t => (F t ∨ t ∈ new) ∨ t ∈ new') c) :
    Kept Γ (fun t => F t ∨ t ∈ new ++ new') c :=
  h.mono fun t ht => by simpa [or_assoc] using ht

theorem lasting_kept (Γ : SymbolTable) (F : StructType → Prop) :
    Context.Lasting (fun k => ∀ t ∈ k.structs, F t) (Kept Γ F) where
  closed := closed_structs F
  kinds h := h.structs
  push id e h he := by
    have hold : ∀ x : Symbol, x.index < Γ.entries.size → x.index ≠ _ := fun x hx => Nat.ne_of_lt (Nat.lt_of_lt_of_le hx h.size)
    refine ⟨fun x => ?_, Nat.le_trans h.size (by simp), fun x hx => ?_, fun x hx => ?_⟩
    · rw [kind, entry_push]
      split
      · exact he
      · exact h.structs x
    · rw [SymbolTable.name, entry_push, if_neg (hold x hx)]
      exact h.name x hx
    · rw [kind, entry_push, if_neg (hold x hx)]
      exact h.pipeline x hx
  modify s f h hname hkind := by
    rename_i c
    refine ⟨fun x => ?_, by simpa using h.size, fun x hx => ?_, fun x hx => ?_⟩
    · rw [kind, entry_modify]
      split
      · rcases hkind (c.symbols.entry x) with heq | ⟨ps, heq⟩
        · exact heq ▸ h.structs x
        · simp [heq, Kind.structs]
      · exact h.structs x
    · rw [SymbolTable.name, entry_modify]
      split
      · exact (hname _).trans (h.name x hx)
      · exact h.name x hx
    · rw [kind, entry_modify]
      split
      · rcases hkind (c.symbols.entry x) with heq | ⟨ps, heq⟩
        · exact heq ▸ h.pipeline x hx
        · simp [heq, isPipeline]
      · exact h.pipeline x hx
  pass _ h := ⟨h.structs, h.size, h.name, h.pipeline⟩
  report _ _ _ h := ⟨h.structs, h.size, h.name, h.pipeline⟩
  internal h := ⟨h.structs, h.size, h.name, h.pipeline⟩

/-! ## Steps that make struct types -/

variable {α β : Type} {names names' : List String} {good : α → Prop} {better : β → Prop} {x : PassM Unit α}

def carrierNames (ns : List String) : List String := ns.flatMap fun n => [n ++ "_in_t", n ++ "_out_t"]

theorem carrierNames_subperm {ns ms : List String} (h : ns <+~ ms) : carrierNames ns <+~ carrierNames ms := by
  obtain ⟨ls, hperm, hsub⟩ := h
  exact ⟨carrierNames ls, hperm.flatMap_right _, hsub.flatMap _⟩

theorem carrierNames_append (ns ms : List String) : carrierNames (ns ++ ms) = carrierNames ns ++ carrierNames ms := flatMap_append

theorem carrierNames_flatten (nss : List (List String)) : carrierNames nss.flatten = nss.flatMap carrierNames := by
  induction nss with
  | nil => rfl
  | cons ns nss ih =>
    rw [flatten_cons, flatMap_cons, ← ih, carrierNames_append]

/-- A step that ends has made struct types of these names, at most one of each time that a name is listed. -/
def Brings (Γ : SymbolTable) (names : List String) (good : α → Prop) (x : PassM Unit α) : Prop :=
  ∀ F s, Kept Γ F s.ctx → Yields True (fun a s' => good a ∧ ∃ new : List StructType,
    new.map (·.1) <+~ names ∧ Kept Γ (fun t => F t ∨ t ∈ new) s'.ctx) (x s)

namespace Brings

theorem bind {f : α → PassM Unit β} (hx : Brings Γ names good x)
    (hf : ∀ a, good a → Brings Γ names' better (f a)) : Brings Γ (names ++ names') better (x >>= f) := by
  intro F s hs
  refine (hx F s hs).bind fun a s1 ⟨ha, new, hnew, hs1⟩ => (hf a ha _ s1 hs1).mono fun b s2 ⟨hb, new', hnew', hs2⟩ => ?_
  exact ⟨hb, new ++ new', by simpa using hnew.append hnew', hs2.append⟩

theorem mono (h : Brings Γ names good x) (hnames : names <+~ names') : Brings Γ names' good x :=
  fun F s hs => (h F s hs).mono fun _ _ ⟨ha, new, hnew, hs'⟩ => ⟨ha, new, hnew.trans hnames, hs'⟩

theorem and_result (h : Brings Γ names (fun _ => True) x) (hx : ∀ s a s', x s = .ok a s' → good a) :
    Brings Γ names good x := by
  intro F s hs
  have hs' := h F s hs
  cases hr : x s with
  | ok a s' =>
    rw [hr] at hs'
    exact ⟨hx s a s' hr, hs'.2⟩
  | error => trivial

theorem of_upholds (h : ∀ F, Upholds (Sees (Kept Γ F) (fun _ => ()) ()) x) :
    Brings Γ [] (fun _ => True) x := by
  intro F s hs
  have hs' := h F s ⟨hs, rfl⟩
  cases hr : x s with
  | ok a s' =>
    rw [hr] at hs'
    exact ⟨trivial, [], nil_subperm, hs'.1.mono fun _ => .inl⟩
  | error => trivial

theorem pure {a : α} (h : good a) : Brings Γ [] good (Pure.pure a) := fun _ _ hs =>
  ⟨h, [], nil_subperm, hs.mono fun _ => .inl⟩

theorem flatMapM {f : α → PassM Unit (List β)} {own : α → List String} : ∀ {xs : List α},
    (∀ a ∈ xs, Brings Γ (own a) (fun _ => True) (f a)) → Brings Γ (xs.flatMap own) (fun _ => True) (xs.flatMapM f)
  | [], _ => .pure trivial
  | a :: xs, h => by
    rw [forall_mem_cons] at h
    rw [flatMapM_cons, flatMap_cons]
    exact h.1.bind fun _ _ => by simpa using (flatMapM h.2).bind fun _ _ => pure trivial

end Brings

theorem symbols_brings : Brings Γ [] (fun _ => True) (PassM.symbols : PassM Unit SymbolTable) := .of_upholds fun _ => .symbols

/-! ## Stages -/

theorem newPort_brings (hstage : stage.symbol.index < Γ.entries.size) (suffix name : String) (wrap : Kind → Kind)
    (hwrap : ∀ k, (wrap k).structs = k.structs) (role : Role) (vars : Option SymbolSet) :
    Brings Γ [Γ.name stage.symbol ++ "_" ++ suffix ++ "_t"] (fun _ => True)
      (liftM (newPort suffix name wrap role stage vars) : PassM Unit _) := by
  unfold newPort
  split
  · rename_i vars
    split
    · exact .mono (.pure trivial) nil_subperm
    intro F s hs
    let fields := vars.symbols.map fun v => (s.ctx.symbols.name v, (s.ctx.symbols.kind v).underlying.clone)
    let new := (s.ctx.symbols.name stage.symbol ++ "_" ++ suffix ++ "_t", fields)
    have hP := lasting_kept Γ fun t => F t ∨ t ∈ [new]
    have hkind : ∀ t ∈ (wrap (carrier s.ctx.symbols stage.symbol suffix vars.symbols)).structs, F t ∨ t ∈ [new] := by
      intro t ht
      rw [hwrap, carrier, Kind.structs, mem_cons, mem_structsFields] at ht
      rcases ht with rfl | ⟨f, hf, ht⟩
      · exact .inr (mem_singleton.mpr rfl)
      · obtain ⟨v, -, rfl⟩ := mem_map.mp hf
        rw [clone_eq, structs_underlying] at ht
        exact .inl (hs.structs v t ht)
    have hport : Upholds (Kept Γ fun t => F t ∨ t ∈ [new]) (do
        let port ← newTerm name stage.loc (wrap (carrier s.ctx.symbols stage.symbol suffix vars.symbols))
        setRole port role
        return some ⟨port, vars.symbols⟩ : ContextM (Option Carried)) :=
      (hP.newSymbol _ _ _ hkind).bind fun _ => (hP.modifyAttrs _ _).bind fun _ => .pure _
    have hs' := hport s.ctx (hs.mono fun _ => .inl)
    refine ⟨trivial, [new], ?_, hs'⟩
    rw [← hs.name _ hstage]
    exact refl _
  · exact .mono (.pure trivial) nil_subperm

theorem lowerStage_brings (hstage : stage.symbol.index < Γ.entries.size) (here : SymbolSet)
    (before after : Option SymbolSet) :
    Brings Γ (carrierNames [Γ.name stage.symbol]) (fun _ => True) (lowerStage stage here before after) := by
  have hlocals : Brings Γ [] (fun _ => True) (here.symbols.mapM fun v => (newLocal v : PassM Unit _)) :=
    .of_upholds fun F => .mapM (fun v => .lift (newLocal_upholds (lasting_kept Γ F) v)) _
  have hinput := newPort_brings hstage "in" inputName inputKind (fun _ => rfl) .pipelineIn before
  have houtput := newPort_brings hstage "out" outputName outputKind (fun _ => rfl) .pipelineOut after
  have hnames : [Γ.name stage.symbol ++ "_" ++ "in" ++ "_t"] ++ [Γ.name stage.symbol ++ "_" ++ "out" ++ "_t"] =
      carrierNames [Γ.name stage.symbol] := by simp [carrierNames, String.append_assoc]
  rw [← hnames]
  refine hlocals.bind fun vars _ => hinput.bind fun input _ => houtput.bind fun output _ => .of_upholds fun F => ?_
  refine (Node.walk_relates (stagePass_steady (lasting_kept Γ F) _).relates (.entity stage) _).bind fun out => ?_
  exact symbols.bind fun Γ' => (lift ((lasting_kept Γ F).addPorts _ _)).bind fun _ => .pure _

theorem lowerChain_brings : ∀ (before : Option SymbolSet) {stages : List (Entity × SymbolSet)},
    (∀ p ∈ stages, p.1.symbol.index < Γ.entries.size) →
      Brings Γ (carrierNames (stages.map fun p => Γ.name p.1.symbol)) (fun _ => True) (lowerChain before stages)
  | _, [], _ => .pure trivial
  | before, (stage, here) :: rest, h => by
    rw [forall_mem_cons] at h
    rw [lowerChain]
    have hrest := lowerChain_brings (some here) h.2
    exact ((lowerStage_brings h.1 _ _ _).bind fun _ _ => hrest.bind fun _ _ => .pure trivial).mono
      (by simp [carrierNames, refl])

/-! ## Entities -/

variable {e : Entity}

theorem stageChains_brings (hstages : (e.entities.map (·.symbol)).Nodup) : Brings Γ [] (fun found? => ∀ found, found? = some found →
    found.flatten <+~ e.entities.map (·.symbol)) (liftM (stageChains e) : PassM Unit _) := by
  refine .and_result (.of_upholds fun F => .lift (stageChains_upholds (lasting_kept Γ F) e)) ?_
  rintro s _ s' h found rfl
  obtain ⟨c', hfound, -⟩ := of_lift_ok h
  obtain ⟨-, hlinear, rfl, -⟩ := stageChains_ok hfound
  refine (nodup_chains hlinear hstages).subperm fun x hx => ?_
  obtain ⟨ch, hch, hx⟩ := mem_flatten.mp hx
  exact mem_stages_of_mem_chain (fun _ hl => (links_among hl).2) hch x hx

theorem symbol_of_nested? {x : Symbol} (h : nested? e x = some stage) : stage.symbol = x := by
  simpa using find?_some h

theorem map_symbol_nested? (e : Entity) (xs : List Symbol) : (xs.filterMap (nested? e)).map (·.symbol) <+ xs := by
  induction xs with
  | nil => exact .slnil
  | cons x xs ih =>
    rw [filterMap_cons]
    split
    · exact ih.cons x
    · rename_i stage h
      rw [map_cons, symbol_of_nested? h]
      exact ih.cons_cons x

theorem lowerEntity_brings (hlisted : ∀ x ∈ e.entities.map (·.symbol), x.index < Γ.entries.size)
    (hnodup : (e.entities.map fun child => Γ.name child.symbol).Nodup) (vars : SymbolSet) :
    Brings Γ (carrierNames (e.entities.map fun child => Γ.name child.symbol))
      (fun reply => ∃ e', reply.forest (.entity e) = .node (.entity e') ∧ e'.symbol = e.symbol) (lowerEntity e vars) := by
  have hmap : (e.entities.map fun child => Γ.name child.symbol) = (e.entities.map (·.symbol)).map Γ.name := by simp
  have hsymbols : (e.entities.map (·.symbol)).Nodup := .of_map Γ.name (hmap ▸ hnodup)
  rw [← nil_append (carrierNames _)]
  refine (stageChains_brings hsymbols).bind fun found? hfound => ?_
  cases found? with
  | none => exact .mono (.pure ⟨e, rfl, rfl⟩) nil_subperm
  | some found =>
    obtain ⟨stages, hperm, hsub⟩ := hfound found rfl
    have hchain : ∀ ch ∈ found, Brings Γ (carrierNames (ch.map Γ.name)) (fun _ => True) (do
        let stages := ch.filterMap (nested? e)
        lowerChain none (stages.zip (alive none (stages.map (used (← PassM.symbols) vars))))) := by
      intro ch hch
      refine symbols_brings.bind fun Γ' _ => ?_
      have hzip : ((ch.filterMap (nested? e)).zip (alive none ((ch.filterMap (nested? e)).map (used Γ' vars)))).map (·.1) =
          ch.filterMap (nested? e) := map_fst_zip (Nat.le_of_eq (by rw [length_alive, length_map]))
      refine (lowerChain_brings none fun p hp => ?_).mono (carrierNames_subperm ?_)
      · have hmem : p.1.symbol ∈ ch := by
          refine (map_symbol_nested? e ch).subset (mem_map_of_mem ?_)
          exact hzip ▸ mem_map_of_mem hp
        exact hlisted _ (hsub.subset (hperm.mem_iff.mpr (mem_flatten.mpr ⟨ch, hch, hmem⟩)))
      · have hsymbols := (map_symbol_nested? e ch).map Γ.name
        rw [← hzip] at hsymbols
        simpa [Function.comp_def] using hsymbols.subperm
    have hnames : found.flatMap (fun ch => carrierNames (ch.map Γ.name)) <+~
        carrierNames (e.entities.map fun child => Γ.name child.symbol) := by
      have hflatten : carrierNames (found.flatten.map Γ.name) = found.flatMap fun ch => carrierNames (ch.map Γ.name) := by
        rw [map_flatten, carrierNames_flatten, flatMap_map]
      rw [← hflatten, hmap]
      exact carrierNames_subperm ⟨stages.map Γ.name, hperm.map _, hsub.map Γ.name⟩
    refine .mono (symbols_brings.bind fun Γ1 _ => (Brings.flatMapM hchain).bind fun lowered _ =>
      symbols_brings.bind fun Γ2 _ => .pure ⟨_, rfl, rfl⟩) ?_
    simpa using hnames

/-! ## Designs -/

def declaresPipeline (Γ : SymbolTable) (e : Entity) : Bool := e.decls.any fun d => (Γ.kind d.symbol).isPipeline

/-- The names of the stages of an entity: when it declares a pipeline variable, of all the entities nested in it. -/
def stageNames (Γ : SymbolTable) (e : Entity) : List String :=
  if declaresPipeline Γ e then e.entities.map fun child => Γ.name child.symbol else []

def Listed (Γ : SymbolTable) (e : Entity) : Prop :=
  e.symbol.index < Γ.entries.size ∧ ∀ d ∈ e.decls, d.symbol.index < Γ.entries.size

theorem declaresPipeline_of_carried (h : (carried Γ e).isEmpty = false) : declaresPipeline Γ e = true := by
  rw [declaresPipeline, any_eq_true]
  by_contra hnone
  have hfilter : (e.decls.map (·.symbol)).filter (fun s => (Γ.kind s).isPipeline) = [] := by
    simpa using hnone
  rw [carried, hfilter] at h
  nomatch h

theorem transform_brings (he : Listed Γ e) (hlisted : ∀ x ∈ e.entities.map (·.symbol), x.index < Γ.entries.size)
    (hnodup : (stageNames Γ e).Nodup) {es : List Entity} (hes : es.map (·.symbol) = e.entities.map (·.symbol)) :
    Brings Γ (carrierNames (stageNames Γ e))
      (fun reply => ∃ e', reply.forest (.entity { e with entities := es }) = .node (.entity e') ∧ e'.symbol = e.symbol)
      (pass.transform (.entity { e with entities := es })) := by
  have hnames : (es.map fun child => Γ.name child.symbol) = e.entities.map fun child => Γ.name child.symbol := by
    simpa [Function.comp_def] using congrArg (map Γ.name) hes
  intro F s hs
  change Yields _ _ ((if (carried s.ctx.symbols e).isEmpty then return .keep else lowerEntity { e with entities := es } _ :
    PassM Unit Reply) s)
  split
  · exact ⟨⟨_, rfl, rfl⟩, [], nil_subperm, hs.mono fun _ => .inl⟩
  · rename_i hempty
    have hpipeline : declaresPipeline Γ e = true := by
      obtain ⟨d, hd, hkind⟩ := any_eq_true.mp (declaresPipeline_of_carried (Bool.eq_false_iff.mpr hempty))
      exact any_eq_true.mpr ⟨d, hd, hs.pipeline _ (he.2 d hd) hkind⟩
    rw [stageNames, if_pos hpipeline, ← hnames] at hnodup ⊢
    exact lowerEntity_brings (hes ▸ hlisted) hnodup _ F s hs

theorem visit_brings {n : Node} {children : PassM Unit (Option Node)} {mid : Option Node → Prop}
    (good : Forest → Prop)
    (hskip : ∀ s, pass.skip n s = .ok false s) (hchildren : Brings Γ names mid children)
    (htransform : ∀ rebuilt, mid rebuilt → Brings Γ names' (fun reply => good (reply.forest (rebuilt.getD n)))
      (pass.transform (rebuilt.getD n))) :
    Brings Γ (names ++ names') (fun o => good (o.getD (.node n))) (pass.visit n children) := by
  intro F s hs
  rw [← append_nil names', visit, bind_ok (hskip s)]
  change Yields True _ (pass.guarded n _ s)
  rw [guarded_of_none rfl]
  refine (hchildren.bind fun rebuilt hmid => (htransform rebuilt hmid).bind fun reply hgood => ?_) F s hs
  rw [← reply.getD_result] at hgood
  cases reply <;> exact .pure hgood

theorem parts_brings (h : Brings Γ names (fun o => (o.getD e.entities).map (·.symbol) = e.entities.map (·.symbol))
      (walkList pass e.entities)) :
    Brings Γ names (fun n : Option Node => ∃ es : List Entity, n.getD (.entity e) = .entity { e with entities := es } ∧
      es.map (·.symbol) = e.entities.map (·.symbol)) (do
        let decls' ← pass.walkEach "*ast.Decl" Node.decl? (Decl.walk pass) e.decls
        let entities' ← walkList pass e.entities
        let instances' ← pass.walkEach "*ast.Instance" Node.inst? (Instance.walk pass) e.instances
        let connects' ← pass.walkEach "*ast.Connect" Node.connect? (Connect.walk pass) e.connects
        let stmts' ← Stmt.walkList pass e.stmts
        return (rebuilt e decls' entities' instances' connects' stmts').map .entity) := by
  intro F s hs
  have hdecl (d : Decl) : d.walk pass s = .ok none s := rfl
  rw [bind_ok (walkEach_none hdecl e.decls)]
  refine (h F s hs).bind fun es s1 ⟨hes, hs1⟩ => ?_
  have hinst (i : Instance) : i.walk pass s1 = .ok none s1 := rfl
  have hconnect (c : Connect) : c.walk pass s1 = .ok none s1 := rfl
  have hstmt (t : Stmt) : t.walk pass s1 = .ok none s1 := by cases t <;> rfl
  rw [bind_ok (walkEach_none hinst e.instances), bind_ok (walkEach_none hconnect e.connects), Stmt.walkList_eq,
    bind_ok (walkEach_none hstmt e.stmts)]
  refine ⟨⟨es.getD e.entities, ?_, hes⟩, hs1⟩
  rw [Option.getD_map Node.entity, getD_rebuilt]
  rfl

mutual
theorem walk_brings : ∀ {e : Entity}, (∀ x ∈ e :: Node.entities (nodesList e.entities), Listed Γ x) →
    ((e :: Node.entities (nodesList e.entities)).flatMap (stageNames Γ)).Nodup →
    Brings Γ (carrierNames ((e :: Node.entities (nodesList e.entities)).flatMap (stageNames Γ)))
      (fun o => ∃ e', o.getD (.node (.entity e)) = .node (.entity e') ∧ e'.symbol = e.symbol) (e.walk pass)
  | ⟨l, x, ds, es, is, cs, ss⟩, hlisted, hnodup => by
    rw [forall_mem_cons] at hlisted
    rw [flatMap_cons] at hnodup ⊢
    have hinside := walkList_brings hlisted.2 hnodup.of_append_right
    have hown : ∀ y ∈ es.map (·.symbol), y.index < Γ.entries.size := by
      intro y hy
      obtain ⟨child, hchild, rfl⟩ := mem_map.mp hy
      exact (hlisted.2 child (Node.mem_entities_nodesList hchild)).1
    rw [walk]
    refine .mono ?_ (carrierNames_subperm perm_append_comm.subperm)
    rw [carrierNames_append]
    refine visit_brings (fun f => ∃ e', f = .node (.entity e') ∧ e'.symbol = x) (fun _ => rfl) (parts_brings hinside) ?_
    rintro rebuilt ⟨es', hrebuilt, hes'⟩
    rw [hrebuilt]
    exact transform_brings hlisted.1 hown hnodup.of_append_left hes'

theorem walkList_brings : ∀ {es : List Entity}, (∀ x ∈ Node.entities (nodesList es), Listed Γ x) →
    ((Node.entities (nodesList es)).flatMap (stageNames Γ)).Nodup →
    Brings Γ (carrierNames ((Node.entities (nodesList es)).flatMap (stageNames Γ)))
      (fun o => (o.getD es).map (·.symbol) = es.map (·.symbol)) (walkList pass es)
  | [], _, _ => .pure rfl
  | e :: es, hlisted, hnodup => by
    rw [Node.entities_nodesList_cons, ← cons_append] at hlisted hnodup ⊢
    rw [forall_mem_append] at hlisted
    rw [flatMap_append] at hnodup ⊢
    have hsplice : ∀ o, (∃ e', o.getD (.node (.entity e)) = .node (.entity e') ∧ e'.symbol = e.symbol) →
        Brings Γ [] (fun head => (head.getD [e]).map (·.symbol) = [e.symbol]) (pass.spliced "*ast.Entity" Node.entity? o) := by
      rintro (_ | f) ⟨e', he', hsymbol⟩
      · exact .pure rfl
      · obtain rfl : f = .node (.entity e') := he'
        exact .pure (congrArg (fun x => [x]) hsymbol)
    rw [walkList]
    refine .mono ((walk_brings hlisted.1 hnodup.of_append_left).bind fun o ho => (hsplice o ho).bind fun head hhead =>
      (walkList_brings hlisted.2 hnodup.of_append_right).bind fun rest hrest => .pure ?_) ?_
    · rw [getD_joined, map_append, hhead, hrest]
      rfl
    · simp [carrierNames, refl]
end

theorem root_brings {r : Root} (hlisted : ∀ e ∈ r.allEntities, Listed Γ e) (hnodup : (r.allEntities.flatMap (stageNames Γ)).Nodup) :
    Brings Γ (carrierNames (r.allEntities.flatMap (stageNames Γ))) (fun _ => True) (r.walk pass) := by
  have hinside : Brings Γ (carrierNames (r.allEntities.flatMap (stageNames Γ)) ++ [])
      (fun n : Option Node => ∃ r', n.getD (.root r) = .root r') (do
        let entities' ← walkList pass r.entities
        return entities'.map fun entities => .root { r with entities }) :=
    (walkList_brings hlisted hnodup).bind fun es _ => .pure (by cases es <;> exact ⟨_, rfl⟩)
  have htransform (rebuilt : Option Node) (h : ∃ r', rebuilt.getD (.root r) = .root r') :
      Brings Γ [] (fun _ => True) (pass.transform (rebuilt.getD (.root r))) := by
    obtain ⟨r', hr'⟩ := h
    rw [hr']
    exact .pure trivial
  refine (visit_brings (fun _ => True) (fun _ => rfl) hinside htransform).mono ?_
  rw [append_nil, append_nil]

/-- A run makes at most one struct type for the input and one for the output of each nested entity of a pipeline. -/
theorem run_brings {r : Root} (hlisted : ∀ e ∈ r.allEntities, Listed Γ e) (hnodup : (r.allEntities.flatMap (stageNames Γ)).Nodup) :
    Brings Γ (carrierNames (r.allEntities.flatMap (stageNames Γ))) (fun _ => True) (pass.run r) := by
  have hchecked (F) := checked (r := r) (fun _ => .pure ()) (finalCheck_upholds (lasting_kept Γ F))
  have hnamed : Brings Γ [] (fun _ => True) (liftM (setPass pass.name) : PassM Unit Unit) :=
    .of_upholds fun F => .lift fun _ hc => (lasting_kept Γ F).pass _ hc
  rw [← nil_append (carrierNames _), ← append_nil (carrierNames _)]
  refine hnamed.bind fun _ _ => (root_brings hlisted hnodup).bind fun out _ => .of_upholds fun F => ?_
  split
  · exact hchecked F none
  · exact hchecked F (some _)
  · exact (lift ((lasting_kept Γ F).broken _)).bind (hchecked F)

theorem nodup_carrierNames {ns : List String} (h : ns.Nodup) : (carrierNames ns).Nodup := by
  have hin {n m : String} (h : n ++ "_in_t" = m ++ "_in_t") : n = m := by simpa using h
  have hout {n m : String} (h : n ++ "_out_t" = m ++ "_out_t") : n = m := by simpa using h
  have hside (n m : String) : n ++ "_in_t" ≠ m ++ "_out_t" := by
    intro h
    have hrev := congrArg (fun t => t.toList.reverse) h
    simp at hrev
  rw [carrierNames, nodup_flatMap]
  refine ⟨fun n _ => by simp [hside], h.imp fun hne => ?_⟩
  simp [Function.onFun, List.Disjoint]
  grind

end Pipeline

end HdlLowering
