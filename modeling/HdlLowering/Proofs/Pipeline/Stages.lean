import HdlLowering.Proofs.Pipeline.Liveness
import HdlLowering.Proofs.Symbols.Table
import HdlLowering.Proofs.Traversal.Postcondition
import HdlLowering.Proofs.Value.Normalize

/-!
# Stages taken out of a pipeline

`lowerStage` gives a stage a copy of every variable alive in it and a port for what it shares with each neighbour (`Lowered`).
All symbols are new ones, so what is made for one stage stays when the others follow.
-/

namespace HdlLowering.Pipeline

open List Expr Node ContextM Kind SymbolTable

variable {Γ Γ' Γ'' : SymbolTable} {vs : List Symbol} {st : Stage} {stages : List (Entity × SymbolSet)} {aborts : Prop}
  {ls : List (Symbol × Symbol)} {wrap : Kind → Kind} {n : Node} {o : Option Carried}

/-! ## The pass over a stage -/

/-- What the pass over a stage does to a node: a variable becomes its copy, and reading and writing go through the ports. -/
inductive Transfers (st : Stage) : Node → Forest → Prop
  | copy (l : Loc) {x y : Symbol} (h : st.locals.lookup x = some y) :
    Transfers st (.expr (.ref l x)) (.node (.expr (.ref l y)))
  | other (l : Loc) {x : Symbol} (h : st.locals.lookup x = none) :
    Transfers st (.expr (.ref l x)) (.node (.expr (.ref l x)))
  | read (l : Loc) {c : Carried} (h : st.input = some c) : Transfers st (.stmt (.read l))
      (.node (.stmt (.assign l (st.pack c.vars) ((ofSymbol c.port).method "read" []))))
  | write (l : Loc) {c : Carried} (h : st.output = some c) : Transfers st (.stmt (.write l))
      (.node (.stmt (.expr l ((ofSymbol c.port).method "write" [st.pack c.vars]))))
  | keep {n : Node} (href : ∀ l x, n ≠ .expr (.ref l x)) (hread : ∀ l, n ≠ .stmt (.read l))
    (hwrite : ∀ l, n ≠ .stmt (.write l)) : Transfers st n (.node n)

inductive Transferred (st : Stage) : Node → Forest → Prop
  | mk {n n' : Node} {f : Forest} (hchildren : Rebuilt (Transferred st) n n') (hself : Transfers st n' f) : Transferred st n f

/-- Reading and writing have a port to go through, or else an abort is accepted. -/
structure Served (aborts : Prop) (st : Stage) (n : Node) : Prop where
  read : ∀ l, n = .stmt (.read l) → st.input = none → aborts
  write : ∀ l, n = .stmt (.write l) → st.output = none → aborts

def Fatal (aborts : Prop) (a : Abort) : Prop := aborts ∧ ∃ d, a = .fatal d

theorem stagePass_transform (h : Served aborts st n) (s : Session Unit) :
    Lands (Fatal aborts) (fun r s' => s' = s ∧ Transfers st n (r.forest n)) ((stagePass st).transform n s) := by
  unfold stagePass
  dsimp only
  split
  · rename_i l x
    cases hx : st.locals.lookup x with
    | none => exact ⟨rfl, .other l hx⟩
    | some y => exact ⟨rfl, .copy l hx⟩
  · rename_i l
    cases hin : st.input with
    | none => exact ⟨h.read l rfl hin, _, rfl⟩
    | some c => exact ⟨rfl, .read l hin⟩
  · rename_i l
    cases hout : st.output with
    | none => exact ⟨h.write l rfl hout, _, rfl⟩
    | some c => exact ⟨rfl, .write l hout⟩
  · rename_i href hread hwrite
    exact ⟨rfl, .keep href hread hwrite⟩

theorem Served.rebuilt {post : Node → Forest → Prop} {n n' : Node} (h : Served aborts st n)
    (hn : Rebuilt post n n') : Served aborts st n' := by
  cases hn <;> first | exact h | exact ⟨by rintro _ ⟨⟩, by rintro _ ⟨⟩⟩

theorem Transfers.single {f : Forest} (h : Transfers st n f) : ∃ m, f = .node m ∧ n.alike m = true := by
  cases h with
  | keep => exact ⟨n, rfl, by cases n <;> rfl⟩
  | _ => exact ⟨_, rfl, rfl⟩

theorem Transferred.single {f : Forest} (h : Transferred st n f) : ∃ m, f = .node m ∧ n.alike m = true := by
  obtain ⟨hchildren, hself⟩ := h
  obtain ⟨m, rfl, hm⟩ := hself.single
  exact ⟨m, rfl, hchildren.alike hm⟩

theorem stagePass_establishes (aborts : Prop) (st : Stage) (s0 : Session Unit) :
    (stagePass st).Establishes (Fatal aborts) (fun n => ∀ m ∈ n.nodes, Served aborts st m) (fun s => s = s0) (Transferred st) where
  below _ hn m hm k hk := hn k (mem_nodes_of_child hm hk)
  skip _ _ := .pure nofun
  enter _ _ := .pure trivial
  transform n n' hn hrebuilt s hs := (stagePass_transform ((hn n n.self_mem_nodes).rebuilt hrebuilt) s).mono fun _ _ h =>
    ⟨h.1.trans hs, .mk hrebuilt h.2⟩
  expr _ _ h := by
    obtain ⟨m, rfl, hm⟩ := h.single
    cases m <;> first | exact ⟨_, rfl⟩ | nomatch hm
  decl _ _ h := by
    obtain ⟨m, rfl, hm⟩ := h.single
    cases m <;> first | exact ⟨_, rfl⟩ | nomatch hm
  alike _ _ h := by
    obtain ⟨m, rfl, hm⟩ := h.single
    simpa [Forest.leaves] using hm

theorem walk_stage {stage : Entity} (h : ∀ n ∈ stage.nodes, Served aborts st n)
    (s : Session Unit) : Lands (Fatal aborts)
      (fun o s' => s' = s ∧ Transferred st (.entity stage) (.node (.entity (walked stage o)))) (stage.walk (stagePass st) s) := by
  refine ((entity stage).walk_gives (stagePass_establishes aborts st s) h s rfl).mono fun o s' ⟨hs, ho⟩ => ⟨hs, ?_⟩
  cases o with
  | none => exact ho
  | some f =>
    obtain ⟨m, hm, halike⟩ := ho.single
    obtain ⟨e, rfl⟩ : ∃ e, m = .entity e := by
      cases m <;> first | exact ⟨_, rfl⟩ | nomatch halike
    obtain rfl : f = .node (.entity e) := hm
    exact ho

/-! ## New symbols -/

structure Copies (Γ Γ' : SymbolTable) (vs : List Symbol) (ls : List (Symbol × Symbol)) : Prop where
  keys : ls.map (·.1) = vs
  fresh : ∀ p ∈ ls, Γ.entries.size ≤ p.2.index ∧ p.2.index < Γ'.entries.size
  distinct : (ls.map (·.2)).Nodup
  kind : ∀ p ∈ ls, Γ'.kind p.2 = (Γ.kind p.1).underlying

theorem newLocal_ok (v : Symbol) (c : Context) : ∃ c', newLocal v c = .ok (v, ⟨c.symbols.entries.size⟩) c' ∧
    c.symbols.Extended [] c'.symbols ∧ c'.symbols.entries.size = c.symbols.entries.size + 1 ∧
    c'.symbols.kind ⟨c.symbols.entries.size⟩ = (c.symbols.kind v).underlying := by
  have hsymbols : symbols c = .ok c.symbols c := rfl
  obtain ⟨c1, c2, hnew, hrole, hgrown, hsize, -, hkind⟩ := newTerm_setRole (c.symbols.name v) (c.symbols.loc v)
    (c.symbols.kind v).underlying.clone .pipelineLocal c
  refine ⟨c2, ?_, hgrown, hsize, by rw [hkind, clone_eq]⟩
  rw [newLocal, bind_ok hsymbols, bind_ok hnew, bind_ok hrole]
  rfl

theorem newLocals_ok : ∀ (vs : List Symbol) (s : Session Unit), (∀ v ∈ vs, v.index < s.ctx.symbols.entries.size) →
    ∃ ls c', vs.mapM (fun v => (liftM (newLocal v) : PassM Unit (Symbol × Symbol))) s = .ok ls { s with ctx := c' } ∧
      s.ctx.symbols.Extended [] c'.symbols ∧ Copies s.ctx.symbols c'.symbols vs ls
  | [], s, _ => ⟨[], s.ctx, rfl, .refl _ _, ⟨rfl, by simp, by simp, by simp⟩⟩
  | v :: vs, s, hvs => by
    rw [forall_mem_cons] at hvs
    obtain ⟨c1, hnew, hgrown, hsize, hkind⟩ := newLocal_ok v s.ctx
    have hlisted : ∀ v ∈ vs, v.index < c1.symbols.entries.size := fun x hx => Nat.lt_of_lt_of_le (hvs.2 x hx) hgrown.size
    obtain ⟨ls, c2, hrest, hgrown', hcopies⟩ := newLocals_ok vs { s with ctx := c1 } hlisted
    have hlt : s.ctx.symbols.entries.size < c1.symbols.entries.size := by omega
    refine ⟨(v, ⟨s.ctx.symbols.entries.size⟩) :: ls, c2, ?_, hgrown.trans hgrown', ?_, ?_, ?_, ?_⟩
    · rw [mapM_cons, bind_ok (lift_ok hnew), bind_ok hrest]
      rfl
    · rw [map_cons, hcopies.keys]
    · rw [forall_mem_cons]
      exact ⟨⟨Nat.le_refl _, Nat.lt_of_lt_of_le hlt hgrown'.size⟩, fun p hp =>
        ⟨Nat.le_trans (Nat.le_of_lt hlt) (hcopies.fresh p hp).1, (hcopies.fresh p hp).2⟩⟩
    · rw [map_cons, nodup_cons]
      refine ⟨fun hmem => ?_, hcopies.distinct⟩
      -- a copy made later stands behind the first
      obtain ⟨p, hp, heq⟩ := mem_map.mp hmem
      have := (hcopies.fresh p hp).1
      rw [heq] at this
      exact Nat.lt_irrefl _ (Nat.lt_of_lt_of_le hlt this)
    · rw [forall_mem_cons]
      refine ⟨?_, fun p hp => ?_⟩
      · rw [hgrown'.kind _ (by exact hlt) (by simp), hkind]
      · have hp1 : p.1 ∈ vs := hcopies.keys ▸ mem_map_of_mem hp
        rw [hcopies.kind p hp, hgrown.kind _ (hvs.2 _ hp1) (by simp)]

/-- A port that carries some variables, or none when there is nothing to carry. -/
def Carries (Γ Γ' : SymbolTable) (wrap : Kind → Kind) (name : String) (vs : List Symbol) : Option Carried → Prop
  | none => vs = []
  | some c => vs ≠ [] ∧ c.vars = vs ∧ Γ.entries.size ≤ c.port.index ∧ c.port.index < Γ'.entries.size ∧
    Γ'.name c.port = name ∧
    ∃ struct, Γ'.kind c.port = wrap (.struct struct (vs.map fun v => (Γ.name v, (Γ.kind v).underlying)))

def listed (vs : Option SymbolSet) : List Symbol := (vs.map (·.symbols)).getD []

theorem listed_eq_nil {vs : SymbolSet} (h : vs.isEmpty = true) : listed (some vs) = [] := by
  have hmembers : vs.members = [] := by simpa [SymbolSet.isEmpty] using h
  simp [listed, SymbolSet.symbols, hmembers]

theorem listed_ne_nil {vs : SymbolSet} (h : ¬ vs.isEmpty = true) : listed (some vs) ≠ [] := by
  have hmembers : vs.members ≠ [] := by simpa [SymbolSet.isEmpty] using h
  simpa [listed, SymbolSet.symbols] using hmembers

theorem newPort_ok (suffix name : String) (wrap : Kind → Kind) (role : Role) (stage : Entity) (vs : Option SymbolSet)
    (c : Context) : ∃ o c', newPort suffix name wrap role stage vs c = .ok o c' ∧ c.symbols.Extended [] c'.symbols ∧
      Carries c.symbols c'.symbols wrap name (listed vs) o := by
  have hsymbols : symbols c = .ok c.symbols c := rfl
  cases vs with
  | none => exact ⟨none, c, rfl, .refl _ _, rfl⟩
  | some vs =>
    rw [newPort]
    split
    · rename_i hempty
      exact ⟨none, c, rfl, .refl _ _, listed_eq_nil hempty⟩
    · rename_i hvs
      obtain ⟨c1, c2, hnew, hrole, hgrown, hsize, hname, hkind⟩ := newTerm_setRole name stage.loc
        (wrap (carrier c.symbols stage.symbol suffix vs.symbols)) role c
      refine ⟨some ⟨⟨c.symbols.entries.size⟩, vs.symbols⟩, c2, ?_, hgrown, listed_ne_nil hvs, rfl, Nat.le_refl _, ?_, hname,
        c.symbols.name stage.symbol ++ "_" ++ suffix ++ "_t", ?_⟩
      · rw [bind_ok hsymbols]
        exact (bind_ok hnew).trans (bind_ok hrole)
      · exact hsize ▸ Nat.lt_succ_self _
      · rw [hkind, carrier]
        simp only [clone_eq]
        rfl

theorem addPorts_ok {x : Symbol} (ports : List Symbol) {c : Context} (hx : x.index < c.symbols.entries.size) :
    ∃ c', addPorts x ports c = .ok () c' ∧ c.symbols.Extended [x] c'.symbols ∧
      c'.symbols.entries.size = c.symbols.entries.size ∧
      c'.symbols.entityPorts x = c.symbols.entityPorts x ++ ports := by
  unfold addPorts
  split
  · rename_i hempty
    have hnil : ports = [] := by simpa using hempty
    exact ⟨c, rfl, .refl _ _, rfl, by simp [hnil]⟩
  · refine ⟨_, rfl, ?_, ?_, ?_⟩
    · exact .modify _ _ (fun _ => rfl) (fun _ => rfl) fun h => absurd (mem_singleton_self x) h
    · exact size_modify _ _ _
    · change (modify c.symbols x _).entityPorts x = _
      rw [entityPorts, kind, entry_modify, if_pos ⟨rfl, hx⟩]
      rfl

/-! ## One stage -/

/-- A stage taken out of the pipeline: a copy of every variable alive in it, a port for those it shares with each neighbour,
and its body in terms of these. -/
structure Lowered (Γ Γ' : SymbolTable) (stage : Entity) (here before after : List Symbol) (st : Stage) (e : Entity) :
    Prop where
  symbol : st.symbol = stage.symbol
  copies : Copies Γ Γ' here st.locals
  input : Carries Γ Γ' inputKind inputName before st.input
  output : Carries Γ Γ' outputKind outputName after st.output
  signature : ∀ c ∈ st.input.toList ++ st.output.toList, c.port ∈ Γ'.entityPorts stage.symbol
  body : ∃ body copies, Transferred st (.entity stage) (.node (.entity body)) ∧
    copies.map Decl.symbol = st.locals.map (·.2) ∧ (∀ d ∈ copies, d.init = none) ∧ e = { body with
      decls := (st.input.toList ++ st.output.toList).map (fun c => { loc := stage.loc, symbol := c.port : Decl }) ++
        body.decls ++ copies }

variable {stage e : Entity} {here before after : List Symbol} {st : Stage} {ss : List Symbol}

theorem Copies.later (h : Copies Γ Γ' vs ls) (hext : Γ'.Extended ss Γ'')
    (hss : ∀ x ∈ ss, x.index < Γ.entries.size) : Copies Γ Γ'' vs ls where
  keys := h.keys
  fresh p hp := ⟨(h.fresh p hp).1, Nat.lt_of_lt_of_le (h.fresh p hp).2 hext.size⟩
  distinct := h.distinct
  kind p hp := by
    have hnew : p.2 ∉ ss := fun hmem => Nat.lt_irrefl _ (Nat.lt_of_lt_of_le (hss _ hmem) (h.fresh p hp).1)
    rw [hext.kind _ (h.fresh p hp).2 hnew, h.kind p hp]

theorem Carries.later {name : String}
    (h : Carries Γ Γ' wrap name vs o) (hext : Γ'.Extended ss Γ'') (hss : ∀ x ∈ ss, x.index < Γ.entries.size) :
    Carries Γ Γ'' wrap name vs o := by
  cases o with
  | none => exact h
  | some c =>
    obtain ⟨hne, hvars, hfresh, hlt, hname, struct, hkind⟩ := h
    have hnew : c.port ∉ ss := fun hmem => Nat.lt_irrefl _ (Nat.lt_of_lt_of_le (hss _ hmem) hfresh)
    refine ⟨hne, hvars, hfresh, Nat.lt_of_lt_of_le hlt hext.size, ?_, struct, ?_⟩
    · rw [hext.name _ hlt, hname]
    · rw [hext.kind _ hlt hnew, hkind]

theorem Lowered.later (h : Lowered Γ Γ' stage here before after st e) (hext : Γ'.Extended ss Γ'')
    (hss : ∀ x ∈ ss, x.index < Γ.entries.size) (hstage : stage.symbol.index < Γ'.entries.size) (hnot : stage.symbol ∉ ss) :
    Lowered Γ Γ'' stage here before after st e where
  symbol := h.symbol
  copies := h.copies.later hext hss
  input := h.input.later hext hss
  output := h.output.later hext hss
  signature c hc := by
    rw [entityPorts, hext.kind _ hstage hnot]
    exact h.signature c hc
  body := h.body

theorem Copies.earlier (h : Copies Γ' Γ'' vs ls) (hext : Γ.Extended ss Γ')
    (hvs : ∀ v ∈ vs, v.index < Γ.entries.size ∧ v ∉ ss) : Copies Γ Γ'' vs ls where
  keys := h.keys
  fresh p hp := ⟨Nat.le_trans hext.size (h.fresh p hp).1, (h.fresh p hp).2⟩
  distinct := h.distinct
  kind p hp := by
    obtain ⟨hlt, hnot⟩ := hvs p.1 (h.keys ▸ mem_map_of_mem hp)
    rw [h.kind p hp, hext.kind _ hlt hnot]

theorem Carries.earlier {name : String}
    (h : Carries Γ' Γ'' wrap name vs o) (hext : Γ.Extended ss Γ') (hvs : ∀ v ∈ vs, v.index < Γ.entries.size ∧ v ∉ ss) :
    Carries Γ Γ'' wrap name vs o := by
  cases o with
  | none => exact h
  | some c =>
    obtain ⟨hne, hvars, hfresh, hlt, hname, struct, hkind⟩ := h
    refine ⟨hne, hvars, Nat.le_trans hext.size hfresh, hlt, hname, struct, ?_⟩
    have hfields : (vs.map fun v => (Γ'.name v, (Γ'.kind v).underlying)) = vs.map fun v => (Γ.name v, (Γ.kind v).underlying) := by
      apply map_congr_left
      intro v hv
      rw [hext.name v (hvs v hv).1, hext.kind v (hvs v hv).1 (hvs v hv).2]
    rw [hkind, hfields]

theorem Lowered.earlier (h : Lowered Γ' Γ'' stage here before after st e) (hext : Γ.Extended ss Γ')
    (hvs : ∀ v ∈ here ++ before ++ after, v.index < Γ.entries.size ∧ v ∉ ss) : Lowered Γ Γ'' stage here before after st e := by
  simp only [forall_mem_append] at hvs
  exact { h with
    copies := h.copies.earlier hext hvs.1.1
    input := h.input.earlier hext hvs.1.2
    output := h.output.earlier hext hvs.2 }

/-- A stage reads only when a variable comes in and writes only when one goes out, or else an abort is accepted. -/
structure Fed (aborts : Prop) (before after : List Symbol) (stage : Entity) : Prop where
  read : ∀ l, .stmt (.read l) ∈ stage.nodes → before = [] → aborts
  write : ∀ l, .stmt (.write l) ∈ stage.nodes → after = [] → aborts

variable {aborts : Prop}

theorem Fed.served (h : Fed aborts before after stage) (hin : Carries Γ Γ' inputKind inputName before st.input)
    (hout : Carries Γ' Γ'' outputKind outputName after st.output) : ∀ n ∈ stage.nodes, Served aborts st n := by
  intro n hn
  constructor
  · rintro l rfl hnone
    rw [hnone] at hin
    exact h.read l hn hin
  · rintro l rfl hnone
    rw [hnone] at hout
    exact h.write l hn hout

/-- A stage gets its copies and its ports. -/
theorem lowerStage_yields {hereSet : SymbolSet} {beforeSet afterSet : Option SymbolSet} {s : Session Unit}
    (hstage : stage.symbol.index < s.ctx.symbols.entries.size)
    (hhere : ∀ v ∈ hereSet.symbols, v.index < s.ctx.symbols.entries.size)
    (hbefore : ∀ v ∈ listed beforeSet, v.index < s.ctx.symbols.entries.size)
    (hafter : ∀ v ∈ listed afterSet, v.index < s.ctx.symbols.entries.size)
    (hfed : Fed aborts (listed beforeSet) (listed afterSet) stage) :
    Lands (Fatal aborts) (fun l s' => ∃ c', s' = { s with ctx := c' } ∧ s.ctx.symbols.Extended [stage.symbol] c'.symbols ∧
      Lowered s.ctx.symbols c'.symbols stage hereSet.symbols (listed beforeSet) (listed afterSet) l.1 l.2)
      (lowerStage stage hereSet beforeSet afterSet s) := by
  obtain ⟨ls, c1, hlocals, hext1, hcopies⟩ := newLocals_ok hereSet.symbols s hhere
  obtain ⟨input, c2, hinput, hext2, hin⟩ := newPort_ok "in" inputName inputKind .pipelineIn stage beforeSet c1
  obtain ⟨output, c3, houtput, hext3, hout⟩ := newPort_ok "out" outputName outputKind .pipelineOut stage afterSet c2
  rw [lowerStage, newInput_eq, newOutput_eq, bind_ok hlocals, bind_ok (lift_ok hinput), bind_ok (lift_ok houtput)]
  refine (walk_stage (hfed.served hin hout) _).bind ?_
  rintro o s4 ⟨rfl, htransferred⟩
  have hstage3 : stage.symbol.index < c3.symbols.entries.size :=
    Nat.lt_of_lt_of_le hstage (Nat.le_trans hext1.size (Nat.le_trans hext2.size hext3.size))
  obtain ⟨c4, hports, hext4, -, hsignature⟩ := addPorts_ok ((input.toList ++ output.toList).map (·.port)) hstage3
  rw [bind_ok (PassM.symbols_ok _), bind_ok (lift_ok hports)]
  have hext12 := hext1.trans hext2
  refine ⟨c4, rfl, (hext12.trans hext3).trans hext4, ?_⟩
  have hold : ∀ x ∈ [stage.symbol], x.index < s.ctx.symbols.entries.size := by simpa using hstage
  have hvs : ∀ {vs : List Symbol}, (∀ v ∈ vs, v.index < s.ctx.symbols.entries.size) →
      ∀ v ∈ vs, v.index < s.ctx.symbols.entries.size ∧ v ∉ ([] : List Symbol) := fun h v hv => ⟨h v hv, by simp⟩
  refine ⟨rfl, ?_, ?_, ?_, ?_, ?_⟩
  · exact (hcopies.later (hext2.trans hext3) (by simp)).later hext4 hold
  · exact ((hin.earlier hext1 (hvs hbefore)).later hext3 (by simp)).later hext4 hold
  · exact (hout.earlier hext12 (hvs hafter)).later hext4 hold
  · intro c hc
    rw [hsignature]
    exact mem_append_right _ (mem_map_of_mem hc)
  · refine ⟨_, _, htransferred, ?_, ?_, rfl⟩
    · rw [map_map]
      rfl
    · intro d hd
      obtain ⟨p, -, rfl⟩ := mem_map.mp hd
      rfl

/-! ## A chain of stages -/

theorem mem_of_mem_inter {a b : SymbolSet} {v : Symbol} (h : v ∈ (a.inter b).symbols) : v ∈ a.symbols := by
  obtain ⟨m, hm, rfl⟩ := mem_map.mp h
  exact mem_map_of_mem (mem_filter.mp hm).1

/-- The stages of a chain taken out of the pipeline, each with the variables alive in it. -/
inductive LoweredChain (Γ Γ' : SymbolTable) : Option SymbolSet → List (Entity × SymbolSet) → List (Stage × Entity) → Prop
  | nil {before : Option SymbolSet} : LoweredChain Γ Γ' before [] []
  | cons {before : Option SymbolSet} {stage : Entity} {here : SymbolSet} {rest : List (Entity × SymbolSet)} {st : Stage}
    {e : Entity} {ls : List (Stage × Entity)}
    (hfirst : Lowered Γ Γ' stage here.symbols (listed (before.map fun b => b.inter here))
      (listed (rest.head?.map fun next => here.inter next.2)) st e)
    (hrest : LoweredChain Γ Γ' (some here) rest ls) : LoweredChain Γ Γ' before ((stage, here) :: rest) ((st, e) :: ls)

theorem LoweredChain.later {before : Option SymbolSet} {ls : List (Stage × Entity)}
    (h : LoweredChain Γ Γ' before stages ls) (hext : Γ'.Extended ss Γ'') (hss : ∀ x ∈ ss, x.index < Γ.entries.size)
    (hstages : ∀ p ∈ stages, p.1.symbol.index < Γ'.entries.size ∧ p.1.symbol ∉ ss) :
    LoweredChain Γ Γ'' before stages ls := by
  induction h with
  | nil => exact .nil
  | cons hfirst _ ih =>
    rw [forall_mem_cons] at hstages
    exact .cons (hfirst.later hext hss hstages.1.1 hstages.1.2) (ih hstages.2)

/-- Symbols that were there before any stage was taken out, and are no stages. -/
def Settled (Γ : SymbolTable) (ss vs : List Symbol) : Prop := ∀ v ∈ vs, v.index < Γ.entries.size ∧ v ∉ ss

/-- The stages of a chain read and write only where variables cross, or else an abort is accepted. -/
inductive FedChain (aborts : Prop) : Option SymbolSet → List (Entity × SymbolSet) → Prop
  | nil {before : Option SymbolSet} : FedChain aborts before []
  | cons {before : Option SymbolSet} {stage : Entity} {here : SymbolSet} {rest : List (Entity × SymbolSet)}
    (hfirst : Fed aborts (listed (before.map fun b => b.inter here)) (listed (rest.head?.map fun next => here.inter next.2))
      stage)
    (hrest : FedChain aborts (some here) rest) : FedChain aborts before ((stage, here) :: rest)

/-- Two neighbours get their ports for the same variables. -/
theorem lowerChain_yields (hss : ∀ x ∈ ss, x.index < Γ.entries.size)
    {before : Option SymbolSet} (hfed : FedChain aborts before stages) (s : Session Unit) (hext : Γ.Extended ss s.ctx.symbols)
    (hmem : ∀ p ∈ stages, p.1.symbol ∈ ss) (hnodup : (stages.map (·.1.symbol)).Nodup)
    (hvars : ∀ p ∈ stages, Settled Γ ss p.2.symbols) (hbefore : ∀ b, before = some b → Settled Γ ss b.symbols) :
    Lands (Fatal aborts) (fun ls s' => ∃ c', s' = { s with ctx := c' } ∧
      s.ctx.symbols.Extended (stages.map (·.1.symbol)) c'.symbols ∧ LoweredChain Γ c'.symbols before stages ls)
      (lowerChain before stages s) := by
  induction hfed generalizing s with
  | nil =>
    rw [lowerChain]
    exact ⟨s.ctx, rfl, .refl _ _, .nil⟩
  | @cons before stage here rest hfirst _ ih =>
    rw [forall_mem_cons] at hmem hvars
    rw [map_cons, nodup_cons] at hnodup
    have hin : Settled Γ ss (listed (before.map fun b => b.inter here)) := by
      intro v hv
      cases before with
      | none => simp [listed] at hv
      | some b => exact hbefore b rfl v (mem_of_mem_inter hv)
    have hout : Settled Γ ss (listed (rest.head?.map fun next => here.inter next.2)) := by
      intro v hv
      cases rest with
      | nil => simp [listed] at hv
      | cons next rest => exact hvars.1 v (mem_of_mem_inter hv)
    have hlisted : ∀ {vs : List Symbol}, Settled Γ ss vs → ∀ v ∈ vs, v.index < s.ctx.symbols.entries.size :=
      fun h v hv => Nat.lt_of_lt_of_le (h v hv).1 hext.size
    have hsymbol := Nat.lt_of_lt_of_le (hss _ hmem.1) hext.size
    rw [lowerChain]
    refine (lowerStage_yields hsymbol (hlisted hvars.1) (hlisted hin) (hlisted hout) hfirst).bind ?_
    rintro ⟨st, e⟩ s1 ⟨c1, rfl, hext1, hlowered⟩
    have hold : ∀ x ∈ [stage.symbol], x ∈ ss := by simpa using hmem.1
    have hext' : Γ.Extended ss c1.symbols := (hext.trans hext1).mono fun x hx =>
      (mem_append.mp hx).elim (fun hx => hx) (hold x)
    refine (ih _ hext' hmem.2 hnodup.2 hvars.2 (by rintro b ⟨⟩; exact hvars.1)).bind ?_
    rintro ls s2 ⟨c2, rfl, hext2, hrest⟩
    have hsub : ∀ x ∈ rest.map (·.1.symbol), x ∈ ss := by
      intro x hx
      obtain ⟨p, hp, rfl⟩ := mem_map.mp hx
      exact hmem.2 p hp
    have hearlier := hlowered.earlier hext (forall_mem_append.mpr ⟨forall_mem_append.mpr ⟨hvars.1, hin⟩, hout⟩)
    refine ⟨c2, rfl, hext1.trans hext2, .cons (hearlier.later hext2 (fun x hx => hss x (hsub x hx)) ?_ hnodup.1) hrest⟩
    exact Nat.lt_of_lt_of_le hsymbol hext1.size

end HdlLowering.Pipeline
