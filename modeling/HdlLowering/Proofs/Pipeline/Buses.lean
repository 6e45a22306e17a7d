import HdlLowering.Proofs.Pipeline.Transfer

/-!
# Buses between stages

Of every two neighbours in a chain, the first gets an output and the second an input for the variables that cross between them,
with the same fields by ascending number, or neither when none crosses; what the first writes is what the second reads back; and
the connection between the two goes from the one port to the other, or is gone (`neighbours_share_bus`).
-/

namespace HdlLowering.Pipeline

open List PassM Entity

variable {Γ Γ' : SymbolTable} {vs : List Symbol}

/-- The bus between two neighbours `x` and `y` for the variables `vs`. -/
structure Bus (Γ Γ' : SymbolTable) (vs : List Symbol) (x y : Entity) (p q : Stage × Entity) : Prop
    extends Neighbours Γ Γ' vs x y p q where
  both : p.1.output.isSome = q.1.input.isSome
  fields : ∀ o i, p.1.output = some o → q.1.input = some i → ∃ n m, ∃ fs : List (String × Kind),
    Γ'.kind o.port = outputKind (.struct n fs) ∧ Γ'.kind i.port = inputKind (.struct m fs) ∧
      fs = vs.map fun v => (Γ.name v, (Γ.kind v).underlying)
  transfer : ∀ sent : Store Γ', ∃ word, (p.1.pack vs).rawIn sent = some word ∧
    ∀ (ω : Unknowns) (held : Store Γ'), ∀ v ∈ vs,
      (held.receive ω (q.1.pack vs) word).value (q.1.copy v) = sent.value (p.1.copy v)

theorem Carries.isSome_eq {wrap : Kind → Kind} {name : String} {o : Option Carried}
    (h : Carries Γ Γ' wrap name vs o) : o.isSome = !vs.isEmpty := by
  cases o with
  | none =>
    obtain rfl : vs = [] := h
    rfl
  | some c =>
    obtain ⟨hne, -⟩ := h
    cases vs with
    | nil => exact absurd rfl hne
    | cons v vs => rfl

theorem Neighbours.bus {x y : Entity} {p q : Stage × Entity} (h : Neighbours Γ Γ' vs x y p q)
    (hwidth : ∀ v ∈ vs, (Γ.kind v).underlying.width ≠ 0) : Bus Γ Γ' vs x y p q := by
  obtain ⟨here, before, hp, -⟩ := h.source
  obtain ⟨next, after, hq, -⟩ := h.target
  refine { h with both := ?_, fields := ?_, transfer := h.transfer hwidth }
  · rw [hp.output.isSome_eq, hq.input.isSome_eq]
  · intro o i ho hi
    have hout := hp.output
    have hin := hq.input
    rw [ho] at hout
    rw [hi] at hin
    obtain ⟨-, -, -, -, -, n, hn⟩ := hout
    obtain ⟨-, -, -, -, -, m, hm⟩ := hin
    exact ⟨n, m, _, hn, hm, rfl⟩

def rewire (Γ Γ' : SymbolTable) (e : Entity) (lowered : List (Stage × Entity)) (c : Connect) : Option Connect :=
  match linkOf? Γ (e.entities.map (·.symbol)) c with
  | some l => rewired Γ' lowered c l
  | none => some c

theorem not_isEmpty_carried {e : Entity} (hvars : pipelined Γ e ≠ []) : ¬ (carried Γ e).isEmpty = true := by
  obtain ⟨v, hv⟩ := exists_mem_of_ne_nil _ hvars
  have hhas : (carried Γ e).has (Γ.member v) = true := by
    rw [carried, SymbolTable.has_setOf]
    exact any_eq_true.mpr ⟨v, hv, beq_iff_eq.mpr rfl⟩
  intro hempty
  have hnil : (carried Γ e).members = [] := by simpa [SymbolSet.isEmpty] using hempty
  simp [SymbolSet.has, hnil] at hhas

theorem transform_pipeline {e : Entity} {s : Session Unit} {found : List (List Symbol)} {c : Context} {aborts : Prop}
    (h : Staged s.ctx.symbols e) (hvars : pipelined s.ctx.symbols e ≠ [])
    (hchains : stageChains e s.ctx = .ok (some found) c)
    (hfed : ∀ ch ∈ found, FedChain aborts none (live s.ctx.symbols e (stagesOf e ch))) :
    Lands (Fatal aborts) (fun reply s' => ∃ c' lowered, reply = .put (.node (.entity { e with
        decls := e.decls.filter fun d => !(carried s.ctx.symbols e).has (s.ctx.symbols.member d.symbol)
        entities := replaced lowered e.entities
        connects := e.connects.filterMap (rewire s.ctx.symbols c'.symbols e lowered) })) ∧ s' = { s with ctx := c' } ∧
      LoweredAll s.ctx.symbols c'.symbols e found lowered) (pass.transform (.entity e) s) := by
  obtain ⟨rfl, hchained⟩ := stageChains_ok hchains
  have hmem : ∀ ch ∈ found, ∀ x ∈ ch, x ∈ e.entities.map (·.symbol) := fun ch hch =>
    mem_stages_of_mem_chain (fun _ hl => (links_among hl).2) (hchained.all ▸ hch)
  have hnodup : found.flatten.Nodup := hchained.all ▸ nodup_chains hchained.linear h.distinct
  have hstages : (liftM (stageChains e) : PassM Unit _) s = .ok (some found) s := lift_ok hchains
  change Lands (Fatal aborts) _ ((symbols >>= _) s)
  rw [bind_ok (symbols_ok s), if_neg (not_isEmpty_carried hvars), lowerEntity, bind_ok hstages]
  dsimp only
  rw [bind_ok (symbols_ok s)]
  refine (lowerChains_yields h found s (.refl _ _) hmem hnodup hfed).bind ?_
  rintro lowered s' ⟨c', rfl, -, hlowered⟩
  rw [bind_ok (symbols_ok _)]
  exact ⟨c', lowered, rfl, rfl, hlowered⟩

/-- What the pass makes of a pipeline whose stages form chains: neighbours in a chain share a bus for exactly the variables
that cross between them, and the link between them is wired to it when there is one. -/
theorem neighbours_share_bus {e : Entity} {s : Session Unit} {found : List (List Symbol)} {c : Context}
    (h : Sound s.ctx.symbols e) (hvars : pipelined s.ctx.symbols e ≠ [])
    (hchains : stageChains e s.ctx = .ok (some found) c)
    (hsup : ∀ ch ∈ found, Supplied s.ctx.symbols e (stagesOf e ch)) :
    ∃ e' c' rewire, pass.transform (.entity e) s = .ok (.put (.node (.entity e'))) { s with ctx := c' } ∧
      (∀ ch ∈ found, ∃ ls : List (Stage × Entity), ls.map (·.1.symbol) = ch ∧ (∀ p ∈ ls, p.2 ∈ e'.entities) ∧
        ∀ i p q, ls[i]? = some p → ls[i + 1]? = some q → ∃ vs x y,
          (∀ v, v ∈ vs ↔ v ∈ pipelined s.ctx.symbols e ∧ Crosses (stagesOf e ch) i v) ∧
          (stagesOf e ch)[i]? = some x ∧ (stagesOf e ch)[i + 1]? = some y ∧ Bus s.ctx.symbols c'.symbols vs x y p q ∧
          ⟨p.1.symbol, q.1.symbol⟩ ∈ linksOf s.ctx.symbols e ∧
          ∀ k, linkOf? s.ctx.symbols (e.entities.map (·.symbol)) k = some ⟨p.1.symbol, q.1.symbol⟩ →
            rewire k = if vs = [] then none else some ⟨k.loc, k.source.dot outputName, k.sinks.map (·.dot inputName)⟩) ∧
      e'.connects = e.connects.filterMap rewire ∧
      (∀ l ∈ linksOf s.ctx.symbols e, ∃ ch ∈ found, ∃ i : Nat, ch[i]? = some l.source ∧ ch[i + 1]? = some l.target) ∧
      ∀ k, linkOf? s.ctx.symbols (e.entities.map (·.symbol)) k = none → rewire k = some k := by
  have hfed : ∀ ch ∈ found, FedChain False _ _ := fun ch hch =>
    h.toStaged.fed (fun x => mem_of_mem_stagesOf) fun _ => hsup ch hch
  obtain ⟨_, _, htransform, c', lowered, rfl, rfl, hlowered⟩ := (transform_pipeline h.toStaged hvars hchains hfed).ends fun _ h => h.1
  obtain ⟨-, hchained⟩ := stageChains_ok hchains
  have hlinks : ∀ l ∈ linksOf s.ctx.symbols e,
      l.source ∈ e.entities.map (·.symbol) ∧ l.target ∈ e.entities.map (·.symbol) := by
    intro l hl
    obtain ⟨k, -, hk⟩ := mem_filterMap.mp hl
    exact mem_of_linkOf? hk
  have hmem : ∀ ch ∈ found, ∀ x ∈ ch, x ∈ e.entities.map (·.symbol) := fun ch hch =>
    mem_stages_of_mem_chain (fun l hl => (hlinks l hl).2) (hchained.all ▸ hch)
  have hnodup : (lowered.map (·.1.symbol)).Nodup := by
    rw [hlowered.symbols, hchained.all]
    exact nodup_chains hchained.linear h.distinct
  refine ⟨_, c', rewire s.ctx.symbols c'.symbols e lowered, htransform, fun ch hch => ?_, rfl, fun l hl => ?_, fun k hk => ?_⟩
  · obtain ⟨ls, hsub, hls⟩ := hlowered.chain ch hch
    have hsymbols : ls.map (·.1.symbol) = ch := by
      rw [hls.symbols_eq, map_symbol_live h.distinct (hmem ch hch)]
    have hstage : ∀ p ∈ ls, p.1.symbol ∈ e.entities.map (·.symbol) := fun p hp =>
      hmem ch hch _ (hsymbols ▸ mem_map_of_mem hp)
    refine ⟨ls, hsymbols, fun p hp => mem_replaced hnodup (hsub p hp) h.distinct (hstage p hp), ?_⟩
    intro i p q hp hq
    obtain ⟨vs, x, y, hvs, hx, hy, hneighbours⟩ := hls.neighbours h.toStaged (fun x => mem_of_mem_stagesOf) hp hq
    have hwidth : ∀ v ∈ vs, (s.ctx.symbols.kind v).underlying.width ≠ 0 := by
      intro v hv hzero
      have hpos := h.width v ((hvs v).mp hv).1
      rw [hzero] at hpos
      exact Int64.lt_irrefl hpos
    refine ⟨vs, x, y, hvs, hx, hy, hneighbours.bus hwidth, ?_, fun k hk => ?_⟩
    · -- the second stage follows the first in the chain, so there is a link
      have hpi : ch[i]? = some p.1.symbol := by rw [← hsymbols, getElem?_map, hp]; rfl
      have hqi : ch[i + 1]? = some q.1.symbol := by rw [← hsymbols, getElem?_map, hq]; rfl
      rw [hchained.all] at hch
      obtain ⟨a, -, -, rfl⟩ := mem_chains.mp hch
      obtain ⟨z, hz, hnext⟩ := chainFrom_prev hqi
      obtain rfl : p.1.symbol = z := Option.some.inj (hpi.symm.trans hz)
      exact mem_of_next? hnext
    · obtain ⟨here, before, hsource, -⟩ := hneighbours.source
      obtain ⟨next, after, htarget, -⟩ := hneighbours.target
      rw [rewire, hk]
      exact rewired_eq hnodup (hsub p (mem_of_getElem? hp)) (hsub q (mem_of_getElem? hq)) hsource.output
        htarget.input k
  · have hcover := hchained.cover
    rw [hchained.all] at hcover ⊢
    exact link_joins_neighbours hchained.linear hlinks hcover hl
  · rw [rewire, hk]

/-! ## A pipeline of three stages -/

namespace ThreeStages

def table : SymbolTable :=
  ⟨#[.value 1 "a" (.pipeline (.uint 8)), .value 2 "b" (.pipeline (.sint 4)), .value 3 "c" (.pipeline (.uint 1)),
    .entity 4 "first" [], .entity 5 "second" [], .entity 6 "third" [], .value 7 "u" (.inst ⟨3⟩), .value 8 "v" (.inst ⟨4⟩),
    .value 9 "w" (.inst ⟨5⟩), .entity 10 "top" []]⟩

def first : Entity where
  loc := {}
  symbol := ⟨3⟩
  stmts := [.assign {} (.ref {} ⟨0⟩) (.num {} false 5), .assign {} (.ref {} ⟨1⟩) (.num {} true (-3)), .write {}]

def second : Entity where
  loc := {}
  symbol := ⟨4⟩
  stmts := [.read {}, .assign {} (.ref {} ⟨2⟩) (.ref {} ⟨1⟩), .write {}]

def third : Entity where
  loc := {}
  symbol := ⟨5⟩
  stmts := [.read {}, .expr {} (.ref {} ⟨0⟩)]

def top : Entity where
  loc := {}
  symbol := ⟨9⟩
  decls := [⟨{}, ⟨0⟩, none⟩, ⟨{}, ⟨1⟩, none⟩, ⟨{}, ⟨2⟩, none⟩]
  entities := [first, second, third]
  instances := [⟨{}, ⟨6⟩, ⟨3⟩⟩, ⟨{}, ⟨7⟩, ⟨4⟩⟩, ⟨{}, ⟨8⟩, ⟨5⟩⟩]
  connects := [⟨{}, .ref {} ⟨6⟩, [.ref {} ⟨7⟩]⟩, ⟨{}, .ref {} ⟨7⟩, [.ref {} ⟨8⟩]⟩]

def session : Session Unit := ⟨{ symbols := table }, ()⟩

theorem top_sound : Sound table top where
  distinct := by decide
  entity x hx := by
    simp only [top, mem_cons, not_mem_nil, or_false] at hx
    rcases hx with rfl | rfl | rfl <;> exact ⟨[], rfl⟩
  refs := by decide
  numbered := by unfold SymbolTable.Numbered; decide
  width := by decide

theorem top_chains : stageChains top session.ctx = .ok (some [[⟨3⟩, ⟨4⟩, ⟨5⟩]]) session.ctx := by rfl

theorem top_supplied : ∀ ch ∈ [[⟨3⟩, ⟨4⟩, ⟨5⟩]], Supplied table top (stagesOf top ch) := by
  rw [forall_mem_singleton]
  change Supplied table top [first, second, third]
  constructor
  · intro i x l hx hread
    match i, hx with
    | 0, hx =>
      obtain rfl := Option.some.inj hx
      simp [first, nodes, nodesList, Stmt.nodesList, Stmt.nodes, Expr.nodes, Expr.subterms] at hread
    | 1, _ => exact ⟨0, rfl, ⟨0⟩, by decide⟩
    | 2, _ => exact ⟨1, rfl, ⟨0⟩, by decide⟩
  · intro i x l hx hwrite
    match i, hx with
    | 0, _ => exact ⟨⟨0⟩, by decide⟩
    | 1, _ => exact ⟨⟨0⟩, by decide⟩
    | 2, hx =>
      obtain rfl := Option.some.inj hx
      simp [third, nodes, nodesList, Stmt.nodesList, Stmt.nodes, Expr.nodes, Expr.subterms] at hwrite

theorem crossing {i : Nat} {vs : List Symbol} (h : ∀ v ∈ pipelined table top, Crosses [first, second, third] i v → v ∈ vs)
    (h' : ∀ v ∈ vs, v ∈ pipelined table top ∧ Crosses [first, second, third] i v) (v : Symbol) :
    v ∈ pipelined table top ∧ Crosses [first, second, third] i v ↔ v ∈ vs := ⟨fun hv => h v hv.1 hv.2, h' v⟩

/-- The first two stages share a bus for both variables of the first, and the last two for the one that the third reads. -/
theorem stages_share_buses : Sound table top ∧ ∃ e' c', pass.transform (.entity top) session =
    .ok (.put (.node (.entity e'))) ⟨c', ()⟩ ∧ ∃ p q r, p ∈ e'.entities ∧ q ∈ e'.entities ∧ r ∈ e'.entities ∧
      ∃ st st' st'', (∃ vs, (∀ v, v ∈ vs ↔ v ∈ [⟨0⟩, ⟨1⟩]) ∧ Bus table c'.symbols vs first second (st, p) (st', q)) ∧
        (∃ vs, (∀ v, v ∈ vs ↔ v ∈ [⟨0⟩]) ∧ Bus table c'.symbols vs second third (st', q) (st'', r)) ∧
        e'.connects = [⟨{}, (Expr.ref {} ⟨6⟩).dot outputName, [(Expr.ref {} ⟨7⟩).dot inputName]⟩,
          ⟨{}, (Expr.ref {} ⟨7⟩).dot outputName, [(Expr.ref {} ⟨8⟩).dot inputName]⟩] := by
  obtain ⟨e', c', rewire, hrun, hchain, hconnects, -, -⟩ :=
    neighbours_share_bus (s := session) top_sound (by decide) top_chains top_supplied
  obtain ⟨ls, hsymbols, hmem, hbus⟩ := hchain _ (mem_singleton_self _)
  obtain ⟨⟨st, p⟩, ⟨st', q⟩, ⟨st'', r⟩, rfl⟩ := length_eq_three.mp (by simpa using congrArg List.length hsymbols)
  simp only [map_cons, map_nil, List.cons.injEq, and_true] at hsymbols
  obtain ⟨hst, hst', hst''⟩ := hsymbols
  obtain ⟨vs, x, y, hvs, hx, hy, hfirst, -, hwire⟩ := hbus 0 _ _ rfl rfl
  obtain ⟨vs', x', y', hvs', hx', hy', hsecond, -, hwire'⟩ := hbus 1 _ _ rfl rfl
  obtain rfl : first = x := Option.some.inj hx
  obtain rfl : second = y := Option.some.inj hy
  obtain rfl : second = x' := Option.some.inj hx'
  obtain rfl : third = y' := Option.some.inj hy'
  have hvs : ∀ v, v ∈ vs ↔ v ∈ [⟨0⟩, ⟨1⟩] := fun v => (hvs v).trans (crossing (by decide) (by decide) v)
  have hvs' : ∀ v, v ∈ vs' ↔ v ∈ [⟨0⟩] := fun v => (hvs' v).trans (crossing (by decide) (by decide) v)
  have hne : vs ≠ [] := ne_nil_of_mem ((hvs ⟨0⟩).mpr (by decide))
  have hne' : vs' ≠ [] := ne_nil_of_mem ((hvs' ⟨0⟩).mpr (by decide))
  refine ⟨top_sound, e', c', hrun, p, q, r, hmem (st, p) (by simp), hmem (st', q) (by simp), hmem (st'', r) (by simp),
    st, st', st'', ⟨vs, hvs, hfirst⟩, ⟨vs', hvs', hsecond⟩, ?_⟩
  simp only [if_neg hne] at hwire
  simp only [if_neg hne'] at hwire'
  rw [hconnects, top, filterMap_cons_some (hwire _ (by rw [hst, hst']; rfl)),
    filterMap_cons_some (hwire' _ (by rw [hst', hst'']; rfl))]
  rfl

end ThreeStages

end HdlLowering.Pipeline
