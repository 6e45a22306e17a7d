import HdlLowering.DesignRules
import HdlLowering.Proofs.Normal.Splitting
import HdlLowering.Proofs.Sequence.Runs

/-!
# Drivers of a normalized design

The passes to normal form give a signal no more rows of the netlist than it had (`drivers_le_of_rounds`), unless a part of it in
a sink is cut between two parts of the source.
-/

namespace HdlLowering

open List Netlist Stmt Tables DesignRules Expr Step

/-- A node that takes no field of, and does not call, a concatenation of which flattening leaves a single part. -/
def Node.Plain : Node → Prop
  | .expr e => e.Plain
  | _ => True

instance (n : Node) : Decidable n.Plain :=
  match n with
  | .expr e => inferInstanceAs (Decidable e.Plain)
  | .root _ | .entity _ | .decl _ | .inst _ | .connect _ | .clause _ | .stmt _ => isTrue trivial

namespace Normal

open Concatenation

variable {Γ : SymbolTable} {signal : String} {c : Connect} {cs : List Connect} {e e' : Entity}
  {K : Connect → List Connect → Prop} {step : Step} {es es' : List Entity}

/-! ## Rows of a signal -/

def connectSignals (Γ : SymbolTable) (cs : List Connect) : List String := cs.flatMap fun c => c.sinks.flatMap (drivenSignals Γ)

def bodySignals (Γ : SymbolTable) (ss : List Stmt) : List String := ((nodesList ss).flatMap (nodeDrives Γ)).map (·.1)

def rows (Γ : SymbolTable) (signal : String) (e : Entity) : Nat :=
  (connectSignals Γ e.connects).count signal + if signal ∈ bodySignals Γ e.stmts then 1 else 0

theorem count_firstDrives (signal : String) (seen : List String) (ds : List (String × Loc)) :
    ((firstDrives seen ds).map (·.1)).count signal = if signal ∈ ds.map (·.1) ∧ signal ∉ seen then 1 else 0 := by
  induction ds generalizing seen with
  | nil => simp [firstDrives]
  | cons d ds ih =>
    obtain ⟨x, l⟩ := d
    rw [firstDrives]
    by_cases hx : x ∈ seen
    · rw [if_pos (contains_iff_mem.mpr hx), ih]
      simp only [map_cons, mem_cons]
      by_cases hsignal : signal = x
      · subst hsignal
        simp only [hx, not_true_eq_false, and_false, if_false]
      · simp only [hsignal, false_or]
    · rw [if_neg (by simpa using hx), map_cons, count_cons, ih]
      simp only [map_cons, mem_cons, beq_iff_eq]
      by_cases hsignal : signal = x
      · subst hsignal
        simp [hx]
      · simp only [hsignal, false_or, Ne.symm hsignal, if_false, Nat.add_zero]

theorem length_filter_rows {name entity : String} {ds : List DriverRow} (h : ∀ d ∈ ds, d.entity = name) :
    (ds.filter fun d => d.entity == entity && d.signal == signal).length =
      if name = entity then (ds.map (·.signal)).count signal else 0 := by
  by_cases hname : name = entity
  · rw [if_pos hname, ← countP_eq_length_filter, count, countP_map]
    refine countP_congr fun d hd => ?_
    simp [h d hd, hname]
  · rw [if_neg hname, length_eq_zero_iff, filter_eq_nil_iff]
    intro d hd
    simp [h d hd, hname]

theorem length_filter_drivers (e : Entity) (entity signal : String) :
    ((ofEntity Γ e).drivers.filter fun d => d.entity == entity && d.signal == signal).length =
      if Γ.name e.symbol = entity then rows Γ signal e else 0 := by
  have hentity : ∀ d ∈ (ofEntity Γ e).drivers, d.entity = Γ.name e.symbol := by
    simp only [ofEntity, connectDrivers, assignDrivers, forall_mem_append, forall_mem_flatMap,
      forall_mem_map, implies_true, and_self]
  have hsignals : (ofEntity Γ e).drivers.map (·.signal) = connectSignals Γ e.connects ++
      (firstDrives [] ((nodesList e.stmts).flatMap (nodeDrives Γ))).map (·.1) := by
    simp only [ofEntity, connectDrivers, assignDrivers, connectSignals, map_append, map_flatMap, map_map,
      Function.comp_def, map_id']
  rw [length_filter_rows hentity, hsignals, count_append, count_firstDrives, rows, bodySignals]
  simp only [not_mem_nil, not_false_eq_true, and_true]

theorem drivers_foldl (ts : List Tables) (t : Tables) :
    (ts.foldl append t).drivers = t.drivers ++ ts.flatMap (·.drivers) := by
  induction ts generalizing t with
  | nil => simp
  | cons u ts ih => rw [foldl_cons, ih, append, flatMap_cons, append_assoc]

/-- A connection gives a signal a row for every part of a sink, and the body one at most. -/
theorem length_driversOf {r : Root} (hflat : ∀ e ∈ r.entities, e.entities = []) (entity signal : String) :
    ∃ t, ofRoot Γ r = .ok t ∧ (driversOf t entity signal).length =
      (r.entities.map fun e => if Γ.name e.symbol = entity then rows Γ signal e else 0).sum := by
  have hfind : r.entities.find? (fun e => !e.entities.isEmpty) = none := by
    rw [find?_eq_none]
    intro e he
    simp [hflat e he]
  refine ⟨_, by rw [ofRoot, hfind], ?_⟩
  simp only [driversOf, drivers_foldl, nil_append, flatMap_map, filter_flatMap, length_flatMap,
    length_filter_drivers]

/-! ## Connections -/

/-- A connection that keeps the parts of a signal in its sinks whole: it takes fields of no concatenation of a single part, and
where two concatenations may be split the parts are kept. -/
structure Steady (Γ : SymbolTable) (signal : String) (c : Connect) : Prop where
  plain : ∀ x ∈ c.sinks, ∀ y ∈ x.subterms, y.Plain
  lasting : ∀ ls ss lt ts, c.flat.source = .cat ls ss → c.flat.sinks = [.cat lt ts] → overlap Γ ts ss = false →
    signal ∈ drivenSignalsList Γ ts → Lasting Γ signal ts ss

theorem signals_flat (h : ∀ x ∈ c.sinks, ∀ y ∈ x.subterms, y.Plain) :
    c.flat.sinks.flatMap (drivenSignals Γ) = c.sinks.flatMap (drivenSignals Γ) := by
  rw [Connect.flat, flatMap_map]
  exact flatMap_congr fun x hx => drivenSignals_flat x (h x hx)

theorem flat_flat_connect (c : Connect) : c.flat.flat = c.flat := by
  simp only [Connect.flat, flat_flat, map_map, Function.comp_def]

theorem steady_flat (h : Steady Γ signal c) : Steady Γ signal c.flat where
  plain := forall_mem_map.mpr fun x _ => plain_of_unnested _ (unnested_flat x)
  lasting := by
    rw [flat_flat_connect]
    exact h.lasting

theorem steady_groups {ls lt : Loc} {ts ss : List Expr} {gs : List Group} (h : Steady Γ signal c)
    (hsource : c.flat.source = .cat ls ss) (hsinks : c.flat.sinks = [.cat lt ts]) (hgs : Regrouped Γ ts ss gs) :
    (∀ g ∈ gs, Steady Γ signal ⟨c.loc, concat g.source, [concat g.target]⟩) ∧
      (gs.flatMap fun g => drivenSignalsList Γ g.target).count signal = (drivenSignalsList Γ ts).count signal := by
  have hwhole : (∀ x ∈ (cat lt ts).subterms, x.Unnested) ∧ ∀ x ∈ (cat ls ss).subterms, x.Unnested := by
    constructor
    · have hmem : cat lt ts ∈ c.flat.sinks := by rw [hsinks]; exact mem_singleton_self _
      obtain ⟨x, -, hx⟩ := mem_map.mp hmem
      exact hx ▸ unnested_flat x
    · exact hsource ▸ unnested_flat c.source
  have hflat := hgs.forall_parts divides_flat divides_flat (parts_of_unnested hwhole.1) (parts_of_unnested hwhole.2)
  have hsignals := hgs.forall_parts (divides_signals (drivenSignalsList Γ ts)) (fun _ _ _ _ _ h => ⟨h, h⟩)
    (fun t ht s hs => by rw [drivenSignalsList_eq]; exact mem_flatMap.mpr ⟨t, ht, hs⟩) (fun _ _ => trivial)
  have hwithin : ∀ g ∈ gs, ∀ s ∈ drivenSignalsList Γ g.target, s ∈ drivenSignalsList Γ ts := by
    intro g hg s hs
    rw [drivenSignalsList_eq] at hs
    obtain ⟨t, ht, hs⟩ := mem_flatMap.mp hs
    exact (hsignals g hg).1 t ht s hs
  have hkept : signal ∈ drivenSignalsList Γ ts → KeptGroups Γ signal ts gs := fun hsignal =>
    (h.lasting ls ss lt ts hsource hsinks hgs.apart hsignal).regrouped hgs
  refine ⟨fun g hg => ⟨?_, ?_⟩, ?_⟩
  · exact forall_mem_singleton.mpr (plain_of_unnested _ (unnested_concat (hflat g hg).1))
  · intro ls' ss' lt' ts' hsource' hsinks' _ hsignal
    rw [Connect.flat, flat_eq_self _ (unnested_concat (hflat g hg).2)] at hsource'
    rw [Connect.flat, map_singleton, flat_eq_self _ (unnested_concat (hflat g hg).1)] at hsinks'
    obtain rfl := parts_of_concat (fun p hp => ((hflat g hg).2 p hp).1) hsource'
    obtain rfl := parts_of_concat (fun p hp => ((hflat g hg).1 p hp).1) (cons.inj hsinks').1
    exact (hkept (hwithin g hg signal hsignal)).lasting hg
  · by_cases hsignal : signal ∈ drivenSignalsList Γ ts
    · exact (hkept hsignal).count
    · rw [count_eq_zero_of_not_mem hsignal, count_eq_zero_of_not_mem]
      intro hmem
      obtain ⟨g, hg, hmem⟩ := mem_flatMap.mp hmem
      exact hsignal (hwithin g hg signal hmem)

/-- Some connections keep the parts of a signal, and give it as many rows as another gives it. -/
def Lasts (Γ : SymbolTable) (signal : String) (c : Connect) (cs : List Connect) : Prop :=
  (∀ c' ∈ cs, Steady Γ signal c') ∧ (connectSignals Γ cs).count signal = (connectSignals Γ [c]).count signal

theorem lasts_of_splits (h : Splits Γ c cs) (hc : Steady Γ signal c) : Lasts Γ signal c cs := by
  have hsame : connectSignals Γ [c.flat] = connectSignals Γ [c] := by
    rw [connectSignals, flatMap_singleton, connectSignals, flatMap_singleton, signals_flat hc.plain]
  rw [Lasts, ← hsame]
  cases h with
  | same => exact ⟨forall_mem_singleton.mpr (steady_flat hc), rfl⟩
  | @groups ls lt ts ss gs hsource hsinks hgs =>
    obtain ⟨hgroups, hcount⟩ := steady_groups hc hsource hsinks hgs
    refine ⟨forall_mem_map.mpr hgroups, ?_⟩
    have hsinkSignals : connectSignals Γ [c.flat] = drivenSignalsList Γ ts := by
      rw [connectSignals, flatMap_singleton, hsinks, flatMap_singleton, drivenSignals]
    have hgroupSignals : connectSignals Γ (gs.map fun g => ⟨c.loc, concat g.source, [concat g.target]⟩) =
        gs.flatMap fun g => drivenSignalsList Γ g.target := by
      rw [connectSignals, flatMap_map]
      refine flatMap_congr fun g _ => ?_
      rw [flatMap_singleton, drivenSignals_concat, drivenSignalsList_eq]
    rw [hsinkSignals, hgroupSignals, hcount]

/-! ## Bodies -/

theorem drivenSignals_of_write {l : Loc} {f : Expr} {as : List Expr} (hplain : ∀ x ∈ (call l f as).subterms, x.Plain) :
    nodeDrives Γ (.expr (.call l f.flat (as.map flat))) = nodeDrives Γ (.expr (.call l f as)) := by
  have hbelow : ∀ x ∈ f.subterms, x.Plain := fun x hx =>
    hplain x (mem_subterms_of_operand (e := .call l f as) mem_cons_self hx)
  cases hcat : f.isCat with
  | true =>
    -- a concatenation that is called is left one, so it is no method
    have hleft := hplain _ (self_mem_subterms _) hcat
    have hnone : ∀ {g : Expr} {bs : List Expr}, g.isCat = true → nodeDrives Γ (.expr (.call l g bs)) = [] := by
      intro g bs hg
      cases g with
      | cat => rfl
      | _ => nomatch hg
    rw [hnone hcat, hnone hleft]
  | false =>
    cases f with
    | cat => nomatch hcat
    | select ls base field =>
      have hbase : drivenSignals Γ base.flat = drivenSignals Γ base := drivenSignals_flat base fun x hx =>
        hbelow x (mem_subterms_of_operand (e := .select ls base field) mem_cons_self hx)
      by_cases hfield : field = "write"
      · subst hfield
        simp only [flat, nodeDrives, hbase]
      · simp [flat, nodeDrives, hfield]
    | _ => rfl

theorem endures_signals (S : List String) : Endures Γ fun k => k.Plain ∧ ∀ d ∈ nodeDrives Γ k, d.1 ∈ S where
  bare n hn := by
    cases n with
    | expr e =>
      cases e with
      | ref | select | call => nomatch hn
      | _ => exact ⟨trivial, nofun⟩
    | stmt s =>
      cases s with
      | assign | read | write => nomatch hn
      | _ => exact ⟨trivial, nofun⟩
    | decl => nomatch hn
    | _ => exact ⟨trivial, nofun⟩
  decl _ _ _ _ _ := ⟨trivial, nofun⟩
  select l b f _ := ⟨fun hcat => (flat_flat b).symm ▸ hcat, nofun⟩
  call l f as h := by
    refine ⟨fun hcat => (flat_flat f).symm ▸ hcat, ?_⟩
    rw [drivenSignals_of_write fun x hx => (h x hx).1]
    exact (h _ (self_mem_subterms _)).2
  flat l x y h hx := by
    refine ⟨trivial, ?_⟩
    simp only [nodeDrives, drivenSignals_flat x fun z hz => (hx z hz).1]
    exact h.2
  assign l x y x' y' h hsignals := by
    refine ⟨trivial, forall_mem_map.mpr fun s hs => ?_⟩
    exact forall_mem_map.mp h.2 s (hsignals s hs)

/-! ## Entities -/

/-- An entity that keeps the parts of a signal whole in its connections, and that takes fields of, and calls, no concatenations of
a single part in its body. -/
structure SteadyIn (Γ : SymbolTable) (signal : String) (e : Entity) : Prop where
  connects : ∀ c ∈ e.connects, Steady Γ signal c
  body : ∀ k ∈ nodesList e.stmts, k.Plain

theorem steady_connects {css : List (List Connect)} (hK : ∀ c cs, K c cs → Steady Γ signal c → Lasts Γ signal c cs)
    (h : Forall₂ K cs css) (hcs : ∀ c ∈ cs, Steady Γ signal c) : (∀ c' ∈ css.flatten, Steady Γ signal c') ∧
      (connectSignals Γ css.flatten).count signal = (connectSignals Γ cs).count signal := by
  induction h with
  | nil => exact ⟨nofun, rfl⟩
  | @cons c ds cs css hc _ ih =>
    rw [forall_mem_cons] at hcs
    obtain ⟨hhead, hcount⟩ := hK _ _ hc hcs.1
    obtain ⟨htail, hcounts⟩ := ih hcs.2
    refine ⟨forall_mem_append.mpr ⟨hhead, htail⟩, ?_⟩
    have hsplit : ∀ xs ys : List Connect, connectSignals Γ (xs ++ ys) = connectSignals Γ xs ++ connectSignals Γ ys :=
      fun xs ys => flatMap_append
    rw [flatten_cons, hsplit, count_append, hcount, hcounts, ← count_append, ← hsplit]
    rfl

theorem rows_le (hK : ∀ c cs, K c cs → Steady Γ signal c → Lasts Γ signal c cs) (h : Normalized Γ K e e')
    (he : SteadyIn Γ signal e) : SteadyIn Γ signal e' ∧ rows Γ signal e' ≤ rows Γ signal e := by
  obtain ⟨css, hcss, hconnects⟩ := h.connects
  obtain ⟨hsteady, hcount⟩ := steady_connects hK hcss he.connects
  rw [← hconnects] at hsteady hcount
  have hbody := h.body _ (endures_signals (bodySignals Γ e.stmts)) fun k hk => ⟨he.body k hk, fun d hd =>
    mem_map_of_mem (mem_flatMap.mpr ⟨k, hk, hd⟩)⟩
  have hsignals : signal ∈ bodySignals Γ e'.stmts → signal ∈ bodySignals Γ e.stmts := by
    intro hsignal
    obtain ⟨d, hd, rfl⟩ := mem_map.mp hsignal
    obtain ⟨k, hk, hd⟩ := mem_flatMap.mp hd
    exact (hbody k hk).2 d hd
  refine ⟨⟨hsteady, fun k hk => (hbody k hk).1⟩, ?_⟩
  rw [rows, rows, hcount]
  refine Nat.add_le_add_left ?_ _
  by_cases hsignal : signal ∈ bodySignals Γ e'.stmts
  · rw [if_pos hsignal, if_pos (hsignals hsignal)]
  · rw [if_neg hsignal]
    exact Nat.zero_le _

/-! ## Designs -/

def splitting (Γ : SymbolTable) : Step → Connect → List Connect → Prop
  | .concatenation => Splits Γ
  | _ => fun c cs => cs = [c]

theorem splitting_lasts (h : splitting Γ step c cs) (hc : Steady Γ signal c) : Lasts Γ signal c cs := by
  have hkept : cs = [c] → Lasts Γ signal c cs := by
    rintro rfl
    exact ⟨forall_mem_singleton.mpr hc, rfl⟩
  cases step with
  | concatenation => exact lasts_of_splits h hc
  | _ => exact hkept h

theorem run_normalizing {c : Context} {r : Root} {root? : Option Root} (hstep : step ∈ normalizing)
    (h : (step.run {} c r).result = .ok root?) : (step.run {} c r).ctx.symbols = c.symbols ∧
      Forall₂ (Normalized c.symbols (splitting c.symbols step)) r.entities (root?.getD r).entities := by
  simp only [normalizing, mem_cons, not_mem_nil, or_false] at hstep
  rcases hstep with rfl | rfl | rfl
  · obtain ⟨s, hrun, hctx⟩ := of_outcome_ok h
    obtain ⟨hsymbols, hnormal⟩ := run_normalizes hrun
    exact ⟨(congrArg Context.symbols hctx).trans hsymbols, hnormal⟩
  · obtain ⟨s, hrun, hctx⟩ := of_outcome_ok h
    obtain ⟨hsymbols, hnormal⟩ := Folding.run_normalizes hrun
    exact ⟨(congrArg Context.symbols hctx).trans hsymbols, hnormal⟩
  · obtain ⟨s, hrun, hctx⟩ := of_outcome_ok h
    obtain ⟨hsymbols, hnormal⟩ := Blocks.run_normalizes hrun
    exact ⟨(congrArg Context.symbols hctx).trans hsymbols, hnormal⟩

/-- A flat entity that stands for another: if it has a name, it keeps the parts of a signal, which has no more rows in it. -/
structure Follows (Γ : SymbolTable) (entity signal : String) (e e' : Entity) : Prop where
  symbol : e'.symbol = e.symbol
  nested : e'.entities = []
  rows : Γ.name e.symbol = entity → SteadyIn Γ signal e' ∧ rows Γ signal e' ≤ rows Γ signal e

theorem follows_normalized {entity : String} {es es' es'' : List Entity}
    (h : Forall₂ (Follows Γ entity signal) es es') (hnormal : Forall₂ (Normalized Γ (splitting Γ step)) es' es'') :
    Forall₂ (Follows Γ entity signal) es es'' := by
  induction h generalizing es'' with
  | nil =>
    cases hnormal
    exact .nil
  | cons he _ ih =>
    cases hnormal with
    | cons hn hns =>
      refine .cons ⟨hn.symbol.trans he.symbol, hn.nested he.nested, fun hname => ?_⟩ (ih hns)
      obtain ⟨hsteady, hle⟩ := he.rows hname
      obtain ⟨hsteady', hle'⟩ := rows_le (fun _ _ => splitting_lasts) hn hsteady
      exact ⟨hsteady', Nat.le_trans hle' hle⟩

theorem nested_of_follows {entity : String} (h : Forall₂ (Follows Γ entity signal) es es') : ∀ e ∈ es', e.entities = [] := by
  induction h with
  | nil => exact nofun
  | cons he _ ih => exact forall_mem_cons.mpr ⟨he.nested, ih⟩

theorem sum_rows_le {entity : String} (h : Forall₂ (Follows Γ entity signal) es es') :
    (es'.map fun e => if Γ.name e.symbol = entity then rows Γ signal e else 0).sum ≤
      (es.map fun e => if Γ.name e.symbol = entity then rows Γ signal e else 0).sum := by
  induction h with
  | nil => exact Nat.le_refl _
  | cons he _ ih =>
    rw [map_cons, map_cons, sum_cons, sum_cons, he.symbol]
    refine Nat.add_le_add ?_ ih
    split
    · exact (he.rows ‹_›).2
    · exact Nat.le_refl _

/-- Rounds of the passes to normal form give a signal of a flat design no more driver rows than it had, when the entities of that
name keep its parts. -/
theorem drivers_le_of_rounds {c c' : Context} {r r' : Root} (rounds : Nat) (entity signal : String)
    (hflat : ∀ e ∈ r.entities, e.entities = [])
    (hsteady : ∀ e ∈ r.entities, c.symbols.name e.symbol = entity → SteadyIn c.symbols signal e)
    (hrun : lower? (List.replicate rounds normalizing).flatten c r = some (c', r')) :
    ∃ t t', Tables.ofRoot c.symbols r = .ok t ∧ Tables.ofRoot c'.symbols r' = .ok t' ∧
      (driversOf t' entity signal).length ≤ (driversOf t entity signal).length := by
  have hfirst : Forall₂ (Follows c.symbols entity signal) r.entities r.entities :=
    forall₂_same.mpr fun e he => ⟨rfl, hflat e he, fun hname => ⟨hsteady e he hname, Nat.le_refl _⟩⟩
  obtain ⟨hsymbols, hfollows⟩ : c'.symbols = c.symbols ∧
      Forall₂ (Follows c.symbols entity signal) r.entities r'.entities := by
    refine lower?_induction (motive := fun c1 r1 => c1.symbols = c.symbols ∧
      Forall₂ (Follows c.symbols entity signal) r.entities r1.entities) hrun ⟨rfl, hfirst⟩ ?_
    intro step hstep c1 r1 root? hresult ⟨hsymbols, hfollows⟩
    obtain ⟨_, hround, hstep⟩ := mem_flatten.mp hstep
    rw [eq_of_mem_replicate hround] at hstep
    obtain ⟨hsame, hnormal⟩ := run_normalizing hstep hresult
    rw [hsymbols] at hsame hnormal
    exact ⟨hsame, follows_normalized hfollows hnormal⟩
  obtain ⟨t, ht, hlength⟩ := length_driversOf (Γ := c.symbols) hflat entity signal
  obtain ⟨t', ht', hlength'⟩ := length_driversOf (Γ := c.symbols) (nested_of_follows hfollows) entity signal
  refine ⟨t, t', ht, hsymbols ▸ ht', ?_⟩
  rw [hlength, hlength']
  exact sum_rows_le hfollows

/-! ## Parts that end together, and a part that is cut -/

namespace Joined

def table : SymbolTable :=
  ⟨#[.value 1 "a" (.uint 2), .value 2 "b" (.uint 4), .value 3 "x" (.uint 1), .value 4 "y" (.uint 1), .value 5 "z" (.uint 4),
    .entity 6 "top" []]⟩

def context : Context := { symbols := table }

def targets : List Expr := [.ref {} ⟨0⟩, .ref {} ⟨1⟩]

def sources : List Expr := [.ref {} ⟨2⟩, .ref {} ⟨3⟩, .ref {} ⟨4⟩]

/-- Two bits and four more go to two variables, and the body assigns the second bit under a condition that is known. -/
def entity : Entity where
  loc := {}
  symbol := ⟨5⟩
  connects := [⟨{}, .cat {} sources, [.cat {} [.cat {} targets]]⟩]
  stmts := [.block {} [.cond {} (.num {} false 1) [.assign {} (.ref {} ⟨3⟩) (.num {} false 0)] []]]

def design : Root := ⟨{}, [entity]⟩

theorem kept : Kept table "a" targets sources := by
  intro pre t spre hpre hsignal _ _ _ _
  rw [targets, prefix_cons_iff] at hpre
  rcases hpre with hpre | ⟨us, hpre, hus⟩
  · exact absurd hpre (by simp)
  rcases pre with _ | ⟨p, pre⟩
  · obtain ⟨rfl, rfl⟩ : t = .ref {} ⟨0⟩ ∧ us = [] := by simpa [eq_comm] using hpre
    -- the two bits of the variable are the first two parts of the source
    exact ⟨[.ref {} ⟨2⟩, .ref {} ⟨3⟩], ⟨[.ref {} ⟨4⟩], rfl⟩, by decide⟩
  · obtain ⟨rfl, rfl⟩ : p = .ref {} ⟨0⟩ ∧ pre ++ [t] = us := by simpa using hpre
    rw [prefix_cons_iff] at hus
    rcases hus with hus | ⟨vs, hus, hvs⟩
    · exact absurd hus (by simp)
    obtain rfl := prefix_nil.mp hvs
    obtain ⟨rfl, rfl⟩ : pre = [] ∧ t = .ref {} ⟨1⟩ := by simpa [append_eq_singleton_iff] using hus
    exact absurd hsignal (by decide)

theorem steady : SteadyIn table "a" entity where
  connects := by
    refine forall_mem_singleton.mpr ⟨by decide, ?_⟩
    rintro ls ss lt ts ⟨⟩ ⟨⟩ _ _
    exact ⟨⟨by decide, by decide⟩, ⟨by decide, by decide⟩, by decide, kept⟩
  body := by decide

/-- The connection is split after the two bits, and the variable that takes them has a single row still. -/
theorem joined_drivers_le : ∃ c' r', lower? (List.replicate 2 normalizing).flatten context design = some (c', r') ∧
    ∃ t t', Tables.ofRoot table design = .ok t ∧ Tables.ofRoot c'.symbols r' = .ok t' ∧
      (driversOf t' "top" "a").length ≤ (driversOf t "top" "a").length := by
  have hsome : (lower? (replicate 2 normalizing).flatten context design).isSome = true := by decide +kernel
  obtain ⟨⟨c', r'⟩, hrun⟩ := Option.isSome_iff_exists.mp hsome
  exact ⟨c', r', hrun, drivers_le_of_rounds 2 "top" "a" (by decide)
    (forall_mem_singleton.mpr fun _ => steady) hrun⟩

end Joined

namespace CutSink

def table : SymbolTable :=
  ⟨#[.value 1 "a" (.uint 2), .value 2 "b" (.uint 3), .value 3 "c" (.uint 1), .value 4 "d" (.uint 4), .entity 5 "top" []]⟩

def context : Context := { symbols := table }

def design : Root :=
  ⟨{}, [⟨{}, ⟨4⟩, [], [], [], [⟨{}, .cat {} [.ref {} ⟨2⟩, .ref {} ⟨3⟩], [.cat {} [.ref {} ⟨0⟩, .ref {} ⟨1⟩]]⟩], []⟩]⟩

def rowCount (Γ : SymbolTable) (r : Root) (entity signal : String) : Option Nat :=
  match ofRoot Γ r with
  | .ok t => some (driversOf t entity signal).length
  | .error _ => none

/-- The first bit of the variable comes from one part of the source and the second from the other, so a row becomes two. -/
theorem two_rows_of_one : rowCount table design "top" "a" = some 1 ∧
    (lower? normalizing context design).map (fun x => rowCount x.1.symbols x.2 "top" "a") = some (some 2) :=
  ⟨by decide, by decide +kernel⟩

end CutSink

end Normal

end HdlLowering
