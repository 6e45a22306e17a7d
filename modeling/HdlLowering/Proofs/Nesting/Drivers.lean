import HdlLowering.Proofs.Nesting.Ports

/-!
# Outputs that lifting drives

Users of an output are counted once for each entity that refers to it, while wires to it are added for each instance and each
level of nesting. What a frame owes for an output grows by no more than its users (`Grown.balance`). So without a report no
symbol is driven by two of the new wires, as long as an entity that drives an output from inside has one instance
(`lifted_drivers_single`). Of the design only that is known which reading it guarantees (`Root.Resolved`).
-/

namespace HdlLowering

open List Connect Node Nesting

/-! ## Designs that were read -/

variable (Γ : SymbolTable)

/-- An entity that was read: it declares and refers to symbols of the table, and its own symbol stands for an entity. -/
structure Entity.Resolved (e : Entity) : Prop where
  references : ∀ u ∈ references e.ownNodes, u.symbol ∈ Γ.all
  decls : ∀ d ∈ e.decls, d.symbol ∈ Γ.all
  symbol : e.symbol ∈ Γ.all
  kind : isEntity (Γ.kind e.symbol) = true

/-- A design that was read: numbers tell the symbols of the table apart, recorded values refer to symbols of the table, and so
do the entities. -/
structure Root.Resolved (r : Root) : Prop where
  numbered : Γ.Numbered Γ.all
  inits : ∀ x ∈ Γ.all, ∀ init, Γ.init x = some init → ∀ u ∈ references init.nodes, u.symbol ∈ Γ.all
  entities : ∀ e ∈ r.allEntities, e.Resolved Γ

instance (Γ : SymbolTable) (e : Entity) : Decidable (e.Resolved Γ) :=
  decidable_of_iff ((∀ u ∈ references e.ownNodes, u.symbol ∈ Γ.all) ∧ (∀ d ∈ e.decls, d.symbol ∈ Γ.all) ∧
    e.symbol ∈ Γ.all ∧ isEntity (Γ.kind e.symbol) = true)
    ⟨fun ⟨hrefs, hdecls, hsymbol, hkind⟩ => ⟨hrefs, hdecls, hsymbol, hkind⟩, fun h => ⟨h.references, h.decls, h.symbol, h.kind⟩⟩

instance (Γ : SymbolTable) (r : Root) : Decidable (r.Resolved Γ) :=
  decidable_of_iff ((∀ x ∈ Γ.all, ∀ y ∈ Γ.all, Γ.id x = Γ.id y → x = y) ∧
    (∀ x ∈ Γ.all, ∀ init ∈ Γ.init x, ∀ u ∈ references init.nodes, u.symbol ∈ Γ.all) ∧ ∀ e ∈ r.allEntities, e.Resolved Γ)
    ⟨fun ⟨hnumbered, hinits, hentities⟩ => ⟨hnumbered, hinits, hentities⟩, fun h => ⟨h.numbered, h.inits, h.entities⟩⟩

/-! ## Outputs that nested entities drive -/

def Kind.isOutput : Kind → Bool
  | .output .. => true
  | _ => false

/-- Inside an entity, among others whose ports and constants are known, no output is driven through several instances of one
nested entity. -/
inductive Entity.SinglyDriven : List Symbol → Entity → Prop where
  | intro {outer : List Symbol} {e : Entity}
    (once : ∀ c ∈ e.entities, ∀ x ∈ e.exports Γ ++ outer, (Γ.kind x).isOutput = true → c.Reaches Γ x →
      (e.instances.filter (·.entity == c.symbol)).length ≤ 1)
    (nested : ∀ c ∈ e.entities, SinglyDriven (e.exports Γ ++ outer) c) : SinglyDriven outer e

def Connect.drives (y : Symbol) (c : Connect) : Bool := c.sinks.any (Expr.isRefTo y)

namespace Nesting

open Substitution (keys targets)

variable {D : Setting} {E : List (List Symbol)} {e e' : Entity} {es out nested : List Entity} {f f' : Frame}
  {s s1 s2 s3 s' : Session State}

theorem isOutput_congr {k k' : Kind} (h : asWire k = asWire k') : k.isOutput = k'.isOutput :=
  congr_asWire (fun k => by cases k <;> rfl) h

theorem isExclusive_of_isOutput {k : Kind} (h : k.isOutput = true) : isExclusive k = true := by
  cases k <;> first | rfl | nomatch h

theorem drives_wireBetween {k : Kind} (hport : k.isPort = true) (i : Instance) (port : String) (y y' : Symbol) :
    (wireBetween k i port y).drives y' = (k.isOutput && y == y') := by
  cases k <;> simp_all [wireBetween, drives, Expr.isRefTo, Expr.dot, Kind.isOutput, Kind.isPort]

theorem length_flatMap_le_countP {α β : Type} {q : α → Bool} {g : α → List β} : ∀ {l : List α},
    (∀ a ∈ l, (g a).length ≤ if q a then 1 else 0) → (l.flatMap g).length ≤ l.countP q
  | [], _ => Nat.le_refl _
  | a :: l, h => by
    have hhead := h a mem_cons_self
    have htail := length_flatMap_le_countP fun b hb => h b (mem_cons_of_mem a hb)
    rw [flatMap_cons, length_append, countP_cons]
    omega

/-- A frame that owes one wire for each output, to one instance, drives every symbol at most once: wires from the same symbol
are for the same output. -/
theorem Framed.single {c : Context} {outer own : List Symbol} (h : Framed D c outer f own) (hown : ∀ x ∈ own, D.shared x)
    (hD : D.Listed) {instances : List Instance}
    (howed : ∀ x, (D.table.kind x).isOutput = true → owed c.symbols f x ≤ 1)
    (honce : ∀ o ∈ f.obligations, ∀ x, c.symbols.liftedFrom o.port = some x → (D.table.kind x).isOutput = true →
      (instances.filter (·.entity == o.child)).length ≤ 1) (y : Symbol) :
    ((f.obligations.flatMap (obligedConnects c.symbols instances)).filter (drives y)).length ≤ 1 := by
  let q (o : Obligation) : Bool := (c.symbols.kind o.port).isOutput && o.source == y
  have hnew : ∀ {x a}, Alias D c x a → asWire (c.symbols.kind a) = asWire (D.table.kind x) := fun halias =>
    halias.kind (halias.not_entity hD)
  have hwires : ∀ o ∈ f.obligations,
      ((obligedConnects c.symbols instances o).filter (drives y)).length ≤ if q o then 1 else 0 := by
    intro o ho
    obtain ⟨x, hx, hconst, halias, -, -⟩ := h.obligations o ho
    have hport : (c.symbols.kind o.port).isPort = true := by
      have hexported := (D.shares hx).2
      rw [← exported_congr (hnew halias), exported, isConst_congr (hnew halias), hconst, Bool.or_false] at hexported
      exact hexported
    rw [Nesting.obligedConnects_eq, filter_map, length_map]
    by_cases hq : q o = true
    · rw [if_pos hq]
      refine Nat.le_trans (length_filter_le _ _) (honce o ho x halias.lifted ?_)
      rw [← isOutput_congr (hnew halias)]
      exact (Bool.and_eq_true_iff.mp hq).1
    · have hnone : (drives y ∘ fun i => wireBetween (c.symbols.kind o.port) i (c.symbols.name o.port) o.source) =
          fun _ => false := by
        funext i
        rw [Function.comp_apply, drives_wireBetween hport]
        exact Bool.not_eq_true _ ▸ hq
      simp [hnone]
  rw [filter_flatMap]
  refine Nat.le_trans (length_flatMap_le_countP hwires) ?_
  by_cases hany : ∃ o ∈ f.obligations, q o = true
  · obtain ⟨o, ho, hq⟩ := hany
    obtain ⟨x, -, -, halias, hcovers, hsource⟩ := h.obligations o ho
    obtain ⟨houtput, hy⟩ := Bool.and_eq_true_iff.mp hq
    rw [isOutput_congr (hnew halias)] at houtput
    refine Nat.le_trans (countP_mono_left fun o' ho' hq' => ?_) (howed x houtput)
    obtain ⟨x', -, -, halias', hcovers', hsource'⟩ := h.obligations o' ho'
    have hy' := (Bool.and_eq_true_iff.mp hq').2
    have heq : source own f.aliases x' = source own f.aliases x := by
      rw [← hsource, ← hsource', beq_iff_eq.mp hy, beq_iff_eq.mp hy']
    rw [halias'.lifted, h.source_inj hown hcovers' hcovers heq]
    exact beq_self_eq_true _
  · have hzero : f.obligations.countP q = 0 := countP_eq_zero.mpr fun o ho hq => hany ⟨o, ho, hq⟩
    omega

/-! ## Connections that lifting adds -/

/-- An entity with its references renamed and with more connections, no two of which drive the same symbol. -/
def DrivenOnce (e e' : Entity) : Prop := ∃ m new, e'.symbol = e.symbol ∧ e'.connects = e.connects.map (Connect.renamed m) ++ new ∧
  ∀ y, (new.filter (Connect.drives y)).length ≤ 1

theorem Lifted.drivenOnce (h : Lifted D E e s f s1 nested s2 f' e' s3) (hD : D.Listed) (hdriven : e.SinglyDriven D.table E.flatten)
    (husers : ∀ x, (usersOf s2.own.users x).length ≤ 1) : DrivenOnce e e' := by
  obtain ⟨once, -⟩ := hdriven
  obtain ⟨decls, c, -, hstays, rfl⟩ := h.result
  refine ⟨f'.aliases, _, rfl, rfl, fun y => ?_⟩
  have hwires := h.framed.obligedConnects_eq (D.widen hstays fun _ h => h.elim) hD e.instances
  change (List.filter _ (f'.obligations.flatMap (obligedConnects c.symbols e.instances))).length ≤ 1
  rw [hwires]
  refine h.framed.single (fun x hx => h.amid.visible x (mem_append_left _ hx)) hD (fun x houtput => ?_)
    (fun o ho x hlifted houtput => ?_) y
  · have howed := h.grown.balance x (isExclusive_of_isOutput houtput)
    have hnone : owed s1.ctx.symbols f x = 0 := by rw [owed, h.entered.obligations]; rfl
    have hone := husers x
    omega
  · obtain ⟨more, hmore, hnew⟩ := h.grown.obligations
    rw [hmore, h.entered.obligations, nil_append] at ho
    obtain ⟨c, hc, hchild, x', hx', hlifted', hreaches⟩ := hnew o ho
    obtain rfl : x' = x := Option.some.inj (hlifted'.symm.trans hlifted)
    rw [hchild]
    exact once c hc x' hx' houtput hreaches

theorem Levels.drivenOnce (hD : D.Listed) (h : Levels D E es s out s') : (∀ e ∈ es, e.SinglyDriven D.table E.flatten) →
    s.ctx.reporter.errorCount ≤ s'.ctx.reporter.errorCount ∧ (s'.ctx.reporter.errorCount = s.ctx.reporter.errorCount →
      (E ≠ [] → ∀ x, (usersOf s'.own.users x).length ≤ 1) →
        Forall₂ DrivenOnce (entities (Entity.nodesList es)) out) := by
  induction h with
  | nil => exact fun _ => ⟨Nat.le_refl _, fun _ _ => .nil⟩
  | @cons E e e' es nested rest f f' s s1 s2 s3 s' here inside after ih ih' =>
    intro hdriven
    have hhere := hdriven e mem_cons_self
    obtain ⟨-, hinside⟩ := id hhere
    obtain ⟨hle, hafter⟩ := ih' fun c hc => hdriven c (mem_cons_of_mem _ hc)
    have hall : (∀ x, (usersOf s2.own.users x).length ≤ 1) → s'.ctx.reporter.errorCount = s3.ctx.reporter.errorCount →
        (E ≠ [] → ∀ x, (usersOf s'.own.users x).length ≤ 1) →
          Forall₂ DrivenOnce (entities (Entity.nodesList (e :: es))) (e' :: nested ++ rest) := by
      intro husers2 hnone husers
      rw [entities_nodesList_cons]
      have hnested := (ih hinside).2 (by rw [here.grown.reporter]) fun _ => husers2
      exact .cons (here.drivenOnce hD hhere husers2) (rel_append hnested (hafter hnone husers))
    cases E with
    | nil =>
      obtain ⟨-, errors, single⟩ := here.outermost
      exact ⟨Nat.le_trans errors hle, fun hnone husers => hall (single (by omega)) (by omega) husers⟩
    | cons own E =>
      obtain ⟨p, F, hframes⟩ := here.before.exists_frame
      obtain ⟨p', frames3, -, husers3, hgrown⟩ := here.grows hframes
      obtain ⟨_, -, hmore⟩ := after.grown rfl frames3
      have hsame := congrArg Reporter.errorCount hgrown.reporter
      refine ⟨hsame ▸ hle, fun hnone husers => hall (fun x => ?_) (hnone.trans hsame.symm) husers⟩
      rw [← husers3]
      exact Nat.le_trans (hmore.users x).length_le (husers (cons_ne_nil _ _) x)

theorem mem_references_of_init {d : Decl} {init : Expr} {u : Use} (hd : d ∈ e.decls) (hinit : d.init = some init)
    (hu : u ∈ references init.nodes) : u ∈ references e.ownNodes := by
  rw [Entity.references_ownNodes, mem_append, references_flatMap]
  refine Or.inl (mem_flatMap.mpr ⟨d, hd, ?_⟩)
  rw [Decl.nodes, hinit]
  exact hu

/-- When a run of the pass over a design that was read reports nothing, no symbol is driven by two of the connections that the
pass added to an entity, unless an output is driven through several instances of one nested entity. -/
theorem lifted_drivers_single {r : Root} {c : Context} (hread : r.Resolved c.symbols)
    (hdriven : ∀ e ∈ r.entities, e.SinglyDriven c.symbols []) :
    Yields (c.checkTrees = true) (fun out s' => s'.ctx.reporter.errorCount = c.reporter.errorCount →
      Forall₂ DrivenOnce r.allEntities (out.getD r).entities) (pass.run r ⟨c, {}⟩) := by
  let c0 : Context := { c with reporter := { c.reporter with pass := pass.name } }
  let D : Setting := setting c0 r (· ∈ c.symbols.all) SymbolTable.mem_all.mp (fun hx hy => hread.numbered _ hx _ hy)
    (fun {x} _ hx => by
      obtain ⟨e, he, rfl⟩ := mem_map.mp hx
      exact (hread.entities e he).kind)
    (fun e he => (hread.entities e he).decls) fun e he d hd _ init hinit u hu => by
      rcases hinit with hinit | hinit
      · exact (hread.entities e he).references u (mem_references_of_init hd hinit hu)
      · exact hread.inits _ ((hread.entities e he).decls d hd) init hinit u hu
  have hD : D.Listed := by
    intro x hx
    obtain ⟨e, he, rfl⟩ := mem_map.mp hx
    exact SymbolTable.mem_all.mp (hread.entities e he).symbol
  have hreads : D.ReadsAll r.entities := fun e he => by
    rw [← Root.allEntities_eq] at he
    exact ⟨(hread.entities e he).references,
      fun d hd => ⟨(hread.entities e he).decls d hd, Or.inr ⟨e, he, d, hd, rfl, rfl⟩⟩, fun x hx => ⟨e, he, hx⟩,
      mem_map_of_mem he⟩
  refine (run_lifting r c {}).mono fun out s' h => ?_
  have hlevels := (h.levels (D := D) (E := []) ⟨.refl _ _ _ _, .nil, nofun⟩ hreads).1
  rw [Root.allEntities_eq]
  exact fun hnone => (hlevels.drivenOnce hD hdriven).2 hnone fun hE => absurd rfl hE

/-! ## An output that a nested entity drives -/

namespace SharedOutput

/-- An output and an input, four entities and their instances. -/
def table : SymbolTable :=
  ⟨#[.value 1 "x" (.output (.uint 8) .none .reg), .value 2 "a" (.input (.uint 8) .none), .entity 3 "top" [⟨0⟩, ⟨1⟩],
    .entity 4 "mid" [], .entity 5 "leaf" [], .entity 6 "tap" [], .value 7 "m" (.inst ⟨3⟩), .value 8 "l1" (.inst ⟨4⟩),
    .value 9 "l2" (.inst ⟨4⟩), .value 10 "t1" (.inst ⟨5⟩), .value 11 "t2" (.inst ⟨5⟩)]⟩

def leaf : Entity := { loc := {}, symbol := ⟨4⟩, stmts := [.assign {} (.ref {} ⟨0⟩) (.num {} false 1)] }

def tap : Entity := { loc := {}, symbol := ⟨5⟩, stmts := [.expr {} (.ref {} ⟨1⟩)] }

variable (leaves : List Instance)

def mid : Entity := { loc := {}, symbol := ⟨3⟩, entities := [leaf], instances := leaves }

def top : Entity :=
  { loc := {}, symbol := ⟨2⟩, decls := [⟨{}, ⟨0⟩, none⟩, ⟨{}, ⟨1⟩, none⟩], entities := [mid leaves, tap],
    instances := [⟨{}, ⟨6⟩, ⟨3⟩⟩, ⟨{}, ⟨9⟩, ⟨5⟩⟩, ⟨{}, ⟨10⟩, ⟨5⟩⟩] }

def design : Root := { entities := [top leaves] }

def one : List Instance := [⟨{}, ⟨7⟩, ⟨4⟩⟩]

def two : List Instance := [⟨{}, ⟨7⟩, ⟨4⟩⟩, ⟨{}, ⟨8⟩, ⟨4⟩⟩]

theorem one_singlyDriven : ∀ e ∈ (design one).entities, e.SinglyDriven table [] := by
  have hleaf : ∀ outer, leaf.SinglyDriven table outer := fun _ => .intro nofun nofun
  have htap : ∀ outer, tap.SinglyDriven table outer := fun _ => .intro nofun nofun
  have hmid : ∀ outer, (mid one).SinglyDriven table outer := by
    refine fun outer => .intro (fun c hc x _ _ _ => ?_) fun c hc => ?_
    · rw [mem_singleton.mp hc]
      decide
    · rw [mem_singleton.mp hc]
      exact hleaf _
  intro e he
  rw [mem_singleton.mp he]
  refine .intro (fun c hc x _ houtput hreaches => ?_) fun c hc => ?_
  · rcases mem_pair.mp hc with rfl | rfl
    · decide
    · -- it has two instances, but it only reads the input
      cases hreaches with
      | refers hu hsymbol =>
        obtain rfl := mem_singleton.mp hu
        subst hsymbol
        nomatch houtput
      | nested hc => nomatch hc
  · rcases mem_pair.mp hc with rfl | rfl
    · exact hmid _
    · exact htap _

def drivers (r : Root) (y : Symbol) : Option (Nat × List Nat) :=
  match pass.run r ⟨{ symbols := table }, {}⟩ with
  | .ok out s' => some (s'.ctx.reporter.errorCount, (out.getD r).entities.map fun e => (e.connects.filter (drives y)).length)
  | .error _ _ => none

theorem of_drivers {r : Root} {y : Symbol} {n : Nat} {ns : List Nat} (h : drivers r y = some (n, ns)) : ∃ out s',
    pass.run r ⟨{ symbols := table }, {}⟩ = .ok out s' ∧ s'.ctx.reporter.errorCount = n ∧
      (out.getD r).entities.map (fun e => (e.connects.filter (drives y)).length) = ns := by
  unfold drivers at h
  cases hrun : pass.run r ⟨{ symbols := table }, {}⟩ with
  | ok out s' =>
    rw [hrun] at h
    cases h
    exact ⟨out, s', rfl, rfl, rfl⟩
  | error a s' =>
    rw [hrun] at h
    nomatch h

/-- The output is driven by one wire on each level, and the two instances of the entity that reads the input do not matter. -/
theorem one_drivenOnce : (design one).Resolved table ∧ ∃ out s', pass.run (design one) ⟨{ symbols := table }, {}⟩ = .ok out s' ∧
    s'.ctx.reporter.errorCount = 0 ∧ Forall₂ DrivenOnce (design one).allEntities (out.getD (design one)).entities := by
  have hresolved : (design one).Resolved table := by decide
  obtain ⟨out, s', hrun, herrors, -⟩ := of_drivers (show drivers (design one) ⟨0⟩ = some (0, [1, 0, 0, 0]) by decide +kernel)
  have hsingle := (lifted_drivers_single (r := design one) (c := { symbols := table }) hresolved one_singlyDriven).of_ok hrun
  exact ⟨hresolved, out, s', hrun, herrors, hsingle herrors⟩

/-- Nothing is reported, but both instances of the innermost entity drive the alias of the output. -/
theorem two_drive : (design two).Resolved table ∧ ∃ out s', pass.run (design two) ⟨{ symbols := table }, {}⟩ = .ok out s' ∧
    s'.ctx.reporter.errorCount = 0 ∧ ¬Forall₂ DrivenOnce (design two).allEntities (out.getD (design two)).entities := by
  obtain ⟨out, s', hrun, herrors, hdrivers⟩ := of_drivers (show drivers (design two) ⟨12⟩ = some (0, [0, 2, 0, 0]) by decide +kernel)
  refine ⟨by decide, out, s', hrun, herrors, fun hsingle => ?_⟩
  -- nothing was connected before, so all connections were added
  have hbefore : ∀ e ∈ (design two).allEntities, e.connects = [] := by
    simp [Root.allEntities_eq, design, top, mid, leaf, tap]
  have hafter : Forall₂ (fun _ n => n ≤ 1) (design two).allEntities [0, 2, 0, 0] := by
    rw [← hdrivers, forall₂_map_right_iff]
    refine forall₂_iff_zip.mpr ⟨hsingle.length_eq, fun {e e'} hmem => ?_⟩
    obtain ⟨m, new, -, hconnects, hnew⟩ := (forall₂_iff_zip.mp hsingle).2 hmem
    rw [hconnects, hbefore e (of_mem_zip hmem).1]
    exact hnew ⟨12⟩
  obtain ⟨_, _, -, hrest, -⟩ := forall₂_cons_right_iff.mp hafter
  obtain ⟨_, _, hle, -, -⟩ := forall₂_cons_right_iff.mp hrest
  omega

end SharedOutput

end Nesting

end HdlLowering
