import HdlLowering.Proofs.Nesting.Flattening

/-!
# Ports are wired through every level

When an entity refers to a port several levels around it, every level in between gets one alias of the port, and every instance
on the way is wired to what stands for it one level up (`ports_wired_through`). Without a report of several users, the storage
of an output ends up in the entity that drives it.
-/

namespace HdlLowering

open List Node Entity Connect

/-! ## Wires between an instance and a symbol -/

def Expr.isPin (inst : Symbol) (port : String) : Expr → Bool
  | .select _ (.ref _ s) f => s == inst && f == port
  | _ => false

def Expr.isRefTo (y : Symbol) : Expr → Bool
  | .ref _ s => s == y
  | _ => false

def Connect.joins (inst : Symbol) (port : String) (y : Symbol) (c : Connect) : Bool :=
  (c.source.isPin inst port && c.sinks.any (Expr.isRefTo y)) || (c.source.isRefTo y && c.sinks.any (Expr.isPin inst port))

namespace Nesting

open Substitution (keys targets rename)

/-- The wire between a port of an instance and a symbol: to the port of an input, from that of an output. -/
def wireBetween (k : Kind) (i : Instance) (port : String) (y : Symbol) : Connect :=
  match k with
  | .input .. => ⟨i.loc, .ref i.loc y, [(Expr.ref i.loc i.symbol).dot port]⟩
  | _ => ⟨i.loc, (Expr.ref i.loc i.symbol).dot port, [.ref i.loc y]⟩

theorem wireBetween_congr {k k' : Kind} (h : asWire k = asWire k') (i : Instance) (port : String) (y : Symbol) :
    wireBetween k i port y = wireBetween k' i port y := by
  cases k <;> cases k' <;> first | rfl | nomatch h

theorem joins_wireBetween (k : Kind) (i : Instance) (port port' : String) (inst y y' : Symbol) :
    (wireBetween k i port y).joins inst port' y' = (i.symbol == inst && port == port' && y == y') := by
  cases k <;> simp [wireBetween, joins, Expr.isPin, Expr.isRefTo, Expr.dot, Bool.and_comm, Bool.and_left_comm]

variable {D : Setting} {Γ : SymbolTable} {c' : Context} {users : List (Symbol × List Symbol)} {X : Symbol → Prop}
  {own outer : List Symbol} {E : List (List Symbol)} {e e' c : Entity} {es out out' nested : List Entity} {f f' g p p' : Frame}
  {s s1 s2 s3 s' : Session State} {x : Symbol} {inst : Instance} {instances : List Instance}

theorem filter_eq_singleton {α β : Type} [BEq β] [LawfulBEq β] (key : α → β) {a : α} : ∀ {l : List α}, (l.map key).Nodup → a ∈ l →
    l.filter (fun b => key b == key a) = [a]
  | b :: l, hnodup, ha => by
    rw [map_cons, nodup_cons] at hnodup
    have hrest : key b = key a → l.filter (fun c => key c == key a) = [] := by
      intro heq
      rw [filter_eq_nil_iff]
      intro c hc
      simp only [beq_iff_eq]
      exact fun hkey => hnodup.1 (heq ▸ hkey ▸ mem_map_of_mem hc)
    rcases mem_cons.mp ha with rfl | ha
    · rw [filter_cons, if_pos (by simp), hrest rfl]
    · have hne : key b ≠ key a := fun heq => hnodup.1 (heq ▸ mem_map_of_mem ha)
      rw [filter_cons, if_neg (by simpa using hne), filter_eq_singleton key hnodup.2 ha]

theorem obligedConnects_eq (Γ : SymbolTable) (instances : List Instance) (o : Obligation) : obligedConnects Γ instances o =
    (instances.filter (·.entity == o.child)).map fun i => wireBetween (Γ.kind o.port) i (Γ.name o.port) o.source := by
  unfold obligedConnects wireBetween
  rfl

theorem filter_obligedConnects (hnodup : (instances.map (·.symbol)).Nodup)
    (hinst : inst ∈ instances) (o : Obligation) (port : String) (y : Symbol) :
    (obligedConnects Γ instances o).filter (joins inst.symbol port y) =
      if o.child = inst.entity ∧ Γ.name o.port = port ∧ o.source = y then [wireBetween (Γ.kind o.port) inst port y] else [] := by
  have hjoins : (joins inst.symbol port y ∘ fun i => wireBetween (Γ.kind o.port) i (Γ.name o.port) o.source) =
      fun i => i.symbol == inst.symbol && (Γ.name o.port == port && o.source == y) := by
    funext i
    rw [Function.comp_apply, joins_wireBetween, Bool.and_assoc]
  rw [obligedConnects_eq, filter_map, hjoins]
  by_cases hends : Γ.name o.port = port ∧ o.source = y
  · obtain ⟨rfl, rfl⟩ := hends
    have honly := filter_eq_singleton Instance.symbol hnodup hinst
    simp only [beq_self_eq_true, Bool.and_true, and_true]
    rw [filter_filter, filter_congr (fun i _ => Bool.and_comm _ _), ← filter_filter, honly]
    by_cases hchild : o.child = inst.entity
    · simp [hchild]
    · simp [hchild, beq_false_of_ne (Ne.symm hchild)]
  · have hnone : (Γ.name o.port == port && o.source == y) = false := by
      simpa using hends
    rw [if_neg fun h => hends h.2]
    simp [hnone]

theorem filter_flatMap_obligedConnects
    (hnodup : (instances.map (·.symbol)).Nodup) (hinst : inst ∈ instances) (port : String) (y : Symbol) :
    ∀ os : List Obligation, (os.flatMap (obligedConnects Γ instances)).filter (joins inst.symbol port y) =
      (((os.filter (·.child == inst.entity)).filter fun o => Γ.name o.port == port && o.source == y).map fun o =>
        wireBetween (Γ.kind o.port) inst port y)
  | [] => rfl
  | o :: os => by
    rw [flatMap_cons, filter_append, filter_obligedConnects hnodup hinst,
      filter_flatMap_obligedConnects hnodup hinst port y os]
    by_cases hchild : o.child = inst.entity
    · by_cases hends : Γ.name o.port = port ∧ o.source = y
      · simp [hchild, hends]
      · simp [hchild, hends]
    · simp [hchild]

/-! ## Symbols that become wires -/

/-- Symbols that have the kind that they had at first, unless nested entities use them already. -/
def Counted (D : Setting) (X : Symbol → Prop) (s : Session State) : Prop :=
  ∀ x, X x → D.shared x ∧ (s.ctx.symbols.kind x = D.table.kind x ∨ usersOf s.own.users x ≠ [])

theorem Counted.grow {W : Symbol → Prop} {V : Symbol → Option Expr → Prop} (h : Counted D X s)
    (hsince : Stays D.entity D.known D.value D.start s.ctx) (hstays : Stays D.entity W V s.ctx s'.ctx)
    (husers : ∀ x, usersOf s.own.users x <+: usersOf s'.own.users x)
    (hW : ∀ x, D.shared x → W x → isExclusive (D.table.kind x) = true → usersOf s'.own.users x ≠ []) : Counted D X s' := by
  intro x hx
  obtain ⟨hshared, hcounted⟩ := h x hx
  have hlisted := hsince.listed (D.old hshared)
  refine ⟨hshared, ?_⟩
  rcases hcounted with hkind | hused
  · rcases hstays.kind hlisted (D.apart hshared) with hsame | ⟨hWx, hwire⟩
    · exact Or.inl (hsame.trans hkind)
    · cases hexclusive : isExclusive (D.table.kind x) with
      | true => exact Or.inr (hW x hshared hWx hexclusive)
      | false =>
        rw [hwire, hkind, asWire_of_not_exclusive hexclusive]
        exact Or.inl rfl
  · exact Or.inr fun hnil => hused (prefix_nil.mp (hnil ▸ husers x))

section Lifted

variable (here : Lifted D E e s f s1 nested s2 f' e' s3)

include here

theorem Counted.enter (h : Counted D X s) : Counted D X s1 :=
  h.grow here.before.since here.entered.stays here.entered.made.users fun _ _ hW => hW.elim

theorem Counted.close (h : Counted D X s2) (handed : Handed D own e.symbol (portsOf D.table f'.aliases) s2.ctx s3.ctx p p')
    (husers : s3.own.users = s2.own.users) : Counted D X s3 := by
  refine h.grow here.amid.since handed.stays (fun x => husers ▸ prefix_rfl) fun x _ hkey hexclusive => ?_
  obtain ⟨a, ha, rfl⟩ := mem_map.mp hkey
  have hlt := (here.mem_aliases (mem_map_of_mem (mem_filter.mp ha).1)).2 hexclusive
  rw [husers]
  exact ne_nil_of_length_pos (Nat.lt_of_le_of_lt (Nat.zero_le _) hlt)

end Lifted

theorem Levels.counted (h : Levels D E es s out s') : ∀ {own : List Symbol} {E' : List (List Symbol)} {p : Frame} {F : List Frame},
    E = own :: E' → s.own.frames.items = p :: F → Counted D X s → Counted D X s' := by
  induction h with
  | nil => exact fun _ _ h => h
  | cons here _ _ ih ih' =>
    rintro own E p F rfl hframes hcounted
    obtain ⟨p', hframes3, handed, husers, -⟩ := here.grows hframes
    exact ih' rfl hframes3 ((ih rfl here.entered.frames (hcounted.enter here)).close here handed husers)

/-! ## What is left of an entity -/

/-- What is left of an entity whose frame was `f`, inside others that declare `outer`: it declares its aliases, first those of the
symbols it refers to, with the kinds of the symbols, but as wires where outputs are passed on; the ports among them are in its
signature, and it has the wires that it owed. -/
structure Record (D : Setting) (c' : Context) (users : List (Symbol × List Symbol)) (out : List Entity) (outer : List Symbol)
    (e : Entity) (f : Frame) : Prop where
  framed : Framed D c' outer f (e.exports D.table)
  exports : ∀ x ∈ e.exports D.table, D.shared x
  direct : ∀ u ∈ references e.ownNodes, u.symbol ∈ outer → u.symbol ∈ keys f.aliases ∧
    (isExclusive (D.table.kind u.symbol) = true → e.symbol ∈ usersOf users u.symbol ∧ ((usersOf users u.symbol).length ≤ 1 →
      c'.symbols.kind (rename f.aliases u.symbol) = D.table.kind u.symbol))
  passed : ∀ x ∈ keys f.aliases, isExclusive (D.table.kind x) = true → e.symbol ∉ usersOf users x →
    c'.symbols.kind (rename f.aliases x) = asWire (D.table.kind x)
  ports : ∀ a ∈ portsOf D.table f.aliases,
    c'.symbols.kind a.1 = asWire (D.table.kind a.1) ∧ a.2 ∈ c'.symbols.entityPorts e.symbol
  result : ∃ e' ∈ out, e'.symbol = e.symbol ∧ e'.decls.map (·.symbol) = e.decls.map (·.symbol) ++ targets f.aliases ∧
    e'.connects = e.connects.map (Connect.renamed f.aliases) ++ f.obligations.flatMap (obligedConnects c'.symbols e.instances)

/-- An entity that declares `own` and has the frame `f` has a wire for each port of an entity that was nested in it, from what the
port stands for or the alias of that. -/
structure Fed (D : Setting) (own : List Symbol) (f : Frame) (c : Entity) (g : Frame) : Prop where
  covers : ∀ a ∈ portsOf D.table g.aliases, a.1 ∈ own ∨ a.1 ∈ keys f.aliases
  obligations : f.obligations.filter (·.child == c.symbol) =
    (portsOf D.table g.aliases).map fun a => ⟨c.symbol, a.2, source own f.aliases a.1⟩

theorem Handed.fed {c1 c2 : Context} {p'' : Frame} {aliases : Substitution} {os : List Obligation}
    (h : Handed D own e.symbol (portsOf D.table g.aliases) c1 c2 p p') (howed : ∀ o ∈ p.obligations, o.child ≠ e.symbol)
    (haliases : p''.aliases = p'.aliases ++ aliases) (hobligations : p''.obligations = p'.obligations ++ os)
    (hos : ∀ o ∈ os, o.child ≠ e.symbol) : Fed D own p'' e g where
  covers a ha := by
    rw [haliases, Substitution.keys, map_append, mem_append]
    exact (h.covers a ha).imp_right Or.inl
  obligations := by
    have hnone : ∀ os : List Obligation, (∀ o ∈ os, o.child ≠ e.symbol) → os.filter (·.child == e.symbol) = [] := by
      intro os hos
      rw [filter_eq_nil_iff]
      intro o ho
      simpa using hos o ho
    rw [hobligations, filter_append, hnone os hos, append_nil, h.obligations, filter_append, hnone _ howed,
      nil_append, filter_eq_self.mpr]
    · exact map_congr_left fun a ha => by rw [haliases, source_append (h.covers a ha)]
    · intro o ho
      obtain ⟨a, -, rfl⟩ := mem_map.mp ho
      simp

/-- What is left of an entity and of those that were nested in it. -/
inductive Wired (D : Setting) (c' : Context) (users : List (Symbol × List Symbol)) (out : List Entity) :
    List Symbol → Entity → Frame → Prop where
  | intro {outer : List Symbol} {e : Entity} {f : Frame} (g : Entity → Frame) (record : Record D c' users out outer e f)
    (fed : ∀ c ∈ e.entities, Fed D (e.exports D.table) f c (g c))
    (nested : ∀ c ∈ e.entities, Wired D c' users out (e.exports D.table ++ outer) c (g c)) : Wired D c' users out outer e f

theorem Lifted.wired (here : Lifted D E e s f s1 nested s2 f' e' s3) (hD : D.Listed) (hcounted : Counted D (· ∈ E.flatten) s)
    (hstays : Stays D.entity D.shared D.value s2.ctx c') (husers : ∀ x, usersOf s2.own.users x <+: usersOf users x) (hmem : e' ∈ out)
    (hports : ∀ a ∈ portsOf D.table f'.aliases,
      c'.symbols.kind a.1 = asWire (D.table.kind a.1) ∧ a.2 ∈ c'.symbols.entityPorts e.symbol)
    (hnested : ∀ c ∈ e.entities, ∃ g, Wired D c' users out (e.exports D.table ++ E.flatten) c g ∧ Fed D (e.exports D.table) f' c g) :
    Wired D c' users out E.flatten e f' := by
  obtain ⟨more, hmore, hpassed⟩ := here.grown.aliases
  have hf' := here.framed
  -- what it refers to itself
  have hdirect : ∀ x ∈ keys f.aliases, isExclusive (D.table.kind x) = true → e.symbol ∈ usersOf users x ∧
      ((usersOf users x).length ≤ 1 → c'.symbols.kind (rename f.aliases x) = D.table.kind x) := by
    intro x hx hexclusive
    have hvisible := (here.entered.outer x hx).1
    have hshared := here.before.visible x hvisible
    have hlisted := here.before.since.listed (D.old hshared)
    have hmem := mem_of_mem_keys hx
    have hmakes := here.entered.made.makes _ hmem hlisted
    have halias := hmakes.alias here.before.since hshared rfl
    have hentity := halias.not_entity hD
    rw [← isExclusive_congr (here.before.since.asWire_kind (D.old hshared) (D.apart hshared))] at hexclusive
    obtain ⟨huser, hlt⟩ := here.entered.made.counted _ hmem hlisted hexclusive
    have hgrow := (here.grown.users x).trans (husers x)
    refine ⟨hgrow.subset huser, fun hone => ?_⟩
    rw [((hmakes.later here.stays hentity halias.not_shared).later hstays hentity halias.not_shared).kind]
    -- a symbol that has become a wire has a user already
    refine (hcounted x hvisible).2.resolve_right fun hne => ?_
    have hpos := length_pos_of_ne_nil hne
    have hle := hgrow.length_le
    dsimp only at hlt
    omega
  choose! g hg using hnested
  refine .intro g ⟨hf'.later hstays, fun x hx => here.amid.visible x (mem_append_left _ hx), fun u hu hvisible => ?_,
    fun x hx hexclusive hother => ?_, hports, ?_⟩ (fun c hc => (hg c hc).2) fun c hc => (hg c hc).1
  · have hkey := here.entered.direct u hu hvisible
    have hrename : rename f'.aliases u.symbol = rename f.aliases u.symbol := by
      have happend : source [] (f.aliases ++ more) u.symbol = source [] f.aliases u.symbol := source_append (Or.inr hkey) more
      simpa [source, hmore] using happend
    rw [hrename]
    refine ⟨?_, hdirect _ hkey⟩
    rw [hmore, Substitution.keys, map_append]
    exact mem_append_left _ hkey
  · have hmem := mem_of_mem_keys hx
    have halias := (hf'.aliases _ hmem).2
    rw [hmore, mem_append, ← hmore] at hmem
    rcases hmem with hmem | hmem
    · exact absurd (hdirect x (mem_map_of_mem hmem) hexclusive).1 hother
    · exact hstays.wire halias.listed (halias.not_entity hD) ((hpassed _ hmem).2.2.2.1 (halias.not_entity hD))
  · obtain ⟨decls, c, hdecls, hstays', rfl⟩ := here.result
    refine ⟨_, hmem, rfl, ?_, ?_⟩
    · simp [flattened, Entity.renamed, Decl.renamed, declared_symbols hdecls]
    · have hsame := hf'.obligedConnects_eq (D.widen hstays' fun _ h => h.elim) hD e.instances
      rw [hf'.obligedConnects_eq hstays hD e.instances, ← hsame]
      rfl

theorem Levels.wired (hD : D.Listed) (h : Levels D E es s out s') :
    ∀ {own : List Symbol} {E' : List (List Symbol)} {p p' : Frame} {F : List Frame}, E = own :: E' →
      s.own.frames.items = p :: F → s'.own.frames.items = p' :: F → (∀ x ∈ E.flatten, X x) →
      (∀ c ∈ entities (nodesList es), ∀ x ∈ c.exports D.table, X x) → Counted D X s →
      (∀ o ∈ p.obligations, o.child ∉ es.map (·.symbol)) → ((entities (nodesList es)).map (·.symbol)).Nodup →
      Stays D.entity D.shared D.value s'.ctx c' → (∀ x, usersOf s'.own.users x <+: usersOf users x) → (∀ e ∈ out, e ∈ out') →
      ∀ c ∈ es, ∃ g, Wired D c' users out' E.flatten c g ∧ Fed D own p' c g := by
  induction h with
  | nil => exact fun _ _ _ _ _ _ _ _ _ _ _ => nofun
  | @cons E e e' es nested rest f f' s s1 s2 s3 s' here inside after ih ih' =>
    rintro own E p p' F rfl hframes hframes' hE hX hcounted howed hnodup hstays husers hout
    rw [entities_nodesList_cons, forall_mem_cons, forall_mem_append] at hX
    rw [entities_nodesList_cons, map_cons, map_append, nodup_cons, nodup_append] at hnodup
    have hcounted1 := hcounted.enter here
    have hcounted2 := inside.counted rfl here.entered.frames hcounted1
    have hshut := here.shut
    rw [hframes] at hshut
    cases hshut with
    | @inside _ _ _ p3 _ _ frames3 handed hsame reporter signature =>
      obtain ⟨p'', hframes'', hafter⟩ := after.grown rfl frames3
      obtain rfl : p'' = p' := (cons.inj (hframes''.symm.trans hframes')).1
      obtain ⟨as, has, -⟩ := hafter.aliases
      obtain ⟨os, hos, howe⟩ := hafter.obligations
      have hsymbol : e.symbol ∉ es.map (·.symbol) := by
        intro hmem
        obtain ⟨c, hc, heq⟩ := mem_map.mp hmem
        exact hnodup.1 (mem_append_right _ (heq ▸ mem_map_of_mem (mem_entities_nodesList hc)))
      have hchildren : ∀ o ∈ os, o.child ∈ es.map (·.symbol) := by
        intro o ho
        obtain ⟨c, hc, hchild, -⟩ := howe o ho
        exact hchild ▸ mem_map_of_mem hc
      have hkeys : ∀ x ∈ keys (portsOf D.table f'.aliases), D.shared x := fun x hx => here.before.visible x (here.ports_outer x hx)
      have hstays3 := (after.since here.closed.visible).trans hstays
      have hstays2 := (D.widen handed.stays hkeys).trans hstays3
      have husers2 : ∀ x, usersOf s2.own.users x <+: usersOf users x := fun x => by
        rw [← hsame]
        exact (hafter.users x).trans (husers x)
      rintro c (_ | ⟨_, hc⟩)
      · refine ⟨f', here.wired hD (fun x hx => hcounted x (hE x hx)) hstays2 husers2 (hout _ mem_cons_self) (fun a ha => ?_) ?_,
          handed.fed (fun o ho heq => howed o ho (heq ▸ mem_cons_self)) has hos fun o ho heq => hsymbol (heq ▸ hchildren o ho)⟩
        · have hshared := hkeys a.1 (mem_map_of_mem ha)
          refine ⟨?_, ?_⟩
          · refine hstays3.wire (here.closed.since.listed (D.old hshared)) (D.apart hshared) ?_
            rw [handed.wire a ha, here.amid.since.asWire_kind (D.old hshared) (D.apart hshared)]
          · have hlisted := here.amid.since.listed (hD here.reads.symbol)
            exact (hstays3.entry _ (here.closed.since.listed (hD here.reads.symbol))).ports _ (signature hlisted a ha)
        · exact ih rfl here.entered.frames here.frames (fun x hx => (mem_append.mp hx).elim (hX.1 x) (hE x)) hX.2.1
            hcounted1 (by rw [here.entered.obligations]; nofun) hnodup.2.1 hstays2 husers2
            fun c hc => hout c (mem_cons_of_mem _ (mem_append_left _ hc))
      · refine ih' rfl frames3 hframes' hE hX.2.2 (hcounted2.close here handed hsame) ?_ hnodup.2.2.1 hstays
          husers (fun c hc => hout c (mem_cons_of_mem _ (mem_append_right _ hc))) c hc
        rw [handed.obligations]
        intro o ho hmem
        rcases mem_append.mp ho with ho | ho
        · exact howed o ho (mem_cons_of_mem _ hmem)
        · obtain ⟨a, -, rfl⟩ := mem_map.mp ho
          exact hsymbol hmem

theorem Levels.wired_outermost (hD : D.Listed) (h : Levels D E es s out s') :
    E = [] → (∀ x ∈ ownSymbolsList es, D.shared x → s.ctx.symbols.kind x = D.table.kind x) →
      (ownSymbolsList es).Nodup → ((entities (nodesList es)).map (·.symbol)).Nodup →
      Stays D.entity D.shared D.value s'.ctx c' → (∀ e ∈ out, e ∈ out') →
      s.ctx.reporter.errorCount ≤ s'.ctx.reporter.errorCount ∧ ∀ e ∈ es, ∃ f users, Wired D c' users out' [] e f ∧
        (s'.ctx.reporter.errorCount = s.ctx.reporter.errorCount → ∀ x, (usersOf users x).length ≤ 1) := by
  induction h with
  | nil => exact fun _ _ _ _ _ _ => ⟨Nat.le_refl _, nofun⟩
  | @cons E e e' es nested rest f f' s s1 s2 s3 s' here inside after _ ih' =>
    rintro rfl hahead honce hnodup hstays hout
    have hlist : ownSymbolsList (e :: es) = ownSymbolsList [e] ++ ownSymbolsList es := by simp
    rw [hlist] at hahead honce
    rw [entities_nodesList_cons, map_cons, map_append, nodup_cons, nodup_append] at hnodup
    have hhere : Levels D [] [e] s (e' :: nested ++ []) s3 := .cons here inside (.nil [] s3)
    have hmem : ∀ c ∈ entities (nodesList [e]), ∀ x ∈ c.exports D.table, x ∈ ownSymbolsList [e] := fun c hc x hx =>
      mem_flatMap.mpr ⟨c, hc, mem_ownSymbols_of_mem_exports hx⟩
    have hmoved : Stays D.entity (· ∈ ownSymbolsList [e]) D.value s.ctx s3.ctx :=
      hhere.stays nofun (fun c hc => ⟨hmem c hc, fun d hd => ((hhere.reads c hc).decls d hd).2⟩) fun _ _ h => D.made h
    obtain ⟨herrors, hwired⟩ := ih' rfl (fun x hx hshared => by
      have hnot : x ∉ ownSymbolsList [e] := fun hmem => (nodup_append.mp honce).2.2 x hmem x hx rfl
      rw [hmoved.kind_eq (here.before.since.listed (D.old hshared)) (D.apart hshared) hnot]
      exact hahead x (mem_append_right _ hx) hshared) (nodup_append.mp honce).2.1 hnodup.2.2.1 hstays
      fun c hc => hout c (mem_cons_of_mem _ (mem_append_right _ hc))
    obtain ⟨stays, errors, single⟩ := here.outermost
    have hstays2 := (D.widen stays fun _ h => h.elim).trans ((after.since here.closed.visible).trans hstays)
    have hX : ∀ c ∈ entities (nodesList [e]), ∀ x ∈ c.exports D.table,
        D.shared x ∧ x ∈ ownSymbolsList [e] := fun c hc x hx => ⟨(hhere.reads c hc).exports x hx, hmem c hc x hx⟩
    rw [entities_nodesList_cons, forall_mem_cons, forall_mem_append] at hX
    refine ⟨Nat.le_trans errors herrors, ?_⟩
    rintro c (_ | ⟨_, hc⟩)
    · have hcounted : Counted D (fun x => D.shared x ∧ x ∈ ownSymbolsList [e]) s := fun x hx =>
        ⟨hx.1, Or.inl (hahead x (mem_append_left _ hx.2) hx.1)⟩
      have hwired := here.wired hD (fun x hx => by cases hx) hstays2 (fun _ => prefix_rfl) (hout _ mem_cons_self)
        (fun a ha => by
          -- there is nothing around it that it could have an alias of
          cases here.ports_outer _ (mem_map_of_mem ha))
        (inside.wired hD rfl here.entered.frames here.frames
          (fun x hx => (mem_append.mp hx).elim (hX.1 x) fun hx => by cases hx) hX.2.1 (hcounted.enter here)
          (by rw [here.entered.obligations]; nofun) hnodup.2.1 hstays2 (fun _ => prefix_rfl)
          fun c hc => hout c (mem_cons_of_mem _ (mem_append_left _ hc)))
      exact ⟨f', _, hwired, fun heq => single (by omega)⟩
    · obtain ⟨g, users, hg, hnone⟩ := hwired c hc
      exact ⟨g, users, hg, fun heq => hnone (by omega)⟩

/-! ## One alias on every level -/

namespace Record

variable (h : Record D c' users out outer e f)

include h

theorem filter_aliases (hx : x ∈ keys f.aliases) : f.aliases.filter (·.1 == x) = [(x, rename f.aliases x)] :=
  filter_eq_singleton Prod.fst h.framed.nodup (mem_of_mem_keys hx)

theorem filter_decls (hlifted : ∀ d ∈ e.decls, c'.symbols.liftedFrom d.symbol = D.table.liftedFrom d.symbol)
    (hx : x ∈ keys f.aliases) {e' : Entity} (hdecls : e'.decls.map (·.symbol) = e.decls.map (·.symbol) ++ targets f.aliases) :
    (e'.decls.map (·.symbol)).filter (fun t => c'.symbols.liftedFrom t == some x) =
      (e.decls.map (·.symbol)).filter (fun t => D.table.liftedFrom t == some x) ++ [rename f.aliases x] := by
  have htargets : (targets f.aliases).filter (fun t => c'.symbols.liftedFrom t == some x) = [rename f.aliases x] := by
    have haliases : f.aliases.filter ((fun t => c'.symbols.liftedFrom t == some x) ∘ fun a => a.2) =
        f.aliases.filter (·.1 == x) := by
      refine filter_congr fun a ha => ?_
      rw [Function.comp_apply, (h.framed.aliases a ha).2.lifted]
      simp
    rw [targets, filter_map, haliases, h.filter_aliases hx]
    rfl
  rw [hdecls, filter_append, htargets]
  refine congrArg (· ++ _) (filter_congr fun z hz => ?_)
  obtain ⟨d, hd, rfl⟩ := mem_map.mp hz
  rw [hlifted d hd]

theorem wires {outer' : List Symbol} (hD : D.Listed) (hc : Record D c' users out outer' c g) (hfed : Fed D (e.exports D.table) f c g)
    (hnodup : (e.instances.map (·.symbol)).Nodup) (hinst : inst ∈ e.instances) (hentity : inst.entity = c.symbol)
    (hx : x ∈ keys g.aliases) (hport : (D.table.kind x).isConst = false) :
    (f.obligations.flatMap (obligedConnects c'.symbols e.instances)).filter
        (joins inst.symbol (D.table.name x) (source (e.exports D.table) f.aliases x)) =
      [wireBetween (D.table.kind x) inst (D.table.name x) (source (e.exports D.table) f.aliases x)] := by
  have hmem : (x, rename g.aliases x) ∈ portsOf D.table g.aliases := mem_filter.mpr ⟨mem_of_mem_keys hx, by simp [hport]⟩
  have hnew : ∀ a ∈ g.aliases, ¬D.entity a.2 := fun a ha => (hc.framed.aliases a ha).2.not_entity hD
  -- of the ports of the nested entity, only the alias of the symbol has its name and its source
  have honly : (portsOf D.table g.aliases).filter ((fun o : Obligation => c'.symbols.name o.port == D.table.name x &&
      o.source == source (e.exports D.table) f.aliases x) ∘ fun a => ⟨c.symbol, a.2, source (e.exports D.table) f.aliases a.1⟩) =
        [(x, rename g.aliases x)] := by
    have hkey : ∀ a ∈ portsOf D.table g.aliases, ((fun o : Obligation => c'.symbols.name o.port == D.table.name x &&
        o.source == source (e.exports D.table) f.aliases x) ∘
          fun a => ⟨c.symbol, a.2, source (e.exports D.table) f.aliases a.1⟩) a = (a.1 == x) := by
      intro a ha
      have hag := (mem_filter.mp ha).1
      rw [Function.comp_apply, Bool.eq_iff_iff, Bool.and_eq_true, beq_iff_eq, beq_iff_eq, beq_iff_eq,
        (hc.framed.aliases a hag).2.name (hnew a hag)]
      constructor
      · rintro ⟨-, hsource⟩
        exact h.framed.source_inj h.exports (hfed.covers a ha) (hfed.covers _ hmem) hsource
      · rintro rfl
        exact ⟨rfl, rfl⟩
    rw [filter_congr hkey, portsOf, filter_filter, filter_congr (fun a _ => Bool.and_comm _ _),
      ← filter_filter, hc.filter_aliases hx]
    simp [hport]
  have hkind := (hc.framed.aliases _ (mem_of_mem_keys hx)).2.kind (hnew _ (mem_of_mem_keys hx))
  rw [filter_flatMap_obligedConnects hnodup hinst, hentity, hfed.obligations, filter_map, honly, map_singleton,
    map_singleton, wireBetween_congr hkind]

end Record

/-! ## Paths of entities -/

theorem Wired.of_nested (h : Wired D c' users out outer e f) :
    ∀ c ∈ entities (nodesList e.entities), ∃ outer' g, Wired D c' users out outer' c g := by
  induction h with
  | intro g _ _ nested ih =>
    intro c hc
    obtain ⟨d, hd, rfl | hc⟩ := mem_entities_nodesList_iff.mp hc
    · exact ⟨_, g c, nested c hd⟩
    · exact ih d hd c hc

theorem Wired.path : ∀ {k : Nat} {E : Nat → Entity} {outer : List Symbol} {f : Frame}, Wired D c' users out outer (E 0) f →
    (∀ i < k, E (i + 1) ∈ (E i).entities) → ∃ (F : Nat → Frame) (O : Nat → List Symbol), F 0 = f ∧ O 0 = outer ∧
      (∀ i ≤ k, Record D c' users out (O i) (E i) (F i)) ∧
      ∀ i < k, O (i + 1) = (E i).exports D.table ++ O i ∧ Fed D ((E i).exports D.table) (F i) (E (i + 1)) (F (i + 1))
  | 0, E, outer, f, .intro g record _ _, _ => by
    refine ⟨fun _ => f, fun _ => outer, rfl, rfl, fun i hi => ?_, fun i hi => absurd hi (Nat.not_lt_zero i)⟩
    rw [Nat.le_zero.mp hi]
    exact record
  | k + 1, E, outer, f, .intro g record fed nested, hpath => by
    have hfirst := hpath 0 (Nat.succ_pos k)
    obtain ⟨F, O, hF, hO, hrecords, hfed⟩ := Wired.path (k := k) (E := fun i => E (i + 1)) (nested _ hfirst) fun i hi =>
      hpath (i + 1) (Nat.succ_lt_succ hi)
    refine ⟨fun i => i.casesOn f F, fun i => i.casesOn outer O, rfl, rfl, fun i hi => ?_, fun i hi => ?_⟩
    · cases i with
      | zero => exact record
      | succ i => exact hrecords i (Nat.le_of_succ_le_succ hi)
    · cases i with
      | zero =>
        change O 0 = _ ∧ Fed D _ f _ (F 0)
        rw [hF, hO]
        exact ⟨rfl, fed _ hfirst⟩
      | succ i => exact hfed i (Nat.lt_of_succ_lt_succ hi)

mutual
theorem entities_sublist : ∀ (e : Entity) {c : Entity}, c ∈ entities e.nodes →
    (c :: entities (nodesList c.entities)).Sublist (entities e.nodes)
  | ⟨l, x, ds, es, is, cs, ss⟩, c, hc => by
    rw [entities_entity] at hc ⊢
    rcases mem_cons.mp hc with rfl | hc
    · exact List.Sublist.refl _
    · exact (entitiesList_sublist es hc).cons _

theorem entitiesList_sublist : ∀ (es : List Entity) {c : Entity}, c ∈ entities (nodesList es) →
    (c :: entities (nodesList c.entities)).Sublist (entities (nodesList es))
  | e :: es, c, hc => by
    rw [nodesList, entities_append] at hc ⊢
    rcases mem_append.mp hc with hc | hc
    · exact (entities_sublist e hc).trans (sublist_append_left _ _)
    · exact (entitiesList_sublist es hc).trans (sublist_append_right _ _)
end

section Path

variable {r : Root} {k : Nat} {E : Nat → Entity} (hpath : ∀ i < k, E (i + 1) ∈ (E i).entities)

include hpath

theorem mem_entities_on_path {i : Nat} : ∀ {j : Nat}, i < j → j ≤ k → E j ∈ entities (nodesList (E i).entities)
  | j + 1, hij, hj => by
    have hstep := mem_entities_nodesList (hpath j hj)
    rcases Nat.lt_succ_iff_lt_or_eq.mp hij with hij | rfl
    · exact (entitiesList_sublist _ (mem_entities_on_path hij (Nat.le_of_succ_le hj))).subset (mem_cons_of_mem _ hstep)
    · exact hstep

variable (hE : E 0 ∈ r.allEntities)
include hE

theorem mem_allEntities_on_path {i : Nat} (hi : i ≤ k) : E i ∈ r.allEntities := by
  rcases Nat.eq_zero_or_pos i with rfl | hpos
  · exact hE
  · exact (entitiesList_sublist r.entities hE).subset (mem_cons_of_mem _ (mem_entities_on_path hpath hpos hi))

theorem symbol_ne_on_path (hnodup : (r.allEntities.map (·.symbol)).Nodup) {i j : Nat} (hij : i < j)
    (hj : j ≤ k) : (E i).symbol ≠ (E j).symbol := by
  have hi := mem_allEntities_on_path hpath hE (Nat.le_trans (Nat.le_of_lt hij) hj)
  have hbelow := hnodup.sublist ((entitiesList_sublist r.entities hi).map _)
  rw [map_cons, nodup_cons] at hbelow
  exact fun heq => hbelow.1 (heq ▸ mem_map_of_mem (mem_entities_on_path hpath hij hj))

variable (honce : (r.allEntities.flatMap ownSymbols).Nodup)
include honce

theorem not_declared_on_path
    (hx : x ∈ (E 0).ownSymbols) {j : Nat} (hpos : 0 < j) (hj : j ≤ k) : x ∉ (E j).ownSymbols := by
  have hbelow := honce.sublist ((entitiesList_sublist r.entities hE).flatMap ownSymbols)
  rw [flatMap_cons, nodup_append] at hbelow
  exact fun hxj => hbelow.2.2 x hx x (mem_flatMap.mpr ⟨E j, mem_entities_on_path hpath hpos hj, hxj⟩) rfl

theorem mem_keys_on_path {F : Nat → Frame}
    (hfed : ∀ i < k, Fed D ((E i).exports D.table) (F i) (E (i + 1)) (F (i + 1))) (hx : x ∈ (E 0).ownSymbols)
    (hport : (D.table.kind x).isConst = false) (hrefers : x ∈ keys (F k).aliases) :
    ∀ {i : Nat}, 0 < i → i ≤ k → x ∈ keys (F i).aliases := by
  -- from the last entity outwards: each one hands its port over to the one before
  have hdown : ∀ d i, i + d = k → 0 < i → x ∈ keys (F i).aliases := by
    intro d
    induction d with
    | zero =>
      rintro i rfl _
      exact hrefers
    | succ d ih =>
      intro i hi hpos
      have hmem : (x, rename (F (i + 1)).aliases x) ∈ portsOf D.table (F (i + 1)).aliases :=
        mem_filter.mpr ⟨mem_of_mem_keys (ih (i + 1) (by omega) (Nat.succ_pos i)), by simp [hport]⟩
      refine ((hfed i (by omega)).covers _ hmem).resolve_left fun hexports => ?_
      exact not_declared_on_path hpath hE honce hx hpos (by omega) (mem_ownSymbols_of_mem_exports hexports)
  exact fun {i} hpos hi => hdown (k - i) i (by omega) hpos

end Path

/-! ## Designs -/

theorem eq_of_mem_of_length_le_one {α : Type} {l : List α} {a b : α} (h : l.length ≤ 1) (ha : a ∈ l) (hb : b ∈ l) : a = b := by
  match l, h with
  | [], _ => nomatch ha
  | [c], _ => rw [mem_singleton.mp ha, mem_singleton.mp hb]

/-- Lifting wires every port through every level. When an entity refers to a port `x` of an entity `k` levels around it, every
entity on the way from that one declares exactly one new alias of `x`, with its name, direction, value type and flow control;
the alias is in its signature, and each of its instances has exactly one new connection between its port of that name and the
alias one level up, or `x` itself. Without an error, the alias in the innermost entity has the storage that an output `x` had,
and `x` and the other aliases are wires. -/
theorem ports_wired_through {c : Context} {r : Root} (h : r.Liftable c.symbols)
    (hlisted : ∀ e ∈ r.allEntities, e.symbol.index < c.symbols.entries.size) :
    ∃ out c', pass.run r ⟨c, {}⟩ = .ok out ⟨c', {}⟩ ∧
      ∀ (k : Nat) (E : Nat → Entity) (x : Symbol), 0 < k → E 0 ∈ r.allEntities → (∀ i < k, E (i + 1) ∈ (E i).entities) →
        x ∈ (E 0).decls.map (·.symbol) → (c.symbols.kind x).isPort = true →
        (∃ u ∈ references (E k).ownNodes, u.symbol = x) →
        ∃ (y : Nat → Symbol) (E' : Nat → Entity), y 0 = x ∧
          (∀ i ≤ k, E' i ∈ (out.getD r).entities ∧ (E' i).symbol = (E i).symbol) ∧
          (∀ i, 0 < i → i ≤ k →
            ((E' i).decls.map (·.symbol)).filter (fun t => c'.symbols.liftedFrom t == some x) =
              ((E i).decls.map (·.symbol)).filter (fun t => c.symbols.liftedFrom t == some x) ++ [y i] ∧
            c'.symbols.name (y i) = c.symbols.name x ∧ asWire (c'.symbols.kind (y i)) = asWire (c.symbols.kind x) ∧
            y i ∈ c'.symbols.entityPorts (E i).symbol) ∧
          (∀ i < k, ∃ m new, (E' i).connects = (E i).connects.map (Connect.renamed m) ++ new ∧
            ∀ inst ∈ (E i).instances, inst.entity = (E (i + 1)).symbol →
              new.filter (Connect.joins inst.symbol (c.symbols.name x) (y i)) =
                [wireBetween (c.symbols.kind x) inst (c.symbols.name x) (y i)]) ∧
          ∀ value flow storage, c.symbols.kind x = .output value flow storage →
            c'.reporter.errorCount = c.reporter.errorCount → c'.symbols.kind (y k) = .output value flow storage ∧
              ∀ i < k, c'.symbols.kind (y i) = .output value flow .wire := by
  let c0 : Context := { c with reporter := { c.reporter with pass := pass.name } }
  obtain ⟨o, ⟨c', own⟩, hwalk, rfl, -, hlevels, hunlifted⟩ := walk_liftable (c := c0) (r := r) h
  let D := liftableSetting (c := c0) (r := r) h
  have honce := nodup_append.mp ((flatMap_append_perm r.allEntities (fun e => [e.symbol])
    ownSymbols).nodup_iff.mpr h.once)
  rw [← map_eq_flatMap] at honce
  have hD : D.Listed := by
    intro x hx
    obtain ⟨e, he, rfl⟩ := mem_map.mp hx
    exact hlisted e he
  obtain ⟨-, houter⟩ := hlevels.wired_outermost hD rfl (fun _ _ _ => rfl) honce.2.1
    honce.1 (.refl _ _ _ _) fun _ h => h
  let out : Option Root := o.map fun entities => { r with entities }
  have hentities : (out.getD r).entities = o.getD r.entities := by cases o <;> rfl
  refine ⟨out, c', run_ok hwalk (hlevels.selfContained hunlifted), fun k E x hk hE hpath hx hport hrefers => ?_⟩
  -- what is left of the entities of the path
  obtain ⟨outer, f, users, hwired, hnone⟩ : ∃ outer f users, Wired D c' users (o.getD r.entities) outer (E 0) f ∧
      (c'.reporter.errorCount = c.reporter.errorCount → ∀ x, (usersOf users x).length ≤ 1) := by
    obtain ⟨e, he, hnested⟩ := mem_entities_nodesList_iff.mp hE
    obtain ⟨f, users, hwired, hnone⟩ := houter e he
    rcases hnested with heq | hnested
    · exact ⟨_, f, users, heq ▸ hwired, hnone⟩
    · obtain ⟨outer, g, hg⟩ := hwired.of_nested _ hnested
      exact ⟨outer, g, users, hg, hnone⟩
  obtain ⟨F, O, -, -, hrecords, hlevel⟩ := hwired.path hpath
  choose! E' hE' hsymbol hdecls hconnects using fun i hi => (hrecords i hi).result
  have hconst : (c.symbols.kind x).isConst = false := by
    cases hkind : c.symbols.kind x <;> first | rfl | (rw [hkind] at hport; nomatch hport)
  have hown : x ∈ (E 0).ownSymbols := mem_append_left _ (mem_append_left _ hx)
  have hexport : x ∈ (E 0).exports c.symbols := mem_filter.mpr ⟨hx, by rw [hport]; rfl⟩
  have hother : ∀ {i}, 0 < i → i ≤ k → x ∉ (E i).ownSymbols := fun hpos hi =>
    not_declared_on_path hpath hE honce.2.1 hown hpos hi
  have hvisible : ∀ {i}, 0 < i → i ≤ k → x ∈ O i := by
    intro i
    induction i with
    | zero => exact fun hpos => absurd hpos (Nat.lt_irrefl 0)
    | succ i ih =>
      intro _ hi
      rw [(hlevel i hi).1, mem_append]
      rcases Nat.eq_zero_or_pos i with rfl | hpos
      · exact Or.inl hexport
      · exact Or.inr (ih hpos (Nat.le_of_lt hi))
  obtain ⟨u, hu, rfl⟩ := hrefers
  obtain ⟨hlast, hstorage⟩ := (hrecords k (Nat.le_refl k)).direct u hu (hvisible hk (Nat.le_refl k))
  have hkeys : ∀ {i}, 0 < i → i ≤ k → u.symbol ∈ keys (F i).aliases := fun hpos hi =>
    mem_keys_on_path hpath hE honce.2.1 (fun i hi => (hlevel i hi).2) hown hconst hlast hpos hi
  have hports : ∀ {i}, 0 < i → i ≤ k → (u.symbol, rename (F i).aliases u.symbol) ∈ portsOf c.symbols (F i).aliases :=
    fun hpos hi => mem_filter.mpr ⟨mem_of_mem_keys (hkeys hpos hi), by simp [hconst]⟩
  have hall : ∀ {i}, i ≤ k → E i ∈ r.allEntities := fun hi => mem_allEntities_on_path hpath hE hi
  have hlifted : ∀ {i}, i ≤ k → ∀ d ∈ (E i).decls, c'.symbols.liftedFrom d.symbol = c.symbols.liftedFrom d.symbol :=
    fun hi d hd => (hlevels.since nofun).liftedFrom
      (h.listed _ (mem_flatMap.mpr ⟨_, hall hi, mem_ownSymbols_of_mem_decls hd⟩))
  have hsource : ∀ i ≤ k, source ((E i).exports D.table) (F i).aliases u.symbol =
      if i = 0 then u.symbol else rename (F i).aliases u.symbol := by
    intro i hi
    unfold source
    by_cases hzero : i = 0
    · subst hzero
      have hmem : u.symbol ∈ (E 0).exports D.table := hexport
      rw [if_pos rfl, if_pos hmem]
    · have hnot : u.symbol ∉ (E i).exports D.table := fun hmem =>
        hother (Nat.pos_of_ne_zero hzero) hi (mem_ownSymbols_of_mem_exports hmem)
      rw [if_neg hzero, if_neg hnot]
  refine ⟨fun i => if i = 0 then u.symbol else rename (F i).aliases u.symbol, E', rfl,
    fun i hi => ⟨hentities ▸ hE' i hi, hsymbol i hi⟩, fun i hpos hi => ?_,
    fun i hi => ⟨(F i).aliases, _, hconnects i (Nat.le_of_lt hi), fun inst hinst hentity => ?_⟩,
    fun value flow storage hkind herrors => ?_⟩
  · have hkey := hkeys hpos hi
    have halias := ((hrecords i hi).framed.aliases _ (mem_of_mem_keys hkey)).2
    have hnew := halias.not_entity hD
    simp only [if_neg (Nat.ne_of_gt hpos)]
    exact ⟨(hrecords i hi).filter_decls (hlifted hi) hkey (hdecls i hi), halias.name hnew, halias.kind hnew,
      ((hrecords i hi).ports _ (hports hpos hi)).2⟩
  · have hnodup : ((E i).instances.map (·.symbol)).Nodup := by
      have hbelow := honce.2.1.sublist ((entitiesList_sublist r.entities (hall (Nat.le_of_lt hi))).flatMap ownSymbols)
      rw [flatMap_cons, nodup_append, ownSymbols, nodup_append, nodup_append] at hbelow
      exact hbelow.1.1.2.1
    have hwires := (hrecords i (Nat.le_of_lt hi)).wires hD (hrecords (i + 1) hi) (hlevel i hi).2 hnodup hinst hentity
      (hkeys (Nat.succ_pos i) hi) hconst
    rw [hsource i (Nat.le_of_lt hi)] at hwires
    exact hwires
  · have hexclusive : isExclusive (c.symbols.kind u.symbol) = true := by rw [hkind]; rfl
    have hwire : asWire (c.symbols.kind u.symbol) = .output value flow .wire := by rw [hkind]; rfl
    obtain ⟨huser, hkeeps⟩ := hstorage hexclusive
    have hlen := hnone herrors u.symbol
    rw [← hkind, ← hwire]
    refine ⟨?_, fun i hi => ?_⟩
    · simp only [if_neg (Nat.ne_of_gt hk)]
      exact hkeeps hlen
    · by_cases hzero : i = 0
      · simp only [if_pos hzero]
        exact ((hrecords 1 hk).ports _ (hports Nat.one_pos hk)).1
      · simp only [if_neg hzero]
        refine (hrecords i (Nat.le_of_lt hi)).passed _ (hkeys (Nat.pos_of_ne_zero hzero) (Nat.le_of_lt hi)) hexclusive fun hmem => ?_
        exact symbol_ne_on_path hpath hE honce.1 hi (Nat.le_refl k) (eq_of_mem_of_length_le_one hlen hmem huser)

namespace ThreeLevels

def level : Nat → Entity
  | 0 => top
  | 1 => mid
  | _ => leaf

/-- The output of the outermost entity, which the innermost one drives, is wired through the one in between. -/
theorem output_wired_through : (∀ i < 2, level (i + 1) ∈ (level i).entities) ∧
    ∃ out c', pass.run design ⟨{ symbols := table }, {}⟩ = .ok out ⟨c', {}⟩ ∧ ∃ (y : Nat → Symbol) (E' : Nat → Entity),
      y 0 = ⟨3⟩ ∧ (∀ i ≤ 2, E' i ∈ (out.getD design).entities ∧ (E' i).symbol = (level i).symbol) ∧
      (((E' 1).decls.map (·.symbol)).filter (fun t => c'.symbols.liftedFrom t == some ⟨3⟩) = [y 1] ∧
        c'.symbols.name (y 1) = "q" ∧ y 1 ∈ c'.symbols.entityPorts ⟨5⟩) ∧
      (((E' 2).decls.map (·.symbol)).filter (fun t => c'.symbols.liftedFrom t == some ⟨3⟩) = [y 2] ∧
        c'.symbols.name (y 2) = "q" ∧ y 2 ∈ c'.symbols.entityPorts ⟨6⟩) ∧
      (∃ m new, (E' 0).connects = top.connects.map (Connect.renamed m) ++ new ∧
        new.filter (Connect.joins ⟨7⟩ "q" ⟨3⟩) = [⟨{}, (Expr.ref {} ⟨7⟩).dot "q", [.ref {} ⟨3⟩]⟩]) ∧
      (∃ m new, (E' 1).connects = mid.connects.map (Connect.renamed m) ++ new ∧
        new.filter (Connect.joins ⟨8⟩ "q" (y 1)) = [⟨{}, (Expr.ref {} ⟨8⟩).dot "q", [.ref {} (y 1)]⟩]) ∧
      (c'.reporter.errorCount = 0 → c'.symbols.kind (y 2) = .output (.uint 8) .none .reg ∧
        c'.symbols.kind (y 1) = .output (.uint 8) .none .wire ∧ c'.symbols.kind ⟨3⟩ = .output (.uint 8) .none .wire) := by
  have hpath : ∀ i < 2, level (i + 1) ∈ (level i).entities := by
    intro i hi
    match i, hi with
    | 0, _ => exact mem_singleton_self mid
    | 1, _ => exact mem_singleton_self leaf
  obtain ⟨out, c', hrun, hwired⟩ := ports_wired_through (c := { symbols := table }) design_liftable (by decide)
  obtain ⟨y, E', hy, hE', haliases, hconnects, hstorage⟩ := hwired 2 level ⟨3⟩ (by decide)
    (by simp [level, design, Root.allEntities_eq])
    hpath (by decide) rfl (by decide)
  obtain ⟨hdecls1, hname1, -, hport1⟩ := haliases 1 (by decide) (by decide)
  obtain ⟨hdecls2, hname2, -, hport2⟩ := haliases 2 (by decide) (by decide)
  obtain ⟨m0, new0, hconnects0, hnew0⟩ := hconnects 0 (by decide)
  obtain ⟨m1, new1, hconnects1, hnew1⟩ := hconnects 1 (by decide)
  refine ⟨hpath, out, c', hrun, y, E', hy, hE', ⟨hdecls1, hname1, hport1⟩, ⟨hdecls2, hname2, hport2⟩, ⟨m0, new0, hconnects0, ?_⟩,
    ⟨m1, new1, hconnects1, ?_⟩, fun herrors => ?_⟩
  · have h := hnew0 ⟨{}, ⟨7⟩, ⟨5⟩⟩ (mem_singleton_self _) rfl
    rwa [hy] at h
  · exact hnew1 ⟨{}, ⟨8⟩, ⟨6⟩⟩ (mem_singleton_self _) rfl
  · obtain ⟨hlast, hwires⟩ := hstorage (.uint 8) .none .reg rfl herrors
    exact ⟨hlast, hwires 1 (by decide), hy ▸ hwires 0 (by decide)⟩

end ThreeLevels

namespace TwinLeaves

def table : SymbolTable :=
  ⟨#[.value 1 "x" (.input (.uint 8) .none), .value 2 "i" (.inst ⟨3⟩), .entity 3 "top" [⟨0⟩], .entity 4 "leaf" [],
    .value 5 "a" (.uint 8), .value 6 "b" (.uint 8)]⟩

def leaf (own : Symbol) : Entity where
  loc := {}
  symbol := ⟨3⟩
  decls := [⟨{}, own, none⟩]
  stmts := [.assign {} (.ref {} own) (.ref {} ⟨0⟩)]

def top : Entity where
  loc := {}
  symbol := ⟨2⟩
  decls := [⟨{}, ⟨0⟩, none⟩]
  entities := [leaf ⟨4⟩, leaf ⟨5⟩]
  instances := [⟨{}, ⟨1⟩, ⟨3⟩⟩]

def joints (r : Root) (c : Context) : List Nat :=
  match pass.run r ⟨c, {}⟩ with
  | .ok (some out) _ => out.entities.map (·.connects.countP (Connect.joins ⟨1⟩ "x" ⟨0⟩))
  | _ => []

/-- Two nested entities that share a symbol share their instance, whose port is then connected for each of them. -/
theorem connected_twice : ∃ out s', pass.run { entities := [top] } ⟨{ symbols := table }, {}⟩ = .ok (some out) s' ∧
    out.entities.map (·.connects.countP (Connect.joins ⟨1⟩ "x" ⟨0⟩)) = [2, 0, 0] := by
  have h : joints { entities := [top] } { symbols := table } = [2, 0, 0] := by decide +kernel
  unfold joints at h
  split at h
  · exact ⟨_, _, by assumption, h⟩
  · cases h

end TwinLeaves

end Nesting

end HdlLowering
