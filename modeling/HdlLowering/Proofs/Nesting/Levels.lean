import HdlLowering.Proofs.Nesting.Frames

/-!
# Lifting level by level

`Levels` is the walk of entities inside others, with what is known of every state on the way.
-/

namespace HdlLowering

open List

/-- An entity refers to a symbol, or an entity nested in it does and it does not declare the symbol as a port or constant. -/
inductive Entity.Reaches (Γ : SymbolTable) (x : Symbol) : Entity → Prop where
  | refers {e : Entity} {u : Use} (mem : u ∈ Node.references e.ownNodes) (symbol : u.symbol = x) : Reaches Γ x e
  | nested {e c : Entity} (mem : c ∈ e.entities) (reaches : Reaches Γ x c) (undeclared : x ∉ e.exports Γ) : Reaches Γ x e

namespace Nesting

open Substitution (keys targets)

variable {D : Setting} {own : List Symbol} {E : List (List Symbol)} {e e' : Entity} {es es' out nested : List Entity}
  {f f' p p' p'' : Frame} {F : List Frame} {s s1 s2 s3 s' s'' : Session State} {x : Symbol} {V : Symbol → Option Expr → Prop}
  {W : Symbol → Prop}

theorem Amid.framed (h : Amid D (own :: E) s) (hframes : s.own.frames.items = f :: F) : Framed D s.ctx E.flatten f own := by
  have hall := h.frames
  rw [hframes] at hall
  cases hall with
  | cons framed _ => exact framed

theorem Amid.exists_frame (h : Amid D (own :: E) s) : ∃ f F, s.own.frames.items = f :: F := by
  have hall := h.frames
  generalize s.own.frames.items = items at hall
  cases hall
  exact ⟨_, _, rfl⟩

/-! ## The frame around -/

def owed (Γ : SymbolTable) (f : Frame) (x : Symbol) : Nat := f.obligations.countP fun o => Γ.liftedFrom o.port == some x

/-- How the frame of an entity that declares `own`, inside others that declare `E`, grows while the entities `es` in it are
lifted: by aliases of ports that these reach and by wires for them, for an exclusive port no more than it gets users. -/
structure Grown (D : Setting) (own : List Symbol) (E : List (List Symbol)) (es : List Entity) (s : Session State) (p : Frame)
    (s' : Session State) (p' : Frame) : Prop where
  reporter : s'.ctx.reporter = s.ctx.reporter
  users : ∀ x, usersOf s.own.users x <+: usersOf s'.own.users x
  aliases : ∃ more : Substitution, p'.aliases = p.aliases ++ more ∧ ∀ a ∈ more, a.1 ∉ own ∧
    (D.table.kind a.1).isConst = false ∧ (∃ c ∈ es, c.Reaches D.table a.1) ∧
    (¬D.entity a.2 → s'.ctx.symbols.kind a.2 = asWire (D.table.kind a.1)) ∧
    (isExclusive (D.table.kind a.1) = true → (usersOf s.own.users a.1).length < (usersOf s'.own.users a.1).length)
  obligations : ∃ more, p'.obligations = p.obligations ++ more ∧ ∀ o ∈ more, ∃ c ∈ es, o.child = c.symbol ∧
    ∃ x ∈ own ++ E.flatten, s'.ctx.symbols.liftedFrom o.port = some x ∧ c.Reaches D.table x
  balance : ∀ x, isExclusive (D.table.kind x) = true → owed s'.ctx.symbols p' x + (usersOf s.own.users x).length ≤
    owed s.ctx.symbols p x + (usersOf s'.own.users x).length

theorem Grown.nil (D : Setting) (own : List Symbol) (E : List (List Symbol)) (s : Session State) (p : Frame) :
    Grown D own E [] s p s p :=
  ⟨rfl, fun _ => prefix_rfl, ⟨[], by simp, by simp⟩, ⟨[], by simp, by simp⟩, fun _ _ => Nat.le_refl _⟩

theorem Grown.trans
    (h : Grown D own E es s p s' p') (h' : Grown D own E es' s' p' s'' p'') (hp' : Framed D s'.ctx E.flatten p' own)
    (hstays : Stays D.entity W V s'.ctx s''.ctx) :
    Grown D own E (es ++ es') s p s'' p'' where
  reporter := h'.reporter.trans h.reporter
  users x := (h.users x).trans (h'.users x)
  aliases := by
    obtain ⟨more, hmore, hnew⟩ := h.aliases
    obtain ⟨more', hmore', hnew'⟩ := h'.aliases
    refine ⟨more ++ more', by rw [hmore', hmore, append_assoc], fun a ha => ?_⟩
    rcases mem_append.mp ha with ha | ha
    · obtain ⟨hown, hconst, ⟨c, hc, hreaches⟩, hkind, hlt⟩ := hnew a ha
      have hlisted := (hp'.aliases a (hmore ▸ mem_append_right _ ha)).2.listed
      exact ⟨hown, hconst, ⟨c, mem_append_left _ hc, hreaches⟩, fun hentity => hstays.wire hlisted hentity (hkind hentity),
        fun hx => Nat.lt_of_lt_of_le (hlt hx) (h'.users _).length_le⟩
    · obtain ⟨hown, hconst, ⟨c, hc, hreaches⟩, hkind, hlt⟩ := hnew' a ha
      exact ⟨hown, hconst, ⟨c, mem_append_right _ hc, hreaches⟩, hkind,
        fun hx => Nat.lt_of_le_of_lt (h.users _).length_le (hlt hx)⟩
  obligations := by
    obtain ⟨more, hmore, hnew⟩ := h.obligations
    obtain ⟨more', hmore', hnew'⟩ := h'.obligations
    refine ⟨more ++ more', by rw [hmore', hmore, append_assoc], fun o ho => ?_⟩
    rcases mem_append.mp ho with ho | ho
    · obtain ⟨c, hc, hchild, x, hx, hlifted, hreaches⟩ := hnew o ho
      obtain ⟨_, -, -, halias, -⟩ := hp'.obligations o (hmore ▸ mem_append_right _ ho)
      exact ⟨c, mem_append_left _ hc, hchild, x, hx, (hstays.liftedFrom halias.listed).trans hlifted, hreaches⟩
    · obtain ⟨c, hc, hnew⟩ := hnew' o ho
      exact ⟨c, mem_append_right _ hc, hnew⟩
  balance x hx := by
    have hfirst := h.balance x hx
    have hsecond := h'.balance x hx
    omega

/-! ## Entities -/

/-- An entity that is lifted inside entities that declare `E`: it is opened with the frame `f`, what is nested in it is lifted, and
it is closed with the frame `f'`. -/
structure Lifted (D : Setting) (E : List (List Symbol)) (e : Entity) (s : Session State) (f : Frame) (s1 : Session State)
    (nested : List Entity) (s2 : Session State) (f' : Frame) (e' : Entity) (s3 : Session State) : Prop where
  reads : D.Reads e
  before : Amid D E s
  entered : Entered D E e s f s1
  stays : Stays D.entity D.shared D.value s1.ctx s2.ctx
  grown : Grown D (e.exports D.table) E e.entities s1 f s2 f'
  amid : Amid D (e.exports D.table :: E) s2
  frames : s2.own.frames.items = f' :: s.own.frames.items
  result : Result D (e.renamed f.aliases f'.aliases nested) s2 f' e'
  shut : Shut D e.symbol f' s2 E s.own.frames.items s3
  closed : Amid D E s3

namespace Lifted

section

variable (h : Lifted D E e s f s1 nested s2 f' e' s3)
include h

theorem framed : Framed D s2.ctx E.flatten f' (e.exports D.table) :=
  h.amid.framed h.frames

theorem ports_outer : ∀ x ∈ keys (portsOf D.table f'.aliases), x ∈ E.flatten := by
  intro x hx
  obtain ⟨a, ha, rfl⟩ := mem_map.mp hx
  exact (h.framed.aliases a (mem_filter.mp ha).1).1

theorem mem_aliases (hx : x ∈ keys f'.aliases) : ((D.table.kind x).isConst = true ∨ e.Reaches D.table x) ∧
      (isExclusive (D.table.kind x) = true → (usersOf s.own.users x).length < (usersOf s2.own.users x).length) := by
  obtain ⟨more, hmore, hnew⟩ := h.grown.aliases
  rw [hmore, Substitution.keys, map_append] at hx
  rcases mem_append.mp hx with hx | hx
  · obtain ⟨hvisible, huse⟩ := h.entered.outer x hx
    have hshared := h.before.visible x hvisible
    refine ⟨huse.imp_right ?_, fun hexclusive => ?_⟩
    · rintro ⟨u, hu, hux⟩
      exact .refers hu hux
    · rw [← isExclusive_congr (h.before.since.asWire_kind (D.old hshared) (D.apart hshared))] at hexclusive
      obtain ⟨a, ha, rfl⟩ := mem_map.mp hx
      exact Nat.lt_of_lt_of_le (h.entered.made.counted a ha (h.before.since.listed (D.old hshared)) hexclusive).2
        (h.grown.users _).length_le
  · obtain ⟨a, ha, rfl⟩ := mem_map.mp hx
    obtain ⟨hown, -, ⟨c, hc, hreaches⟩, -, hlt⟩ := hnew a ha
    exact ⟨Or.inr (.nested hc hreaches hown), fun hexclusive =>
      Nat.lt_of_le_of_lt (h.entered.made.users _).length_le (hlt hexclusive)⟩

end

theorem grows (h : Lifted D (own :: E) e s f s1 nested s2 f' e' s3) (hframes : s.own.frames.items = p :: F) : ∃ p',
    s3.own.frames.items = p' :: F ∧ Handed D own e.symbol (portsOf D.table f'.aliases) s2.ctx s3.ctx p p' ∧
      s3.own.users = s2.own.users ∧ Grown D own E [e] s p s3 p' := by
  have hshut := h.shut
  rw [hframes] at hshut
  cases hshut with | @inside _ _ _ p' _ _ frames3 handed husers hreporter _ => ?_
  refine ⟨p', frames3, handed, husers, ?_⟩
  have hstays : Stays D.entity D.shared (fun _ _ => True) s.ctx s2.ctx :=
    (h.entered.stays.mono (fun _ h => h) (fun _ h => h.elim) fun _ _ _ => trivial).trans
      (h.stays.mono (fun _ h => h) (fun _ h => h) fun _ _ _ => trivial)
  have hports : ∀ x ∈ keys (portsOf D.table f'.aliases), x ∈ own ++ E.flatten ∧ (D.table.kind x).isConst = false ∧
      e.Reaches D.table x ∧ (isExclusive (D.table.kind x) = true →
        (usersOf s.own.users x).length < (usersOf s3.own.users x).length) := by
    intro x hx
    refine ⟨h.ports_outer x hx, ?_⟩
    obtain ⟨a, ha, rfl⟩ := mem_map.mp hx
    obtain ⟨ha, hconst⟩ := mem_filter.mp ha
    obtain ⟨hreaches, hlt⟩ := h.mem_aliases (mem_map_of_mem ha)
    simp only [Bool.not_eq_eq_eq_not, Bool.not_true] at hconst
    rw [husers]
    exact ⟨hconst, hreaches.resolve_left (by rw [hconst]; exact Bool.false_ne_true), hlt⟩
  have hgrow : ∀ x, usersOf s.own.users x <+: usersOf s3.own.users x := fun x => by
    rw [husers]
    exact (h.entered.made.users x).trans (h.grown.users x)
  have hlifted : ∀ a ∈ portsOf D.table f'.aliases, s3.ctx.symbols.liftedFrom a.2 = some a.1 := fun a ha =>
    ((h.framed.aliases a (mem_filter.mp ha).1).2.later handed.stays).lifted
  refine ⟨by rw [hreporter, h.grown.reporter, h.entered.made.reporter], hgrow, ?_, ⟨_, handed.obligations, ?_⟩, fun x hx => ?_⟩
  · obtain ⟨more, hmore, hnew⟩ := handed.aliases
    refine ⟨more, hmore, fun a ha => ?_⟩
    obtain ⟨hkey, hown, hkind⟩ := hnew a ha
    obtain ⟨hvisible, hconst, hreaches, hlt⟩ := hports a.1 hkey
    have hshared := h.before.visible _ hvisible
    refine ⟨hown, hconst, ⟨e, mem_singleton_self e, hreaches⟩, fun hentity => ?_, hlt⟩
    rw [hkind hentity, h.amid.since.asWire_kind (D.old hshared) (D.apart hshared)]
  · intro o ho
    obtain ⟨a, ha, rfl⟩ := mem_map.mp ho
    obtain ⟨hvisible, -, hreaches, -⟩ := hports a.1 (mem_map_of_mem ha)
    exact ⟨e, mem_singleton_self e, rfl, a.1, hvisible, hlifted a ha, hreaches⟩
  · -- the frame owes one more wire when the entity has a port for the symbol
    have hnodup : (keys (portsOf D.table f'.aliases)).Nodup := h.framed.nodup.sublist (filter_sublist.map _)
    have hnew : (portsOf D.table f'.aliases).countP (fun a => s3.ctx.symbols.liftedFrom a.2 == some x) =
        (keys (portsOf D.table f'.aliases)).count x := by
      rw [Substitution.keys, List.count, countP_map]
      refine countP_congr fun a ha => ?_
      rw [hlifted a ha, Function.comp_apply]
      simp
    have hold : owed s3.ctx.symbols p x = owed s.ctx.symbols p x := by
      refine countP_congr fun o ho => ?_
      obtain ⟨_, -, -, halias, -⟩ := (h.before.framed hframes).obligations o ho
      rw [handed.stays.liftedFrom (hstays.listed halias.listed), hstays.liftedFrom halias.listed]
    have hsplit : owed s3.ctx.symbols p' x = owed s.ctx.symbols p x + (keys (portsOf D.table f'.aliases)).count x := by
      rw [owed, handed.obligations, countP_append, countP_map, ← hnew, ← hold]
      rfl
    have hle := (hgrow x).length_le
    by_cases hkey : x ∈ keys (portsOf D.table f'.aliases)
    · have hlt := (hports x hkey).2.2.2 hx
      have hone := nodup_iff_count_le_one.mp hnodup x
      omega
    · rw [count_eq_zero.mpr hkey] at hsplit
      omega

theorem outermost (h : Lifted D [] e s f s1 nested s2 f' e' s3) : Stays D.entity (fun _ => False) D.fresh s2.ctx s3.ctx ∧
    s.ctx.reporter.errorCount ≤ s3.ctx.reporter.errorCount ∧
    (s3.ctx.reporter.errorCount = s.ctx.reporter.errorCount → ∀ x, (usersOf s2.own.users x).length ≤ 1) := by
  have hshut := h.shut
  have hsame : s2.ctx.reporter = s.ctx.reporter := h.grown.reporter.trans h.entered.made.reporter
  generalize s.own.frames.items = items at hshut
  cases hshut with
  | outermost own stays errors single =>
    rw [hsame] at errors single
    exact ⟨stays, errors, single⟩

end Lifted

/-! ## Walks -/

/-- Entities that are lifted one after the other, inside entities that declare `E`. -/
inductive Levels (D : Setting) : List (List Symbol) → List Entity → Session State → List Entity → Session State → Prop where
  | nil (E : List (List Symbol)) (s : Session State) : Levels D E [] s [] s
  | cons {E : List (List Symbol)} {e e' : Entity} {es nested rest : List Entity} {f f' : Frame} {s s1 s2 s3 s' : Session State}
    (here : Lifted D E e s f s1 nested s2 f' e' s3) (inside : Levels D (e.exports D.table :: E) e.entities s1 nested s2)
    (after : Levels D E es s3 rest s') : Levels D E (e :: es) s (e' :: nested ++ rest) s'

namespace Levels

theorem reads (h : Levels D E es s out s') : D.ReadsAll es := by
  induction h with
  | nil => exact nofun
  | cons here _ _ ih ih' => exact Setting.readsAll_cons.mpr ⟨here.reads, ih, ih'⟩

theorem own_eq (h : Levels D E es s out s') : E = [] → s.own = {} → s'.own = {} := by
  induction h with
  | nil => exact fun _ hs => hs
  | cons here _ _ _ ih' =>
    rintro rfl hs
    have hshut := here.shut
    rw [hs] at hshut
    cases hshut with
    | outermost own => exact ih' rfl own

theorem stays (h : Levels D E es s out s') (hE : ∀ x ∈ E.flatten, W x)
    (hes : ∀ c ∈ Node.entities (Entity.nodesList es), (∀ x ∈ c.exports D.table, W x) ∧ ∀ d ∈ c.decls, V d.symbol d.init)
    (hfresh : ∀ x init, D.fresh x init → V x init) : Stays D.entity W V s.ctx s'.ctx := by
  induction h with
  | nil E s => exact .refl _ _ _ _
  | @cons E e e' es nested rest f f' s s1 s2 s3 s' here inside after ih ih' =>
    rw [Node.entities_nodesList_cons, forall_mem_cons, forall_mem_append] at hes
    obtain ⟨⟨hexports, hdecls⟩, hinside, hafter⟩ := hes
    have hentered : Stays D.entity W V s.ctx s1.ctx := by
      refine here.entered.stays.mono (fun _ h => h) (fun _ h => h.elim) ?_
      rintro _ _ ⟨d, hd, rfl, rfl⟩
      exact hdecls d hd
    have hshut : Stays D.entity W V s2.ctx s3.ctx := by
      have houter := here.ports_outer
      have hshut := here.shut
      generalize s.own.frames.items = items at hshut
      cases hshut with
      | outermost _ stays => exact stays.mono (fun _ h => h) (fun _ h => h.elim) hfresh
      | inside _ handed => exact handed.stays.mono (fun _ h => h) (fun x hx => hE x (houter x hx)) hfresh
    refine hentered.trans ((ih (fun x hx => ?_) hinside).trans (hshut.trans (ih' hE hafter)))
    exact (mem_append.mp hx).elim (hexports x) (hE x)

theorem since (h : Levels D E es s out s') (hE : ∀ x ∈ E.flatten, D.shared x) : Stays D.entity D.shared D.value s.ctx s'.ctx :=
  h.stays hE (fun c hc => ⟨(h.reads c hc).exports, fun d hd => ((h.reads c hc).decls d hd).2⟩) fun _ _ h => D.made h

/-- While entities are lifted inside another one, its frame grows: by aliases that it passes on and by wires to the ports of
these entities, no more of them for an exclusive port than it gets users. -/
theorem grown (h : Levels D E es s out s') : ∀ {own : List Symbol} {E' : List (List Symbol)} {p : Frame} {F : List Frame},
    E = own :: E' → s.own.frames.items = p :: F → ∃ p', s'.own.frames.items = p' :: F ∧ Grown D own E' es s p s' p' := by
  induction h with
  | nil E s => exact fun _ hframes => ⟨_, hframes, .nil _ _ _ _ _⟩
  | cons here _ after _ ih' =>
    rintro own E p F rfl hframes
    obtain ⟨p3, hframes3, -, -, hhere⟩ := here.grows hframes
    obtain ⟨p', hframes', hafter⟩ := ih' rfl hframes3
    exact ⟨p', hframes', hhere.trans hafter (here.closed.framed hframes3) (after.since here.closed.visible)⟩

end Levels

/-- Every walk goes level by level. -/
theorem Lifting.levels (h : Lifting es s out s') : ∀ {E : List (List Symbol)}, Amid D E s → D.ReadsAll es →
    Levels D E es s out s' ∧ Amid D E s' := by
  induction h with
  | nil s => exact fun hamid _ => ⟨.nil _ s, hamid⟩
  | @cons e e' es nested rest s s1 s2 s3 s' enter inside close after ih ih' =>
    intro E hamid hreads
    obtain ⟨he, hinside, hafter⟩ := Setting.readsAll_cons.mp hreads
    obtain ⟨f, hentered⟩ := hamid.enter he enter
    obtain ⟨hlevels, hamid2⟩ := ih hentered.amid hinside
    obtain ⟨f', hframes, hgrown⟩ := hlevels.grown rfl hentered.frames
    have htop1 : s1.own.top = f := by rw [State.top, Scopes.top?, hentered.frames]; rfl
    have htop2 : s2.own.top = f' := by rw [State.top, Scopes.top?, hframes]; rfl
    rw [htop1, htop2] at close
    obtain ⟨hresult, hshut, hamid3⟩ := hamid2.close hframes (e := e.renamed f.aliases f'.aliases nested) he.symbol
      (inside.forall_symbol fun c hc => (hinside c hc).symbol) close
    obtain ⟨hrest, hamid'⟩ := ih' hamid3 hafter
    have hstays := hlevels.since hentered.amid.visible
    exact ⟨.cons ⟨he, hamid, hentered, hstays, hgrown, hamid2, hframes, hresult, hshut, hamid3⟩ hlevels hrest, hamid'⟩

end Nesting

end HdlLowering
