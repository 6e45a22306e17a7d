import HdlLowering.Proofs.Nesting.Scoping
import HdlLowering.Proofs.Nesting.Symbols
import HdlLowering.Proofs.Nesting.Uses
import HdlLowering.Proofs.Traversal.Renaming

/-!
# The steps of lifting

One lemma for each step of the pass: opening an entity records the values of its constants and makes aliases of the outer
symbols that it uses (`enterEntity_ok`); closing it hands its ports over (`oblige_ok`).
-/

namespace HdlLowering.Nesting

open List ContextM PassM SymbolTable Frame Kind

open Substitution (keys targets)

variable {S W : Symbol → Prop} {V : Symbol → Option Expr → Prop} {s : Session State} {x : Symbol}

/-! ## The users of exclusive ports -/

def usersOf (users : List (Symbol × List Symbol)) (x : Symbol) : List Symbol := (users.lookup x).getD []

theorem lookup_map_users (port entity x : Symbol) : ∀ users : List (Symbol × List Symbol),
    (users.map fun (p, es) => if p == port then (p, es ++ [entity]) else (p, es)).lookup x =
      (users.lookup x).map fun es => if x = port then es ++ [entity] else es
  | [] => rfl
  | (p, es) :: users => by
    have hhead : (if p == port then (p, es ++ [entity]) else (p, es)) = (p, if p = port then es ++ [entity] else es) := by
      by_cases hp : p = port <;> simp [hp]
    rw [map_cons]
    dsimp only
    rw [hhead, lookup_cons, lookup_cons, lookup_map_users port entity x users]
    by_cases hx : x = p
    · subst hx
      simp
    · simp [beq_false_of_ne hx]

theorem usersOf_addUser (users : List (Symbol × List Symbol)) (port entity x : Symbol) :
    usersOf (addUser users port entity) x = if x = port then usersOf users port ++ [entity] else usersOf users x := by
  unfold addUser usersOf
  split
  · rename_i hany
    rw [lookup_map_users]
    by_cases hx : x = port
    · subst hx
      obtain ⟨es, hlookup⟩ : ∃ es, users.lookup x = some es := exists_lookup (by simpa using hany)
      simp [hlookup]
    · simp [hx]
  · rename_i hany
    have hnone : users.lookup port = none := lookup_eq_none.mpr (by simpa using hany)
    rw [lookup_append]
    by_cases hx : x = port
    · subst hx
      simp [hnone]
    · simp [hx, beq_false_of_ne hx, lookup_cons]

theorem mem_of_usersOf {users : List (Symbol × List Symbol)} (h : usersOf users x ≠ []) : (x, usersOf users x) ∈ users := by
  unfold usersOf at h ⊢
  cases hlookup : users.lookup x with
  | none =>
    rw [hlookup] at h
    exact absurd rfl h
  | some es =>
    exact mem_of_lookup hlookup

/-! ## Opening an entity -/

variable (entity : Symbol)

theorem makeAlias_eq (u : Use) (s : Session State) :
    makeAlias entity u s = .ok (u.symbol, ⟨s.ctx.symbols.entries.size⟩)
      ⟨withAlias s.ctx u.symbol (s.ctx.symbols.kind u.symbol),
        if isExclusive (s.ctx.symbols.kind u.symbol) then { s.own with users := addUser s.own.users u.symbol entity }
        else s.own⟩ := by
  have hlifted : setLiftedFrom ⟨s.ctx.symbols.entries.size⟩ u.symbol (withSymbol s.ctx
      { s.ctx.symbols.entry u.symbol with id := s.ctx.nextId, attrs := none }) =
        .ok () (withAlias s.ctx u.symbol (s.ctx.symbols.kind u.symbol)) := modify_withSymbol _ _ _
  have hkind : (withAlias s.ctx u.symbol (s.ctx.symbols.kind u.symbol)).symbols.kind u.symbol = s.ctx.symbols.kind u.symbol := by
    rw [kind, withAlias, withSymbol, entry_push]
    split <;> rfl
  rw [makeAlias, bind_ok (lift_ok (symbolLike_eq _ _)), bind_ok (lift_ok hlifted), bind_ok (symbols_ok _)]
  dsimp only
  rw [hkind]
  split <;> rfl

/-- What is made when an entity is opened: aliases with the kinds that the symbols have, each of which counts the entity among
the users when the symbol is an exclusive port. -/
structure Made (s : Session State) (aliases : Substitution) (s' : Session State) : Prop where
  reporter : s'.ctx.reporter = s.ctx.reporter
  users : ∀ x, usersOf s.own.users x <+: usersOf s'.own.users x
  makes : ∀ a ∈ aliases, a.1.index < s.ctx.symbols.entries.size → Makes s.ctx s'.ctx a.1 a.2 (s.ctx.symbols.kind a.1)
  counted : ∀ a ∈ aliases, a.1.index < s.ctx.symbols.entries.size → isExclusive (s.ctx.symbols.kind a.1) = true →
    entity ∈ usersOf s'.own.users a.1 ∧ (usersOf s.own.users a.1).length < (usersOf s'.own.users a.1).length

theorem Made.after {entity : Symbol} {s s1 s' : Session State} {aliases : Substitution} (h : Made entity s1 aliases s')
    (hstays : Stays (fun _ => False) (fun _ => False) V s.ctx s1.ctx) (hreporter : s1.ctx.reporter = s.ctx.reporter)
    (husers : ∀ x, usersOf s.own.users x <+: usersOf s1.own.users x) : Made entity s aliases s' where
  reporter := h.reporter.trans hreporter
  users x := (husers x).trans (h.users x)
  makes a ha hx := by
    have hkind := hstays.kind_eq hx (fun h => h) fun h => h
    exact hkind ▸ (h.makes a ha (hstays.listed hx)).earlier hstays hx fun h => h
  counted a ha hx hexclusive := by
    have hkind := hstays.kind_eq hx (fun h => h) fun h => h
    obtain ⟨hmem, hlt⟩ := h.counted a ha (hstays.listed hx) (hkind ▸ hexclusive)
    exact ⟨hmem, Nat.lt_of_le_of_lt (husers a.1).length_le hlt⟩

theorem makeAliases_ok : ∀ (us : List Use) (s : Session State),
    ∃ aliases s', us.mapM (makeAlias entity) s = .ok aliases s' ∧ keys aliases = names us ∧
      s'.own.frames = s.own.frames ∧ (∀ {S W V}, Stays S W V s.ctx s'.ctx) ∧ Made entity s aliases s'
  | [], s => ⟨[], s, rfl, rfl, rfl, .refl _ _ _ _, rfl, fun _ => prefix_rfl, nofun, nofun⟩
  | u :: us, s => by
    let c1 : Context := withAlias s.ctx u.symbol (s.ctx.symbols.kind u.symbol)
    let own1 : State := if isExclusive (s.ctx.symbols.kind u.symbol) then
      { s.own with users := addUser s.own.users u.symbol entity } else s.own
    have hframes1 : own1.frames = s.own.frames := by
      unfold own1
      split <;> rfl
    have husers1 : ∀ x, usersOf s.own.users x <+: usersOf own1.users x := by
      intro x
      unfold own1
      split
      · rw [usersOf_addUser]
        split
        · rename_i hx
          rw [hx]
          exact prefix_append _ _
        · exact prefix_rfl
      · exact prefix_rfl
    have hstays1 : ∀ {S W V}, Stays S W V s.ctx c1 := fun {S W V} => stays_withAlias S W V s.ctx _ _
    obtain ⟨aliases, s', hmapM, hkeys, hframes, hstays, hmade⟩ := makeAliases_ok us ⟨c1, own1⟩
    have hafter := hmade.after (s := s) (V := fun _ _ => False) hstays1 rfl husers1
    refine ⟨(u.symbol, ⟨s.ctx.symbols.entries.size⟩) :: aliases, s', ?_, congrArg (u.symbol :: ·) hkeys, hframes.trans hframes1,
      hstays1.trans hstays, hafter.reporter, hafter.users, ?_, ?_⟩
    · rw [mapM_cons, bind_ok (makeAlias_eq entity u s), bind_ok hmapM]
      rfl
    · rintro a (_ | ⟨_, ha⟩) hx
      · exact (makes_withAlias s.ctx u.symbol _).later (hstays (S := fun _ => False) (W := fun _ => False)
          (V := fun _ _ => False)) (fun h => h) fun h => h
      · exact hafter.makes a ha hx
    · rintro a (_ | ⟨_, ha⟩) hx hexclusive
      · have hpre := hmade.users u.symbol
        have hown1 : own1.users = addUser s.own.users u.symbol entity := by
          unfold own1
          rw [if_pos hexclusive]
        rw [hown1, usersOf_addUser, if_pos rfl] at hpre
        exact ⟨hpre.subset (by simp), Nat.lt_of_lt_of_le (by simp) hpre.length_le⟩
      · exact hafter.counted a ha hx hexclusive

theorem declares_declare (Γ Γ' : SymbolTable) (f : Frame) (s x : Symbol) :
    (f.declare Γ s).declares Γ' x = (f.declares Γ' x || (exported (Γ.kind s) && Γ.id s == Γ'.id x)) := by
  unfold declare declares exported
  cases hk : Γ.kind s <;>
    simp [SymbolSet.has_insert, member, isPort, isConst, Bool.or_comm, Bool.or_left_comm,
      Bool.or_assoc]

theorem declares_foldl (Γ Γ' : SymbolTable) (x : Symbol) : ∀ (ss : List Symbol) (f : Frame),
    (ss.foldl (declare Γ) f).declares Γ' x =
        (f.declares Γ' x || ss.any fun s => exported (Γ.kind s) && Γ.id s == Γ'.id x) ∧
      (ss.foldl (declare Γ) f).obligations = f.obligations
  | [], f => by simp
  | s :: ss, f => by
    obtain ⟨hdeclares, hobligations⟩ := declares_foldl Γ Γ' x ss (f.declare Γ s)
    rw [foldl_cons]
    refine ⟨?_, hobligations.trans ?_⟩
    · rw [hdeclares, declares_declare, any_cons, Bool.or_assoc]
    · rw [declare]
      split <;> rfl

theorem recordInit_ok (d : Decl) (c : Context) : ∃ c', recordInit d c = .ok () c' ∧ c'.reporter = c.reporter ∧
    ∀ {S W V}, V d.symbol d.init → Stays S W V c c' := by
  have hsymbols : ContextM.symbols c = .ok c.symbols c := rfl
  unfold recordInit
  rw [bind_ok hsymbols]
  split
  · exact ⟨_, rfl, rfl, fun hV => (stays_setInit hV rfl).1⟩
  · exact ⟨c, rfl, rfl, fun _ => .refl _ _ _ c⟩

/-- Opening an entity pushes its frame, with an alias of every outer symbol that it uses, after the values of its constants were
recorded in the compilation `c`. -/
theorem enterEntity_ok (e : Entity) (s : Session State) : ∃ s', enterEntity e s = .ok () s' ∧ ∃ f c,
    s'.own.frames.items = f :: s.own.frames.items ∧ f.obligations = [] ∧
    (∀ Γ x, f.declares Γ x = (e.decls.map (·.symbol)).any fun y => exported (c.symbols.kind y) && c.symbols.id y == Γ.id x) ∧
    (∀ {S W V}, (∀ d ∈ e.decls, V d.symbol d.init) → Stays S W V s.ctx c) ∧ (∀ {S W V}, Stays S W V c s'.ctx) ∧
    keys f.aliases = names (outerUses c.symbols s.own.frames e) ∧ Made e.symbol s f.aliases s' := by
  let P (c : Context) : Prop :=
    c.reporter = s.ctx.reporter ∧ ∀ {S W V}, (∀ d ∈ e.decls, V d.symbol d.init) → Stays S W V s.ctx c
  have hrecord : ∀ d ∈ e.decls, ∀ c, P c → ∃ c', recordInit d c = .ok () c' ∧ P c' := by
    rintro d hd c ⟨hreporter, hstays⟩
    obtain ⟨c', hrecord, hreporter', hstays'⟩ := recordInit_ok d c
    exact ⟨c', hrecord, hreporter'.trans hreporter, fun hV => (hstays hV).trans (hstays' (hV d hd))⟩
  obtain ⟨c, hforM, hreporter, hstays⟩ := forM_ok hrecord s.ctx ⟨rfl, fun _ => .refl _ _ _ _⟩
  have hnewFrame : newFrame e s.ctx = .ok ((e.decls.map (·.symbol)).foldl (declare c.symbols) {}) c := by
    rw [newFrame, bind_ok hforM]
    rfl
  have hdeclares : ∀ (aliases : Substitution) (Γ : SymbolTable) (x : Symbol),
      ({ (e.decls.map (·.symbol)).foldl (declare c.symbols) {} with aliases } : Frame).declares Γ x =
        (e.decls.map (·.symbol)).any fun y => exported (c.symbols.kind y) && c.symbols.id y == Γ.id x := fun _ Γ x =>
    (declares_foldl c.symbols Γ x _ {}).1.trans (Bool.false_or _)
  have hobligations := (declares_foldl c.symbols c.symbols default (e.decls.map (·.symbol)) {}).2
  rw [enterEntity, bind_ok (lift_ok hnewFrame), bind_ok (own_ok _)]
  dsimp only
  split
  · rename_i hempty
    refine ⟨_, rfl, _, c, rfl, hobligations, hdeclares [], hstays, .refl _ _ _ _, ?_, hreporter, fun _ => prefix_rfl, nofun,
      nofun⟩
    rw [outerUses_of_isEmpty hempty]
    rfl
  · obtain ⟨aliases, s', hmapM, hkeys, hframes, hstays', hmade⟩ :=
      makeAliases_ok e.symbol (outerUses c.symbols s.own.frames e) { s with ctx := c }
    rw [bind_ok (symbols_ok _), bind_ok hmapM]
    refine ⟨_, rfl, _, c, congrArg (fun frames : Scopes Frame => _ :: frames.items) hframes, hobligations, hdeclares aliases,
      hstays, hstays', hkeys, ?_⟩
    have hafter := hmade.after (s := s) (V := fun _ _ => True) (hstays fun _ _ => trivial) hreporter fun _ => prefix_rfl
    exact ⟨hafter.reporter, hafter.users, hafter.makes, hafter.counted⟩

/-! ## Closing an entity -/

/-- What the declaration of an alias is: the copy of a constant has its value in terms of the other aliases. -/
def DeclaresAlias (c : Context) (aliases : Substitution) (fresh : List Symbol) (a : Symbol × Symbol) (d : Decl) : Prop :=
  d.symbol = a.2 ∧ (a.1.index < c.symbols.entries.size → a.1 ∉ fresh → ∀ init, d.init = some init →
    (c.symbols.kind a.1).isConst = true ∧ ∃ init0, c.symbols.init a.1 = some init0 ∧ init = init0.renamed aliases)

theorem declareAlias_ok (loc : Loc) (aliases : Substitution) (x a : Symbol) (s : Session State) :
    ∃ d s', declareAlias loc aliases x a s = .ok d s' ∧ s'.own = s.own ∧ s'.ctx.reporter = s.ctx.reporter ∧
      (∀ {S W V}, (∀ init, V a init) → Stays S W V s.ctx s'.ctx) ∧ DeclaresAlias s.ctx aliases [] (x, a) d := by
  have hset : ∀ init, ∃ s' : Session State,
      (liftM (setInit a init) >>= fun _ => pure ⟨loc, a, init⟩ : PassM State Decl) s = .ok ⟨loc, a, init⟩ s' ∧
      s'.own = s.own ∧ s'.ctx.reporter = s.ctx.reporter ∧ ∀ {S W V}, (∀ init, V a init) → Stays S W V s.ctx s'.ctx :=
    fun init => ⟨_, rfl, rfl, rfl, fun hV => (stays_setInit (hV init) rfl).1⟩
  unfold declareAlias
  rw [bind_ok (symbols_ok s)]
  split
  · rename_i hconst
    cases hinit : s.ctx.symbols.init x with
    | none =>
      obtain ⟨s', h, hown, hreporter, hstays⟩ := hset none
      exact ⟨⟨loc, a, none⟩, s', h, hown, hreporter, hstays, rfl, fun _ _ _ h => by cases h⟩
    | some init =>
      obtain ⟨s', h, hown, hreporter, hstays⟩ := hset (some (init.renamed aliases))
      refine ⟨⟨loc, a, some (init.renamed aliases)⟩, s', ?_, hown, hreporter, hstays, rfl, ?_⟩
      · dsimp only
        rw [bind_ok (map_ok some (Substitution.applyExpr_eq aliases init s))]
        exact h
      · rintro - - _ ⟨⟩
        exact ⟨hconst, init, hinit, rfl⟩
  · exact ⟨⟨loc, a, none⟩, s, rfl, rfl, rfl, fun _ => .refl _ _ _ _, rfl, fun _ _ _ h => by cases h⟩

/-- Closing an entity declares its aliases. -/
theorem declareAliases_ok (loc : Loc) (aliases as : Substitution) (s : Session State) : ∃ decls s',
    (as.mapM fun (x, a) => declareAlias loc aliases x a : PassM State (List Decl)) s = .ok decls s' ∧ s'.own = s.own ∧
      s'.ctx.reporter = s.ctx.reporter ∧ (∀ {S W V}, (∀ a ∈ as, ∀ init, V a.2 init) → Stays S W V s.ctx s'.ctx) ∧
      Forall₂ (DeclaresAlias s.ctx aliases (targets as)) as decls := by
  let P (s' : Session State) : Prop := s'.own = s.own ∧ s'.ctx.reporter = s.ctx.reporter ∧
    ∀ {S W V}, (∀ a ∈ as, ∀ init, V a.2 init) → Stays S W V s.ctx s'.ctx
  have hstep : ∀ a ∈ as, ∀ s1, P s1 → ∃ d s2, declareAlias loc aliases a.1 a.2 s1 = .ok d s2 ∧ P s2 ∧
      DeclaresAlias s.ctx aliases (targets as) a d := by
    rintro a ha s1 ⟨hown, hreporter, hstays⟩
    obtain ⟨d, s2, hdeclare, hown', hreporter', hstays', hsymbol, hinit⟩ := declareAlias_ok loc aliases a.1 a.2 s1
    refine ⟨d, s2, hdeclare, ⟨hown'.trans hown, hreporter'.trans hreporter, fun hV => (hstays hV).trans (hstays' (hV a ha))⟩,
      hsymbol, fun hlisted hfresh init hd => ?_⟩
    -- declaring the aliases before left the kind and the value of the symbol
    have hold : Stays (fun _ => False) (fun _ => False) (fun x _ => x ∈ targets as) s.ctx s1.ctx :=
      hstays fun a ha _ => mem_map_of_mem ha
    obtain ⟨hconst, init0, hinit0, rfl⟩ := hinit (hold.listed hlisted) not_mem_nil init hd
    rw [hold.kind_eq hlisted (fun h => h) fun h => h] at hconst
    rw [(hold.init hlisted).resolve_right hfresh] at hinit0
    exact ⟨hconst, init0, hinit0, rfl⟩
  obtain ⟨decls, s', hmapM, ⟨hown, hreporter, hstays⟩, hall⟩ := mapM_ok hstep s ⟨rfl, rfl, fun _ => .refl _ _ _ _⟩
  exact ⟨decls, s', hmapM, hown, hreporter, hstays, hall⟩

theorem parentAlias_known {x y : Symbol}
    (h : ((s.own.frames.level? 1).getD {}).aliases.lookup x = some y) : parentAlias x s = .ok y s := by
  rw [parentAlias, bind_ok (own_ok s), h]
  rfl

theorem parentAlias_new (h : ((s.own.frames.level? 1).getD {}).aliases.lookup x = none) :
    parentAlias x s = .ok ⟨s.ctx.symbols.entries.size⟩ ⟨withAlias s.ctx x (asWire (s.ctx.symbols.kind x)), { s.own with
      frames := s.own.frames.modifyLevel 1 fun f => { f with aliases := f.aliases ++ [(x, ⟨s.ctx.symbols.entries.size⟩)] } }⟩ := by
  let like : SymbolEntry := { s.ctx.symbols.entry x with id := s.ctx.nextId, attrs := none }
  have hlike : (withSymbol s.ctx like).symbols.kind ⟨s.ctx.symbols.entries.size⟩ = s.ctx.symbols.kind x := by
    simp [withSymbol, like, kind, entry_push]
  have hkind : setKind ⟨s.ctx.symbols.entries.size⟩ (asWire (s.ctx.symbols.kind x)) (withSymbol s.ctx like) =
      .ok () (withSymbol s.ctx { like with kind := asWire (s.ctx.symbols.kind x) }) := modify_withSymbol _ _ _
  have hlifted : setLiftedFrom ⟨s.ctx.symbols.entries.size⟩ x
      (withSymbol s.ctx { like with kind := asWire (s.ctx.symbols.kind x) }) =
        .ok () (withAlias s.ctx x (asWire (s.ctx.symbols.kind x))) := modify_withSymbol _ _ _
  rw [parentAlias, bind_ok (own_ok s), h]
  dsimp only
  rw [bind_ok (lift_ok (symbolLike_eq _ _)), bind_ok (symbols_ok _)]
  dsimp only
  rw [hlike, bind_ok (lift_ok hkind), bind_ok (lift_ok hlifted)]
  rfl

def Frame.owe (as : Substitution) (o : Obligation) (f : Frame) : Frame :=
  { f with aliases := f.aliases ++ as, obligations := f.obligations ++ [o] }

def wired (c : Context) (x : Symbol) : Context :=
  { c with symbols := c.symbols.modify x fun e => { e with kind := asWire (c.symbols.kind x) } }

theorem stays_wired (hW : W x) (c : Context) : Stays S W V c (wired c x) := stays_asWire hW rfl

/-- Handing a port over makes the symbol it stands for a wire. The port is wired to the symbol where the entity around declares
it, else to the alias that this has or gets. -/
theorem oblige_ok (child x port : Symbol) {p : Frame} (hp : (s.own.frames.level? 1).getD {} = p) : ∃ y as c,
    oblige child x port s = .ok () ⟨c, { s.own with frames := s.own.frames.modifyLevel 1 (owe as ⟨child, port, y⟩) }⟩ ∧
      ((c = wired s.ctx x ∧ as = [] ∧
        (p.declares s.ctx.symbols x = true ∧ y = x ∨ p.declares s.ctx.symbols x = false ∧ p.aliases.lookup x = some y)) ∨
      (c = withAlias (wired s.ctx x) x (asWire ((wired s.ctx x).symbols.kind x)) ∧ as = [(x, y)] ∧
        y = ⟨(wired s.ctx x).symbols.entries.size⟩ ∧ p.declares s.ctx.symbols x = false ∧ p.aliases.lookup x = none)) := by
  have hkind : setKind x (asWire (s.ctx.symbols.kind x)) s.ctx = .ok () (wired s.ctx x) := rfl
  have howe : ∀ o, owe [] o = fun f : Frame => { f with obligations := f.obligations ++ [o] } := fun o => by
    funext f
    simp [owe]
  unfold oblige
  rw [bind_ok (symbols_ok s), bind_ok (lift_ok hkind), bind_ok (own_ok _), hp]
  dsimp only
  cases hdeclares : p.declares s.ctx.symbols x with
  | true => exact ⟨x, [], wired s.ctx x, by rw [howe]; rfl, Or.inl ⟨rfl, rfl, Or.inl ⟨rfl, rfl⟩⟩⟩
  | false =>
    rw [if_neg Bool.false_ne_true]
    cases hlookup : p.aliases.lookup x with
    | some y =>
      rw [bind_ok (parentAlias_known (s := { s with ctx := wired s.ctx x }) (hp ▸ hlookup))]
      exact ⟨y, [], wired s.ctx x, by rw [howe]; rfl, Or.inl ⟨rfl, rfl, Or.inr ⟨rfl, rfl⟩⟩⟩
    | none =>
      rw [bind_ok (parentAlias_new (s := { s with ctx := wired s.ctx x }) (hp ▸ hlookup))]
      refine ⟨_, _, _, ?_, Or.inr ⟨rfl, rfl, rfl, rfl, rfl⟩⟩
      rw [modifyOwn_ok]
      simp only [Scopes.modifyLevel, modify_modify_eq]
      rfl

/-- What was nested in an entity is renamed. -/
theorem renameChildren_ok (parent : String) (cs : List Entity) (s : Session State) : ∃ s',
    cs.forM (renameChild parent) s = .ok () s' ∧ s'.own = s.own ∧ s'.ctx.reporter = s.ctx.reporter ∧
      ∀ {S W V}, (∀ c ∈ cs, S c.symbol) → Stays S W V s.ctx s'.ctx := by
  let P (s' : Session State) : Prop := s'.own = s.own ∧ s'.ctx.reporter = s.ctx.reporter ∧
    ∀ {S W V}, (∀ c ∈ cs, S c.symbol) → Stays S W V s.ctx s'.ctx
  have hstep : ∀ c ∈ cs, ∀ s1, P s1 → ∃ s2, renameChild parent c s1 = .ok () s2 ∧ P s2 := by
    rintro c hc s1 ⟨hown, hreporter, hstays⟩
    exact ⟨_, rfl, hown, hreporter, fun hS => (hstays hS).trans (stays_rename (hS c hc) rfl)⟩
  obtain ⟨s', hforM, h⟩ := forM_ok hstep s ⟨rfl, rfl, fun _ => .refl _ _ _ _⟩
  exact ⟨s', hforM, h⟩

def report : Symbol × List Symbol → PassM State Unit := fun (port, users) => do
  let Γ ← PassM.symbols
  if 2 ≤ users.length then
    let names := users.map Γ.name
    match Γ.kind port with
    | .output .. => error (Γ.loc port) (.severalDrivers (Γ.name port) names)
    | _ => error (Γ.loc port) (.severalConsumers (Γ.name port) names)

theorem report_ok (u : Symbol × List Symbol) (s : Session State) : ∃ r,
    report u s = .ok () { s with ctx := { s.ctx with reporter := r } } ∧
      s.ctx.reporter.errorCount + (if 2 ≤ u.2.length then 1 else 0) = r.errorCount := by
  rw [report, bind_ok (symbols_ok s)]
  split
  · cases s.ctx.symbols.kind u.1 <;> exact ⟨_, rfl, rfl⟩
  · exact ⟨s.ctx.reporter, rfl, rfl⟩

theorem reports_ok : ∀ (users : List (Symbol × List Symbol)) (s : Session State), ∃ r,
    users.forM report s = .ok () { s with ctx := { s.ctx with reporter := r } } ∧ s.ctx.reporter.errorCount ≤ r.errorCount ∧
      (r.errorCount = s.ctx.reporter.errorCount → ∀ u ∈ users, u.2.length ≤ 1)
  | [], s => ⟨s.ctx.reporter, rfl, Nat.le_refl _, nofun⟩
  | u :: users, s => by
    obtain ⟨r, hu, hcount⟩ := report_ok u s
    obtain ⟨r', hrest, hle, hnone⟩ := reports_ok users { s with ctx := { s.ctx with reporter := r } }
    dsimp only at hle hnone
    refine ⟨r', (bind_ok hu).trans hrest, by omega, fun heq => ?_⟩
    rintro v (_ | ⟨_, hv⟩)
    · split at hcount <;> omega
    · exact hnone (by omega) v hv

/-- The ports with several users are reported. -/
theorem reportConflicts_ok (s : Session State) : ∃ r users,
    reportConflicts s = .ok () ⟨{ s.ctx with reporter := r }, { s.own with users }⟩ ∧
      (s.own.frames.items ≠ [] → r = s.ctx.reporter ∧ users = s.own.users) ∧
      (s.own.frames.items = [] → users = [] ∧ s.ctx.reporter.errorCount ≤ r.errorCount ∧
        (r.errorCount = s.ctx.reporter.errorCount → ∀ x, (usersOf s.own.users x).length ≤ 1)) := by
  unfold reportConflicts
  rw [bind_ok (own_ok s)]
  split
  · rename_i hempty
    obtain ⟨r, hforM, hle, hnone⟩ := reports_ok s.own.users s
    refine ⟨r, [], (bind_ok hforM).trans rfl, fun hopen => absurd (List.isEmpty_iff.mp hempty) hopen,
      fun _ => ⟨rfl, hle, fun heq x => ?_⟩⟩
    by_cases hx : usersOf s.own.users x = []
    · simp [hx]
    · exact hnone heq _ (mem_of_usersOf hx)
  · rename_i hopen
    refine ⟨s.ctx.reporter, s.own.users, rfl, fun _ => ⟨rfl, rfl⟩, fun hempty => absurd ?_ hopen⟩
    rw [Scopes.isEmpty, hempty]
    rfl

end HdlLowering.Nesting
