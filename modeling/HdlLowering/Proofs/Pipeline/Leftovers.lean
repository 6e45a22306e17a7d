import HdlLowering.Proofs.Pipeline.Ordering
import HdlLowering.Proofs.Sequence.Lasting

/-!
# Connections between stages that are left

A connection whose source is a stage and one of whose sinks is a stage is raw (`isRaw`). One with a single sink is a link, and
links are dropped or rewired to ports. All others stay, so the raw connections that are left are raw ones of the pipeline with
several sinks (`raw_left`).
-/

namespace HdlLowering.Pipeline

open List SymbolTable PassM

variable {Γ : SymbolTable} {e : Entity} {s s' : Session Unit} {lowered : List (Stage × Entity)} {stages : List Symbol}

/-- A connection from a stage as it stands to a stage as it stands, whatever the number of its sinks. -/
def isRaw (Γ : SymbolTable) (stages : List Symbol) (k : Connect) : Bool :=
  (stageOf? Γ stages k.source).isSome && k.sinks.any fun x => (stageOf? Γ stages x).isSome

/-! ## Stages keep their symbols -/

theorem Transferred.symbol_eq {st : Stage} {stage body : Entity} (h : Transferred st (.entity stage) (.node (.entity body))) :
    body.symbol = stage.symbol := by
  obtain ⟨hchildren, hself⟩ := h
  cases hchildren
  cases hself
  rfl

theorem Yields.any {ε σ α : Type} (r : EStateM.Result ε σ α) : Yields True (fun _ _ => True) r := by
  cases r <;> trivial

theorem lowerStage_symbol (stage : Entity) (here : SymbolSet) (before after : Option SymbolSet) (s : Session Unit) :
    Yields True (fun p _ => p.2.symbol = p.1.symbol) (lowerStage stage here before after s) := by
  refine (Yields.any _).bind fun ls s1 _ => (Yields.any _).bind fun input s2 _ => (Yields.any _).bind fun output s3 _ => ?_
  refine ((walk_stage (fun n _ => ⟨fun _ _ _ => trivial, fun _ _ _ => trivial⟩) s3).accept trivial).bind fun o s4 h => ?_
  exact (Yields.any _).bind fun Γ s5 _ => (Yields.any _).bind fun _ s6 _ => h.2.symbol_eq

theorem lowerChain_symbol : ∀ (before : Option SymbolSet) (stages : List (Entity × SymbolSet)) (s : Session Unit),
    Yields True (fun ls _ => ∀ p ∈ ls, p.2.symbol = p.1.symbol) (lowerChain before stages s)
  | _, [], _ => by
    rw [lowerChain]
    exact forall_mem_nil _
  | before, (stage, here) :: rest, s => by
    rw [lowerChain]
    refine (lowerStage_symbol _ _ _ _ s).bind fun p s1 hp => (lowerChain_symbol (some here) rest s1).bind fun ls s2 hls => ?_
    exact forall_mem_cons.mpr ⟨hp, hls⟩

theorem flatMapM_yields {α β : Type} {f : α → PassM Unit (List β)} {P : β → Prop}
    (h : ∀ a s, Yields True (fun bs _ => ∀ b ∈ bs, P b) (f a s)) : ∀ (xs : List α) (s : Session Unit),
    Yields True (fun bs _ => ∀ b ∈ bs, P b) (xs.flatMapM f s)
  | [], _ => fun _ hb => nomatch hb
  | x :: xs, s => by
    rw [flatMapM_cons]
    refine (h x s).bind fun bs s1 hbs => (flatMapM_yields h xs s1).bind fun cs s2 hcs => ?_
    exact forall_mem_append.mpr ⟨hbs, hcs⟩

theorem symbol_of_mem_replaced (h : ∀ p ∈ lowered, p.2.symbol = p.1.symbol) {x : Entity} :
    ∀ {children : List Entity}, x ∈ replaced lowered children → x.symbol ∈ children.map (·.symbol)
  | child :: rest, hx => by
    rw [replaced, mem_cons] at hx
    rw [map_cons, mem_cons]
    rcases hx with rfl | hx
    · left
      split
      · rfl
      · cases hfind : lowered.reverse.find? _ with
        | none => rfl
        | some p =>
          have hp := h p (mem_reverse.mp (mem_of_find?_eq_some hfind))
          have hchild := find?_some hfind
          exact hp.trans (beq_iff_eq.mp hchild)
    · exact .inr (symbol_of_mem_replaced h hx)

/-! ## Runs -/

theorem of_transform_ok {reply : Reply} (hvars : pipelined s.ctx.symbols e ≠ [])
    (hrun : pass.transform (.entity e) s = .ok reply s') :
    (reply = .keep ∧ ∃ ds, s.ctx.Blames ds s'.ctx ∧ ds ≠ []) ∨
      ∃ e' lowered, reply = .put (.node (.entity e')) ∧ e'.entities = replaced lowered e.entities ∧
        (∀ p ∈ lowered, p.2.symbol = p.1.symbol) ∧
        e'.connects = e.connects.filterMap (rewire s.ctx.symbols s'.ctx.symbols e lowered) := by
  change (symbols >>= _) s = _ at hrun
  rw [bind_ok (symbols_ok s), if_neg (not_isEmpty_carried hvars), lowerEntity] at hrun
  obtain ⟨o, s1, hlift, hrun⟩ := of_bind_ok hrun
  obtain ⟨c, hchains, rfl⟩ := of_lift_ok hlift
  cases o with
  | none =>
    obtain ⟨rfl, rfl⟩ := EStateM.Result.ok.inj hrun
    rcases stageChains_cases e s.ctx with ⟨hrun', -⟩ | ⟨ds, c', hrun', hblames, hne, -⟩
    · cases hrun'.symm.trans hchains
    · obtain ⟨-, rfl⟩ := EStateM.Result.ok.inj (hrun'.symm.trans hchains)
      exact .inl ⟨rfl, ds, hblames, hne⟩
  | some found =>
    right
    obtain ⟨rfl, -⟩ := stageChains_ok hchains
    dsimp only at hrun
    rw [bind_ok (symbols_ok s)] at hrun
    obtain ⟨lowered, s2, hlowered, hrun⟩ := of_bind_ok hrun
    rw [bind_ok (symbols_ok s2)] at hrun
    obtain ⟨rfl, rfl⟩ := EStateM.Result.ok.inj hrun
    refine ⟨_, lowered, rfl, rfl, ?_, rfl⟩
    refine (flatMapM_yields (fun ch s => ?_) found s).of_ok hlowered
    exact (Yields.any _).bind fun Γ s1 _ => lowerChain_symbol _ _ s1

/-! ## Instances -/

/-- No symbol of a table has become an instance, or one of another entity. -/
structure Instances (Γ : SymbolTable) (c : Context) : Prop where
  size : Γ.entries.size ≤ c.symbols.entries.size
  inst : ∀ x : Symbol, x.index < Γ.entries.size → ∀ t, c.symbols.instanceEntity? x = some t → Γ.instanceEntity? x = some t

theorem lasting_instances (Γ : SymbolTable) : Context.Lasting (fun _ => True) (Instances Γ) where
  closed := Kind.closed_true
  kinds _ _ := trivial
  push id e h _ := by
    refine ⟨Nat.le_trans h.size (by simp), fun x hx => ?_⟩
    have hold : x.index ≠ _ := Nat.ne_of_lt (Nat.lt_of_lt_of_le hx h.size)
    rw [instanceEntity?, kind, entry_push, if_neg hold]
    exact h.inst x hx
  modify s f h hname hkind := by
    rename_i c
    refine ⟨by simpa using h.size, fun x hx t => ?_⟩
    rw [instanceEntity?, kind, entry_modify]
    split
    · rcases hkind (c.symbols.entry x) with heq | ⟨ps, heq⟩
      · rw [heq]
        exact h.inst x hx t
      · rw [heq]
        rintro ⟨⟩
    · exact h.inst x hx t
  pass _ h := ⟨h.size, h.inst⟩
  report _ _ _ h := ⟨h.size, h.inst⟩
  internal h := ⟨h.size, h.inst⟩

theorem transform_instances {reply : Reply} (hrun : pass.transform (.entity e) s = .ok reply s') :
    Instances s.ctx.symbols s'.ctx := by
  have hsteady := (pass_steady (lasting_instances s.ctx.symbols) fun _ => trivial).transform (.entity e) () s
    ⟨⟨Nat.le_refl _, fun _ _ _ h => h⟩, rfl⟩
  rw [hrun] at hsteady
  exact hsteady.1

theorem stageOf?_of_instances {c : Context} {stages stages' : List Symbol} {x : Expr} (h : Instances Γ c)
    (hlisted : ∀ y, x.symbol? = some y → y.index < Γ.entries.size) (hstages : ∀ y ∈ stages', y ∈ stages)
    (hx : (stageOf? c.symbols stages' x).isSome = true) : (stageOf? Γ stages x).isSome = true := by
  obtain ⟨t, ht⟩ := Option.isSome_iff_exists.mp hx
  obtain ⟨hbind, hmem⟩ := Option.filter_eq_some_iff.mp ht
  obtain ⟨y, hy, hinst⟩ := Option.bind_eq_some_iff.mp hbind
  refine Option.isSome_iff_exists.mpr ⟨t, Option.filter_eq_some_iff.mpr ⟨?_, ?_⟩⟩
  · exact Option.bind_eq_some_iff.mpr ⟨y, hy, h.inst y (hlisted y hy) t hinst⟩
  · simpa using hstages t (by simpa using hmem)

/-! ## Raw connections -/

theorem not_isRaw_of_rewired {Γ Γ' : SymbolTable} {k k' : Connect} {l : Link}
    (h : rewired Γ' lowered k l = some k') : isRaw Γ stages k' = false := by
  unfold rewired at h
  obtain ⟨source, -, h⟩ := Option.bind_eq_some_iff.mp h
  obtain ⟨target, -, h⟩ := Option.bind_eq_some_iff.mp h
  obtain rfl := Option.some.inj h
  rfl

theorem length_ne_one_of_isRaw {k : Connect} (hraw : isRaw Γ stages k = true)
    (hlink : linkOf? Γ stages k = none) : k.sinks.length ≠ 1 := by
  intro hone
  obtain ⟨x, hx⟩ := length_eq_one_iff.mp hone
  rw [isRaw, hx, any_cons, any_nil, Bool.or_false, Bool.and_eq_true] at hraw
  obtain ⟨t, ht⟩ := Option.isSome_iff_exists.mp hraw.1
  obtain ⟨u, hu⟩ := Option.isSome_iff_exists.mp hraw.2
  rw [linkOf?, hx] at hlink
  simp [ht, hu] at hlink

/-- When a pipeline is lowered without an error, the raw connections that are left are among those it had, and none of them has
exactly one sink. -/
theorem raw_left {reply : Reply} (hvars : pipelined s.ctx.symbols e ≠ [])
    (hrefs : ∀ k ∈ e.connects, ∀ x ∈ k.source :: k.sinks, ∀ y, x.symbol? = some y → y.index < s.ctx.symbols.entries.size)
    (hrun : pass.transform (.entity e) s = .ok reply s') (hquiet : s'.ctx.reporter.errors = s.ctx.reporter.errors) :
    ∃ e', reply = .put (.node (.entity e')) ∧ ∀ k ∈ e'.connects, isRaw s'.ctx.symbols (e'.entities.map (·.symbol)) k = true →
      k ∈ e.connects ∧ isRaw s.ctx.symbols (e.entities.map (·.symbol)) k = true ∧ k.sinks.length ≠ 1 := by
  rcases of_transform_ok hvars hrun with ⟨-, ds, hblames, hne⟩ | ⟨e', lowered, rfl, hentities, hsymbols, hconnects⟩
  · -- whatever is wrong with the stages is reported as an error
    rw [Reporter.errors, hblames.reported, filter_append, ← Reporter.errors] at hquiet
    have hnone := self_eq_append_right.mp hquiet.symm
    rw [filter_eq_nil_iff] at hnone
    obtain ⟨d, hd⟩ := exists_mem_of_ne_nil _ hne
    exact absurd (by rw [hblames.errors d hd]; rfl) (hnone d hd)
  · refine ⟨e', rfl, fun k hk hraw => ?_⟩
    rw [hconnects] at hk
    obtain ⟨k0, hk0, hrewire⟩ := mem_filterMap.mp hk
    unfold rewire at hrewire
    split at hrewire
    · rw [not_isRaw_of_rewired hrewire] at hraw
      nomatch hraw
    · rename_i hlink
      obtain rfl := Option.some.inj hrewire
      have hstages : ∀ y ∈ e'.entities.map (·.symbol), y ∈ e.entities.map (·.symbol) := by
        intro y hy
        obtain ⟨x, hx, rfl⟩ := mem_map.mp hy
        exact symbol_of_mem_replaced hsymbols (hentities ▸ hx)
      have hlisted := forall_mem_cons.mp (hrefs k0 hk0)
      have hinst := transform_instances hrun
      have hold : isRaw s.ctx.symbols (e.entities.map (·.symbol)) k0 = true := by
        rw [isRaw, Bool.and_eq_true, any_eq_true] at hraw ⊢
        obtain ⟨hsource, x, hx, hsink⟩ := hraw
        exact ⟨stageOf?_of_instances hinst hlisted.1 hstages hsource, x, hx,
          stageOf?_of_instances hinst (hlisted.2 x hx) hstages hsink⟩
      exact ⟨hk0, hold, length_ne_one_of_isRaw hold hlink⟩

/-! ## A connection with two sinks -/

namespace Fanout

def table : SymbolTable :=
  ⟨#[.value 1 "v" (.pipeline (.uint 8)), .entity 2 "first" [], .entity 3 "second" [], .entity 4 "third" [], .value 5 "a" (.inst ⟨1⟩),
    .value 6 "b" (.inst ⟨2⟩), .value 7 "c" (.inst ⟨3⟩), .entity 8 "top" []]⟩

/-- The first stage is connected to both others at once. -/
def fan : Connect := ⟨{}, .ref {} ⟨4⟩, [.ref {} ⟨5⟩, .ref {} ⟨6⟩]⟩

def top : Entity where
  loc := {}
  symbol := ⟨7⟩
  decls := [⟨{}, ⟨0⟩, none⟩]
  entities := [{ loc := {}, symbol := ⟨1⟩ }, { loc := {}, symbol := ⟨2⟩ }, { loc := {}, symbol := ⟨3⟩ }]
  instances := [⟨{}, ⟨4⟩, ⟨1⟩⟩, ⟨{}, ⟨5⟩, ⟨2⟩⟩, ⟨{}, ⟨6⟩, ⟨3⟩⟩]
  connects := [⟨{}, .ref {} ⟨4⟩, [.ref {} ⟨5⟩]⟩, fan]

def session : Session Unit := ⟨{ symbols := table }, ()⟩

theorem top_run : pass.transform (.entity top) session =
    .ok (.put (.node (.entity { top with decls := [], connects := [fan] }))) session := by rfl

/-- No raw connection with one sink is left. -/
theorem top_links_gone : pipelined table top ≠ [] ∧ ∃ e', pass.transform (.entity top) session =
    .ok (.put (.node (.entity e'))) session ∧
      ∀ k ∈ e'.connects, isRaw table (e'.entities.map (·.symbol)) k = true → k.sinks.length ≠ 1 := by
  obtain ⟨e', hreply, hleft⟩ := raw_left (s := session) (e := top) (by decide) (by decide) top_run rfl
  exact ⟨by decide, e', top_run.trans (by rw [hreply]), fun k hk hraw => (hleft k hk hraw).2.2⟩

/-- The connection with two sinks is left as it was, and nothing is reported. -/
theorem fan_left : pipelined table top ≠ [] ∧ ∃ e', pass.transform (.entity top) session =
    .ok (.put (.node (.entity e'))) session ∧ ∃ k ∈ e'.connects, isRaw table (e'.entities.map (·.symbol)) k = true :=
  ⟨by decide, _, top_run, fan, mem_singleton_self _, by decide⟩

end Fanout

end HdlLowering.Pipeline
