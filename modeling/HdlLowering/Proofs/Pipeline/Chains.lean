import HdlLowering.Lowering.Pipelines
import HdlLowering.Proofs.Symbols.Steps
import Mathlib.Data.List.Nodup
import Mathlib.Data.List.Perm.Subperm

/-!
# Chains of stages

Links that give no stage a second successor or predecessor (`Linear`) leave a stage one place in one chain (`place_unique`).
-/

namespace HdlLowering

open List ContextM

structure Context.Blames (c : Context) (ds : List Diagnostic) (c' : Context) : Prop where
  rest : { c' with reporter := c.reporter } = c
  reported : c'.reporter.diagnostics = c.reporter.diagnostics ++ ds
  errors : ∀ d ∈ ds, d.severity = .error
  quiet : ds = [] → c' = c

namespace Context.Blames

variable {c c' c'' : Context} {ds ds' : List Diagnostic}

theorem refl (c : Context) : c.Blames [] c := ⟨rfl, by simp, by simp, fun _ => rfl⟩

theorem trans (h : c.Blames ds c') (h' : c'.Blames ds' c'') : c.Blames (ds ++ ds') c'' where
  rest := by rw [← h.rest, ← h'.rest]
  reported := by rw [h'.reported, h.reported, append_assoc]
  errors := forall_mem_append.mpr ⟨h.errors, h'.errors⟩
  quiet hnil := (h'.quiet (append_eq_nil_iff.mp hnil).2).trans (h.quiet (append_eq_nil_iff.mp hnil).1)

end Context.Blames

theorem ContextM.error_blames (loc : Loc) (problem : Problem) (c : Context) : ∃ d c', error loc problem c = .ok () c' ∧
    c.Blames [d] c' := ⟨⟨.error, c.reporter.pass, loc, problem⟩, _, rfl, rfl, rfl, by simp, by simp⟩

namespace Pipeline

variable {ls ls' : List Link} {stages : List Symbol} {l : Link} {ch : List Symbol} {Γ : SymbolTable}

/-! ## Links -/

structure Linear (ls : List Link) : Prop where
  target : ∀ l ∈ ls, ∀ l' ∈ ls, l.source = l'.source → l.target = l'.target
  source : ∀ l ∈ ls, ∀ l' ∈ ls, l.target = l'.target → l.source = l'.source

theorem linear_nil : Linear [] where
  target := by simp
  source := by simp

theorem Linear.mono (h : Linear ls) (hsub : ∀ l ∈ ls', l ∈ ls) : Linear ls' :=
  ⟨fun l hl l' hl' => h.target l (hsub l hl) l' (hsub l' hl'), fun l hl l' hl' => h.source l (hsub l hl) l' (hsub l' hl')⟩

theorem agree_cons_iff {f g : Link → Symbol} (h : ∀ k ∈ ls, ∀ k' ∈ ls, f k = f k' → g k = g k') :
    (∀ k ∈ l :: ls, ∀ k' ∈ l :: ls, f k = f k' → g k = g k') ↔ (ls.find? (f · == f l)).any (g · != g l) = false := by
  constructor
  · intro hall
    rw [Option.any_eq_false_iff_get]
    intro hm
    have hfind := Option.eq_some_of_isSome hm
    have hmem := mem_cons_of_mem l (mem_of_find?_eq_some hfind)
    simpa using hall _ hmem l mem_cons_self (by simpa using find?_some hfind)
  · intro hlatest
    have hwith : ∀ k ∈ ls, f k = f l → g k = g l := by
      intro k hk hf
      cases hfind : ls.find? (f · == f l) with
      | none => exact absurd (by simpa using hf) (find?_eq_none.mp hfind k hk)
      | some m =>
        have hm : f m = f l := by simpa using find?_some hfind
        rw [hfind] at hlatest
        rw [h k hk m (mem_of_find?_eq_some hfind) (hf.trans hm.symm)]
        simpa using hlatest
    intro k hk k' hk' heq
    rcases mem_cons.mp hk with rfl | hold
    · rcases mem_cons.mp hk' with rfl | hold'
      · rfl
      · exact (hwith k' hold' heq.symm).symm
    · rcases mem_cons.mp hk' with rfl | hold'
      · exact hwith k hold heq
      · exact h k hold k' hold' heq

theorem linear_cons_iff (h : Linear ls) : Linear (l :: ls) ↔
    (ls.find? (·.source == l.source)).any (·.target != l.target) = false ∧
      (ls.find? (·.target == l.target)).any (·.source != l.source) = false := by
  rw [← agree_cons_iff (f := Link.source) h.target, ← agree_cons_iff (f := Link.target) h.source]
  exact ⟨fun h => ⟨h.target, h.source⟩, fun h => ⟨h.1, h.2⟩⟩

theorem checkLinks_spec : ∀ (rest : List (Loc × Link)) (met : List Link) (c : Context), ∃ ok ds c',
    checkLinks met rest c = .ok ok c' ∧ c.Blames ds c' ∧ (ok = true ↔ ds = []) ∧
      (Linear met → (ok = true ↔ Linear (rest.map (·.2) ++ met)))
  | [], met, c => ⟨true, [], c, rfl, .refl c, by simp, fun h => by simpa using h⟩
  | (loc, l) :: rest, met, c => by
    rw [checkLinks, bind_ok (rfl : symbols c = .ok c.symbols c)]
    generalize hforks : (met.find? (·.source == l.source)).any (·.target != l.target) = forks
    generalize hjoins : (met.find? (·.target == l.target)).any (·.source != l.source) = joins
    -- a fork and a join are reported before the links that follow
    have hgo : ∀ {ds c1}, c.Blames ds c1 → ((!forks && !joins) = true ↔ ds = []) → ∃ ok ds c', (do
        let ok ← checkLinks (l :: met) rest
        pure (!forks && !joins && ok) : ContextM Bool) c1 = .ok ok c' ∧ c.Blames ds c' ∧ (ok = true ↔ ds = []) ∧
          (Linear met → (ok = true ↔ Linear (((loc, l) :: rest).map (·.2) ++ met))) := by
      intro ds c1 hds hnone
      obtain ⟨ok, ds', c', hrest, hds', hnone', hlinear⟩ := checkLinks_spec rest (l :: met) c1
      refine ⟨_, ds ++ ds', c', (bind_ok hrest).trans rfl, hds.trans hds', ?_, fun hmet => ?_⟩
      · rw [Bool.and_eq_true, hnone, hnone', append_eq_nil_iff]
      · have hlatest : (!forks && !joins) = true ↔ Linear (l :: met) := by
          rw [linear_cons_iff hmet, hforks, hjoins, Bool.and_eq_true, Bool.not_eq_true', Bool.not_eq_true']
        have hsame : Linear (rest.map (·.2) ++ l :: met) ↔ Linear (((loc, l) :: rest).map (·.2) ++ met) :=
          ⟨fun h => h.mono (by simp; tauto), fun h => h.mono (by simp; tauto)⟩
        rw [Bool.and_eq_true, hlatest, ← hsame]
        exact ⟨fun ⟨hl, hok⟩ => (hlinear hl).mp hok, fun h => have hl := h.mono fun x hx => mem_append_right _ hx
          ⟨hl, (hlinear hl).mpr h⟩⟩
    have herror := error_blames loc
    cases forks with
    | false =>
      cases joins with
      | false => exact hgo (.refl c) (by simp)
      | true =>
        obtain ⟨d, c1, hrun, hd⟩ := herror (.severalPredecessors (c.symbols.name l.target)) c
        obtain ⟨ok, ds, c', hgo, h⟩ := hgo hd (by simp)
        exact ⟨ok, ds, c', (bind_ok hrun).trans hgo, h⟩
    | true =>
      obtain ⟨d, c1, hrun, hd⟩ := herror (.severalSuccessors (c.symbols.name l.source)) c
      cases joins with
      | false =>
        obtain ⟨ok, ds, c', hgo, h⟩ := hgo hd (by simp)
        exact ⟨ok, ds, c', (bind_ok hrun).trans hgo, h⟩
      | true =>
        obtain ⟨d', c2, hrun', hd'⟩ := herror (.severalPredecessors (c.symbols.name l.target)) c1
        obtain ⟨ok, ds, c', hgo, h⟩ := hgo (hd.trans hd') (by simp)
        exact ⟨ok, ds, c', (bind_ok hrun).trans ((bind_ok hrun').trans hgo), h⟩

/-! ## Following links -/

def next? (ls : List Link) (s : Symbol) : Option Symbol := (ls.find? (·.source == s)).map (·.target)

theorem mem_of_next? {x y : Symbol} (h : next? ls x = some y) : ⟨x, y⟩ ∈ ls := by
  obtain ⟨l, hfind, rfl⟩ := Option.map_eq_some_iff.mp h
  have hsource : l.source = x := by simpa using find?_some hfind
  exact hsource ▸ mem_of_find?_eq_some hfind

theorem Linear.next? (h : Linear ls) (hl : l ∈ ls) : next? ls l.source = some l.target := by
  cases hfind : ls.find? (·.source == l.source) with
  | none => exact absurd (by simp) (find?_eq_none.mp hfind l hl)
  | some m =>
    have hm : m.source = l.source := by simpa using find?_some hfind
    rw [Pipeline.next?, hfind, Option.map_some, h.target m (mem_of_find?_eq_some hfind) l hl hm]

theorem chainFrom_succ (ls : List Link) (fuel : Nat) (s : Symbol) :
    chainFrom ls (fuel + 1) s = s :: ((next? ls s).map (chainFrom ls fuel)).getD [] := by
  rw [chainFrom, next?]
  cases ls.find? (·.source == s) <;> rfl

theorem length_chainFrom (ls : List Link) (fuel : Nat) (s : Symbol) : (chainFrom ls fuel s).length ≤ fuel := by
  induction fuel generalizing s with
  | zero => simp [chainFrom]
  | succ fuel ih =>
    rw [chainFrom_succ, length_cons]
    cases next? ls s with
    | none => simp
    | some t => simpa using ih t

theorem chainFrom_zero {fuel : Nat} {s x : Symbol} (h : (chainFrom ls fuel s)[0]? = some x) : x = s := by
  cases fuel with
  | zero => simp [chainFrom] at h
  | succ fuel =>
    rw [chainFrom_succ] at h
    simpa using h.symm

theorem chainFrom_prev {fuel i : Nat} {s y : Symbol} (h : (chainFrom ls fuel s)[i + 1]? = some y) :
    ∃ x, (chainFrom ls fuel s)[i]? = some x ∧ next? ls x = some y := by
  induction fuel generalizing s i with
  | zero => simp [chainFrom] at h
  | succ fuel ih =>
    rw [chainFrom_succ] at h ⊢
    rw [getElem?_cons_succ] at h
    cases hnext : next? ls s with
    | none => simp [hnext] at h
    | some t =>
      rw [hnext, Option.map_some, Option.getD_some] at h
      rw [Option.map_some, Option.getD_some]
      cases i with
      | zero => exact ⟨s, rfl, by rw [hnext, chainFrom_zero h]⟩
      | succ i => exact ih h

theorem chainFrom_next {fuel i : Nat} {s x y : Symbol} (h : (chainFrom ls fuel s)[i]? = some x) (hnext : next? ls x = some y)
    (hi : i + 1 < fuel) : (chainFrom ls fuel s)[i + 1]? = some y := by
  induction fuel generalizing s i with
  | zero => omega
  | succ fuel ih =>
    rw [chainFrom_succ] at h ⊢
    rw [getElem?_cons_succ]
    cases i with
    | zero =>
      obtain rfl : s = x := by simpa using h
      obtain ⟨fuel, rfl⟩ : ∃ k, fuel = k + 1 := ⟨fuel - 1, by omega⟩
      rw [hnext, Option.map_some, Option.getD_some, chainFrom_succ]
      rfl
    | succ i =>
      rw [getElem?_cons_succ] at h
      cases hs : next? ls s with
      | none => simp [hs] at h
      | some t =>
        rw [hs, Option.map_some, Option.getD_some] at h
        rw [Option.map_some, Option.getD_some]
        exact ih h (by omega)

def IsStart (ls : List Link) (s : Symbol) : Prop := ∀ l ∈ ls, l.target ≠ s

/-- A stage has one place in one chain: the stages before it are determined from it backwards, up to a start. -/
theorem place_unique (hlin : Linear ls) {fuel fuel' : Nat} {a b x : Symbol} {i j : Nat} (ha : IsStart ls a)
    (hb : IsStart ls b) (hi : (chainFrom ls fuel a)[i]? = some x) (hj : (chainFrom ls fuel' b)[j]? = some x) :
    a = b ∧ i = j := by
  induction i generalizing j x with
  | zero =>
    obtain rfl := chainFrom_zero hi
    cases j with
    | zero => exact ⟨chainFrom_zero hj, rfl⟩
    | succ j =>
      obtain ⟨y, -, hy⟩ := chainFrom_prev hj
      exact absurd rfl (ha _ (mem_of_next? hy))
  | succ i ih =>
    obtain ⟨y, hyi, hy⟩ := chainFrom_prev hi
    cases j with
    | zero =>
      obtain rfl := chainFrom_zero hj
      exact absurd rfl (hb _ (mem_of_next? hy))
    | succ j =>
      obtain ⟨z, hzj, hz⟩ := chainFrom_prev hj
      obtain rfl : y = z := hlin.source _ (mem_of_next? hy) _ (mem_of_next? hz) rfl
      obtain ⟨hab, rfl⟩ := ih hyi hzj
      exact ⟨hab, rfl⟩

/-! ## All chains -/

theorem mem_chains : ch ∈ chains ls stages ↔ ∃ s ∈ stages, IsStart ls s ∧ chainFrom ls stages.length s = ch := by
  unfold chains IsStart
  simp only [mem_map, mem_filter, Bool.not_eq_true', any_eq_false, beq_iff_eq, and_assoc]

theorem nodup_chainFrom (hlin : Linear ls) {s : Symbol} (hs : IsStart ls s) (fuel : Nat) : (chainFrom ls fuel s).Nodup := by
  rw [nodup_iff_getElem?_ne_getElem?]
  intro i j hij hj heq
  have hsome := getElem?_eq_getElem hj
  have hplace := place_unique hlin hs hs (heq.trans hsome) hsome
  omega

/-- The chains are disjoint. -/
theorem nodup_chains (hlin : Linear ls) (hstages : stages.Nodup) : (chains ls stages).flatten.Nodup := by
  rw [nodup_flatten]
  constructor
  · intro ch hch
    obtain ⟨s, -, hs, rfl⟩ := mem_chains.mp hch
    exact nodup_chainFrom hlin hs _
  · unfold chains
    rw [pairwise_map]
    refine (hstages.filter _).imp_of_mem ?_
    intro a b ha hb hne x hxa hxb
    have hstart : ∀ {s}, s ∈ stages.filter (fun s => !ls.any (·.target == s)) → IsStart ls s := by
      intro s hs l hl htarget
      simp only [mem_filter, Bool.not_eq_true', any_eq_false, beq_iff_eq] at hs
      exact hs.2 l hl htarget
    obtain ⟨i, hi⟩ := getElem?_of_mem hxa
    obtain ⟨j, hj⟩ := getElem?_of_mem hxb
    exact hne (place_unique hlin (hstart ha) (hstart hb) hi hj).1

theorem mem_stages_of_mem_chain (hmem : ∀ l ∈ ls, l.target ∈ stages) (hch : ch ∈ chains ls stages) : ∀ x ∈ ch, x ∈ stages := by
  intro x hx
  obtain ⟨s, hs, -, rfl⟩ := mem_chains.mp hch
  obtain ⟨i, hi⟩ := getElem?_of_mem hx
  cases i with
  | zero => exact chainFrom_zero hi ▸ hs
  | succ i =>
    obtain ⟨y, -, hy⟩ := chainFrom_prev hi
    exact hmem _ (mem_of_next? hy)

/-- Following the links never stops short: a chain as long as there are stages has all of them, so a stage behind its last one
would stand in it already, right behind that same stage. -/
theorem next?_eq_none_of_full (hlin : Linear ls) (hmem : ∀ l ∈ ls, l.target ∈ stages) {a x : Symbol} {i : Nat} (hs : a ∈ stages)
    (ha : IsStart ls a) (hi : (chainFrom ls stages.length a)[i]? = some x) (hfull : i + 1 = stages.length) :
    next? ls x = none := by
  have hsub := mem_stages_of_mem_chain hmem (mem_chains.mpr ⟨a, hs, ha, rfl⟩)
  have hlt := (List.getElem?_eq_some_iff.mp hi).1
  have hperm : (chainFrom ls stages.length a).Perm stages :=
    ((nodup_chainFrom hlin ha _).subperm hsub).perm_of_length_le (by omega)
  cases hnext : next? ls x with
  | none => rfl
  | some y =>
    have hlink := mem_of_next? hnext
    obtain ⟨j, hj⟩ := getElem?_of_mem (hperm.mem_iff.mpr (hmem _ hlink))
    cases j with
    | zero => exact absurd (chainFrom_zero hj) (ha _ hlink)
    | succ j =>
      obtain ⟨z, hzj, hz⟩ := chainFrom_prev hj
      obtain rfl : z = x := hlin.source _ (mem_of_next? hz) _ hlink rfl
      obtain ⟨-, rfl⟩ := place_unique hlin ha ha hi hzj
      have hlength := (List.getElem?_eq_some_iff.mp hj).1
      have hbound := length_chainFrom ls stages.length a
      omega

/-- A chain is as long as there are stages at most, so every link joins two neighbours of a chain. -/
theorem link_joins_neighbours (hlin : Linear ls) (hmem : ∀ l ∈ ls, l.source ∈ stages ∧ l.target ∈ stages)
    (hcover : ∀ s ∈ stages, ∃ ch ∈ chains ls stages, s ∈ ch) (hl : l ∈ ls) :
    ∃ ch ∈ chains ls stages, ∃ i : Nat, ch[i]? = some l.source ∧ ch[i + 1]? = some l.target := by
  obtain ⟨ch, hch, hsource⟩ := hcover l.source (hmem l hl).1
  refine ⟨ch, hch, ?_⟩
  obtain ⟨a, hs, ha, rfl⟩ := mem_chains.mp hch
  obtain ⟨i, hi⟩ := getElem?_of_mem hsource
  refine ⟨i, hi, ?_⟩
  have hnext := hlin.next? hl
  have hlt := (List.getElem?_eq_some_iff.mp hi).1
  have hlength := length_chainFrom ls stages.length a
  rcases Nat.lt_or_ge (i + 1) stages.length with hfuel | hfuel
  · exact chainFrom_next hi hnext hfuel
  · have hnone := next?_eq_none_of_full hlin (fun l hl => (hmem l hl).2) hs ha hi (by omega)
    rw [hnext] at hnone
    nomatch hnone

/-! ## The stages of an entity -/

def linksOf (Γ : SymbolTable) (e : Entity) : List Link := e.connects.filterMap (linkOf? Γ (e.entities.map (·.symbol)))

theorem mem_of_linkOf? {c : Connect} (h : linkOf? Γ stages c = some l) : l.source ∈ stages ∧ l.target ∈ stages := by
  unfold linkOf? at h
  split at h
  · simp only [bind, Option.bind_eq_some_iff, pure, Option.some.injEq] at h
    obtain ⟨a, ha, b, hb, rfl⟩ := h
    have hcontains : ∀ {x : Expr} {s : Symbol}, stageOf? Γ stages x = some s → s ∈ stages := by
      intro x s hs
      have hs := (Option.filter_eq_some_iff.mp hs).2
      simpa using hs
    exact ⟨hcontains ha, hcontains hb⟩
  · nomatch h

theorem links_among {e : Entity} (hl : l ∈ linksOf Γ e) :
    l.source ∈ e.entities.map (·.symbol) ∧ l.target ∈ e.entities.map (·.symbol) := by
  obtain ⟨k, -, hk⟩ := mem_filterMap.mp hl
  exact mem_of_linkOf? hk

structure Chained (Γ : SymbolTable) (e : Entity) (found : List (List Symbol)) : Prop where
  linear : Linear (linksOf Γ e)
  all : found = chains (linksOf Γ e) (e.entities.map (·.symbol))
  cover : ∀ s ∈ e.entities.map (·.symbol), ∃ ch ∈ found, s ∈ ch

theorem stageChains_cases (e : Entity) (c : Context) :
    (stageChains e c = .ok (some (chains (linksOf c.symbols e) (e.entities.map (·.symbol)))) c ∧
      Chained c.symbols e (chains (linksOf c.symbols e) (e.entities.map (·.symbol)))) ∨
    ∃ ds c', stageChains e c = .ok none c' ∧ c.Blames ds c' ∧ ds ≠ [] ∧ ∀ found, ¬ Chained c.symbols e found := by
  have hlinks : (e.connects.filterMap fun k =>
      (linkOf? c.symbols (e.entities.map (·.symbol)) k).map fun l => (k.loc, l)).map (·.2) = linksOf c.symbols e := by
    rw [map_filterMap, linksOf]
    congr 1
    funext k
    cases linkOf? c.symbols (e.entities.map (·.symbol)) k <;> rfl
  obtain ⟨ok, ds, c1, hcheck, hds, hnone, hlinear⟩ := checkLinks_spec (e.connects.filterMap fun k =>
    (linkOf? c.symbols (e.entities.map (·.symbol)) k).map fun l => (k.loc, l)) [] c
  have hlinear := hlinear linear_nil
  rw [append_nil, hlinks] at hlinear
  rw [stageChains, bind_ok (rfl : symbols c = .ok c.symbols c)]
  dsimp only
  rw [bind_ok hcheck, hlinks]
  cases ok with
  | false => exact .inr ⟨ds, c1, rfl, hds, fun h => (nomatch hnone.mpr h), fun _ h => (nomatch hlinear.mpr h.linear)⟩
  | true =>
    rw [if_pos rfl]
    obtain rfl := hds.quiet (hnone.mp rfl)
    cases hfind : e.entities.find? fun child =>
        !(chains (linksOf c1.symbols e) (e.entities.map (·.symbol))).any (·.contains child.symbol) with
    | none =>
      refine .inl ⟨rfl, hlinear.mp rfl, rfl, fun s hs => ?_⟩
      obtain ⟨child, hchild, rfl⟩ := mem_map.mp hs
      simpa using find?_eq_none.mp hfind child hchild
    | some child =>
      obtain ⟨d, c2, hrun, hd⟩ := error_blames child.loc
        (.stageCycle (c1.symbols.name e.symbol) (c1.symbols.name child.symbol)) c1
      refine .inr ⟨[d], c2, (bind_ok hrun).trans rfl, hd, by simp, fun found h => ?_⟩
      obtain ⟨ch, hch, hmem⟩ := h.cover _ (mem_map_of_mem (mem_of_find?_eq_some hfind))
      have hout := find?_some hfind
      rw [h.all] at hch
      simp at hout
      exact hout ch hch hmem

theorem stageChains_ok {e : Entity} {found : List (List Symbol)} {c c' : Context} (h : stageChains e c = .ok (some found) c') :
    c' = c ∧ Chained c.symbols e found := by
  rcases stageChains_cases e c with ⟨hrun, hchained⟩ | ⟨ds, c1, hrun, -⟩
  · obtain ⟨hfound, rfl⟩ := EStateM.Result.ok.inj (hrun.symm.trans h)
    exact ⟨rfl, Option.some.inj hfound ▸ hchained⟩
  · nomatch hrun.symm.trans h

end Pipeline

end HdlLowering
