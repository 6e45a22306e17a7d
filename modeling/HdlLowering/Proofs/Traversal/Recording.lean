import HdlLowering.Proofs.Traversal.Plain
import HdlLowering.Traversal.Script

/-!
# Recorded walks

`Pass.recorded` keeps a record of the calls of a pass: what it is asked about, enters, transforms, answers and unwinds.

A walk makes the calls that plain rewriting makes, in the same order, and ends or aborts as it does; and when the pass kept
every node, the walk gives the very node it was given (`Node.walk_agrees`).
-/

namespace HdlLowering

open List PassM

variable {σ α β : Type} {n : Node}

/-- A call of a pass, or the end of one. -/
inductive PassEvent where
  | skip (n : Node)
  | enter (n : Node)
  | entered (n : Node)
  | transform (n : Node)
  | answered (reply : Reply)
  | unwind (n : Node)

structure Recorded (σ : Type) where
  own : σ
  events : List PassEvent := []

def Session.bare (s : Session (Recorded σ)) : Session σ := ⟨s.ctx, s.own.own⟩

def bareResult : EStateM.Result Abort (Session (Recorded σ)) α → EStateM.Result Abort (Session σ) α
  | .ok a s => .ok a s.bare
  | .error e s => .error e s.bare

namespace PassM

def unrecorded (x : PassM σ α) : PassM (Recorded σ) α := fun s =>
  match x s.bare with
  | .ok a s' => .ok a ⟨s'.ctx, { s.own with own := s'.own }⟩
  | .error e s' => .error e ⟨s'.ctx, { s.own with own := s'.own }⟩

def record (e : PassEvent) : PassM (Recorded σ) Unit := modifyOwn fun st => { st with events := st.events ++ [e] }

end PassM

variable (p : Pass σ)

def Pass.recorded : Pass (Recorded σ) where
  name := p.name
  skip n := do
    record (.skip n)
    unrecorded (p.skip n)
  enter n := do
    record (.enter n)
    unrecorded (p.enter n)
    record (.entered n)
  transform n := do
    record (.transform n)
    let reply ← unrecorded (p.transform n)
    record (.answered reply)
    return reply
  unwind := p.unwind.map fun unwind n st => ⟨unwind n st.own, st.events ++ [.unwind n]⟩
  defaultCheck r r' := unrecorded (p.defaultCheck r r')
  finalCheck r := unrecorded (p.finalCheck r)

/-! ## Walks and plain rewriting -/

theorem Pass.guarded_map (n : Node) (f : α → β) (x : PassM σ α) : f <$> p.guarded n x = p.guarded n (f <$> x) := by
  funext s
  change EStateM.map f (p.guarded n x) s = _
  simp only [EStateM.map, guarded]
  change _ = match EStateM.map f x s with
    | .ok b s' => _
    | .error e s' => _
  rw [EStateM.map]
  cases x s with
  | ok a s' => rfl
  | error e s' => cases p.unwind <;> rfl

theorem Pass.rework_getD (n : Node) (x : PassM σ (Option Node)) :
    (·.getD (.node n)) <$> p.visit n x = p.rework n ((·.getD n) <$> x) := by
  simp only [visit, rework, map_bind]
  congr 1
  funext skipped
  cases skipped with
  | true => rfl
  | false =>
    simp only [Bool.false_eq_true, ↓reduceIte, map_bind, guarded_map, bind_map_left]
    congr 1
    funext _
    congr 2
    funext rebuilt
    congr 1
    funext reply
    cases reply <;> cases rebuilt <;> rfl

theorem Pass.relates_rewrite : p.Relates p fun _ d x _ z => (·.getD d) <$> x = z where
  pure hb _ := by
    subst hb
    rfl
  fail _ := rfl
  mono _ hx := hx
  bind hx hf := by
    subst hx
    rw [map_bind, bind_map_left]
    congr 1
    funext a
    exact hf a
  visit {n x _ z} hx _ := by
    subst hx
    exact p.rework_getD n x

theorem Node.rewrite_eq (n : Node) : n.rewrite p = (·.getD (.node n)) <$> n.walk p :=
  (walk_relates p.relates_rewrite n).symm

/-! ## What the record changes -/

/-- A step on a recorded state that does what another step does, and only adds to the record. -/
def Bares (x : PassM (Recorded σ) α) (y : PassM σ α) : Prop := ∀ s, bareResult (x s) = y s.bare

namespace Bares

variable {x : PassM (Recorded σ) α} {y : PassM σ α}

theorem pure (a : α) : Bares (pure a : PassM (Recorded σ) α) (pure a) := fun _ => rfl

theorem bind {f : α → PassM (Recorded σ) β} {g : α → PassM σ β} (hx : Bares x y)
    (hf : ∀ a, Bares (f a) (g a)) : Bares (x >>= f) (y >>= g) := by
  intro s
  have hs := hx s
  change bareResult (EStateM.bind x f s) = EStateM.bind y g s.bare
  unfold EStateM.bind
  cases h : x s with
  | ok a s' =>
    rw [h] at hs
    rw [← hs]
    exact hf a s'
  | error e s' =>
    rw [h] at hs
    rw [← hs]
    rfl

theorem unrecorded (x : PassM σ α) : Bares (PassM.unrecorded x) x := by
  intro s
  unfold PassM.unrecorded
  cases x s.bare <;> rfl

theorem record_bind (e : PassEvent) (hx : Bares x y) : Bares (record e >>= fun _ => x) y := by
  intro s
  exact hx _

theorem bind_record {x : PassM (Recorded σ) Unit} {y : PassM σ Unit} (hx : Bares x y) (e : PassEvent) :
    Bares (x >>= fun _ => record e) y := by
  have h := hx.bind fun _ : Unit => show Bares (record e) (Pure.pure () : PassM σ Unit) from fun _ => rfl
  rwa [bind_pure] at h

theorem guarded (n : Node) (hx : Bares x y) : Bares (p.recorded.guarded n x) (p.guarded n y) := by
  intro s
  have hs := hx s
  unfold Pass.guarded
  cases h : x s with
  | ok a s' =>
    rw [h] at hs
    rw [← hs]
    rfl
  | error e s' =>
    rw [h] at hs
    rw [← hs]
    cases hu : p.unwind <;> simp only [Pass.recorded, hu] <;> rfl

end Bares

theorem Pass.bares_transform (n : Node) : Bares (p.recorded.transform n) (p.transform n) := by
  have h := (Bares.unrecorded (p.transform n)).bind fun reply =>
    (Bares.pure (σ := σ) reply).record_bind (.answered reply)
  rw [bind_pure] at h
  exact h.record_bind (.transform n)

theorem Pass.relates_recorded : p.recorded.Relates p fun _ _ x y _ => Bares x y where
  pure _ _ := .pure _
  fail _ := fun _ => rfl
  mono _ hx := hx
  bind hx hf := hx.bind hf
  visit {n _ _ _} hx _ := by
    refine ((Bares.unrecorded (p.skip n)).record_bind (.skip n)).bind fun skipped => ?_
    cases skipped with
    | true => exact .pure _
    | false =>
      refine Bares.bind (((Bares.unrecorded (p.enter n)).bind_record (.entered n)).record_bind (.enter n)) fun _ => ?_
      refine Bares.guarded p n (hx.bind fun rebuilt => (p.bares_transform _).bind fun reply => ?_)
      cases reply <;> exact .pure _

/-- The record changes nothing else. -/
theorem Node.walk_recorded (n : Node) : Bares (n.walk p.recorded) (n.walk p) :=
  walk_relates p.relates_recorded n

/-! ## What is recorded -/

/-- The nodes that are open after an event, the innermost first. -/
def PassEvent.opens (outer : List Node) : PassEvent → List Node
  | .entered n => n :: outer
  | .answered _ => outer.tail
  | _ => outer

/-- The nodes that were entered and not completed, the innermost first. -/
def openNodes (events : List PassEvent) : List Node := events.foldl PassEvent.opens []

/-- Nothing was unwound, and the open nodes are those, within what was open before. -/
structure Leaves (events : List PassEvent) (opened : List Node) : Prop where
  unwound : ∀ n, .unwind n ∉ events
  opens : ∀ outer, events.foldl PassEvent.opens outer = opened ++ outer

namespace Leaves

variable {events events' : List PassEvent} {opened opened' : List Node}

theorem nil : Leaves [] [] := ⟨nofun, fun _ => rfl⟩

theorem append (h : Leaves events opened) (h' : Leaves events' opened') : Leaves (events ++ events') (opened' ++ opened) where
  unwound n hn := (mem_append.mp hn).elim (h.unwound n) (h'.unwound n)
  opens outer := by rw [foldl_append, h.opens, h'.opens, append_assoc]

theorem skip (n : Node) : Leaves [.skip n] [] := ⟨by simp, fun _ => rfl⟩

theorem enter (n : Node) : Leaves [.enter n] [] := ⟨by simp, fun _ => rfl⟩

theorem entered (n : Node) : Leaves [.entered n] [n] := ⟨by simp, fun _ => rfl⟩

theorem transform (n : Node) : Leaves [.transform n] [] := ⟨by simp, fun _ => rfl⟩

theorem answered (h : Leaves events (n :: opened)) (reply : Reply) : Leaves (events ++ [.answered reply]) opened where
  unwound m hm := (mem_append.mp hm).elim (h.unwound m) (by simp)
  opens outer := by rw [foldl_append, h.opens]; rfl

theorem openNodes_eq (h : Leaves events opened) : openNodes events = opened := by
  rw [openNodes, h.opens, append_nil]

end Leaves

/-- What a step adds to the record when it ends and when it aborts. -/
def Logs (x : PassM (Recorded σ) α) (ended : α → List PassEvent → Prop) (aborted : List PassEvent → Prop) : Prop :=
  ∀ s, match x s with
    | .ok a s' => ∃ es, s'.own.events = s.own.events ++ es ∧ ended a es
    | .error _ s' => ∃ es, s'.own.events = s.own.events ++ es ∧ aborted es

namespace Logs

variable {x : PassM (Recorded σ) α} {ended ended' : α → List PassEvent → Prop} {aborted aborted' : List PassEvent → Prop}

theorem pure {a : α} (h : ended a []) : Logs (Pure.pure a : PassM (Recorded σ) α) ended aborted :=
  fun _ => ⟨[], (append_nil _).symm, h⟩

theorem mono (hx : Logs x ended aborted) (hended : ∀ a es, ended a es → ended' a es)
    (haborted : ∀ es, aborted es → aborted' es) : Logs x ended' aborted' := by
  intro s
  have hs := hx s
  cases h : x s with
  | ok a s' =>
    rw [h] at hs
    obtain ⟨es, hes, ha⟩ := hs
    exact ⟨es, hes, hended a es ha⟩
  | error e s' =>
    rw [h] at hs
    obtain ⟨es, hes, ha⟩ := hs
    exact ⟨es, hes, haborted es ha⟩

theorem bind {f : α → PassM (Recorded σ) β} {good : β → List PassEvent → Prop} (hx : Logs x ended aborted)
    (hf : ∀ a es, ended a es → Logs (f a) (fun b es' => good b (es ++ es')) fun es' => aborted (es ++ es')) :
    Logs (x >>= f) good aborted := by
  intro s
  have hs := hx s
  cases h : x s with
  | error e s' =>
    rw [h] at hs
    rw [bind_error h]
    exact hs
  | ok a s1 =>
    rw [h] at hs
    obtain ⟨es, hes, ha⟩ := hs
    have hs1 := hf a es ha s1
    rw [bind_ok h]
    cases h1 : f a s1 with
    | ok b s2 =>
      rw [h1] at hs1
      obtain ⟨es', hes', hb⟩ := hs1
      exact ⟨es ++ es', by rw [hes', hes, append_assoc], hb⟩
    | error e s2 =>
      rw [h1] at hs1
      obtain ⟨es', hes', hb⟩ := hs1
      exact ⟨es ++ es', by rw [hes', hes, append_assoc], hb⟩

theorem unrecorded_bind_of {y : PassM σ β} {f : β → PassM (Recorded σ) α} {P : β → Prop} (hy : ∀ s b s', y s = .ok b s' → P b)
    (haborted : aborted []) (hf : ∀ b, P b → Logs (f b) ended aborted) : Logs (unrecorded y >>= f) ended aborted := by
  have hlogs : Logs (unrecorded y) (fun b es => P b ∧ es = []) aborted := by
    intro s
    unfold unrecorded
    cases hrun : y s.bare with
    | ok b s' => exact ⟨[], (append_nil _).symm, hy _ _ _ hrun, rfl⟩
    | error e s' => exact ⟨[], (append_nil _).symm, haborted⟩
  refine hlogs.bind ?_
  rintro b _ ⟨hb, rfl⟩
  exact hf b hb

theorem unrecorded_bind {y : PassM σ β} {f : β → PassM (Recorded σ) α} (haborted : aborted [])
    (hf : ∀ b, Logs (f b) ended aborted) : Logs (unrecorded y >>= f) ended aborted :=
  unrecorded_bind_of (fun _ _ _ _ => trivial) haborted fun b _ => hf b

theorem record_bind {e : PassEvent} (hx : Logs x (fun a es => ended a (e :: es)) fun es => aborted (e :: es)) :
    Logs (record e >>= fun _ => x) ended aborted := by
  have he : Logs (record e : PassM (Recorded σ) Unit) (fun _ es => es = [e]) aborted := fun _ => ⟨[e], rfl, rfl⟩
  refine he.bind ?_
  rintro - _ rfl
  exact hx

end Logs

def Pass.unwound (ns : List Node) : List PassEvent := if p.unwind.isSome then ns.map .unwind else []

theorem Pass.unwound_append (ns ms : List Node) : p.unwound (ns ++ ms) = p.unwound ns ++ p.unwound ms := by
  unfold unwound
  split
  · exact map_append
  · rfl

/-- The record of a walk that aborts: something is left open, and just that is unwound. -/
def Pass.Unwinds (es : List PassEvent) : Prop :=
  ∃ before opened, es = before ++ p.unwound opened ∧ Leaves before opened

/-- The record of a walk that ends: nothing is left open, and when `φ` and all nodes were kept there is nothing new. -/
def Completes (φ : Prop) (a : Option α) (es : List PassEvent) : Prop :=
  Leaves es [] ∧ (φ → (∀ reply, .answered reply ∈ es → reply = .keep) → a = none)

namespace Pass

variable (p : Pass σ)

theorem unwinds_of_leaves {es : List PassEvent} (h : Leaves es []) : p.Unwinds es :=
  ⟨es, [], by simp [unwound], h⟩

theorem Unwinds.after {p : Pass σ} {es es' : List PassEvent} (h' : p.Unwinds es') (h : Leaves es []) :
    p.Unwinds (es ++ es') := by
  obtain ⟨before, opened, rfl, hb⟩ := h'
  exact ⟨es ++ before, opened, (append_assoc _ _ _).symm, by simpa using h.append hb⟩

theorem guarded_logs {x : PassM (Recorded σ) α} {ended : α → List PassEvent → Prop} {aborted : List PassEvent → Prop}
    (hx : Logs x ended aborted) :
    Logs (p.recorded.guarded n x) ended fun es => ∃ es', aborted es' ∧ es = es' ++ p.unwound [n] := by
  intro s
  have hs := hx s
  unfold guarded
  cases h : x s with
  | ok a s' =>
    rw [h] at hs
    exact hs
  | error e s' =>
    rw [h] at hs
    obtain ⟨es, hes, ha⟩ := hs
    cases hu : p.unwind with
    | none =>
      simp only [recorded, hu, Option.map_none]
      exact ⟨es, hes, es, ha, by simp [unwound, hu]⟩
    | some u =>
      simp only [recorded, hu, Option.map_some]
      exact ⟨es ++ [.unwind n], by rw [hes, append_assoc], es, ha, by simp [unwound, hu]⟩

end Pass

theorem Pass.transform_logs (n n' : Node) {es : List PassEvent} (hes : Leaves es [n]) :
    Logs (p.recorded.transform n') (fun reply es' => Leaves (es ++ es') [] ∧ .answered reply ∈ es')
      fun es' => Leaves (es ++ es') [n] := by
  have hcall : Leaves (es ++ [.transform n']) [n] := by simpa using hes.append (.transform n')
  refine .record_bind (.unrecorded_bind hcall fun reply => .record_bind (.pure ⟨?_, by simp⟩))
  simpa using hcall.answered reply

theorem Pass.inside_logs {x : PassM (Recorded σ) (Option Node)} {es : List PassEvent} (hes : Leaves es [n])
    (hx : Logs x (Completes True) p.Unwinds) :
    Logs (do
        let rebuilt ← x
        match ← p.recorded.transform (rebuilt.getD n) with
        | .keep => return rebuilt.map .node
        | .put f => return some f)
      (fun a es' => Completes True a (es ++ es'))
      fun es' => ∃ before opened, es' = before ++ p.unwound opened ∧ Leaves (es ++ before) (opened ++ [n]) := by
  have hx' : Logs x (Completes True) fun es' =>
      ∃ before opened, es' = before ++ p.unwound opened ∧ Leaves (es ++ before) (opened ++ [n]) := by
    refine hx.mono (fun _ _ h => h) ?_
    rintro _ ⟨before, opened, rfl, hleaves⟩
    exact ⟨before, opened, rfl, hes.append hleaves⟩
  refine hx'.bind fun rebuilt es' ⟨hleaves, hkept⟩ => ?_
  have hopen : Leaves (es ++ es') [n] := by simpa using hes.append hleaves
  have htransform := (p.transform_logs n (rebuilt.getD n) hopen).mono (fun _ _ h => h) fun es'' hleft =>
    (⟨es' ++ es'', [], by simp [unwound], by simpa using hleft⟩ : ∃ before opened,
      es' ++ es'' = before ++ p.unwound opened ∧ Leaves (es ++ before) (opened ++ [n]))
  refine htransform.bind fun reply es'' ⟨hdone, hanswer⟩ => ?_
  have hdone' : Leaves (es ++ (es' ++ (es'' ++ []))) [] := by simpa using hdone
  cases reply with
  | keep =>
    refine .pure ⟨hdone', fun _ hall => ?_⟩
    rw [hkept trivial fun reply hreply => hall reply (by simp [hreply])]
    rfl
  | put f =>
    refine .pure ⟨hdone', fun _ hall => ?_⟩
    nomatch hall (.put f) (by simp [hanswer])

theorem Pass.visit_logs {x : PassM (Recorded σ) (Option Node)}
    (hx : Logs x (Completes True) p.Unwinds) : Logs (p.recorded.visit n x) (Completes True) p.Unwinds := by
  have hskip := Leaves.skip n
  have henter : Leaves [.skip n, .enter n] [] := hskip.append (.enter n)
  have hentered : Leaves [.skip n, .enter n, .entered n] [n] := henter.append (.entered n)
  change Logs ((record (.skip n) >>= fun _ => unrecorded (p.skip n)) >>= _) _ _
  rw [bind_assoc]
  refine .record_bind (.unrecorded_bind (p.unwinds_of_leaves hskip) fun skipped => ?_)
  cases skipped with
  | true => exact .pure ⟨hskip, fun _ _ => rfl⟩
  | false =>
    change Logs ((record (.enter n) >>= fun _ => unrecorded (p.enter n) >>= fun _ => record (.entered n)) >>= _)
      _ _
    simp only [bind_assoc]
    refine .record_bind (.unrecorded_bind (p.unwinds_of_leaves henter) fun _ => .record_bind ?_)
    refine (p.guarded_logs (p.inside_logs hentered hx)).mono (fun _ _ h => h) ?_
    rintro _ ⟨_, ⟨before, opened, rfl, hleaves⟩, rfl⟩
    exact ⟨_, _, by simp [p.unwound_append], hleaves⟩

theorem Pass.relates_logs : p.recorded.Relates p.recorded fun φ _ x _ _ => Logs x (Completes φ) p.Unwinds where
  pure _ ha := .pure ⟨.nil, fun hφ _ => ha hφ⟩
  fail _ := fun _ => ⟨[], (append_nil _).symm, p.unwinds_of_leaves .nil⟩
  mono himp hx := hx.mono (fun _ _ h => ⟨h.1, fun hψ => h.2 (himp hψ)⟩) fun _ h => h
  bind {_ _ φ ψ _ _ _ _ _ _ _ _} hx hf := by
    refine hx.bind fun a es ⟨hleaves, hkept⟩ => (hf a).mono ?_ fun es' h => h.after hleaves
    intro b es' ⟨hleaves', hkept'⟩
    refine ⟨by simpa using hleaves.append hleaves', fun hψ hall => hkept' ⟨hψ, fun hφ => ?_⟩ ?_⟩
    · exact hkept hφ fun reply hreply => hall reply (mem_append_left _ hreply)
    · exact fun reply hreply => hall reply (mem_append_right _ hreply)
  visit hx _ := p.visit_logs hx

theorem Node.walk_logs (n : Node) : Logs (n.walk p.recorded) (Completes True) p.Unwinds :=
  walk_relates p.relates_logs n

/-- Walks agree with plain rewriting. Whatever the pass does with its state and wherever it aborts, plain rewriting ends or
aborts as the walk does, with the node in place of an answer that nothing is new; and so it is for the pass that keeps a record
of its calls, so both make the same calls in the same order. When all answers in its record are to keep the node, the walk gives
nothing new. -/
theorem Node.walk_agrees (p : Pass σ) (n : Node) :
    n.rewrite p = (·.getD (.node n)) <$> n.walk p ∧
      n.rewrite p.recorded = (·.getD (.node n)) <$> n.walk p.recorded ∧
      ∀ s, bareResult (n.walk p.recorded s) = n.walk p s.bare ∧
        ∀ result s', n.walk p.recorded s = .ok result s' → ∃ calls, s'.own.events = s.own.events ++ calls ∧
          ((∀ reply, .answered reply ∈ calls → reply = .keep) → result = none) := by
  refine ⟨n.rewrite_eq p, n.rewrite_eq p.recorded, fun s => ⟨n.walk_recorded p s, fun result s' hwalk => ?_⟩⟩
  have hlogs := n.walk_logs p s
  rw [hwalk] at hlogs
  obtain ⟨calls, hcalls, -, hkept⟩ := hlogs
  exact ⟨calls, hcalls, hkept trivial⟩

namespace Cut

/-- A fence, and a loop with another fence in it. -/
def body : Node := .stmt (.block default [.fence { line := 1 }, .loop default [.fence { line := 2 }, .break default]])

def cut : Node := .stmt (.block default [.fence { line := 1 }, .loop default [.break default]])

def cutting : Pass Script.Trace := Script.pass "cut" [⟨"StmtFence", 2, .change .remove⟩] true

def keeping : Pass Unit := { name := "keep" }

def keeps : PassEvent → Bool
  | .answered (.put _) => false
  | _ => true

/-- Both ways give the block without the inner fence; and where everything is kept, the very block is left. -/
theorem cut_agrees :
    (∃ s, body.walk cutting ⟨{}, {}⟩ = .ok (some (.node cut)) s ∧ body.rewrite cutting ⟨{}, {}⟩ = .ok (.node cut) s) ∧
      ∃ s, body.walk keeping.recorded ⟨{}, ⟨(), []⟩⟩ = .ok none s := by
  constructor
  · have hwalk : ∃ s, body.walk cutting ⟨{}, {}⟩ = .ok (some (.node cut)) s := ⟨_, rfl⟩
    obtain ⟨s, hs⟩ := hwalk
    refine ⟨s, hs, ?_⟩
    rw [(body.walk_agrees cutting).1, map_ok _ hs]
    rfl
  · have hkeeps : (match body.walk keeping.recorded ⟨{}, ⟨(), []⟩⟩ with
        | .ok _ s => s.own.events.all keeps
        | .error _ _ => false) = true := by decide +kernel
    cases hs : body.walk keeping.recorded ⟨{}, ⟨(), []⟩⟩ with
    | error e s =>
      rw [hs] at hkeeps
      nomatch hkeeps
    | ok result s =>
      rw [hs] at hkeeps
      obtain ⟨calls, hcalls, hnone⟩ := ((body.walk_agrees keeping).2.2 _).2 _ _ hs
      refine ⟨s, ?_⟩
      rw [hnone]
      intro reply hreply
      have hkeep := all_eq_true.mp hkeeps (.answered reply) (hcalls ▸ hreply)
      cases reply with
      | keep => rfl
      | put f => nomatch hkeep

end Cut

end HdlLowering
