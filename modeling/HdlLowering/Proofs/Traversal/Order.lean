import HdlLowering.Proofs.Traversal.Recording

/-!
# The order of walks

A walk goes over a tree as `Node.nodes` lists it: a node is entered before its children, and the children are walked in order.
A pass that never skips a node and keeps every node enters just the nodes of the tree, in order (`Node.walk_enters`).
-/

namespace HdlLowering

open List PassEvent Node PassM

variable {σ α β : Type} {n : Node}

def PassEvent.entering? : PassEvent → Option Node
  | .enter n => some n
  | _ => none

def enteredNodes (events : List PassEvent) : List Node := events.filterMap entering?

/-- A pass never skips a node and keeps every node; its steps may do anything else, and abort. -/
structure Pass.Watches (p : Pass σ) : Prop where
  skip : ∀ n s skipped s', p.skip n s = .ok skipped s' → skipped = false
  transform : ∀ n s reply s', p.transform n s = .ok reply s' → reply = .keep

/-- A step enters all nodes of some trees in order and finds nothing new, or aborts on the way. -/
def Enters (ns : List Node) (φ : Prop) (x : PassM (Recorded σ) (Option α)) : Prop :=
  Logs x (fun a es => enteredNodes es = ns.flatMap nodes ∧ (φ → a = none)) fun es => enteredNodes es <+: ns.flatMap nodes

theorem enteredNodes_append (es es' : List PassEvent) : enteredNodes (es ++ es') = enteredNodes es ++ enteredNodes es' :=
  filterMap_append

theorem Pass.enteredNodes_unwound (p : Pass σ) (ns : List Node) : enteredNodes (p.unwound ns) = [] := by
  unfold Pass.unwound
  split
  · simp [enteredNodes, entering?]
  · rfl

namespace Enters

variable {x : PassM (Recorded σ) (Option α)} {ns ms : List Node} {φ : Prop}

theorem bind {f : Option α → PassM (Recorded σ) (Option β)} (hx : Enters ns True x) (hf : ∀ a, Enters ms (φ ∧ a = none) (f a)) :
    Enters (ns ++ ms) φ (x >>= f) := by
  unfold Enters
  rw [flatMap_append]
  have hx' := hx.mono (fun _ _ h => h) fun es hes => hes.trans (prefix_append _ (ms.flatMap nodes))
  refine hx'.bind ?_
  rintro a es ⟨hes, hnone⟩
  obtain rfl := hnone trivial
  refine (hf none).mono ?_ fun es' hes' => ?_
  · rintro b es' ⟨hes', hnone'⟩
    exact ⟨by rw [enteredNodes_append, hes, hes'], fun hφ => hnone' ⟨hφ, rfl⟩⟩
  · rw [enteredNodes_append, hes]
    exact (prefix_append_right_inj _).mpr hes'

/-- Where nothing is new, nothing is looked at or spliced. -/
theorem then_pure {f : Option α → PassM (Recorded σ) (Option β)} (hx : Enters ns True x) (hf : f none = Pure.pure none) :
    Enters ns True (x >>= f) := by
  refine Logs.bind hx ?_
  rintro a es ⟨hes, hnone⟩
  obtain rfl := hnone trivial
  rw [hf]
  exact .pure ⟨by rwa [append_nil], fun _ => rfl⟩

end Enters

namespace Pass.Watches

variable {p : Pass σ}

theorem inside (h : p.Watches) {x : PassM (Recorded σ) (Option Node)} (hx : Enters n.children True x) :
    Enters n.children True (do
      let rebuilt ← x
      match ← p.recorded.transform (rebuilt.getD n) with
      | .keep => return rebuilt.map Forest.node
      | .put f => return some f) := by
  refine Logs.bind hx ?_
  rintro a es ⟨hes, hnone⟩
  obtain rfl := hnone trivial
  have hquiet {es' : List PassEvent} (hes' : enteredNodes es' = []) : enteredNodes (es ++ es') = n.children.flatMap nodes := by
    rw [enteredNodes_append, hes, hes', append_nil]
  have hcalled : enteredNodes (es ++ [.transform n]) <+: n.children.flatMap nodes :=
    ⟨[], by rw [append_nil, hquiet rfl]⟩
  change Logs ((record (.transform n) >>= fun _ => unrecorded (p.transform n) >>= _) >>= _) _ _
  simp only [bind_assoc]
  refine .record_bind (.unrecorded_bind_of (h.transform n) hcalled ?_)
  rintro _ rfl
  exact .record_bind (.pure ⟨hquiet rfl, fun _ => rfl⟩)

theorem visit (h : p.Watches) {x : PassM (Recorded σ) (Option Node)} (hx : Enters n.children True x) :
    Enters [n] True (p.recorded.visit n x) := by
  unfold Enters
  rw [flatMap_singleton, n.nodes_eq]
  change Logs ((record (.skip n) >>= fun _ => unrecorded (p.skip n)) >>= _) _ _
  rw [bind_assoc]
  refine .record_bind (.unrecorded_bind_of (h.skip n) nil_prefix ?_)
  rintro _ rfl
  change Logs ((record (.enter n) >>= fun _ => unrecorded (p.enter n) >>= fun _ => record (.entered n)) >>= _) _ _
  simp only [bind_assoc]
  refine .record_bind (.unrecorded_bind (prefix_append [n] _) fun _ => .record_bind ?_)
  refine (p.guarded_logs (h.inside hx)).mono ?_ ?_
  · rintro a es ⟨hes, hnone⟩
    exact ⟨congrArg (n :: ·) hes, hnone⟩
  · rintro _ ⟨es, hes, rfl⟩
    change n :: enteredNodes (es ++ p.unwound [n]) <+: _
    rw [enteredNodes_append, p.enteredNodes_unwound, append_nil]
    exact (prefix_cons_inj n).mpr hes

theorem tours (h : p.Watches) : p.recorded.Tours p.recorded fun ns φ _ x _ _ => Enters ns φ x where
  pure _ ha := .pure ⟨rfl, ha.mpr⟩
  bind hx hf := hx.bind hf
  visit hx _ := h.visit hx
  expr _ hx := hx.then_pure rfl
  decl _ hd := hd.then_pure rfl
  element _ _ _ hx := hx.then_pure rfl

end Pass.Watches

/-- A walk enters the nodes that the list of all nodes has, in that order. For a pass that never skips a node and keeps every
node, a walk that ends has entered all nodes of the tree, a node before its children, and gives nothing new; a walk that a step
of the pass aborts has entered the first of them. -/
theorem Node.walk_enters {p : Pass σ} (h : p.Watches) (n : Node) (s : Session (Recorded σ)) :
    bareResult (n.walk p.recorded s) = n.walk p s.bare ∧
      match n.walk p.recorded s with
      | .ok result s' => result = none ∧ ∃ calls, s'.own.events = s.own.events ++ calls ∧ enteredNodes calls = n.nodes
      | .error _ s' => ∃ calls, s'.own.events = s.own.events ++ calls ∧ enteredNodes calls <+: n.nodes := by
  refine ⟨n.walk_recorded p s, ?_⟩
  have hlogs := n.walk_tours h.tours s
  rw [flatMap_singleton] at hlogs
  cases hwalk : n.walk p.recorded s with
  | ok result s' =>
    rw [hwalk] at hlogs
    obtain ⟨calls, hcalls, hentered, hnone⟩ := hlogs
    exact ⟨hnone trivial, calls, hcalls, hentered⟩
  | error e s' =>
    rw [hwalk] at hlogs
    exact hlogs

namespace Counted

/-- An entity with a declaration, an instance, a connection and a case statement, and another entity in it. -/
def design : Node :=
  .root { entities := [{
    loc := default
    symbol := ⟨0⟩
    decls := [⟨default, ⟨1⟩, some (.cat default [.ref default ⟨2⟩, .num default false 1])⟩]
    entities := [{ loc := default, symbol := ⟨3⟩, stmts := [.loop default [.break default]] }]
    instances := [⟨default, ⟨4⟩, ⟨3⟩⟩]
    connects := [⟨default, .ref default ⟨4⟩, [.ref default ⟨1⟩, .ref default ⟨2⟩]⟩]
    stmts := [.case default (.ref default ⟨1⟩) [⟨default, [.num default false 1], [.fence default]⟩]
      (some [.decl default ⟨default, ⟨5⟩, none⟩])] }] }

def counting : Pass Nat where
  name := "count"
  enter _ := modifyOwn (· + 1)

theorem counting_watches : counting.Watches where
  skip _ _ _ _ h := by
    cases h
    rfl
  transform _ _ _ _ h := by
    cases h
    rfl

/-- The nodes of the design are counted, in order. -/
theorem all_entered : ∃ s, design.walk counting.recorded ⟨{}, ⟨0, []⟩⟩ = .ok none s ∧ s.own.own = 21 ∧
    enteredNodes s.own.events = design.nodes := by
  have henters := design.walk_enters counting_watches ⟨{}, ⟨0, []⟩⟩
  have hcount : (match design.walk counting.recorded ⟨{}, ⟨0, []⟩⟩ with
      | .ok _ s => decide (s.own.own = 21)
      | .error _ _ => false) = true := by decide +kernel
  cases hwalk : design.walk counting.recorded ⟨{}, ⟨0, []⟩⟩ with
  | error e s =>
    rw [hwalk] at hcount
    nomatch hcount
  | ok result s =>
    rw [hwalk] at hcount henters
    obtain ⟨-, rfl, calls, hcalls, hentered⟩ := henters
    exact ⟨s, rfl, of_decide_eq_true hcount, hcalls ▸ hentered⟩

end Counted

end HdlLowering
