import HdlLowering.Proofs.Traversal.Plain

/-!
# What passes keep

`Leads` says where a step leads to when it ends and when it aborts. The steps of a pass can keep something of the compilation,
and take back what was opened for a node when that is transformed or unwound (`Pass.Steady`).
-/

namespace HdlLowering

open PassM

variable {σ τ α β ν : Type} {x : EStateM Abort τ α} {f : α → EStateM Abort τ β} (Q : τ → Prop)

/-- From states such that `Q`, a step that ends leads to one such that `R`, and a step that aborts to one such that `E`. -/
def Leads (x : EStateM Abort τ α) (R E : τ → Prop) : Prop :=
  ∀ s, Q s → match x s with
    | .ok _ s' => R s'
    | .error _ s' => E s'

abbrev Upholds (x : EStateM Abort τ α) : Prop := Leads Q x Q Q

/-- A step keeps something, and it ends. -/
abbrev Settles (x : EStateM Abort τ α) : Prop := Leads Q x Q fun _ => False

namespace Leads

variable {Q M R R' E E' : τ → Prop}

theorem mono (h : Leads Q x R E) (hR : ∀ s, R s → R' s) (hE : ∀ s, E s → E' s) : Leads Q x R' E' := by
  intro s hs
  have hx := h s hs
  cases hr : x s with
  | ok a s' =>
    rw [hr] at hx
    exact hR s' hx
  | error e s' =>
    rw [hr] at hx
    exact hE s' hx

theorem pure (a : α) : Leads Q (Pure.pure a : EStateM Abort τ α) Q E := fun _ hs => hs

theorem get : Leads Q (MonadState.get : EStateM Abort τ τ) Q E := fun _ hs => hs

theorem bind (hx : Leads Q x M E) (hf : ∀ a, Leads M (f a) R E) : Leads Q (x >>= f) R E := by
  intro s hs
  have hs1 := hx s hs
  cases h : x s with
  | ok a s1 =>
    rw [h] at hs1
    rw [bind_ok h]
    exact hf a s1 hs1
  | error e s1 =>
    rw [h] at hs1
    rw [bind_error h]
    exact hs1

theorem map {f : α → β} (hx : Leads Q x R E) : Leads Q (f <$> x) R E := by
  rw [map_eq_pure_bind]
  exact hx.bind fun a => .pure (f a)

theorem mapM (hf : ∀ a, Leads Q (f a) Q E) : ∀ xs : List α, Leads Q (xs.mapM f) Q E
  | [] => .pure []
  | x :: xs => by
    rw [List.mapM_cons]
    exact (hf x).bind fun _ => (mapM hf xs).bind fun _ => .pure _

theorem flatMapM {f : α → EStateM Abort τ (List β)} (hf : ∀ a, Leads Q (f a) Q E) : ∀ xs : List α, Leads Q (xs.flatMapM f) Q E
  | [] => .pure []
  | x :: xs => by
    rw [List.flatMapM_cons]
    exact (hf x).bind fun _ => (flatMapM hf xs).bind fun _ => .pure _

theorem forM {f : α → EStateM Abort τ Unit} (hf : ∀ a, Leads Q (f a) Q E) : ∀ xs : List α, Leads Q (xs.forM f) Q E
  | [] => .pure ()
  | x :: xs => (hf x).bind fun _ => forM hf xs

end Leads

theorem Leads.ends {Q R E : τ → Prop} (h : Leads Q x R fun _ => False) : Leads Q x R E :=
  h.mono (fun _ hs => hs) nofun

/-! ## Steps of a pass -/

/-- The compilation is such that `P`, and `view` sees `v` in the state of the pass. -/
def Sees (P : Context → Prop) (view : σ → ν) (v : ν) (s : Session σ) : Prop := P s.ctx ∧ view s.own = v

section

variable {P : Context → Prop} {view : σ → ν} {v : ν} {Q R E : Session σ → Prop} {x : ContextM α}

theorem Leads.own : Leads Q (own : PassM σ σ) Q E := fun _ hs => hs

theorem Leads.seen {f : σ → PassM σ α} (hf : ∀ st, view st = v → Leads (Sees P view v) (f st) R E) :
    Leads (Sees P view v) (PassM.own >>= f) R E := fun s hs => hf s.own hs.2 s hs

theorem Leads.symbols : Leads Q (symbols : PassM σ SymbolTable) Q E := fun _ hs => hs

theorem Leads.modifyOwn {f : σ → σ} {w : ν} (h : ∀ st, view st = v → view (f st) = w) :
    Leads (Sees P view v) (modifyOwn f) (Sees P view w) E := fun s hs => ⟨hs.1, h s.own hs.2⟩

theorem Leads.lift {P' E' : Context → Prop} (hx : Leads P x P' E') :
    Leads (Sees P view v) (liftM x : PassM σ α) (Sees P' view v) (Sees E' view v) := by
  intro s hs
  have hc := hx s.ctx hs.1
  simp only [liftM, monadLift, MonadLift.monadLift]
  cases h : x s.ctx <;> rw [h] at hc <;> exact ⟨hc, hs.2⟩

theorem Settles.lift (hx : Settles P x) : Settles (Sees P view v) (liftM x : PassM σ α) :=
  (Leads.lift hx).mono (fun _ hs => hs) fun _ hs => hs.1

theorem Leads.checked {p : Pass σ} {r : Root} (hdefault : ∀ r', Upholds Q (p.defaultCheck r r'))
    (hfinal : ∀ r', Upholds Q (p.finalCheck r')) (out : Option Root) : Upholds Q (p.checked r out) := by
  refine get.bind fun s => ?_
  split
  · exact (hdefault _).bind fun _ => (hfinal _).bind fun _ => .pure _
  · exact .pure _

theorem Leads.within {own : τ} {x : PassM τ α} (hx : Upholds (Sees P (fun _ => ()) ()) x) :
    Upholds (Sees P view v) (PassM.within own x : PassM σ α) := by
  intro s hs
  have hc := hx ⟨s.ctx, own⟩ ⟨hs.1, rfl⟩
  unfold PassM.within
  cases h : x ⟨s.ctx, own⟩ <;> rw [h] at hc <;> exact ⟨hc.1, hs.2⟩

end

/-! ## Steady passes -/

/-- A pass keeps `P` of the compilation. It opens what `view` sees when it enters a node, closes it when the node is transformed
or unwound, and touches it nowhere else; an abort comes before it opens or closes something. -/
structure Pass.Steady (p : Pass σ) (P : Context → Prop) (view : σ → ν) (close : Node → ν → ν) : Prop where
  alike : ∀ n n', n.alike n' = true → close n' = close n
  skip : ∀ n v, Upholds (Sees P view v) (p.skip n)
  enter : ∀ n v, Leads (Sees P view v) (p.enter n) (fun s => P s.ctx ∧ close n (view s.own) = v) (Sees P view v)
  transform : ∀ n v, Leads (Sees P view v) (p.transform n) (Sees P view (close n v))
    fun s => P s.ctx ∧ close n (view s.own) = close n v
  unwind : ∀ n st, view ((p.unwind.getD fun _ st => st) n st) = close n (view st)
  defaultCheck : ∀ r r' v, Upholds (Sees P view v) (p.defaultCheck r r')
  finalCheck : ∀ r v, Upholds (Sees P view v) (p.finalCheck r)
  named : ∀ name, Upholds P (ContextM.setPass name)
  broken : ∀ {α : Type} problem, Upholds P (ContextM.internal problem : ContextM α)

namespace Pass.Steady

variable {p : Pass σ} {P : Context → Prop} {view : σ → ν} {close : Node → ν → ν} {v : ν}

variable (h : p.Steady P view close)
include h

theorem guarded {n : Node} {x : PassM σ α}
    (hx : Leads (Sees P view v) x (Sees P view (close n v)) fun s => P s.ctx ∧ close n (view s.own) = close n v) :
    Leads (Sees P view v) (p.guarded n x) (Sees P view (close n v)) (Sees P view (close n v)) := by
  intro s hs
  have hs' := hx s hs
  unfold Pass.guarded
  cases hr : x s with
  | ok a s' =>
    rw [hr] at hs'
    exact hs'
  | error e s' =>
    rw [hr] at hs'
    have hunwind := h.unwind n s'.own
    cases hu : p.unwind with
    | none =>
      rw [hu] at hunwind
      exact ⟨hs'.1, hunwind.trans hs'.2⟩
    | some unwind =>
      rw [hu] at hunwind
      exact ⟨hs'.1, hunwind.trans hs'.2⟩

theorem visit {n : Node} {x : PassM σ (Option Node)} (hx : ∀ v, Upholds (Sees P view v) x)
    (halike : Pass.Replaces n x) : Upholds (Sees P view v) (p.visit n x) := by
  refine (h.skip n v).bind fun skipped => ?_
  cases skipped with
  | true => exact .pure _
  | false =>
    have hinside (w : ν) {k : Option Node → Reply → PassM σ (Option Forest)}
        (hk : ∀ rebuilt reply, Leads (Sees P view (close n w)) (k rebuilt reply) (Sees P view (close n w))
          fun s => P s.ctx ∧ close n (view s.own) = close n w) :
        Leads (Sees P view w) (x >>= fun rebuilt => p.transform (rebuilt.getD n) >>= k rebuilt) (Sees P view (close n w))
          fun s => P s.ctx ∧ close n (view s.own) = close n w := by
      intro s hs
      have hs1 := hx w s hs
      cases hrun : x s with
      | error e s1 =>
        rw [hrun] at hs1
        rw [bind_error hrun]
        exact ⟨hs1.1, congrArg (close n) hs1.2⟩
      | ok rebuilt s1 =>
        rw [hrun] at hs1
        rw [bind_ok hrun]
        have hclose : close (rebuilt.getD n) = close n := by
          cases rebuilt with
          | none => rfl
          | some n' => exact h.alike n n' (halike s n' s1 hrun)
        exact (Leads.bind (hclose ▸ h.transform (rebuilt.getD n) w) fun reply => hk rebuilt reply) s1 hs1
    refine (h.enter n v).bind fun _ s hs => ?_
    rw [← hs.2]
    refine h.guarded (hinside _ fun rebuilt reply => ?_) s ⟨hs.1, rfl⟩
    cases reply <;> exact .pure _

theorem relates : p.Relates p fun _ _ x _ _ => ∀ v, Upholds (Sees P view v) x where
  pure _ _ _ := .pure _
  fail _ _ := Leads.symbols.bind fun _ => .lift (h.broken _)
  mono _ hx := hx
  bind hx hf v := (hx v).bind fun a => hf a v
  visit hx halike _ := h.visit hx halike

/-- A steady pass keeps both in all its runs. -/
theorem run (r : Root) (v : ν) : Upholds (Sees P view v) (p.run r) := by
  have hchecked := Leads.checked (h.defaultCheck r · v) (h.finalCheck · v)
  refine (Leads.lift (h.named _)).bind fun _ => (Node.walk_relates h.relates (.root r) v).bind fun out => ?_
  split
  · exact hchecked none
  · exact hchecked (some _)
  · exact (Leads.lift (h.broken _)).bind hchecked

end Pass.Steady

end HdlLowering
