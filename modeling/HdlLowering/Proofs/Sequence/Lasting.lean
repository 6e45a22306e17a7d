import HdlLowering.Lowering.Sequence
import HdlLowering.Proofs.Pipeline.Liveness
import HdlLowering.Proofs.Traversal.Steadiness
import HdlLowering.Proofs.Value.Normalize

/-!
# What lasts through a lowering

A pass makes symbols of kinds that are made of those it finds, changes what the symbol table says of a symbol, and reports
problems. What none of this ends is `Context.Lasting`: that every error among the diagnostics is counted, or which struct types
there are. The passes with scope stacks leave these as deep as they were.
-/

namespace HdlLowering

open List Leads Kind Context ContextM

variable {σ α β ν : Type} {K : Kind → Prop} {P : Context → Prop} {x : PassM σ α} {c : Context} {elem : Kind} {view : σ → ν}

/-- What holds of the kinds that passes make when it holds of those that they make them of. -/
structure Kind.Closed (K : Kind → Prop) : Prop where
  uint : ∀ w, K (.uint w)
  entity : ∀ ps, K (.entity ps)
  inst : ∀ e, K (.inst e)
  input : ∀ {k} f, K k → K (.input k f)
  output : ∀ {k} f st, K k → K (.output k f st)
  array : ∀ {k} n, K k → K (.array k n)
  driven : ∀ {k f st}, K (.output k f st) → K k
  underlying : ∀ {k}, K k → K k.underlying
  elem : ∀ {k d}, K (.stack k d) → K k

theorem Kind.closed_true : Closed fun _ => True := by
  constructor <;> intros <;> trivial

theorem Kind.Closed.asWire (h : Closed K) {k : Kind} (hk : K k) : K (Nesting.asWire k) := by
  cases k with
  | output k f st => exact h.output f .wire (h.driven hk)
  | _ => exact hk

/-- What the steps of a compilation do not end. All kinds are such that `K`; then new symbols of such kinds, reports, and changes
that keep name and kind of a symbol or make it stand for an entity are harmless. -/
structure Context.Lasting (K : Kind → Prop) (P : Context → Prop) : Prop where
  closed : Closed K
  kinds : ∀ {c}, P c → ∀ x, K (c.symbols.kind x)
  push : ∀ {c} id e, P c → K e.kind → P { c with symbols := (c.symbols.push e).2, nextId := id }
  modify : ∀ {c} x f, P c → (∀ e, (f e).name = e.name) → (∀ e, (f e).kind = e.kind ∨ ∃ ps, (f e).kind = .entity ps) →
    P { c with symbols := c.symbols.modify x f }
  pass : ∀ {c} name, P c → P { c with reporter := { c.reporter with pass := name } }
  report : ∀ {c} severity loc problem, P c → P { c with reporter := c.reporter.add severity loc problem }
  internal : ∀ {c}, P c → P { c with reporter := { c.reporter with errorCount := c.reporter.errorCount + 1 } }

structure Context.Revises (K : Kind → Prop) (P : Context → Prop) : Prop where
  rename : ∀ {c} x name, P c → P { c with symbols := c.symbols.modify x fun e => { e with name } }
  setKind : ∀ {c} x kind, P c → K kind → P { c with symbols := c.symbols.modify x fun e => { e with kind } }

theorem Context.lasting_true : Lasting (fun _ => True) fun _ => True := by
  constructor <;> intros <;> first | trivial | exact closed_true

/-- Every error among the diagnostics is counted. -/
def Context.Tallied (c : Context) : Prop := c.reporter.errors.length ≤ c.reporter.errorCount

theorem Context.lasting_tallied : Lasting (fun _ => True) Tallied where
  closed := closed_true
  kinds _ _ := trivial
  push _ _ h _ := h
  modify _ _ h _ _ := h
  pass _ h := h
  report severity loc problem h := by
    rename_i c
    change ((c.reporter.diagnostics ++ [(⟨severity, _, loc, problem⟩ : Diagnostic)]).filter (·.severity.isError)).length ≤
      if severity.isError then _ else _
    change (c.reporter.diagnostics.filter (·.severity.isError)).length ≤ c.reporter.errorCount at h
    rw [filter_append, length_append]
    cases hsev : severity.isError <;> simp [hsev] <;> omega
  internal h := Nat.le_succ_of_le h

theorem Context.Tallied.no_error (h : c.Tallied) (hproceed : c.reporter.proceed = true) :
    ∀ d ∈ c.reporter.diagnostics, d.severity.isError = false := by
  have hzero : c.reporter.errors.length = 0 := by
    have hcount : c.reporter.errorCount = 0 := by simpa [Reporter.proceed] using hproceed
    unfold Tallied at h
    omega
  intro d hd
  have hnone := filter_eq_nil_iff.mp (length_eq_zero_iff.mp hzero) d hd
  simpa using hnone

/-! ## Steps of a compilation -/

namespace Context.Lasting

variable (h : Lasting K P) {R E : Context → Prop}

include h

theorem symbols {f : SymbolTable → ContextM α} (hf : ∀ Γ : SymbolTable, (∀ x, K (Γ.kind x)) → Leads P (f Γ) R E) :
    Leads P (ContextM.symbols >>= f) R E := fun c hc => hf c.symbols (h.kinds hc) c hc

theorem table {v : ν} {R E : Session σ → Prop} {f : SymbolTable → PassM σ α}
    (hf : ∀ Γ : SymbolTable, (∀ x, K (Γ.kind x)) → Leads (Sees P view v) (f Γ) R E) :
    Leads (Sees P view v) (PassM.symbols >>= f) R E := fun s hs => hf s.ctx.symbols (h.kinds hs.1) s hs

theorem newSymbol (cls : SymbolClass) (name : String) (loc : Loc) {kind : Kind} (hkind : K kind) :
    Leads P (newSymbol cls name loc kind) P E := fun c hc =>
  h.push (c := c) (c.nextId + 1) { id := c.nextId, name, loc, cls, kind } hc hkind

theorem symbolLike (s : Symbol) : Leads P (ContextM.symbolLike s) P E :=
  h.symbols fun _ hΓ => h.newSymbol _ _ _ ((clone_eq _).symm ▸ hΓ s)

theorem addPorts (entity : Symbol) (ports : List Symbol) : Leads P (ContextM.addPorts entity ports) P E := by
  unfold ContextM.addPorts
  split
  · exact .pure _
  · exact h.symbols fun _ _ _ hc => h.modify _ _ hc (fun _ => rfl) fun _ => .inr ⟨_, rfl⟩

theorem modifyAttrs (s : Symbol) (f : Attributes → Attributes) : Leads P (modifyAttrs s f) P E :=
  fun _ hc => h.modify s _ hc (fun _ => rfl) fun _ => .inl rfl

theorem reported (severity : Severity) (loc : Loc) (problem : Problem) : Leads P (ContextM.report severity loc problem) P E :=
  fun _ hc => h.report _ _ _ hc

theorem fatal (loc : Loc) (problem : Problem) : Upholds P (fatal loc problem : ContextM α) :=
  fun _ hc => h.report _ _ _ hc

theorem broken (problem : Problem) : Upholds P (ContextM.internal problem : ContextM α) := fun _ hc => h.internal hc

end Context.Lasting

theorem Context.Revises.kind (h : Revises K P) {E : Context → Prop} (s : Symbol) {kind : Kind} (hkind : K kind) :
    Leads P (ContextM.setKind s kind) P E := fun _ hc => h.setKind s kind hc hkind

/-! ## Passes without scopes -/

theorem Context.Lasting.steady (h : Lasting K P) {p : Pass Unit} (hskip : ∀ n, Upholds (Sees P (fun _ => ()) ()) (p.skip n))
    (henter : ∀ n, Upholds (Sees P (fun _ => ()) ()) (p.enter n))
    (htransform : ∀ n, Upholds (Sees P (fun _ => ()) ()) (p.transform n))
    (hdefault : ∀ r r', Upholds (Sees P (fun _ => ()) ()) (p.defaultCheck r r'))
    (hfinal : ∀ r, Upholds (Sees P (fun _ => ()) ()) (p.finalCheck r)) : p.Steady P (fun _ => ()) fun _ v => v where
  alike _ _ _ := rfl
  skip n _ := hskip n
  enter n _ := henter n
  transform n _ := htransform n
  unwind _ _ := rfl
  defaultCheck r r' _ := hdefault r r'
  finalCheck r _ := hfinal r
  named _ _ hc := h.pass _ hc
  broken := h.broken

namespace Pipeline

variable (hP : Lasting K P)

include hP

theorem checkLinks_upholds : ∀ (met : List Link) (rest : List (Loc × Link)), Upholds P (checkLinks met rest)
  | _, [] => .pure _
  | met, (loc, l) :: rest => by
    have hreport (b : Bool) (problem : Problem) (x : ContextM Bool) (hx : Upholds P x) :
        Upholds P (if b = true then ContextM.error loc problem >>= fun _ => x else x) := by
      split
      · exact (hP.reported _ _ _).bind fun _ => hx
      · exact hx
    rw [checkLinks]
    refine hP.symbols fun Γ _ => hreport _ _ _ (hreport _ _ _ ?_)
    exact (checkLinks_upholds _ rest).bind fun _ => .pure _

theorem stageChains_upholds (e : Entity) : Upholds P (stageChains e) := by
  refine hP.symbols fun Γ _ => (checkLinks_upholds hP _ _).bind fun ok => ?_
  split
  · dsimp only
    split
    · exact (hP.reported _ _ _).bind fun _ => .pure _
    · exact .pure _
  · exact .pure _

theorem newLocal_upholds (v : Symbol) : Upholds P (newLocal v) :=
  hP.symbols fun _ hΓ => (hP.newSymbol _ _ _ ((clone_eq _).symm ▸ hP.closed.underlying (hΓ v))).bind fun _ =>
    (hP.modifyAttrs _ _).bind fun _ => .pure _

theorem stagePass_steady (st : Stage) : (stagePass st).Steady P (fun _ => ()) fun _ v => v := by
  refine hP.steady (fun _ => .pure _) (fun _ => .pure _) (fun n => ?_) (fun _ _ => .pure _) fun _ => .pure _
  unfold stagePass
  dsimp only
  split
  · split <;> exact .pure _
  · split
    · exact .pure _
    · exact symbols.bind fun _ => .lift (hP.fatal _ _)
  · split
    · exact .pure _
    · exact symbols.bind fun _ => .lift (hP.fatal _ _)
  · exact .pure _

theorem check_upholds (Γ : SymbolTable) : ∀ ns : List Node, Upholds P (check Γ ns)
  | [] => .pure _
  | n :: ns => by
    have hbroken (problem : Problem) : Upholds P (ContextM.internal problem >>= fun _ : Unit => check Γ ns) :=
      (hP.broken _).bind fun _ => check_upholds Γ ns
    have htest (c : Prop) [Decidable c] (problem : Problem) :
        Upholds P (if c then ContextM.internal problem >>= fun _ : Unit => check Γ ns else check Γ ns) := by
      split
      · exact hbroken problem
      · exact check_upholds Γ ns
    unfold check
    dsimp only
    split
    · exact hbroken _
    · exact hbroken _
    · exact htest _ _
    · exact htest _ _
    · exact check_upholds Γ ns

theorem finalCheck_upholds (r : Root) : Upholds (Sees P (fun _ => ()) ()) (pass.finalCheck r) := by
  refine get.bind fun s => ?_
  split
  · exact symbols.bind fun Γ => .lift (check_upholds hP Γ _)
  · exact .pure _

variable (hK : ∀ k, K k)

include hK

theorem newPort_upholds (suffix name : String) (wrap : Kind → Kind) (role : Role) (stage : Entity) (vars : Option SymbolSet) :
    Upholds P (newPort suffix name wrap role stage vars) := by
  unfold newPort
  split
  · split
    · exact .pure _
    · exact hP.symbols fun Γ _ => (hP.newSymbol _ _ _ (hK _)).bind fun _ => (hP.modifyAttrs _ _).bind fun _ => .pure _
  · exact .pure _

theorem lowerStage_upholds (stage : Entity) (here : SymbolSet) (before after : Option SymbolSet) :
    Upholds (Sees P (fun _ => ()) ()) (lowerStage stage here before after) := by
  refine (mapM (fun v => .lift (newLocal_upholds hP v)) _).bind fun vars => ?_
  refine (lift (newPort_upholds hP hK "in" inputName inputKind _ _ _)).bind fun input => ?_
  refine (lift (newPort_upholds hP hK "out" outputName outputKind _ _ _)).bind fun output => ?_
  refine (Node.walk_relates (stagePass_steady hP _).relates (.entity stage) _).bind fun out => ?_
  exact symbols.bind fun Γ => (lift (hP.addPorts _ _)).bind fun _ => .pure _

theorem lowerChain_upholds : ∀ (before : Option SymbolSet) (stages : List (Entity × SymbolSet)),
    Upholds (Sees P (fun _ => ()) ()) (lowerChain before stages)
  | _, [] => .pure _
  | before, (stage, here) :: rest => by
    rw [lowerChain]
    exact (lowerStage_upholds hP hK _ _ _ _).bind fun _ => (lowerChain_upholds _ rest).bind fun _ => .pure _

theorem pass_steady : pass.Steady P (fun _ => ()) fun _ v => v := by
  refine hP.steady (fun n => ?_) (fun _ => .pure _) (fun n => ?_) (fun _ _ => .pure _) (finalCheck_upholds hP)
  · cases n <;> exact .pure _
  · cases n with
    | entity e =>
      refine symbols.bind fun Γ => ?_
      dsimp only
      split
      · exact .pure _
      · refine (lift (stageChains_upholds hP e)).bind fun found => ?_
        split
        · exact .pure _
        · refine symbols.bind fun Γ => bind (.flatMapM (fun chain => ?_) _) fun lowered => ?_
          · exact symbols.bind fun _ => lowerChain_upholds hP hK _ _
          · exact symbols.bind fun _ => .pure _
    | _ => exact .pure _

end Pipeline

namespace Concatenation

variable (hP : Lasting K P)

include hP

theorem regroup_upholds (loc : Loc) (target source : List Expr) : Upholds P (regroup loc target source) := by
  refine hP.symbols fun Γ _ => ?_
  split
  · exact .pure _
  · split
    · split
      · exact (hP.reported _ _ _).bind fun _ => .pure _
      · dsimp only
        split
        · split <;> exact .pure _
        · exact .pure _
    · exact .pure _

theorem pass_steady : pass.Steady P (fun _ => ()) fun _ v => v := by
  refine hP.steady (fun _ => .pure _) (fun _ => .pure _) (fun n => ?_) (fun _ _ => .pure _) fun _ => .pure _
  unfold pass
  dsimp only
  split
  · split <;> exact .pure _
  · unfold assignReply
    split
    · refine (lift (regroup_upholds hP _ _ _)).bind fun gs => ?_
      split <;> exact .pure _
    · refine symbols.bind fun Γ => ?_
      split
      · dsimp only
        split <;> exact .pure _
      · exact .pure _
    · exact .pure _
  · unfold connectReply
    split
    · refine (lift (regroup_upholds hP _ _ _)).bind fun gs => ?_
      split <;> exact .pure _
    · exact .pure _
  · exact .pure _

end Concatenation

namespace Blocks

theorem check_upholds (hP : Lasting K P) (ns : List Node) : Upholds P (check ns) := by
  fun_induction check ns with
  | case1 => exact .pure _
  | case2 l _ _ => exact hP.broken _
  | case3 _ _ _ ih => exact ih

theorem pass_steady (hP : Lasting K P) : pass.Steady P (fun _ => ()) fun _ v => v := by
  refine hP.steady (fun _ => .pure _) (fun _ => .pure _) (fun n => ?_) (fun _ _ => .pure _) fun _ => .lift (check_upholds hP _)
  unfold pass
  dsimp only
  split <;> exact .pure _

end Blocks

/-! ## Passes with scopes -/

/-- Closes an entity or a statement: there is one scope less for it. -/
def closeDepth : Node → Nat × Nat → Nat × Nat
  | .entity _, (entities, stmts) => (entities - 1, stmts)
  | .stmt _, (entities, stmts) => (entities, stmts - 1)
  | _, depths => depths

theorem closeDepth_alike (n n' : Node) (h : n.alike n' = true) : closeDepth n' = closeDepth n := by
  cases n <;> cases n' <;> first | rfl | nomatch h

variable (s : Scopes α)

@[simp] theorem Scopes.size_push (a : α) : (s.push a).size = s.size + 1 := rfl

@[simp] theorem Scopes.size_pop : s.pop.size = s.size - 1 := length_tail

@[simp] theorem Scopes.size_modifyLevel (levels : Nat) (f : α → α) : (s.modifyLevel levels f).size = s.size :=
  length_modify ..

section

variable {view : σ → ν} {close : ν → ν} {v : ν}

variable (hx : Upholds (Sees P view v) x)
include hx

theorem Leads.opening (hclose : ∀ v, close v = v) :
    Leads (Sees P view v) x (fun s => P s.ctx ∧ close (view s.own) = v) (Sees P view v) :=
  hx.mono (fun _ hs => ⟨hs.1, (hclose _).trans hs.2⟩) fun _ hs => hs

theorem Leads.closing (hclose : ∀ v, close v = v) :
    Leads (Sees P view v) x (Sees P view (close v)) fun s => P s.ctx ∧ close (view s.own) = close v :=
  hx.mono (fun _ hs => ⟨hs.1, hs.2.trans (hclose v).symm⟩) fun _ hs => ⟨hs.1, congrArg close hs.2⟩

theorem Leads.unclosed : Leads (Sees P view v) x (Sees P view v) fun s => P s.ctx ∧ close (view s.own) = close v :=
  hx.mono (fun _ hs => hs) fun _ hs => ⟨hs.1, congrArg close hs.2⟩

end

namespace StackEntity

def DraftUpholds (P : Context → Prop) (x : DraftM α) : Prop := ∀ u, Upholds P (x.run u)

theorem DraftUpholds.bind {x : DraftM α} {f : α → DraftM β} (hx : DraftUpholds P x) (hf : ∀ a, DraftUpholds P (f a)) :
    DraftUpholds P (x >>= f) := fun u => (hx u).bind fun p => hf p.1 p.2

theorem DraftUpholds.pure (a : α) : DraftUpholds P (pure a) := fun _ => .pure _

theorem DraftUpholds.get : DraftUpholds P (MonadState.get : DraftM Draft) := fun _ => .pure _

theorem DraftUpholds.change (f : Draft → Draft) : DraftUpholds P (modify f : DraftM Unit) := fun _ => .pure _

theorem DraftUpholds.lift {x : ContextM α} (hx : Upholds P x) : DraftUpholds P (liftM x : DraftM α) := fun _ =>
  hx.bind fun _ => .pure _

theorem DraftUpholds.mapM {f : α → DraftM β} (hf : ∀ a, DraftUpholds P (f a)) : ∀ xs : List α, DraftUpholds P (xs.mapM f)
  | [] => .pure _
  | x :: xs => by
    rw [mapM_cons]
    exact (hf x).bind fun _ => (DraftUpholds.mapM hf xs).bind fun _ => .pure _

variable (hP : Lasting K P)

include hP

variable (name : String)

theorem reg_upholds {kind : Kind} (hkind : K kind) (init : Option Expr) : DraftUpholds P (reg name kind init) := by
  refine DraftUpholds.get.bind fun u => (DraftUpholds.lift (hP.newSymbol _ _ _ hkind)).bind fun s => ?_
  refine (DraftUpholds.change _).bind fun _ => ?_
  split
  · exact (DraftUpholds.lift (hP.modifyAttrs _ _)).bind fun _ => .pure _
  · exact .pure _

theorem port_upholds {kind : Kind} (hkind : K kind) (init : Option Expr) : DraftUpholds P (port name kind init) :=
  (reg_upholds hP _ hkind _).bind fun _ => (DraftUpholds.change _).bind fun _ => .pure _

theorem make_upholds (helem : K elem.clone) (depth : Int64) : DraftUpholds P (make elem depth) := by
  have hword (w : Int64) := hP.closed.uint w
  refine (DraftUpholds.mapM (fun _ => port_upholds hP _ (hP.closed.input _ (hword 1)) _) _).bind fun _ =>
    (port_upholds hP _ (hP.closed.input _ helem) _).bind fun _ => (port_upholds hP _ (hP.closed.output _ _ helem) _).bind fun _ =>
    (port_upholds hP _ (hP.closed.output _ _ (hword 1)) _).bind fun _ =>
    (port_upholds hP _ (hP.closed.output _ _ (hword 1)) _).bind fun _ => ?_
  dsimp only
  split
  · exact DraftUpholds.get.bind fun _ => (reg_upholds hP _ helem _).bind fun _ => (reg_upholds hP _ (hword 1) _).bind fun _ =>
      (DraftUpholds.lift (hP.modifyAttrs _ _)).bind fun _ => .pure _
  · exact DraftUpholds.get.bind fun _ => (reg_upholds hP _ (hword _) _).bind fun _ =>
      (reg_upholds hP _ (hP.closed.array _ helem) _).bind fun _ => (DraftUpholds.lift (hP.modifyAttrs _ _)).bind fun _ => .pure _

theorem build_upholds (loc : Loc) (helem : K elem) (depth : Option Expr) : Upholds P (build name loc elem depth) := by
  unfold build
  split
  · exact hP.broken _
  · refine hP.symbols fun Γ _ => ?_
    split
    · exact (make_upholds hP ((clone_eq _).symm ▸ helem) _ _).bind fun _ =>
        (hP.newSymbol _ _ _ (hP.closed.entity _)).bind fun _ => .pure _
    · exact hP.broken _

end StackEntity

namespace Stack

def State.depths (st : State) : Nat × Nat := (st.owners.size, st.pending.size)

variable (hP : Lasting K P) {v : Nat × Nat}

include hP

theorem makeInfo_upholds (stack : Symbol) (helem : K elem) (depth : Expr) : Upholds P (makeInfo stack elem depth) := by
  refine hP.symbols fun _ _ => (StackEntity.build_upholds hP _ _ helem _).bind fun _ =>
    (hP.newSymbol _ _ _ (hP.closed.inst _)).bind fun _ => hP.symbols fun _ _ => (mapM (fun port => ?_) _).bind fun _ => .pure _
  exact hP.symbols fun _ hΓ => (hP.newSymbol _ _ _ ((clone_eq _).symm ▸ hP.closed.underlying (hΓ port))).bind fun _ =>
    (hP.modifyAttrs _ _).bind fun _ => (hP.modifyAttrs _ _).bind fun _ => .pure _

theorem enterDecls_upholds : ∀ ds : List Decl, Upholds (Sees P State.depths v) (enterDecls ds)
  | [] => .pure _
  | d :: ds => by
    rw [enterDecls]
    refine hP.table fun Γ hΓ => ?_
    split
    · rename_i elem depth hkind
      have helem : K elem := hP.closed.elem (hkind ▸ hΓ d.symbol)
      refine (lift (makeInfo_upholds hP _ helem _)).bind fun _ => (modifyOwn ?_).bind fun _ =>
        (enterDecls_upholds ds).bind fun _ => .pure _
      exact fun _ hst => hst
    · exact enterDecls_upholds ds

theorem callReply_upholds (loc : Loc) (func : Expr) (args : List Expr) :
    Upholds (Sees P State.depths v) (callReply loc func args) := by
  refine seen fun st hst => symbols.bind fun Γ => ?_
  split
  · split <;> exact .pure _
  · split
    · exact .pure _
    · split
      · exact (lift (hP.reported _ _ _)).bind fun _ => .pure _
      · -- A scope with more effects takes the place of the innermost one.
        rename_i effects htop
        have hsize : v.2 - 1 + 1 = v.2 := by
          refine Nat.sub_add_cancel ?_
          subst hst
          unfold Scopes.top? at htop
          unfold State.depths Scopes.size
          cases hitems : st.pending.items with
          | nil => rw [hitems] at htop; cases htop
          | cons => simp
        refine (modifyOwn fun st hst => ?_).bind fun _ => .pure _
        rw [← hst] at hsize ⊢
        simpa [State.depths] using hsize
  · exact .pure _

theorem operation_settles (e : Expr) : Settles (Sees P State.depths v) (operation e) := by
  unfold operation
  split
  · refine own.bind fun st => ?_
    split
    · exact .pure _
    · split
      · split
        · exact .pure _
        · exact symbols.bind fun _ => (Settles.lift (hP.reported _ _ _)).bind fun _ => .pure _
      · exact .pure _
  · exact .pure _

theorem stmtReply_closes (s : Stmt) : Leads (Sees P State.depths v) (stmtReply s) (Sees P State.depths (closeDepth (.stmt s) v))
    fun _ => False := by
  have hreply (alone : Reply) (bare : Bool) (effects : List Stmt) (self : Forest) (w : Nat × Nat) :
      Settles (Sees P State.depths w) (if bare then pure (Reply.put (.ofStmts effects))
        else if effects.isEmpty then pure alone
        else pure (.put (.several (if effectsFirst s then effects.map (fun a => .node (.stmt a)) ++ [self]
          else self :: effects.map fun a => .node (.stmt a)))) : PassM State Reply) := by
    split
    · exact .pure _
    · split <;> exact .pure _
  refine own.bind fun st => (modifyOwn (w := closeDepth (.stmt s) v) ?_).bind fun _ => ?_
  · rintro st rfl
    simp [State.depths, closeDepth]
  · dsimp only
    split
    · exact (operation_settles hP _).bind fun ops => symbols.bind fun Γ => hreply _ _ _ _ _
    · exact (pure none).bind fun ops => symbols.bind fun Γ => hreply _ _ _ _ _

omit hP in
theorem entityReply_closes (e : Entity) : Leads (Sees P State.depths v) (entityReply e)
    (Sees P State.depths (closeDepth (.entity e) v)) fun _ => False := by
  refine own.bind fun st => (modifyOwn (w := closeDepth (.entity e) v) ?_).bind fun _ => ?_
  · rintro st rfl
    simp [State.depths, closeDepth]
  · split
    · exact .pure _
    · exact own.bind fun _ => symbols.bind fun _ => .pure _

theorem check_upholds (Γ : SymbolTable) : ∀ ns : List Node, Upholds P (check Γ ns)
  | [] => .pure _
  | n :: ns => by
    have hrest := check_upholds Γ ns
    cases n with
    | decl d =>
      rw [check]
      split
      · exact (hP.broken _).bind fun _ => hrest
      · exact hrest
    | _ => exact hrest

theorem pass_steady : pass.Steady P State.depths closeDepth where
  alike := closeDepth_alike
  skip _ _ := .pure _
  enter n v := by
    cases n with
    | entity e =>
      refine (enterDecls_upholds hP e.decls).bind fun infos s hs => ⟨hs.1, ?_⟩
      rw [← hs.2]
      rfl
    | stmt s => exact fun s hs => ⟨hs.1, hs.2⟩
    | _ => exact .opening (.pure _) fun _ => rfl
  transform n v := by
    cases n with
    | entity e => exact (entityReply_closes e).ends
    | stmt s => exact (stmtReply_closes hP s).ends
    | expr e =>
      refine .closing ?_ fun _ => rfl
      cases e with
      | select l base field => exact own.bind fun _ => .pure _
      | call l f as => exact callReply_upholds hP l f as
      | _ => exact .pure _
    | _ => exact .closing (.pure _) fun _ => rfl
  unwind n st := by cases n <;> simp [pass, State.depths, closeDepth]
  defaultCheck _ _ _ := .pure _
  finalCheck r v := by
    have hcheck : Upholds (Sees P State.depths v) (do check (← PassM.symbols) r.nodes : PassM State Unit) :=
      symbols.bind fun Γ => .lift (check_upholds hP Γ _)
    refine own.bind fun st => ?_
    split
    · exact (lift (hP.broken _)).bind fun _ => hcheck
    · exact hcheck
  named _ _ hc := hP.pass _ hc
  broken := hP.broken

end Stack

namespace Nesting

def closeEntity : Node → Nat → Nat
  | .entity _, depth => depth - 1
  | _, depth => depth

def State.depth (st : State) : Nat := st.frames.size

variable (hP : Lasting K P) {v : Nat}

include hP

theorem newFrame_upholds (e : Entity) : Upholds P (newFrame e) := by
  refine (forM (fun d => hP.symbols fun Γ _ => ?_) _).bind fun _ => hP.symbols fun Γ _ => .pure _
  split
  · exact hP.modifyAttrs _ _
  · exact .pure _

theorem makeAlias_upholds (entity : Symbol) (u : Use) : Upholds (Sees P State.depth v) (makeAlias entity u) := by
  refine (lift (hP.symbolLike _)).bind fun own => (lift (hP.modifyAttrs _ _)).bind fun _ =>
    symbols.bind fun Γ => ?_
  split
  · refine (modifyOwn ?_).bind fun _ => .pure _
    exact fun _ hst => hst
  · exact .pure _

theorem enterEntity_opens (e : Entity) : Leads (Sees P State.depth v) (enterEntity e)
    (fun s => P s.ctx ∧ closeEntity (.entity e) s.own.depth = v) (Sees P State.depth v) := by
  refine (lift (newFrame_upholds hP e)).bind fun f => own.bind fun st => ?_
  have hpush (aliases : List (Symbol × Symbol)) : Leads (Sees P State.depth v)
      (PassM.modifyOwn fun st => { st with frames := st.frames.push { f with aliases } })
      (fun s => P s.ctx ∧ closeEntity (.entity e) s.own.depth = v) (Sees P State.depth v) :=
    fun s hs => ⟨hs.1, hs.2⟩
  dsimp only
  split
  · exact (pure _).bind hpush
  · exact symbols.bind fun Γ => (mapM (makeAlias_upholds hP e.symbol) _).bind hpush

theorem applyExpr_upholds (m : Substitution) (e : Expr) : Upholds (Sees P State.depth v) (m.applyExpr e : PassM State Expr) := by
  have hpass : m.pass.Steady P (fun _ => ()) fun _ v => v := by
    refine hP.steady (fun _ => .pure _) (fun _ => .pure _) (fun n => ?_) (fun _ _ => .pure _) fun _ => .pure _
    unfold Substitution.pass
    dsimp only
    split
    · split <;> exact .pure _
    · exact .pure _
  have hwalk : Upholds (Sees P State.depth v) (m.walk (.expr e) : PassM State (Option Forest)) := by
    unfold Substitution.walk
    split
    · exact .pure _
    · exact .within (Node.walk_relates hpass.relates (.expr e) _)
  refine hwalk.bind fun out => ?_
  split <;> exact .pure _

theorem declareAlias_upholds (loc : Loc) (aliases : Substitution) (outer own : Symbol) :
    Upholds (Sees P State.depth v) (declareAlias loc aliases outer own) := by
  refine symbols.bind fun Γ => ?_
  split
  · have hset (init : Option Expr) : Upholds (Sees P State.depth v) (do
        setInit own init
        return ⟨loc, own, init⟩ : PassM State Decl) :=
      (lift (hP.modifyAttrs _ _)).bind fun _ => .pure _
    dsimp only
    split
    · exact bind (applyExpr_upholds hP _ _).map hset
    · exact (pure _).bind hset
  · exact .pure _

variable (hrevise : Revises K P)

include hrevise

theorem oblige_upholds (child outer port : Symbol) : Upholds (Sees P State.depth v) (oblige child outer port) := by
  have halias : Upholds (Sees P State.depth v) (parentAlias outer) := by
    refine own.bind fun st => ?_
    dsimp only
    split
    · exact .pure _
    · refine (lift (hP.symbolLike _)).bind fun a => hP.table fun Γ hΓ =>
        (lift (hrevise.kind a (hP.closed.asWire (hΓ a)))).bind fun _ => (lift (hP.modifyAttrs _ _)).bind fun _ =>
        (modifyOwn fun st hst => ?_).bind fun _ => .pure _
      simpa [State.depth] using hst
  refine hP.table fun Γ hΓ => (lift (hrevise.kind _ (hP.closed.asWire (hΓ outer)))).bind fun _ => own.bind fun st => ?_
  have howe (source : Symbol) : Upholds (Sees P State.depth v) (PassM.modifyOwn fun st => { st with
      frames := st.frames.modifyLevel 1 fun f => { f with obligations := f.obligations ++ [⟨child, port, source⟩] } }) :=
    .modifyOwn fun st hst => by simpa [State.depth] using hst
  dsimp only
  split
  · exact (pure _).bind howe
  · exact halias.bind howe

omit hrevise in
theorem reportConflicts_settles : Settles (Sees P State.depth v) reportConflicts := by
  refine own.bind fun st => ?_
  split
  · refine bind (.forM (fun (port, users) => symbols.bind fun Γ => ?_) _) fun _ => .modifyOwn fun _ hst => hst
    split
    · dsimp only
      split <;> exact Settles.lift (hP.reported _ _ _)
    · exact .pure _
  · exact .pure _

theorem entityReply_closes (e : Entity) : Leads (Sees P State.depth v) (entityReply e)
    (Sees P State.depth (closeEntity (.entity e) v)) fun s => P s.ctx ∧
      closeEntity (.entity e) s.own.depth = closeEntity (.entity e) v := by
  have hclose : Leads (Sees P State.depth v) closeFrame (Sees P State.depth (closeEntity (.entity e) v)) fun _ => False :=
    .modifyOwn fun st hst => by
      subst hst
      simp [State.depth, closeEntity]
  have hreport {w : Nat} := reportConflicts_settles hP (v := w)
  refine own.bind fun st => ?_
  simp only []
  split
  · exact (hclose.bind fun _ => hreport.bind fun _ => .pure _).ends
  · refine (unclosed (.mapM (fun (outer, own) => declareAlias_upholds hP _ _ outer own) _)).bind fun decls => ?_
    refine symbols.bind fun Γ => (unclosed (.lift (hP.addPorts _ _))).bind fun _ => symbols.bind fun Γ' => ?_
    refine own.bind fun st' => ?_
    -- From here on the frame is closed, and nothing aborts any more.
    have hrest (connects : List Connect) : Leads (Sees P State.depth v) (do
        closeFrame
        let parent := (← PassM.symbols).name e.symbol ++ (← get).ctx.separator
        e.entities.forM (renameChild parent)
        reportConflicts
        return Reply.put (.several (.node (.entity { e with
          decls := e.decls ++ decls
          entities := []
          connects := e.connects ++ connects }) :: e.entities.map fun c => .node (.entity c))) : PassM State Reply)
        (Sees P State.depth (closeEntity (.entity e) v)) fun _ => False :=
      hclose.bind fun _ => Leads.symbols.bind fun Γ => Leads.get.bind fun s =>
        (Leads.forM (fun child => Leads.symbols.bind fun Γ => Settles.lift fun _ hc => hrevise.rename _ _ hc) _).bind fun _ =>
        hreport.bind fun _ => .pure _
    split
    · exact (unclosed (.forM (fun (outer, port) => oblige_upholds hP hrevise e.symbol outer port) _)).bind fun _ =>
        (hrest _).ends
    · exact (hrest _).ends

omit hrevise in
theorem check_upholds (Γ : SymbolTable) (e : Entity) : Upholds P (check Γ e) := by
  unfold check
  split
  · dsimp only
    split
    · exact hP.broken _
    · exact .pure _
  · refine (hP.broken _).bind fun _ => ?_
    dsimp only
    split
    · exact hP.broken _
    · exact .pure _

theorem pass_steady : pass.Steady P State.depth closeEntity where
  alike n n' h := by cases n <;> cases n' <;> first | rfl | nomatch h
  skip _ _ := .pure _
  enter n v := by
    cases n with
    | entity e => exact enterEntity_opens hP e
    | _ => exact .opening (.pure _) fun _ => rfl
  transform n v := by
    cases n with
    | entity e => exact entityReply_closes hP hrevise e
    | expr e =>
      refine .closing ?_ fun _ => rfl
      cases e with
      | ref l s =>
        refine own.bind fun st => ?_
        split <;> exact .pure _
      | _ => exact .pure _
    | _ => exact .closing (.pure _) fun _ => rfl
  unwind n st := by cases n <;> simp [pass, State.depth, closeEntity]
  defaultCheck _ _ _ := .pure _
  finalCheck r v := by
    have hcheck : Upholds (Sees P State.depth v) (r.entities.forM fun e => do check (← PassM.symbols) e : PassM State Unit) :=
      .forM (fun e => symbols.bind fun Γ => .lift (check_upholds hP Γ e)) _
    refine own.bind fun st => ?_
    dsimp only
    split
    · exact (lift (hP.broken _)).bind fun _ => hcheck
    · exact hcheck
  named _ _ hc := hP.pass _ hc
  broken := hP.broken

end Nesting

namespace Folding

def State.depths (st : State) : Nat × Nat := (st.analyses.size, st.bindings.size)

variable (hP : Lasting K P) {v : Nat × Nat}

include hP

theorem fold_upholds (b : Bindings) (s : Stmt) : Upholds (Sees P State.depths v) (fold b s) := by
  refine symbols.bind fun Γ => ?_
  split
  · split
    · exact .pure _
    · split <;> exact .pure _
  · split <;> exact .pure _
  · split
    · split
      · exact (lift (hP.reported _ _ _)).bind fun _ => .pure _
      · exact .pure _
    · exact .pure _
  · exact .pure _

theorem pass_steady : pass.Steady P State.depths closeDepth where
  alike := closeDepth_alike
  skip _ _ := .pure _
  enter n v := by
    cases n with
    | entity e => exact symbols.bind fun Γ s hs => ⟨hs.1, hs.2⟩
    | stmt s =>
      intro s hs
      refine ⟨hs.1, ?_⟩
      rw [← hs.2]
      simp [State.depths, State.enterStmt, closeDepth]
    | _ => exact .opening (.pure _) fun _ => rfl
  transform n v := by
    cases n with
    | entity e =>
      refine (modifyOwn ?_).bind fun _ => .pure _
      rintro st rfl
      simp [State.depths, closeDepth]
    | stmt s =>
      refine own.bind fun st => (unclosed (fold_upholds hP _ s)).bind fun reply => ?_
      refine (modifyOwn ?_).bind fun _ => .pure _
      rintro st rfl
      simp [State.depths, closeDepth]
    | _ => exact .closing (.pure _) fun _ => rfl
  unwind n st := by cases n <;> simp [pass, State.depths, closeDepth]
  defaultCheck _ _ _ := .pure _
  finalCheck r v := by
    refine own.bind fun st => ?_
    split
    · exact .lift (hP.broken _)
    · exact .pure _
  named _ _ hc := hP.pass _ hc
  broken := hP.broken

end Folding

namespace Step

theorem outcome_retains {p : Pass σ} {close : Node → ν → ν} (hp : p.Steady P view close) (own : σ)
    (keep : σ → PassStates) (hc : P c) (r : Root) : P (outcome p own keep c r).ctx := by
  have hrun := hp.run r (view own) ⟨c, own⟩ ⟨hc, rfl⟩
  have hstart : (p.run r).run ⟨c, own⟩ = p.run r ⟨c, own⟩ := rfl
  unfold outcome
  rw [hstart]
  cases h : p.run r ⟨c, own⟩ <;> rw [h] at hrun <;> exact hrun.1

/-- What lasts is as before after any pass, whether it ends or aborts. -/
theorem run_retains (hP : Lasting K P) (hK : ∀ k, K k) (hrevise : Revises K P) (step : Step)
    (states : PassStates) (hc : P c) (r : Root) : P (step.run states c r).ctx := by
  cases step with
  | pipeline => exact outcome_retains (Pipeline.pass_steady hP hK) _ _ hc r
  | stack => exact outcome_retains (Stack.pass_steady hP) _ _ hc r
  | nesting => exact outcome_retains (Nesting.pass_steady hP hrevise) _ _ hc r
  | concatenation => exact outcome_retains (Concatenation.pass_steady hP) _ _ hc r
  | folding => exact outcome_retains (Folding.pass_steady hP) _ _ hc r
  | blocks => exact outcome_retains (Blocks.pass_steady hP) _ _ hc r

end Step

end HdlLowering
