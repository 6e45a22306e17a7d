import HdlLowering.Proofs.Nesting.Steps

/-!
# Lifting as a relation

`Lifting` is the walk of the pass over entities as a relation: an entity is opened, what is nested in it is lifted, it is
closed, and the entities after it follow.
-/

namespace HdlLowering.Nesting

open List PassM Entity Pass

variable {e e' : Entity} {es out : List Entity} {s s' : Session State} {S W : Symbol → Prop} {V : Symbol → Option Expr → Prop}

theorem pass_renames {m : Substitution} (h : (s.own.frames.top?.getD {}).aliases = m) : pass.Renames m s where
  skip _ _ := rfl
  enter n hn := by
    match n, hn with
    | .decl _, _ | .inst _, _ | .connect _, _ | .clause _, _ | .stmt _, _ | .expr _, _ => rfl
  plain n hn hr := by
    match n, hn, hr with
    | .decl _, _, _ | .inst _, _, _ | .connect _, _, _ | .clause _, _, _ | .stmt _, _, _ => rfl
    | .expr e, _, hr => cases e <;> first | rfl | nomatch hr
  known l x y hxy := by
    change (own >>= _) s = _
    rw [bind_ok (own_ok s), h, hxy]
    rfl
  unknown l x hx := by
    change (own >>= _) s = _
    rw [bind_ok (own_ok s), h, hx]
    rfl

/-! ## Closing an entity -/

def State.top (st : State) : Frame := st.frames.top?.getD {}

def portsOf (Γ : SymbolTable) (aliases : Substitution) : Substitution := aliases.filter fun a => !(Γ.kind a.1).isConst

/-- The steps that close an entity, and what stands for it then: aliases are declared, ports added to its signature and handed
over, its frame is taken away, what was nested in it is renamed, and conflicts are reported. -/
inductive Closed (e : Entity) (s : Session State) : Entity → Session State → Prop where
  | intro {decls : List Decl} {s1 s2 s3 s' : Session State} {c : Context}
    (declare : (s.own.top.aliases.mapM fun (x, a) => declareAlias e.loc s.own.top.aliases x a : PassM State (List Decl)) s =
      .ok decls s1)
    (ports : ContextM.addPorts e.symbol ((portsOf s1.ctx.symbols s.own.top.aliases).map (·.2)) s1.ctx = .ok () c)
    (hand : (if 2 ≤ s1.own.frames.size then
      (portsOf s1.ctx.symbols s.own.top.aliases).forM fun (x, port) => oblige e.symbol x port
      else pure () : PassM State Unit) { s1 with ctx := c } = .ok () s2)
    (rename : e.entities.forM (renameChild (s2.ctx.symbols.name e.symbol ++ s2.ctx.separator))
      { s2 with own := { s2.own with frames := s2.own.frames.pop } } = .ok () s3)
    (report : reportConflicts s3 = .ok () s') :
    Closed e s (e.flattened decls (s.own.top.obligations.flatMap (obligedConnects c.symbols e.instances))) s'

theorem handPorts_ok (n : Nat) (child : Symbol) (ports : Substitution) (s : Session State) : ∃ s', (if 2 ≤ n then
    ports.forM fun (x, port) => oblige child x port else pure () : PassM State Unit) s = .ok () s' ∧
      s'.own.users = s.own.users ∧ s'.ctx.reporter = s.ctx.reporter ∧
      ∀ {S W V}, (∀ a ∈ ports, W a.1) → Stays S W V s.ctx s'.ctx := by
  let P (s' : Session State) : Prop := s'.own.users = s.own.users ∧ s'.ctx.reporter = s.ctx.reporter ∧
    ∀ {S W V}, (∀ a ∈ ports, W a.1) → Stays S W V s.ctx s'.ctx
  have hstep : ∀ a ∈ ports, ∀ s1, P s1 → ∃ s2, oblige child a.1 a.2 s1 = .ok () s2 ∧ P s2 := by
    rintro a ha s1 ⟨husers, hreporter, hstays⟩
    obtain ⟨y, as, c, hoblige, ⟨rfl, -, -⟩ | ⟨rfl, -, -⟩⟩ := oblige_ok child a.1 a.2 (s := s1) rfl
    · exact ⟨_, hoblige, husers, hreporter, fun hW => (hstays hW).trans (stays_wired (hW a ha) _)⟩
    · exact ⟨_, hoblige, husers, hreporter, fun hW =>
        ((hstays hW).trans (stays_wired (hW a ha) _)).trans (stays_withAlias _ _ _ _ _ _)⟩
  split
  · obtain ⟨s', hforM, h⟩ := forM_ok hstep s ⟨rfl, rfl, fun _ => .refl _ _ _ _⟩
    exact ⟨s', hforM, h⟩
  · exact ⟨s, rfl, rfl, rfl, fun _ => .refl _ _ _ _⟩

theorem entityReply_closed (e : Entity) (s : Session State) : ∃ reply e' s', entityReply e s = .ok reply s' ∧ Closed e s e' s' ∧
    ∀ x rebuilt, rebuilt.getD (.entity x) = .entity e →
      pass.Puts "*ast.Entity" Node.entity? x (reply.result rebuilt) (e' :: e.entities) := by
  unfold entityReply
  rw [bind_ok (own_ok s)]
  change ∃ reply e' s', (if (s.own.top.aliases.isEmpty && s.own.top.obligations.isEmpty && e.entities.isEmpty) = true then _
    else _ : PassM State Reply) s = .ok reply s' ∧ _
  split
  · -- nothing is added
    rename_i hnone
    simp only [Bool.and_eq_true, List.isEmpty_iff] at hnone
    obtain ⟨⟨haliases, hobligations⟩, hnested⟩ := hnone
    let s1 : Session State := { s with own := { s.own with frames := s.own.frames.pop } }
    have hclose : closeFrame s = .ok () s1 := rfl
    obtain ⟨r, users, hreport, -, -⟩ := reportConflicts_ok s1
    have hdeclare : (s.own.top.aliases.mapM fun (x, a) => declareAlias e.loc s.own.top.aliases x a : PassM State (List Decl)) s =
        .ok [] s := by
      rw [haliases]
      rfl
    have hports : ContextM.addPorts e.symbol ((portsOf s.ctx.symbols s.own.top.aliases).map (·.2)) s.ctx = .ok () s.ctx := by
      rw [haliases]
      rfl
    have hhand : (if 2 ≤ s.own.frames.size then
        (portsOf s.ctx.symbols s.own.top.aliases).forM fun (x, port) => oblige e.symbol x port
        else pure () : PassM State Unit) s = .ok () s := by
      rw [haliases]
      split <;> rfl
    have hrename : e.entities.forM (renameChild (s.ctx.symbols.name e.symbol ++ s.ctx.separator)) s1 = .ok () s1 := by
      rw [hnested]
      rfl
    have hclosed : Closed e s (e.flattened [] (s.own.top.obligations.flatMap (obligedConnects s.ctx.symbols e.instances))) _ :=
      .intro hdeclare hports hhand hrename hreport
    refine ⟨.keep, _, _, ?_, hclosed, fun x rebuilt hrebuilt => ?_⟩
    · rw [bind_ok hclose, bind_ok hreport]
      rfl
    · obtain ⟨l, y, decls, es, insts, connects, ss⟩ := e
      obtain rfl : es = [] := hnested
      rw [hobligations]
      simp only [Entity.flattened, append_nil, flatMap_nil]
      exact puts_rebuilt Node.form_entity hrebuilt
  · obtain ⟨decls, s1, hdeclare, -⟩ := declareAliases_ok e.loc s.own.top.aliases s.own.top.aliases s
    obtain ⟨c, hports, -⟩ := addPorts_ok e.symbol ((portsOf s1.ctx.symbols s.own.top.aliases).map (·.2)) s1.ctx
    obtain ⟨s2, hhand, -⟩ :=
      handPorts_ok s1.own.frames.size e.symbol (portsOf s1.ctx.symbols s.own.top.aliases) { s1 with ctx := c }
    let s3 : Session State := { s2 with own := { s2.own with frames := s2.own.frames.pop } }
    have hclose : closeFrame s2 = .ok () s3 := rfl
    have hget : (get : PassM State (Session State)) s3 = .ok s3 s3 := rfl
    obtain ⟨s4, hrename, -⟩ := renameChildren_ok (s2.ctx.symbols.name e.symbol ++ s2.ctx.separator) e.entities s3
    obtain ⟨r, users, hreport, -, -⟩ := reportConflicts_ok s4
    refine ⟨.put (.several ((_ :: e.entities).map fun c => .node (.entity c))), _, _, ?_,
      .intro hdeclare hports hhand hrename hreport, fun x rebuilt _ =>
      puts_of_leaves Node.form_entity (Forest.leaves_several .entity _)⟩
    refine (bind_ok hdeclare).trans ?_
    rw [bind_ok (symbols_ok s1)]
    refine (bind_ok (lift_ok hports)).trans ?_
    rw [bind_ok (symbols_ok _), bind_ok (own_ok _)]
    have hrest : (do
        closeFrame
        let Γ ← symbols
        let st ← get
        e.entities.forM (renameChild (Γ.name e.symbol ++ st.ctx.separator))
        reportConflicts
        pure (.put (.several (.node (.entity (e.flattened decls (s.own.top.obligations.flatMap
          (obligedConnects c.symbols e.instances)))) :: e.entities.map fun c => .node (.entity c)))) : PassM State Reply) s2 =
            .ok (.put (.several ((e.flattened decls (s.own.top.obligations.flatMap (obligedConnects c.symbols e.instances)) ::
              e.entities).map fun c => .node (.entity c))))
              ⟨{ s4.ctx with reporter := r }, { s4.own with users }⟩ := by
      rw [bind_ok hclose, bind_ok (symbols_ok _), bind_ok hget, bind_ok hrename, bind_ok hreport]
      rfl
    by_cases hsize : 2 ≤ s1.own.frames.size
    · rw [if_pos hsize] at hhand
      dsimp only
      rw [if_pos hsize]
      exact (bind_ok hhand).trans hrest
    · rw [if_neg hsize] at hhand
      cases hhand
      dsimp only
      rw [if_neg hsize]
      exact hrest

theorem Closed.stays (h : Closed e s e' s') (hS : ∀ c ∈ e :: e.entities, S c.symbol) (hW : ∀ a ∈ s.own.top.aliases, W a.1)
    (hV : ∀ a ∈ s.own.top.aliases, ∀ init, V a.2 init) : Stays S W V s.ctx s'.ctx := by
  obtain @⟨decls, s1, s2, s3, _, c, declare, ports, hand, rename, report⟩ := h
  obtain ⟨-, -, hstays1, -⟩ := of_ends (declareAliases_ok _ _ _ _) declare
  obtain ⟨hstays2, -⟩ := of_done (addPorts_ok _ _ _) ports
  obtain ⟨-, -, hstays3⟩ := of_done (handPorts_ok _ _ _ _) hand
  obtain ⟨-, -, hstays4⟩ := of_done (renameChildren_ok _ _ _) rename
  obtain ⟨r, users, hreport, -, -⟩ := reportConflicts_ok s3
  cases hreport.symm.trans report
  refine (hstays1 hV).trans ((hstays2 (hS e mem_cons_self)).trans ((hstays3 fun a ha => hW a (mem_filter.mp ha).1).trans
    ((hstays4 fun c hc => hS c (mem_cons_of_mem _ hc)).trans ?_)))
  exact ⟨Nat.le_refl _, fun _ _ => .refl _ _, rfl, rfl⟩

/-! ## The walk of entities -/

/-- Entities that are lifted one after the other, and what stands for them: each is opened, what is nested in it is lifted, and it
is closed after its references were renamed by its aliases. -/
inductive Lifting : List Entity → Session State → List Entity → Session State → Prop where
  | nil (s : Session State) : Lifting [] s [] s
  | cons {e e' : Entity} {es nested rest : List Entity} {s s1 s2 s3 s' : Session State} (enter : enterEntity e s = .ok () s1)
    (inside : Lifting e.entities s1 nested s2)
    (close : Closed (e.renamed s1.own.top.aliases s2.own.top.aliases nested) s2 e' s3) (after : Lifting es s3 rest s') :
    Lifting (e :: es) s (e' :: nested ++ rest) s'

theorem walk_lifting_of_nested (e : Entity) (s : Session State) (hnested : ∀ s1, ∃ o s2,
    walkList pass e.entities s1 = .ok o s2 ∧ Lifting e.entities s1 (o.getD e.entities) s2) :
    ∃ o e' nested s1 s2 s', e.walk pass s = .ok o s' ∧ pass.Puts "*ast.Entity" Node.entity? e o (e' :: nested) ∧
      enterEntity e s = .ok () s1 ∧ Lifting e.entities s1 nested s2 ∧
      Closed (e.renamed s1.own.top.aliases s2.own.top.aliases nested) s2 e' s' := by
  obtain ⟨s1, henter, -⟩ := enterEntity_ok e s
  obtain ⟨o, s2, hwalk, hlifting⟩ := hnested s1
  obtain ⟨rebuilt, hrebuilt, hentity⟩ := walk_renames (p := pass) rfl henter (pass_renames rfl) hwalk (pass_renames rfl)
  obtain ⟨reply, e', s', hreply, hclosed, hputs⟩ := entityReply_closed _ s2
  exact ⟨_, e', _, s1, s2, s', hentity reply s' hreply, hputs e rebuilt hrebuilt, henter, hlifting, hclosed⟩

mutual
theorem walk_lifting : ∀ (e : Entity) (s : Session State), ∃ o e' nested s1 s2 s', e.walk pass s = .ok o s' ∧
    pass.Puts "*ast.Entity" Node.entity? e o (e' :: nested) ∧ enterEntity e s = .ok () s1 ∧
    Lifting e.entities s1 nested s2 ∧ Closed (e.renamed s1.own.top.aliases s2.own.top.aliases nested) s2 e' s'
  | ⟨_, _, _, entities, _, _, _⟩, s => walk_lifting_of_nested _ s fun s1 => walkList_lifting entities s1

/-- Every walk is one, whatever the entities refer to, and never aborts. -/
theorem walkList_lifting : ∀ (es : List Entity) (s : Session State), ∃ o s', walkList pass es s = .ok o s' ∧
    Lifting es s (o.getD es) s'
  | [], s => ⟨none, s, rfl, .nil s⟩
  | e :: es, s => by
    obtain ⟨o, e', nested, s1, s2, s3, hwalk, hputs, henter, hinside, hclosed⟩ := walk_lifting e s
    obtain ⟨rest, s', hrest, hafter⟩ := walkList_lifting es s3
    obtain ⟨head, hspliced, hput⟩ := hputs s3
    refine ⟨joined e es head rest, s', ?_, ?_⟩
    · rw [walkList, bind_ok hwalk, bind_ok hspliced, bind_ok hrest]
      rfl
    · rw [getD_joined, hput]
      exact .cons henter hinside hclosed hafter
end

section

variable (h : Lifting es s out s')
include h

theorem Lifting.symbols : out.map (·.symbol) = (Node.entities (nodesList es)).map (·.symbol) := by
  induction h with
  | nil => rfl
  | cons _ _ close _ ih ih' =>
    obtain ⟨⟩ := close
    rw [Node.entities_nodesList_cons, cons_append, map_cons, map_append, ih, ih', map_cons, map_append]
    rfl

variable (hS : ∀ e ∈ Node.entities (nodesList es), S e.symbol)
include hS

theorem Lifting.forall_symbol : ∀ c ∈ out, S c.symbol := by
  intro c hc
  have hmem : c.symbol ∈ out.map (·.symbol) := mem_map_of_mem hc
  rw [h.symbols] at hmem
  obtain ⟨b, hb, heq⟩ := mem_map.mp hmem
  exact heq ▸ hS b hb

theorem Lifting.stays : Stays S (fun _ => True) (fun _ _ => True) s.ctx s'.ctx := by
  induction h with
  | nil s => exact .refl _ _ _ _
  | @cons e _ _ _ _ s _ _ _ _ enter inside close after ih ih' =>
    rw [Node.entities_nodesList_cons, forall_mem_cons, forall_mem_append] at hS
    obtain ⟨hSe, hSinside, hSafter⟩ := hS
    obtain ⟨_, _, -, -, -, hstays, hstays', -⟩ := of_done (enterEntity_ok e s) enter
    refine ((hstays fun _ _ => trivial).trans hstays').trans ((ih hSinside).trans (.trans (close.stays ?_ (fun _ _ => trivial)
      fun _ _ _ => trivial) (ih' hSafter)))
    exact forall_mem_cons.mpr ⟨hSe, inside.forall_symbol hSinside⟩

end

theorem ignores_root (r : Root) : pass.Ignores (.root r) := ⟨fun _ => rfl, fun _ => rfl, fun _ => rfl⟩

theorem of_check_ok {Γ : SymbolTable} {c c' : Context} (h : check Γ e c = .ok () c') : c' = c := by
  unfold check at h
  split at h
  · dsimp only at h
    cases hfind : (Node.references e.nodes).find? fun u => !(Γ.setOf (declared e)).has (Γ.member u.symbol) <;>
      rw [hfind] at h <;> cases h
    rfl
  · nomatch h

theorem finalCheck_yields (r : Root) (s : Session State) : Yields True (fun _ s' => s' = s) (pass.finalCheck r s) := by
  cases h : pass.finalCheck r s with
  | error => trivial
  | ok a s' =>
    change (own >>= _) s = _ at h
    rw [bind_ok (own_ok s)] at h
    dsimp only at h
    split at h
    · nomatch h
    · refine of_forM_ok (P := fun s' => s' = s) (fun e _ s1 s2 hs1 hcheck => ?_) rfl h
      rw [bind_ok (symbols_ok s1)] at hcheck
      obtain ⟨c, hchecked, rfl⟩ := of_lift_ok hcheck
      subst hs1
      rw [of_check_ok hchecked]

theorem run_lifting (r : Root) (c : Context) (own : State) : Yields (c.checkTrees = true) (fun out s' => Lifting r.entities
    ⟨{ c with reporter := { c.reporter with pass := pass.name } }, own⟩ (out.getD r).entities s') (pass.run r ⟨c, own⟩) := by
  obtain ⟨o, s', hwalk, hlifting⟩ := walkList_lifting r.entities ⟨{ c with reporter := { c.reporter with pass := pass.name } }, own⟩
  have hchecked := apply_yields (Root.walk_kept ignores_root hwalk) rfl (finalCheck_yields _ s')
  rw [(hlifting.stays (S := fun _ => True) fun _ _ => trivial).checkTrees] at hchecked
  refine hchecked.mono ?_
  rintro out s1 ⟨rfl, rfl⟩
  cases o <;> exact hlifting

end HdlLowering.Nesting
