import HdlLowering.Proofs.Execution.Frame
import HdlLowering.Proofs.Folding.Folded
import HdlLowering.Proofs.Traversal.Renaming

/-!
# The folding pass folds

The walk of the folding pass preserves that the records still to come are those from the position of the next statement on.
-/

namespace HdlLowering.Folding

open List Stmt Pass

variable (c : Context)

/-- A session in an entity with records still to come, in statements with bindings. -/
def session (rs : Records) (more : List Records) (bs : List Bindings) : Session State :=
  ⟨c, ⟨⟨rs :: more⟩, ⟨bs⟩⟩⟩

/-! ## Stalls that never end -/

def reportStalls (ss : List Stmt) : Context :=
  { c with reporter := ss.foldl (fun r s => match s with
      | .stall l x => r.add .error l (.stallForever (x.text c.symbols))
      | _ => r) c.reporter }

theorem reportStalls_append (ss ss' : List Stmt) :
    reportStalls c (ss ++ ss') = reportStalls (reportStalls c ss) ss' := by
  rw [reportStalls, foldl_append]
  rfl

/-! ## Nodes that the pass does nothing at -/

def leaves : Node → Bool
  | .expr _ | .decl _ | .inst _ | .connect _ => true
  | _ => false

theorem keeps (s : Session State) : pass.Keeps (fun n => leaves n = true) (· = s) where
  below n hn := by cases n <;> simp_all [Node.children, leaves]
  skip n hn := by
    rintro _ rfl
    exact ⟨rfl, trivial⟩
  enter n hn := by
    rintro _ rfl
    cases n <;> first | exact ⟨rfl, trivial⟩ | exact absurd hn Bool.false_ne_true
  transform n hn := by
    rintro _ rfl
    cases n <;> first | exact ⟨rfl, rfl⟩ | exact absurd hn Bool.false_ne_true

theorem walk_leaf (n : Node) (hn : leaves n = true) (s : Session State) : n.walk pass s = .ok none s := by
  obtain ⟨_, hwalk, rfl⟩ := (n.walk_keeps (keeps s) hn).ok_of_eq
  exact hwalk

theorem ignores_clause (c : Clause) : pass.Ignores (.clause c) := ⟨fun _ => rfl, fun _ => rfl, fun _ => rfl⟩

theorem ignores_root (r : Root) : pass.Ignores (.root r) := ⟨fun _ => rfl, fun _ => rfl, fun _ => rfl⟩

/-! ## A statement -/

theorem enter_stmt (s : Stmt) (c : Context) (R : Records) (i : Nat) (more : List Records) (bs : List Bindings) :
    pass.enter (.stmt s) (session c (R.drop i) more bs) =
      .ok () (session c (R.drop (i + 1)) more (recordAt R i :: bs)) := by
  have hhead : (R.drop i).head? = R[i]? := by rw [head?_drop]
  have htail : (R.drop i).tail = R.drop (i + 1) := tail_drop
  change EStateM.Result.ok () _ = _
  simp [session, State.enterStmt, Scopes.top?, Scopes.modifyLevel, Scopes.push, recordAt, hhead, htail]

theorem fold_ok (b : Bindings) (s : Stmt) (c : Context) (own : State) :
    ∃ reply, fold b s ⟨c, own⟩ = .ok reply ⟨reportStalls c (if s.endless c.symbols b then [s] else []), own⟩ ∧
      (reply.forest (.stmt s)).leaves = (s.replacement c.symbols b).map .stmt := by
  have hsym : (PassM.symbols : PassM State SymbolTable) ⟨c, own⟩ = .ok c.symbols ⟨c, own⟩ := rfl
  unfold fold
  rw [bind_ok hsym]
  cases s with
  | cond l e yes no =>
    dsimp only [replacement]
    cases e.eval c.symbols b with
    | some v => exact ⟨.put _, rfl, Forest.leaves_ofStmts _⟩
    | none =>
      unfold Expr.simplify
      cases e.simplify? c.symbols b with
      | some e' => exact ⟨.put _, rfl, rfl⟩
      | none => exact ⟨.keep, rfl, rfl⟩
  | case l e cs d =>
    dsimp only [replacement]
    cases (e.eval c.symbols b).bind fun v => chooseArm c.symbols b v cs with
    | some arm => exact ⟨.put _, rfl, Forest.leaves_ofStmts _⟩
    | none => exact ⟨.keep, rfl, rfl⟩
  | stall l e =>
    rcases (e.eval c.symbols b).eq_none_or_eq_some with hv | ⟨v, hv⟩ <;> simp only [replacement, endless, hv]
    · exact ⟨.keep, rfl, rfl⟩
    · by_cases h0 : v = 0
      · rw [h0]
        exact ⟨.put _, rfl, rfl⟩
      · -- a stall that never ends is reported and stays
        simp only [h0, ne_eq, not_false_eq_true, Option.any_some, decide_true, Option.some.injEq, ↓reduceIte]
        exact ⟨.keep, rfl, rfl⟩
  | _ => exact ⟨.keep, rfl, rfl⟩

/-! ## Steps that take records -/

/-- A step takes the records of statements, reports those that never end, and gives what is wanted at the position where it
starts. -/
def Takes {α : Type} (ss : List Stmt) (x : PassM State α) (good : SymbolTable → Records → Nat → α → Prop) : Prop :=
  ∀ c R i more bs, ∃ a, x (session c (R.drop i) more bs) =
      .ok a (session (reportStalls c (endlessFrom c.symbols R i ss)) (R.drop (i + ss.length)) more bs) ∧
    good c.symbols R i a

namespace Takes

variable {α β : Type} {ss ss' : List Stmt} {x : PassM State α} {good : SymbolTable → Records → Nat → α → Prop}
  {better : SymbolTable → Records → Nat → β → Prop} {children : PassM State (Option Node)} {f : α → PassM State β}

theorem pure {a : α} (h : ∀ Γ R i, good Γ R i a) : Takes [] (Pure.pure a) good :=
  fun _ R i _ _ => ⟨a, rfl, h _ R i⟩

theorem map {g : α → β} (hx : Takes ss x good) (hg : ∀ a Γ R i, good Γ R i a → better Γ R i (g a)) :
    Takes ss (x >>= fun a => Pure.pure (g a)) better := by
  intro c R i more bs
  obtain ⟨a, hx, ha⟩ := hx c R i more bs
  exact ⟨g a, (HdlLowering.bind_ok hx).trans rfl, hg a _ R i ha⟩

theorem bind_ok {a : α} (hx : ∀ s, x s = .ok a s) (hf : Takes ss (f a) better) : Takes ss (x >>= f) better := by
  intro c R i more bs
  rw [HdlLowering.bind_ok (hx _)]
  exact hf c R i more bs

theorem bind (hx : Takes ss x good)
    (hf : ∀ a, Takes ss' (f a) fun Γ R k b => ∀ i, k = i + ss.length → good Γ R i a → better Γ R i b) :
    Takes (ss ++ ss') (x >>= f) better := by
  intro c R i more bs
  obtain ⟨a, hx, ha⟩ := hx c R i more bs
  obtain ⟨b, hf, hb⟩ := hf a (reportStalls c (endlessFrom c.symbols R i ss)) R (i + ss.length) more bs
  refine ⟨b, ?_, hb i rfl ha⟩
  rw [HdlLowering.bind_ok hx, hf, endlessFrom_append, reportStalls_append, length_append, Nat.add_assoc]
  rfl

theorem cons {wanted : String} {pick : Node → Option α} {e : α} {es : List α} {walk : PassM State (Option Forest)}
    {rest : PassM State (Option (List α))} (first : SymbolTable → Records → Nat → List α)
    {others : SymbolTable → Records → Nat → List α}
    (hwalk : Takes ss walk fun Γ R i f => pass.Puts wanted pick e f (first Γ R i))
    (hrest : Takes ss' rest fun Γ R i o => o.getD es = others Γ R i) :
    Takes (ss ++ ss') (walk >>= fun r => pass.spliced wanted pick r >>= fun head => rest >>= fun tail =>
      Pure.pure (joined e es head tail)) fun Γ R i o =>
        o.getD (e :: es) = first Γ R i ++ others Γ R (i + ss.length) := by
  intro c R i more bs
  obtain ⟨f, hf, hputs⟩ := hwalk c R i more bs
  let c1 := reportStalls c (endlessFrom c.symbols R i ss)
  obtain ⟨tail, htail, hothers⟩ := hrest c1 R (i + ss.length) more bs
  obtain ⟨head, hspliced, hhead⟩ := hputs (session c1 (R.drop (i + ss.length)) more bs)
  refine ⟨joined e es head tail, ?_, ?_⟩
  · rw [HdlLowering.bind_ok hf, HdlLowering.bind_ok hspliced, HdlLowering.bind_ok htail, endlessFrom_append,
      reportStalls_append, length_append, Nat.add_assoc]
    rfl
  · beta_reduce
    rw [getD_joined, hhead, hothers]
    rfl

theorem visit_stmt {s s' : Stmt} {c c' : Context} {R : Records} {i k : Nat} {more : List Records} {bs : List Bindings}
    {rebuilt : Option Node} (hrebuilt : rebuilt.getD (.stmt s) = .stmt s')
    (hchildren : children (session c (R.drop (i + 1)) more (recordAt R i :: bs)) =
      .ok rebuilt (session c' (R.drop k) more (recordAt R i :: bs))) :
    ∃ f, pass.visit (.stmt s) children (session c (R.drop i) more bs) =
        .ok f (session (reportStalls c' (if s'.endless c'.symbols (recordAt R i) then [s'] else [])) (R.drop k) more bs) ∧
      pass.Puts "<nil>" Node.stmt? s f (s'.replacement c'.symbols (recordAt R i)) := by
  obtain ⟨reply, hfold, hleaves⟩ := fold_ok (recordAt R i) s' c' ⟨⟨R.drop k :: more⟩, ⟨recordAt R i :: bs⟩⟩
  refine ⟨reply.result rebuilt, visit_ok rfl (enter_stmt s c R i more bs) hchildren ?_,
    puts_of_leaves Node.form_stmt ?_⟩
  · rw [hrebuilt]
    exact (HdlLowering.bind_ok hfold).trans rfl
  · rw [Reply.getD_result, hrebuilt, hleaves]

theorem visit {s : Stmt} (s' : SymbolTable → Records → Nat → Stmt) (hs : ∀ Γ b, s.endless Γ b = false)
    (hs' : ∀ Γ R i b, (s' Γ R i).endless Γ b = false)
    (hchildren : Takes ss children fun Γ R i o => o.getD (.stmt s) = .stmt (s' Γ R i)) :
    Takes (s :: ss) (pass.visit (.stmt s) children) fun Γ R i f =>
      pass.Puts "<nil>" Node.stmt? s f ((s' Γ R (i + 1)).replacement Γ (recordAt R i)) := by
  intro c R i more bs
  obtain ⟨rebuilt, hchildren, hrebuilt⟩ := hchildren c R (i + 1) more (recordAt R i :: bs)
  obtain ⟨f, hf, hputs⟩ := visit_stmt hrebuilt hchildren
  refine ⟨f, ?_, hputs⟩
  have hown : (s' c.symbols R (i + 1)).endless c.symbols (recordAt R i) = false := hs' _ _ _ _
  have hlength : i + (s :: ss).length = i + 1 + ss.length := by
    rw [length_cons]
    omega
  rw [hf, hlength, endlessFrom, hs]
  change EStateM.Result.ok f (session (reportStalls _ (if endless c.symbols _ _ = true then _ else _)) _ _ _) = _
  rw [hown]
  rfl

theorem leaf {s : Stmt} (hchildren : ∀ s, children s = .ok none s) :
    Takes [s] (pass.visit (.stmt s) children) fun Γ R i f =>
      pass.Puts "<nil>" Node.stmt? s f (s.replacement Γ (recordAt R i)) := by
  intro c R i more bs
  exact visit_stmt rfl (hchildren (session c (R.drop (i + 1)) more (recordAt R i :: bs)))

end Takes

/-! ## Every statement -/

theorem asExpr_none (e : Expr) (s : Session State) : pass.asExpr e none s = .ok none s := rfl

theorem walk_expr (e : Expr) (s : Session State) : e.walk pass s = .ok none s := walk_leaf (.expr e) rfl s

theorem walk_exprs (es : List Expr) (s : Session State) : Expr.walkList pass es s = .ok none s := by
  rw [Expr.walkList_eq]
  exact walkEach_none (walk_expr · s) es

theorem walk_decl (d : Decl) (s : Session State) : d.walk pass s = .ok none s := walk_leaf (.decl d) rfl s

theorem walk_inst (i : Instance) (s : Session State) : i.walk pass s = .ok none s := walk_leaf (.inst i) rfl s

theorem walk_connect (c : Connect) (s : Session State) : c.walk pass s = .ok none s := walk_leaf (.connect c) rfl s

mutual
theorem walk_stmt (s : Stmt) : Takes s.substmts (s.walk pass) fun Γ R i f =>
    pass.Puts "<nil>" Node.stmt? s f (s.folded Γ R i) := by
  cases s <;> simp only [Stmt.walk, folded]
  case goto | fence | «break» | «continue» | read | write => exact .leaf fun _ => rfl
  case assign x y =>
    rw [substmts_assign]
    refine .leaf fun s => ?_
    rw [bind_ok (walk_expr x s), bind_ok (asExpr_none x s), bind_ok (walk_expr y s)]
    rfl
  case expr e | stall e =>
    simp only [substmts_expr, substmts_stall]
    refine .leaf fun s => ?_
    rw [bind_ok (walk_expr e s)]
    rfl
  case decl d =>
    rw [substmts_decl]
    refine .leaf fun s => ?_
    rw [bind_ok (walk_decl d s)]
    rfl
  case block l body =>
    rw [substmts_block]
    refine .visit (fun Γ R k => .block l (foldedList Γ R k body)) (fun _ _ => rfl) (fun _ _ _ _ => rfl)
      ((walk_stmts body).map ?_)
    intro o Γ R i h
    rw [← h]
    cases o <;> rfl
  case loop l body =>
    rw [substmts_loop]
    refine .visit (fun Γ R k => .loop l (foldedList Γ R k body)) (fun _ _ => rfl) (fun _ _ _ _ => rfl)
      ((walk_stmts body).map ?_)
    intro o Γ R i h
    rw [← h]
    cases o <;> rfl
  case cond l e yes no =>
    rw [substmts_cond]
    refine .visit (fun Γ R k => .cond l e (foldedList Γ R k yes)
      (foldedList Γ R (k + (substmtsList yes).length) no)) (fun _ _ => rfl) (fun _ _ _ _ => rfl) ?_
    refine .bind_ok (walk_expr e) (.bind_ok (asExpr_none e) ((walk_stmts yes).bind fun o1 => (walk_stmts no).map ?_))
    rintro o2 Γ R _ hno i rfl hyes
    rw [getD_rebuilt3, Option.getD_none, hyes, hno]
  case case l e cs d =>
    rw [substmts_case]
    refine .visit (fun Γ R k => .case l e (Clause.foldedList Γ R k cs)
      (foldedDefault Γ R (k + (Clause.substmtsList cs).length) d)) (fun _ _ => rfl) (fun _ _ _ _ => rfl) ?_
    refine .bind_ok (walk_expr e) (.bind_ok (asExpr_none e) ((walk_clauses cs).bind fun o1 => (walk_default d).map ?_))
    rintro o2 Γ R _ hd i rfl hcs
    rw [getD_rebuilt3, Option.getD_none, hcs, hd]

theorem walk_stmts : ∀ ss : List Stmt, Takes (substmtsList ss) (walkList pass ss) fun Γ R i o =>
    o.getD ss = foldedList Γ R i ss
  | [] => .pure fun _ _ _ => rfl
  | s :: ss => by
    rw [walkList, substmtsList_cons]
    exact .cons _ (walk_stmt s) (walk_stmts ss)

theorem walk_default : ∀ d : Option (List Stmt), Takes (substmtsDefault d) (walkDefault pass d) fun Γ R i o =>
    o.getD d = foldedDefault Γ R i d
  | none => .pure fun _ _ _ => rfl
  | some body => by
    rw [walkDefault]
    refine (walk_stmts body).map ?_
    intro o Γ R i h
    rw [foldedDefault, ← h]
    cases o <;> rfl

theorem walk_clauses : ∀ cs : List Clause, Takes (Clause.substmtsList cs) (Clause.walkList pass cs) fun Γ R i o =>
    o.getD cs = Clause.foldedList Γ R i cs
  | [] => .pure fun _ _ _ => rfl
  | { loc, conds, body } :: cs => by
    rw [Clause.walkList, Clause.substmtsList_cons]
    refine .cons (fun Γ R i => [⟨loc, conds, foldedList Γ R i body⟩]) (fun c R i more bs => ?_)
      (walk_clauses cs)
    obtain ⟨o, hbody, hfolded⟩ := walk_stmts body c R i more bs
    have hrebuilt : (rebuilt2 (fun conds body => Node.clause ⟨loc, conds, body⟩) conds body none o).getD
        (.clause ⟨loc, conds, body⟩) = .clause ⟨loc, conds, foldedList c.symbols R i body⟩ := by
      rw [← hfolded]
      exact getD_rebuilt2 _ conds body none o
    refine ⟨_, ?_, puts_rebuilt Node.form_clause hrebuilt⟩
    rw [Clause.walk]
    refine visit_kept (ignores_clause _) (ignores_clause _) hrebuilt ?_
    rw [bind_ok (walk_exprs conds _), bind_ok hbody]
    rfl
end

/-! ## Entities and designs -/

variable (Γ : SymbolTable)

def foldedBody (e : Entity) : List Stmt :=
  foldedList Γ (analyze Γ e.stmts (constBindings Γ e)) 0 e.stmts

mutual
/-- An entity with its body and the bodies of the entities in it folded. -/
def foldedEntity : Entity → Entity
  | { loc, symbol, decls, entities, instances, connects, stmts } =>
    { loc, symbol, decls, entities := foldedEntities entities, instances, connects,
      stmts := foldedBody Γ ⟨loc, symbol, decls, entities, instances, connects, stmts⟩ }

def foldedEntities : List Entity → List Entity
  | [] => []
  | e :: es => foldedEntity e :: foldedEntities es
end

def endlessStalls (e : Entity) : List Stmt :=
  endlessFrom Γ (analyze Γ e.stmts (constBindings Γ e)) 0 (substmtsList e.stmts)

mutual
/-- The stalls that never end in an entity, those of the entities in it first. -/
def endlessInEntity : Entity → List Stmt
  | { loc, symbol, decls, entities, instances, connects, stmts } =>
    endlessInEntities entities ++ endlessStalls Γ ⟨loc, symbol, decls, entities, instances, connects, stmts⟩

def endlessInEntities : List Entity → List Stmt
  | [] => []
  | e :: es => endlessInEntity e ++ endlessInEntities es
end

def outside (analyses : List Records) (bs : List Bindings) : Session State := ⟨c, ⟨⟨analyses⟩, ⟨bs⟩⟩⟩

mutual
theorem walk_entity : ∀ (e : Entity) (c : Context) (as : List Records) (bs : List Bindings),
    ∃ f, e.walk pass (outside c as bs) = .ok f (outside (reportStalls c (endlessInEntity c.symbols e)) as bs) ∧
      pass.Puts "*ast.Entity" Node.entity? e f [foldedEntity c.symbols e]
  | { loc, symbol, decls, entities, instances, connects, stmts }, c, as, bs => by
    let e : Entity := ⟨loc, symbol, decls, entities, instances, connects, stmts⟩
    let R := analyze c.symbols stmts (constBindings c.symbols e)
    let c1 := reportStalls c (endlessInEntities c.symbols entities)
    obtain ⟨o1, hentities, hfolded1⟩ := walk_entities entities c (R :: as) bs
    obtain ⟨o2, hstmts, hfolded2⟩ := walk_stmts stmts c1 R 0 as bs
    have hrebuilt : ((Entity.rebuilt e none o1 none none o2).map Node.entity).getD (.entity e) =
        .entity (foldedEntity c.symbols e) := by
      rw [Option.getD_map, Entity.getD_rebuilt, hfolded1, hfolded2, foldedEntity]
      rfl
    let c2 := reportStalls c1 (endlessFrom c1.symbols R 0 (substmtsList stmts))
    have hc2 : c2 = reportStalls c (endlessInEntity c.symbols e) := by
      rw [endlessInEntity, reportStalls_append]
      rfl
    have henter : pass.enter (.entity e) (outside c as bs) = .ok () (outside c (R :: as) bs) := rfl
    have htransform : pass.transform (.entity (foldedEntity c.symbols e))
        (session c2 (R.drop (0 + (substmtsList stmts).length)) as bs) = .ok .keep (outside c2 as bs) := rfl
    refine ⟨_, ?_, puts_rebuilt Node.form_entity hrebuilt⟩
    rw [Entity.walk, ← hc2]
    refine visit_ok rfl henter ?_ (hrebuilt ▸ htransform)
    rw [bind_ok (walkEach_none (walk_decl · _) decls), bind_ok hentities,
      bind_ok (walkEach_none (walk_inst · _) instances), bind_ok (walkEach_none (walk_connect · _) connects)]
    exact (bind_ok hstmts).trans rfl

theorem walk_entities : ∀ (es : List Entity) (c : Context) (as : List Records) (bs : List Bindings),
    ∃ o, Entity.walkList pass es (outside c as bs) = .ok o (outside (reportStalls c (endlessInEntities c.symbols es)) as bs) ∧
      o.getD es = foldedEntities c.symbols es
  | [], _, _, _ => ⟨none, rfl, rfl⟩
  | e :: es, c, as, bs => by
    obtain ⟨f, he, hputs⟩ := walk_entity e c as bs
    let c1 := reportStalls c (endlessInEntity c.symbols e)
    obtain ⟨rest, hes, hrest⟩ := walk_entities es c1 as bs
    obtain ⟨head, hspliced, hhead⟩ := hputs (outside c1 as bs)
    refine ⟨joined e es head rest, ?_, ?_⟩
    · rw [Entity.walkList, bind_ok he, bind_ok hspliced, bind_ok hes, endlessInEntities, reportStalls_append]
      rfl
    · rw [getD_joined, hhead, hrest, foldedEntities]
      rfl
end

/-- A run succeeds on every design, leaves `Stmt.foldedList` of each body with the records of its analysis, and reports the
stalls that never end by these. -/
theorem run_reports (r : Root) : ∃ out, pass.run r ⟨c, {}⟩ =
      .ok out ⟨reportStalls { c with reporter := { c.reporter with pass := pass.name } }
        (endlessInEntities c.symbols r.entities), {}⟩ ∧
    (out.getD r).entities = foldedEntities c.symbols r.entities := by
  let c0 : Context := { c with reporter := { c.reporter with pass := pass.name } }
  obtain ⟨o, hentities, hfolded⟩ := walk_entities r.entities c0 [] []
  refine ⟨o.map fun entities => { r with entities }, ?_, ?_⟩
  · rw [run_eq]
    exact apply_ok (Root.walk_kept ignores_root hentities) rfl rfl
  · rw [← hfolded]
    cases o <;> rfl

theorem run_pass (r : Root) : ∃ out c', pass.run r ⟨c, {}⟩ = .ok out ⟨c', {}⟩ ∧ c'.symbols = c.symbols ∧
    (out.getD r).entities = foldedEntities c.symbols r.entities := by
  obtain ⟨out, hrun, hentities⟩ := run_reports c r
  exact ⟨out, _, hrun, rfl, hentities⟩

end HdlLowering.Folding
