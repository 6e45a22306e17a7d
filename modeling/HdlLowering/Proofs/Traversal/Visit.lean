import HdlLowering.Traversal.Walk
import HdlLowering.Proofs.Symbols.Steps

/-!
# Steps of a pass

How visits go, and what a node is rebuilt to from its new children.
-/

namespace HdlLowering

open Node Pass Entity

variable {σ α β : Type} {s s' : Session σ}

/-- What a visit gives for the answer of a pass about a node. -/
def Reply.result (rebuilt : Option Node) : Reply → Option Forest
  | .keep => rebuilt.map .node
  | .put f => some f

namespace Pass

variable {p : Pass σ} {n : Node} {s s1 s2 s3 : Session σ} {children : PassM σ (Option Node)} {rebuilt : Option Node}
  {reply : Reply}

/-- A visit when the steps of the pass succeed. -/
theorem visit_ok (hskip : p.skip n s = .ok false s) (henter : p.enter n s = .ok () s1)
    (hchildren : children s1 = .ok rebuilt s2) (htransform : p.transform (rebuilt.getD n) s2 = .ok reply s3) :
    p.visit n children s = .ok (reply.result rebuilt) s3 := by
  unfold visit
  rw [bind_ok hskip]
  simp only [Bool.false_eq_true, ↓reduceIte]
  rw [bind_ok henter]
  unfold guarded
  rw [bind_ok hchildren, bind_ok htransform]
  cases reply <;> rfl

theorem guarded_of_none (h : p.unwind = none) (x : PassM σ α) : p.guarded n x = x := by
  funext s
  unfold guarded
  cases x s with
  | ok a s' => rfl
  | error e s' => rw [h]

structure Ignores (p : Pass σ) (n : Node) : Prop where
  skip : ∀ s, p.skip n s = .ok false s
  enter : ∀ s, p.enter n s = .ok () s
  transform : ∀ s, p.transform n s = .ok .keep s

theorem visit_kept {n' : Node} (h : p.Ignores n) (h' : p.Ignores n') (hrebuilt : rebuilt.getD n = n')
    (hchildren : children s = .ok rebuilt s1) : p.visit n children s = .ok (rebuilt.map .node) s1 := by
  rw [visit_ok (h.skip s) (h.enter s) hchildren (hrebuilt ▸ h'.transform s1)]
  rfl

variable {wanted : String} {pick : Node → Option α}

theorem getD_joined (x : α) (xs : List α) (head rest : Option (List α)) :
    (joined x xs head rest).getD (x :: xs) = head.getD [x] ++ rest.getD xs := by
  cases head <;> cases rest <;> rfl

theorem walkEach_none {walk : α → PassM σ (Option Forest)} (h : ∀ x, walk x s = .ok none s) (xs : List α) :
    p.walkEach wanted pick walk xs s = .ok none s := by
  induction xs with
  | nil => rfl
  | cons x xs ih =>
    rw [walkEach, bind_ok (h x), bind_ok (rfl : p.spliced wanted pick none s = .ok none s), bind_ok ih]
    rfl

theorem run_eq (p : Pass σ) (r : Root) (c : Context) (own : σ) :
    p.run r ⟨c, own⟩ = p.apply r ⟨{ c with reporter := { c.reporter with pass := p.name } }, own⟩ := rfl

def checked (p : Pass σ) (r : Root) (out : Option Root) : PassM σ (Option Root) := do
  if (← get).ctx.checkTrees then
    p.defaultCheck r (out.getD r)
    p.finalCheck (out.getD r)
  return out

theorem checked_eq (p : Pass σ) (r : Root) (out : Option Root) (s : Session σ) :
    p.checked r out s = if s.ctx.checkTrees then (do
      p.defaultCheck r (out.getD r)
      p.finalCheck (out.getD r)
      return out : PassM σ (Option Root)) s else .ok out s := by
  rw [checked, bind_ok (rfl : (get : PassM σ (Session σ)) s = .ok s s)]
  split <;> rfl

theorem apply_of_walk {r : Root} {o : Option Root} (hwalk : r.walk p s = .ok (o.map fun r => .node (.root r)) s') :
    p.apply r s = p.checked r o s' := by
  rw [apply, bind_ok hwalk]
  cases o <;> rfl

theorem apply_ok {r : Root} {o : Option Root}
    (hwalk : r.walk p s = .ok (o.map fun r => .node (.root r)) s')
    (hdefault : p.defaultCheck r (o.getD r) s' = .ok () s') (hfinal : p.finalCheck (o.getD r) s' = .ok () s') :
    p.apply r s = .ok o s' := by
  rw [apply_of_walk hwalk, checked_eq]
  split
  · rw [bind_ok hdefault, bind_ok hfinal]
    rfl
  · rfl

end Pass

variable (p : Pass σ)

theorem Expr.walkList_eq (es : List Expr) : walkList p es = p.walkEach "<nil>" expr? (walk p) es := by
  induction es with
  | nil => rfl
  | cons e es ih => rw [walkList, ih, walkEach]

theorem Stmt.walkList_eq (ss : List Stmt) : walkList p ss = p.walkEach "<nil>" stmt? (walk p) ss := by
  induction ss with
  | nil => rfl
  | cons s ss ih => rw [walkList, ih, walkEach]

theorem Clause.walkList_eq (cs : List Clause) :
    walkList p cs = p.walkEach "*ast.CaseClause" clause? (walk p) cs := by
  induction cs with
  | nil => rw [walkList]; rfl
  | cons c cs ih => rw [walkList, ih, walkEach]

theorem Entity.walkList_eq (es : List Entity) :
    walkList p es = p.walkEach "*ast.Entity" entity? (walk p) es := by
  induction es with
  | nil => rw [walkList]; rfl
  | cons e es ih => rw [walkList, ih, walkEach]

theorem getD_rebuilt2 {γ : Type} (f : α → β → γ) (a : α) (b : β) (a' : Option α) (b' : Option β) :
    (rebuilt2 f a b a' b').getD (f a b) = f (a'.getD a) (b'.getD b) := by
  cases a' <;> cases b' <;> rfl

theorem getD_rebuilt3 {γ δ : Type} (f : α → β → γ → δ) (a : α) (b : β) (c : γ) (a' : Option α) (b' : Option β)
    (c' : Option γ) : (rebuilt3 f a b c a' b' c').getD (f a b c) = f (a'.getD a) (b'.getD b) (c'.getD c) := by
  cases a' <;> cases b' <;> cases c' <;> rfl

theorem Entity.getD_rebuilt (e : Entity) (decls : Option (List Decl)) (entities : Option (List Entity))
    (instances : Option (List Instance)) (connects : Option (List Connect)) (stmts : Option (List Stmt)) :
    (rebuilt e decls entities instances connects stmts).getD e = { e with
      decls := decls.getD e.decls
      entities := entities.getD e.entities
      instances := instances.getD e.instances
      connects := connects.getD e.connects
      stmts := stmts.getD e.stmts } := by
  obtain ⟨l, x, ds, es, insts, cs, ss⟩ := e
  unfold rebuilt
  split
  · rename_i h
    simp only [Bool.and_eq_true, Option.isNone_iff_eq_none] at h
    obtain ⟨⟨⟨⟨rfl, rfl⟩, rfl⟩, rfl⟩, rfl⟩ := h
    rfl
  · rfl

theorem Root.walk_kept {p : Pass σ} (h : ∀ r, p.Ignores (.root r)) {r : Root} {o : Option (List Entity)}
    (hentities : walkList p r.entities s = .ok o s') :
    r.walk p s = .ok ((o.map fun entities => { r with entities }).map fun r => .node (.root r)) s' := by
  have hrebuilt : (o.map fun entities => root { r with entities }).getD (.root r) =
      .root ((o.map fun entities => { r with entities }).getD r) := by
    cases o <;> rfl
  rw [Root.walk, visit_kept (h r) (h _) hrebuilt ((bind_ok hentities).trans rfl)]
  cases o <;> rfl

end HdlLowering
