import HdlLowering.Proofs.Tree.Renaming
import HdlLowering.Proofs.Traversal.Recording

/-!
# Passes that rename references

A pass may send every reference to a symbol of a map to the symbol it is mapped to, and do nothing else below entities.
-/

namespace HdlLowering

open Node Pass

variable {σ : Type} {m : Substitution} {s1 s2 : Session σ}

/-! ## Nodes inside of entities -/

def Node.isRef : Node → Bool
  | .expr (.ref ..) => true
  | _ => false

theorem Rebuilt.eq_substituted {m : Substitution} {n n' : Node} (h : Rebuilt (fun n f => f = .node (n.substituted m)) n n')
    (hr : n.isRef = false) : n' = n.substituted m := by
  have hexprs {xs ys : List Expr} (hxs : Splices (fun n f => f = .node (n.substituted m)) .expr xs ys) :
      ys = Expr.renamedList m xs := by
    rw [Expr.renamedList_eq]
    exact hxs.eq_map (by simp) fun _ _ hf => hf
  have hstmts {xs ys : List Stmt} (hxs : Splices (fun n f => f = .node (n.substituted m)) .stmt xs ys) :
      ys = Stmt.renamedList m xs := by
    rw [Stmt.renamedList_eq]
    exact hxs.eq_map (by simp) fun _ _ hf => hf
  have hentities {xs ys : List Entity} (hxs : Splices (fun n f => f = .node (n.substituted m)) .entity xs ys) :
      ys = Entity.substitutedList m xs := by
    rw [Entity.substitutedList_eq]
    exact hxs.eq_map (by simp) fun _ _ hf => hf
  cases h with
  | ref => nomatch hr
  | root l hes => rw [hentities hes]; rfl
  | entity l s hds hes his hcs hss =>
    rw [hds.eq_map (g := Decl.renamed m) (by simp) fun _ _ hf => hf, hentities hes, his.eq_map (g := id) (by simp) fun _ _ hf => hf,
      hcs.eq_map (g := Connect.renamed m) (by simp) fun _ _ hf => hf, hstmts hss, List.map_id]
    rfl
  | num | int | declBare | inst | goto | fence | «break» | «continue» | read | write => rfl
  | unary l op hx | select l f hx | expr l hx | stall l hx | declStmt l hx | decl l s hx => cases hx; rfl
  | binary l op hx hy | rep l hx hy | index l hx hy | assign l hx hy => cases hx; cases hy; rfl
  | ternary l hx hy hz | slice l hx hy hz => cases hx; cases hy; cases hz; rfl
  | cat l hxs => rw [hexprs hxs]; rfl
  | call l hx hxs | connect l hx hxs => cases hx; rw [hexprs hxs]; rfl
  | block l hxs | loop l hxs => rw [hstmts hxs]; rfl
  | cond l hx hxs hys => cases hx; rw [hstmts hxs, hstmts hys]; rfl
  | case l hx hxs hd =>
    cases hx
    have hcs := hxs.eq_map (g := Clause.renamed m) (by simp) fun _ _ hf => hf
    rw [← Clause.renamedList_eq] at hcs
    rw [hcs]
    cases hd with
    | none => rfl
    | some hb => rw [hstmts hb]; rfl
  | clause l hxs hys => rw [hexprs hxs, hstmts hys]; rfl

theorem Node.inside_substituted {n : Node} (hn : n.inside = true) : (n.substituted m).inside = true := by
  cases n <;> first | rfl | nomatch hn

theorem Node.isRef_substituted {n : Node} (hn : n.isRef = false) : (n.substituted m).isRef = false := by
  match n with
  | .expr e => cases e <;> first | rfl | nomatch hn
  | .root _ | .entity _ | .decl _ | .inst _ | .connect _ | .clause _ | .stmt _ => rfl

/-! ## The walk of a pass that renames -/

/-- A pass renames references by a map, and does nothing else in a region, which is all below entities where none is named. -/
structure Pass.Renames (p : Pass σ) (m : Substitution) (s : Session σ) (region : Node → Prop := fun n => n.inside = true) :
    Prop where
  skip : ∀ n, region n → p.skip n s = .ok false s
  enter : ∀ n, region n → p.enter n s = .ok () s
  plain : ∀ n, region n → n.isRef = false → p.transform n s = .ok .keep s
  known : ∀ l x y, m.lookup x = some y → p.transform (.expr (.ref l x)) s = .ok (.put (.node (.expr (.ref l y)))) s
  unknown : ∀ l x, m.lookup x = none → p.transform (.expr (.ref l x)) s = .ok .keep s

variable {p : Pass σ} {s : Session σ} {region : Node → Prop}

theorem Gives.ok_of_eq {α : Type} {good : α → Prop} {x : PassM σ α} (h : Gives (fun _ => False) (· = s) good x) :
    ∃ a, x s = .ok a s ∧ good a := by
  obtain ⟨a, s', hx, rfl, ha⟩ := (h s rfl).ends fun _ => id
  exact ⟨a, hx, ha⟩

namespace Pass.Renames

theorem transform_ref (h : p.Renames m s region) (l : Loc) (x : Symbol) :
    ∃ reply, p.transform (.expr (.ref l x)) s = .ok reply s ∧
      reply.forest (.expr (.ref l x)) = .node (.expr (.ref l (m.rename x))) := by
  unfold Substitution.rename
  cases hx : m.lookup x with
  | none => exact ⟨_, h.unknown l x hx, rfl⟩
  | some y => exact ⟨_, h.known l x y hx, rfl⟩

theorem establishes (h : p.Renames m s region) (hregion : ∀ n, region n → region (n.substituted m) ∧ ∀ k ∈ n.children, region k) :
    p.Establishes (fun _ => False) region (· = s) fun n f => f = .node (n.substituted m) where
  below n hn := (hregion n hn).2
  skip n hn := by
    rintro _ rfl
    rw [h.skip n hn]
    exact ⟨rfl, nofun⟩
  enter n hn := by
    rintro _ rfl
    rw [h.enter n hn]
    exact ⟨rfl, trivial⟩
  transform n n' hn hrebuilt := by
    rintro _ rfl
    by_cases hr : n.isRef = true
    · obtain ⟨l, x, rfl⟩ : ∃ l x, n = .expr (.ref l x) := by
        unfold isRef at hr
        split at hr
        · exact ⟨_, _, rfl⟩
        · nomatch hr
      cases hrebuilt
      obtain ⟨reply, htransform, hreply⟩ := h.transform_ref l x
      rw [htransform]
      exact ⟨rfl, hreply⟩
    · rw [Bool.not_eq_true] at hr
      obtain rfl := hrebuilt.eq_substituted hr
      rw [h.plain _ (hregion n hn).1 (isRef_substituted hr)]
      exact ⟨rfl, rfl⟩
  expr _ _ hf := ⟨_, hf⟩
  decl _ _ hf := ⟨_, hf⟩
  alike n f hf := by
    rw [hf]
    cases n <;> simp [Forest.leaves, alike, substituted, renamed]

theorem establishes_inside (h : p.Renames m s) :
    p.Establishes (fun _ => False) (fun n => n.inside = true) (· = s) fun n f => f = .node (n.substituted m) :=
  h.establishes fun _ hn => ⟨inside_substituted hn, fun _ hk => inside_of_child hn hk⟩

end Pass.Renames

/-- The walk leaves the renamed tree, and the state of the pass as it is. -/
theorem Node.walk_renames (h : p.Renames m s) (n : Node) (hn : n.inside = true) :
    ∃ o, n.walk p s = .ok o s ∧ o.getD (.node n) = .node (n.renamed m) := by
  rw [← substituted_eq m hn]
  exact (n.walk_gives h.establishes_inside hn).ok_of_eq

theorem Entity.walk_renames {m' : Substitution} {e : Entity} {entities : Option (List Entity)}
    (hskip : p.skip (.entity e) s = .ok false s) (henter : p.enter (.entity e) s = .ok () s1) (h1 : p.Renames m s1)
    (hentities : Entity.walkList p e.entities s1 = .ok entities s2) (h2 : p.Renames m' s2) :
    ∃ rebuilt : Option Node, rebuilt.getD (.entity e) = .entity (e.renamed m m' (entities.getD e.entities)) ∧
      ∀ reply s3, p.transform (.entity (e.renamed m m' (entities.getD e.entities))) s2 = .ok reply s3 →
        e.walk p s = .ok (reply.result rebuilt) s3 := by
  obtain ⟨l, x, decls, es, insts, connects, ss⟩ := e
  have hest1 := h1.establishes_inside
  have hest2 := h2.establishes_inside
  obtain ⟨o1, hdecls, ho1⟩ := (hest1.each form_decl decls fun d _ => (decl d).walk_gives hest1 rfl).ok_of_eq
  obtain ⟨o2, hinsts, ho2⟩ := (hest2.each form_inst insts fun i _ => (inst i).walk_gives hest2 rfl).ok_of_eq
  obtain ⟨o3, hconnects, ho3⟩ := (hest2.each form_connect connects fun c _ => (connect c).walk_gives hest2 rfl).ok_of_eq
  obtain ⟨o4, hstmts, ho4⟩ := (Stmt.walkList_gives hest2 ss fun _ _ => rfl).ok_of_eq
  let rebuilt := Entity.rebuilt ⟨l, x, decls, es, insts, connects, ss⟩ o1 entities o2 o3 o4
  have hrebuilt : (rebuilt.map entity).getD (.entity ⟨l, x, decls, es, insts, connects, ss⟩) =
      .entity (Entity.renamed m m' (entities.getD es) ⟨l, x, decls, es, insts, connects, ss⟩) := by
    rw [Option.getD_map, Entity.getD_rebuilt, ho1.eq_map (g := Decl.renamed m) (by simp) fun _ _ hf => hf,
      ho2.eq_map (g := id) (by simp) fun _ _ hf => hf, ho3.eq_map (g := Connect.renamed m') (by simp) fun _ _ hf => hf,
      ho4.eq_map (g := Stmt.renamed m') (by simp) fun _ _ hf => hf, List.map_id, ← Stmt.renamedList_eq]
    rfl
  refine ⟨rebuilt.map entity, hrebuilt, fun reply s3 htransform => ?_⟩
  rw [Entity.walk]
  refine visit_ok hskip henter ?_ (hrebuilt ▸ htransform)
  refine (bind_ok hdecls).trans ((bind_ok hentities).trans ((bind_ok hinsts).trans ((bind_ok hconnects).trans ?_)))
  exact (bind_ok hstmts).trans rfl

/-! ## Maps that know no symbol -/

theorem Pass.Renames.keeps (h : p.Renames [] s) : p.Keeps (fun n => n.inside = true) (· = s) where
  below _ hn _ hk := inside_of_child hn hk
  skip n hn := by
    rintro _ rfl
    rw [h.skip n hn]
    exact ⟨rfl, trivial⟩
  enter n hn := by
    rintro _ rfl
    rw [h.enter n hn]
    exact ⟨rfl, trivial⟩
  transform n hn := by
    rintro s rfl
    have htransform : p.transform n s = .ok .keep s := by
      cases hr : n.isRef with
      | false => exact h.plain n hn hr
      | true =>
        unfold isRef at hr
        split at hr
        · exact h.unknown _ _ rfl
        · nomatch hr
    rw [htransform]
    exact ⟨rfl, rfl⟩

theorem Node.walk_renames_nil (h : p.Renames [] s) (n : Node) (hn : n.inside = true) : n.walk p s = .ok none s := by
  obtain ⟨_, hwalk, rfl⟩ := (n.walk_keeps h.keeps hn).ok_of_eq
  exact hwalk

theorem Entity.walk_renames_nil {e : Entity} (hskip : p.skip (.entity e) s = .ok false s)
    (henter : p.enter (.entity e) s = .ok () s1) (h : p.Renames [] s1) (hflat : e.entities = [])
    (htransform : p.transform (.entity e) s1 = .ok .keep s2) : e.walk p s = .ok none s2 := by
  obtain ⟨l, x, decls, es, insts, connects, ss⟩ := e
  obtain rfl : es = [] := hflat
  have hdecl (d : Decl) : d.walk p s1 = .ok none s1 := (decl d).walk_renames_nil h rfl
  have hinst (i : Instance) : i.walk p s1 = .ok none s1 := (inst i).walk_renames_nil h rfl
  have hconnect (c : Connect) : c.walk p s1 = .ok none s1 := (connect c).walk_renames_nil h rfl
  have hstmt (t : Stmt) : t.walk p s1 = .ok none s1 := (stmt t).walk_renames_nil h rfl
  have htransform' : p.transform ((none : Option Node).getD (.entity ⟨l, x, decls, [], insts, connects, ss⟩)) s1 =
      .ok .keep s2 := htransform
  rw [Entity.walk]
  refine (visit_ok hskip henter ?_ htransform').trans rfl
  rw [bind_ok (walkEach_none hdecl decls), Entity.walkList, pure_bind, bind_ok (walkEach_none hinst insts),
    bind_ok (walkEach_none hconnect connects), Stmt.walkList_eq, bind_ok (walkEach_none hstmt ss)]
  rfl

/-! ## The pass that applies a map -/

namespace Substitution

theorem pass_renames (m : Substitution) (region : Node → Prop) (s : Session Unit) : m.pass.Renames m s region where
  skip _ _ := rfl
  enter _ _ := rfl
  plain n _ hr := by
    match n, hr with
    | .root _, _ | .entity _, _ | .decl _, _ | .inst _, _ | .connect _, _ | .clause _, _ | .stmt _, _ => rfl
    | .expr e, hr => cases e <;> first | rfl | nomatch hr
  known l x y h := by simp [pass, h]; rfl
  unknown l x h := by simp [pass, h]; rfl

theorem renamed_nil (e : Expr) : e.renamed [] = e := by
  have h := pass_renames [] (fun n => n.inside = true) ⟨default, ()⟩
  obtain ⟨o, hwalk, ho⟩ := (expr e).walk_renames h rfl
  rw [(expr e).walk_renames_nil h rfl] at hwalk
  cases hwalk
  exact (expr.inj (Forest.node.inj ho)).symm

/-- Applying a map to an expression is such a walk. -/
theorem applyExpr_eq (m : Substitution) (e : Expr) (s : Session σ) : m.applyExpr e s = .ok (e.renamed m) s := by
  unfold applyExpr walk
  cases m with
  | nil => rw [renamed_nil]; rfl
  | cons p m =>
    obtain ⟨o, hwalk, ho⟩ := (Node.expr e).walk_renames (pass_renames (p :: m) _ ⟨s.ctx, ()⟩) rfl
    have hwithin : (PassM.within () (Node.walk (pass (p :: m)) (.expr e)) : PassM σ _) s = .ok o s := by
      rw [PassM.within, hwalk]
    rw [List.isEmpty_cons, if_neg Bool.false_ne_true, bind_ok hwithin]
    cases o with
    | none =>
      rw [← Node.expr.inj (Forest.node.inj ho)]
      rfl
    | some f =>
      obtain rfl : f = _ := ho
      rfl

end Substitution

end HdlLowering
