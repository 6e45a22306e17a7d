import HdlLowering.Proofs.Concatenation.Cuts
import HdlLowering.Proofs.Normal.Endurance

/-!
# Splitting of concatenations

The pass over concatenations normalizes a design, by what it answers for each node.
-/

namespace HdlLowering.Concatenation

open List Expr
open Netlist (drivenSignals)

variable {Γ : SymbolTable} {ts ss : List Expr} {gs : List Group} {P : Node → Prop} {l : Loc} {as : List (Expr × Expr)}
  {Q R : Expr → Prop} {K : Connect → List Connect → Prop} {ps : List Expr} {c : Connect} {x y : Expr} {cs : List Connect}

/-! ## Parts of groups -/

def Divides (Γ : SymbolTable) (Q : Expr → Prop) : Prop :=
  ∀ e count top rest, splitTop? Γ e count = some (top, rest) → Q e → Q top ∧ Q rest

theorem groups_forall (o : Option Open) (ts ss : List Part) (ht : ∀ p ∈ ts, Q p.1) (hs : ∀ p ∈ ss, R p.1)
    (hopen : ∀ p, o = some p → (∀ t ∈ p.group.target, Q t) ∧ ∀ s ∈ p.group.source, R s) :
    ∀ g ∈ groups o ts ss, (∀ t ∈ g.target, Q t) ∧ ∀ s ∈ g.source, R s := by
  fun_induction groups o ts ss with
  | case1 t ts s ss ih =>
    rw [forall_mem_cons] at ht hs
    refine ih ht.2 hs.2 ?_
    rintro p ⟨⟩
    exact ⟨forall_mem_singleton.mpr ht.1, forall_mem_singleton.mpr hs.1⟩
  | case2 => simp
  | case3 o ts ss heq ih => exact forall_mem_cons.mpr ⟨hopen o rfl, ih ht hs (by simp)⟩
  | case4 o ss hne hlt t ts ih =>
    rw [forall_mem_cons] at ht
    refine ih ht.2 hs ?_
    rintro p ⟨⟩
    exact ⟨forall_mem_append.mpr ⟨(hopen o rfl).1, forall_mem_singleton.mpr ht.1⟩, (hopen o rfl).2⟩
  | case6 o ts hne hge s ss ih =>
    rw [forall_mem_cons] at hs
    refine ih ht hs.2 ?_
    rintro p ⟨⟩
    exact ⟨(hopen o rfl).1, forall_mem_append.mpr ⟨(hopen o rfl).2, forall_mem_singleton.mpr hs.1⟩⟩
  | case5 o | case7 o => exact forall_mem_singleton.mpr (hopen o rfl)

theorem peel_forall (hQ : Divides Γ Q) (hR : Divides Γ R) (ts ss : List Expr) (ht : ∀ t ∈ ts, Q t)
    (hs : ∀ s ∈ ss, R s) : ∀ g ∈ peel Γ ts ss, (∀ t ∈ g.target, Q t) ∧ ∀ s ∈ g.source, R s := by
  fun_induction peel Γ ts ss with
  | case1 t t' ts s s' ss wt ws hw ih =>
    rw [forall_mem_cons] at ht hs ⊢
    exact ⟨⟨forall_mem_singleton.mpr ht.1, forall_mem_singleton.mpr hs.1⟩, ih ht.2 hs.2⟩
  | case2 t t' ts s s' ss wt ws hne hlt top rest hsplit ih =>
    rw [forall_mem_cons] at ht hs ⊢
    obtain ⟨htop, hrest⟩ := hQ t ws top rest hsplit ht.1
    exact ⟨⟨forall_mem_singleton.mpr htop, forall_mem_singleton.mpr hs.1⟩,
      ih (forall_mem_cons.mpr ⟨hrest, ht.2⟩) hs.2⟩
  | case4 t t' ts s s' ss wt ws hne hlt top rest hsplit ih =>
    rw [forall_mem_cons] at ht hs ⊢
    obtain ⟨htop, hrest⟩ := hR s wt top rest hsplit hs.1
    exact ⟨⟨forall_mem_singleton.mpr ht.1, forall_mem_singleton.mpr htop⟩,
      ih ht.2 (forall_mem_cons.mpr ⟨hrest, hs.2⟩)⟩
  | case3 | case5 | case6 => exact forall_mem_singleton.mpr ⟨ht, hs⟩

/-- What holds of the parts of two concatenations and of the pieces they are cut into holds of the groups they are split into.
-/
theorem Regrouped.forall_parts (h : Regrouped Γ ts ss gs) (hQ : Divides Γ Q) (hR : Divides Γ R)
    (ht : ∀ t ∈ ts, Q t) (hs : ∀ s ∈ ss, R s) : ∀ g ∈ gs, (∀ t ∈ g.target, Q t) ∧ ∀ s ∈ g.source, R s := by
  obtain ⟨-, -, tps, sps, htps, hsps, -, rfl⟩ := h
  obtain ⟨-, rfl⟩ := measured?_eq_some.mp htps
  obtain ⟨-, rfl⟩ := measured?_eq_some.mp hsps
  refine forall_mem_flatMap.mpr fun g hg => ?_
  obtain ⟨htarget, hsource⟩ := groups_forall none _ _ (forall_mem_map.mpr ht) (forall_mem_map.mpr hs) nofun g hg
  exact peel_forall hQ hR g.target g.source htarget hsource

/-! ## What lasts -/

theorem endures_bitRange (h : Endures Γ P) {s : Symbol} (hs : P (.expr (.ref l s))) (hi lo : Int64) :
    ∀ x ∈ (bitRange (.ref l s) hi lo).subterms, P (.expr x) := by
  have hbare : ∀ v, P (.expr (.ofInt v)) := fun v => h.bare _ rfl
  unfold bitRange
  split
  · have hindex := h.bare (.expr (.index l (.ref l s) (.ofInt hi.toInt))) rfl
    simp [subterms, ofInt] at hbare hindex ⊢
    exact ⟨hindex, hs, hbare _⟩
  · have hslice := h.bare (.expr (.slice l (.ref l s) (.ofInt hi.toInt) (.ofInt lo.toInt))) rfl
    simp [subterms, ofInt] at hbare hslice ⊢
    exact ⟨hslice, hs, hbare _, hbare _⟩

theorem divides_of_endures (h : Endures Γ P) : Divides Γ fun e => ∀ x ∈ e.subterms, P (.expr x) := by
  intro e count top rest hsplit he
  obtain ⟨l, s, hi, lo, -, -, hsliced, rfl, rfl⟩ := splitTop?_eq_some hsplit
  have hs := he (.ref l s) (by cases hsliced <;> simp [subterms])
  exact ⟨endures_bitRange h hs _ _, endures_bitRange h hs _ _⟩

theorem divides_signals (S : List String) : Divides Γ fun e => ∀ s ∈ drivenSignals Γ e, s ∈ S := by
  intro e count top rest hsplit he
  obtain ⟨htop, hrest⟩ := drivenSignals_of_splitTop? hsplit
  exact ⟨fun s hs => he s (htop ▸ hs), fun s hs => he s (hrest ▸ hs)⟩

theorem subterms_concat {Q : Expr → Prop} (hcat : ∀ l, Q (.cat l ps)) (hps : ∀ p ∈ ps, ∀ x ∈ p.subterms, Q x) :
    ∀ x ∈ (Expr.concat ps).subterms, Q x := by
  match ps, hcat, hps with
  | [p], _, hps => exact hps p (mem_singleton_self p)
  | [], hcat, hps => exact Expr.forall_mem_subterms.mpr ⟨hcat _, hps⟩
  | _ :: _ :: _, hcat, hps => exact Expr.forall_mem_subterms.mpr ⟨hcat _, hps⟩

theorem drivenSignals_concat (ps : List Expr) : drivenSignals Γ (concat ps) = ps.flatMap (drivenSignals Γ) := by
  match ps with
  | [p] => exact (flatMap_singleton _ _).symm
  | [] => rfl
  | p :: q :: ps => rw [Expr.concat, drivenSignals, drivenSignalsList_eq]; simp

/-! ## Flat parts -/

theorem unnested_concat (h : ∀ p ∈ ps, p.isCat = false ∧ ∀ x ∈ p.subterms, x.Unnested) :
    ∀ x ∈ (Expr.concat ps).subterms, x.Unnested := by
  have hnested : isNested ps = false := isNested_eq_false.mpr fun p hp => (h p hp).1
  match ps, h, hnested with
  | [p], h, _ => exact (h p (mem_singleton_self p)).2
  | [], _, _ => exact Expr.forall_mem_subterms.mpr ⟨⟨rfl, nofun⟩, nofun⟩
  | p :: q :: ps, h, hnested => exact Expr.forall_mem_subterms.mpr ⟨⟨hnested, by simp⟩, fun y hy => (h y hy).2⟩

theorem parts_of_concat {ps qs : List Expr} (h : ∀ p ∈ ps, p.isCat = false) (heq : Expr.concat ps = .cat l qs) : qs = ps := by
  have htargets := targets_concat h
  rw [heq] at htargets
  exact htargets

theorem divides_flat : Divides Γ fun e => e.isCat = false ∧ ∀ x ∈ e.subterms, x.Unnested := by
  intro e count top rest hsplit _
  obtain ⟨htop, hrest⟩ := unnested_of_splitTop? hsplit
  obtain ⟨l, s, hi, lo, -, -, -, rfl, rfl⟩ := splitTop?_eq_some hsplit
  exact ⟨⟨isCat_bitRange l s _ _, htop⟩, isCat_bitRange l s _ _, hrest⟩

theorem parts_of_unnested (h : ∀ x ∈ (cat l ps).subterms, x.Unnested) :
    ∀ p ∈ ps, p.isCat = false ∧ ∀ x ∈ p.subterms, x.Unnested := by
  intro p hp
  obtain ⟨hself, hbelow⟩ := forall_mem_subterms.mp h
  exact ⟨isNested_eq_false.mp hself.1 p hp, hbelow p hp⟩

/-! ## Assignments -/

theorem Dealt.mem {v : Int} {w : Int64} {a : Expr × Expr} (h : Dealt Γ l v w ts as) (ha : a ∈ as) : a.1 ∈ ts :=
  h.targets ▸ mem_map_of_mem ha

theorem forall_mem_nodes_assign : (∀ k ∈ (Node.stmt (.assign l x y)).nodes, P k) ↔
    P (.stmt (.assign l x y)) ∧ (∀ z ∈ x.subterms, P (.expr z)) ∧ ∀ z ∈ y.subterms, P (.expr z) := by
  rw [Node.forall_mem_nodes]
  simp [Node.children, Stmt.children, forall_mem_nodes]

theorem Replaces.endures {r : Reply} (h : Replaces Γ l x y r as) (hP : Endures Γ P)
    (hassign : ∀ k ∈ (Node.stmt (.assign l x y)).nodes, P k) :
    ∀ a ∈ as, ∀ k ∈ (Node.stmt (.assign l a.1 a.2)).nodes, P k := by
  cases h with
  | same => exact forall_mem_singleton.mpr hassign
  | @groups lt ls ts ss gs _ hgs =>
    obtain ⟨hself, hx, hy⟩ := forall_mem_nodes_assign.mp hassign
    have hparts := hgs.forall_parts (divides_of_endures hP) (divides_of_endures hP) (forall_mem_subterms.mp hx).2
      (forall_mem_subterms.mp hy).2
    have hsignals := hgs.forall_parts (divides_signals (drivenSignals Γ (.cat lt ts))) (fun _ _ _ _ _ h => ⟨h, h⟩)
      (fun t ht s hs => by rw [drivenSignals, drivenSignalsList_eq]; exact mem_flatMap.mpr ⟨t, ht, hs⟩)
      (fun _ _ => trivial)
    intro a ha
    obtain ⟨g, hg, rfl⟩ := mem_map.mp ha
    refine forall_mem_nodes_assign.mpr ⟨hP.assign l _ _ _ _ hself fun s hs => ?_,
      subterms_concat (fun _ => hP.bare _ rfl) (hparts g hg).1, subterms_concat (fun _ => hP.bare _ rfl) (hparts g hg).2⟩
    rw [drivenSignals_concat] at hs
    obtain ⟨t, ht, hs⟩ := mem_flatMap.mp hs
    exact (hsignals g hg).1 t ht s hs
  | @constant lt ts _ v _ _ _ hv _ hdeal =>
    obtain ⟨hself, hx, -⟩ := forall_mem_nodes_assign.mp hassign
    rintro ⟨t, value⟩ ha
    have hdealt := dealt_of_dealOut hdeal
    have ht := hdealt.mem ha
    obtain ⟨u, rfl⟩ : ∃ u, value = .ofValue l u (t.type Γ) := hdealt.literal _ ha
    refine forall_mem_nodes_assign.mpr ⟨hP.assign l _ _ _ _ hself fun s hs => ?_, (forall_mem_subterms.mp hx).2 t ht,
      hP.ofValue l u _⟩
    rw [drivenSignals, drivenSignalsList_eq]
    exact mem_flatMap.mpr ⟨t, ht, hs⟩

/-! ## Connections -/

/-- What the pass makes of a connection: the same, flattened, or one for each group. -/
inductive Splits (Γ : SymbolTable) (c : Connect) : List Connect → Prop
  | same : Splits Γ c [c.flat]
  | groups {ls lt : Loc} {ts ss : List Expr} {gs : List Group} (hsource : c.flat.source = .cat ls ss)
    (hsinks : c.flat.sinks = [.cat lt ts]) (h : Regrouped Γ ts ss gs) :
    Splits Γ c (gs.map fun g => ⟨c.loc, concat g.source, [concat g.target]⟩)

theorem forall_mem_nodes_connect : (∀ k ∈ (Node.connect c).nodes, P k) ↔
    P (.connect c) ∧ (∀ z ∈ c.source.subterms, P (.expr z)) ∧ ∀ x ∈ c.sinks, ∀ z ∈ x.subterms, P (.expr z) := by
  rw [Node.forall_mem_nodes]
  simp [Node.children, forall_mem_nodes]

theorem Splits.endures (h : Splits Γ c cs) (hP : Endures Γ P)
    (hc : ∀ k ∈ (Node.connect c).nodes, P k) : ∀ c' ∈ cs, ∀ k ∈ (Node.connect c').nodes, P k := by
  obtain ⟨-, hsource, hsinks⟩ := forall_mem_nodes_connect.mp hc
  have hflat : (∀ z ∈ c.flat.source.subterms, P (.expr z)) ∧ ∀ x ∈ c.flat.sinks, ∀ z ∈ x.subterms, P (.expr z) :=
    ⟨hP.flat_subterms _ hsource, forall_mem_map.mpr fun x hx => hP.flat_subterms x (hsinks x hx)⟩
  cases h with
  | same => exact forall_mem_singleton.mpr (forall_mem_nodes_connect.mpr ⟨hP.bare _ rfl, hflat⟩)
  | groups hs ht hgs =>
    rw [hs, ht, forall_mem_singleton] at hflat
    have hparts := hgs.forall_parts (divides_of_endures hP) (divides_of_endures hP) (forall_mem_subterms.mp hflat.2).2
      (forall_mem_subterms.mp hflat.1).2
    refine forall_mem_map.mpr fun g hg => forall_mem_nodes_connect.mpr ⟨hP.bare _ rfl, ?_, ?_⟩
    · exact subterms_concat (fun _ => hP.bare _ rfl) (hparts g hg).2
    · exact forall_mem_singleton.mpr (subterms_concat (fun _ => hP.bare _ rfl) (hparts g hg).1)

/-! ## The pass -/

theorem normalizes_flat (e : Expr) : Normalizes Γ flat K (.expr e) (.node (.expr e.flat)) where
  alike := forall_mem_singleton.mpr rfl
  expr := by rintro _ ⟨⟩; rfl
  decl := nofun
  connect := nofun
  entity := nofun
  root := nofun
  endures P hP he := by
    rw [Forest.leaves, forall_mem_singleton, forall_mem_nodes]
    exact hP.flat_subterms e (forall_mem_nodes.mp he)

theorem normalizes_assign {r : Reply} {f : Forest}
    (hleaves : f.leaves = (stmtsOf l as).map .stmt) (h : Replaces Γ l x.flat y.flat r as) :
    Normalizes Γ flat K (.stmt (.assign l x y)) f := by
  refine .stmts hleaves fun P hP hn => forall_mem_map.mpr ?_
  obtain ⟨hself, hx, hy⟩ := forall_mem_nodes_assign.mp hn
  exact h.endures hP (forall_mem_nodes_assign.mpr ⟨hP.flat l x y hself hx, hP.flat_subterms x hx, hP.flat_subterms y hy⟩)

theorem normalizes_connect {f : Forest} (hleaves : f.leaves = cs.map .connect)
    (h : Splits Γ c cs) : Normalizes Γ flat (Splits Γ) (.connect c) f where
  alike := by
    rw [hleaves]
    exact forall_mem_map.mpr fun _ _ => rfl
  expr := nofun
  decl := nofun
  connect := by
    rintro _ ⟨⟩
    exact ⟨cs, hleaves, h⟩
  entity := nofun
  root := nofun
  endures P hP hn := by
    rw [hleaves]
    exact forall_mem_map.mpr (h.endures hP hn)

/-- What the pass answers for a node whose expressions are flattened: an expression is flattened, an assignment or a connection is
replaced or kept, and all else is kept. -/
inductive Outcome (Γ : SymbolTable) : Node → Node → Reply → Prop
  | expr (e : Expr) {n' : Node} {r : Reply} (h : r.forest n' = .node (.expr e.flat)) : Outcome Γ (.expr e) n' r
  | assign (l : Loc) (x y : Expr) {r : Reply} {as : List (Expr × Expr)}
    (hleaves : (r.forest (.stmt (.assign l x.flat y.flat))).leaves = (stmtsOf l as).map .stmt)
    (h : Replaces Γ l x.flat y.flat r as) : Outcome Γ (.stmt (.assign l x y)) (.stmt (.assign l x.flat y.flat)) r
  | connectKept (c : Connect) : Outcome Γ (.connect c) (.connect c.flat) .keep
  | connect (c : Connect) {r : Reply} {ls lt : Loc} {ts ss : List Expr} {gs : List Group} (hsource : c.flat.source = .cat ls ss)
    (hsinks : c.flat.sinks = [.cat lt ts]) (h : Regrouped Γ ts ss gs) (hleaves : (r.forest (.connect c.flat)).leaves =
      (gs.map fun g => ⟨c.loc, concat g.source, [concat g.target]⟩).map .connect) :
    Outcome Γ (.connect c) (.connect c.flat) r
  | kept (n n' : Node) (hexpr : ∀ e, n ≠ .expr e) (hconnect : ∀ c, n ≠ .connect c)
    (hassign : ∀ l x y, n ≠ .stmt (.assign l x y)) : Outcome Γ n n' .keep

theorem transform_outcome (Γ : SymbolTable) {post : Node → Forest → Prop}
    (hpost : ∀ e f, post (.expr e) f → f = .node (.expr e.flat)) {n n' : Node} (h : Rebuilt post n n') :
    ∃ r, Answers Γ (pass.transform n') r ∧ Outcome Γ n n' r := by
  cases n with
  | expr e =>
    obtain rfl := h.expr_eq hpost
    cases hcat : e.isCat with
    | false =>
      rw [mapOperands_flat hcat]
      refine ⟨.keep, ?_, .expr e rfl⟩
      have hform := isCat_flat hcat
      cases hflat : e.flat with
      | cat => rw [hflat] at hform; cases hform
      | _ => exact answers_pure _
    | true =>
      cases e with
      | cat l ps =>
        have hflat : (flatten? l (ps.map flat)).getD (.cat l (ps.map flat)) = (cat l ps).flat := by
          rw [flatten?_getD, flat, flatList_eq]
        rw [mapOperands]
        unfold pass
        dsimp only
        cases hreply : flatten? l (ps.map flat) with
        | none => exact ⟨.keep, answers_pure _, .expr _ (by rw [← hflat, hreply]; rfl)⟩
        | some e' => exact ⟨.put (.node (.expr e')), answers_pure _, .expr _ (by rw [← hflat, hreply]; rfl)⟩
      | _ => cases hcat
  | connect c =>
    obtain rfl := h.connect_eq hpost
    obtain ⟨r, cs, hr, hleaves, hcases⟩ := connectReply_cases Γ c.flat
    rcases hcases with ⟨rfl, -⟩ | ⟨ls, ss, lt, ts, gs, hsource, hsinks, hgs, rfl⟩
    · exact ⟨_, hr, .connectKept c⟩
    · exact ⟨r, hr, .connect c hsource hsinks hgs hleaves⟩
  | stmt x =>
    cases x with
    | assign l x y =>
      obtain rfl := h.assign_eq hpost
      obtain ⟨r, as, hr, hleaves, hreplaces⟩ := assignReply_cases Γ l x.flat y.flat
      exact ⟨r, hr, .assign l x y hleaves hreplaces⟩
    | _ =>
      refine ⟨.keep, ?_, .kept _ _ (by simp) (by simp) (by simp)⟩
      cases h
      exact answers_pure _
  | _ =>
    refine ⟨.keep, ?_, .kept _ _ (by simp) (by simp) (by simp)⟩
    cases h <;> exact answers_pure _

structure Answered (Γ : SymbolTable) (n : Node) (f : Forest) : Prop extends Normalizes Γ flat (Splits Γ) n f where
  assign : ∀ l x y, n = .stmt (.assign l x y) → ∃ r as, f.leaves = (stmtsOf l as).map .stmt ∧ Replaces Γ l x.flat y.flat r as

theorem Outcome.answered {n n' : Node} {r : Reply} (h : Rebuilt (Normalizes Γ flat (Splits Γ)) n n') (hout : Outcome Γ n n' r) :
    Answered Γ n (r.forest n') := by
  cases hout with
  | expr e hflat => exact ⟨hflat ▸ normalizes_flat e, nofun⟩
  | assign l x y hleaves hreplaces =>
    refine ⟨normalizes_assign hleaves hreplaces, ?_⟩
    rintro _ _ _ ⟨⟩
    exact ⟨_, _, hleaves, hreplaces⟩
  | connectKept c => exact ⟨normalizes_connect rfl .same, nofun⟩
  | connect c hsource hsinks hgs hleaves => exact ⟨normalizes_connect hleaves (.groups hsource hsinks hgs), nofun⟩
  | kept _ _ hexpr hconnect hassign => exact ⟨.kept h hexpr hconnect hassign, fun l x y hn => absurd hn (hassign l x y)⟩

theorem pass_answers (Γ : SymbolTable) : pass.Establishes (fun _ => False) (fun _ => True) (fun s => s.ctx.symbols = Γ)
    (Answered Γ) where
  below _ _ _ _ := trivial
  skip _ _ := .pure nofun
  enter _ _ := .pure trivial
  transform n n' _ h s hs := by
    obtain ⟨r, hr, hout⟩ := transform_outcome Γ (fun e _ h => h.expr e rfl) h
    obtain ⟨s', hr, hs'⟩ := hr s hs
    rw [hr]
    exact ⟨hs', hout.answered (h.mono fun _ _ h => h.toNormalizes)⟩
  expr _ _ h := ⟨_, h.expr _ rfl⟩
  decl _ _ h := h.decl _ rfl
  alike _ _ h := h.alike

theorem run_normalizes {c : Context} {r : Root} {out : Option Root} {s : Session Unit} (h : pass.run r ⟨c, ()⟩ = .ok out s) :
    s.ctx.symbols = c.symbols ∧ Forall₂ (Normalized c.symbols (Splits c.symbols)) r.entities (out.getD r).entities := by
  have hwalk := Pass.of_run_ok (p := pass) (fun _ _ _ => rfl) (fun _ _ => rfl) h
  obtain ⟨hsymbols, hanswer⟩ := ((Node.root r).walk_gives (pass_answers c.symbols) trivial _ rfl).of_ok hwalk
  exact ⟨hsymbols, hanswer.toNormalizes.of_walk⟩

end HdlLowering.Concatenation
