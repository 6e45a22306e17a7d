import HdlLowering.Proofs.Execution.Behaviour
import Mathlib.Order.Defs.Unbundled

/-!
# What a run leaves alone

A run names its own statements only, and changes only what these may change.
-/

namespace HdlLowering

open Stmt List Store

/-! ## The statements in a statement -/

@[simp] theorem Node.stmts_append (ms ns : List Node) : Node.stmts (ms ++ ns) = Node.stmts ms ++ Node.stmts ns := by
  simp [Node.stmts]

@[simp] theorem Node.stmts_expr (e : Expr) : Node.stmts e.nodes = [] := by
  simp [Node.stmts, Expr.nodes]

@[simp] theorem Node.stmts_exprs (es : List Expr) : Node.stmts (Expr.nodesList es) = [] := by
  induction es with
  | nil => rfl
  | cons e es ih => simpa [Expr.nodesList] using ih

@[simp] theorem Node.stmts_decl (d : Decl) : Node.stmts d.nodes = [] := by
  have h := Node.stmts_expr
  simp only [Node.stmts] at h
  cases hi : d.init <;> simp [Node.stmts, Decl.nodes, hi, h]

@[simp] theorem Node.stmts_cons_stmt (s : Stmt) (ns : List Node) : Node.stmts (.stmt s :: ns) = s :: Node.stmts ns := rfl

@[simp] theorem Node.stmts_nil : Node.stmts [] = [] := rfl

section

variable (l : Loc)

@[simp] theorem Stmt.substmts_block (body : List Stmt) :
    (block l body).substmts = .block l body :: substmtsList body := by
  simp [substmts, substmtsList, nodes]

@[simp] theorem Stmt.substmts_cond (c : Expr) (yes no : List Stmt) :
    (cond l c yes no).substmts = .cond l c yes no :: (substmtsList yes ++ substmtsList no) := by
  simp [substmts, substmtsList, nodes]

@[simp] theorem Stmt.substmts_case (x : Expr) (cs : List Clause) (d : Option (List Stmt)) :
    (case l x cs d).substmts = .case l x cs d :: (Clause.substmtsList cs ++ substmtsDefault d) := by
  simp [substmts, Clause.substmtsList, substmtsDefault, nodes]

@[simp] theorem Stmt.substmts_loop (body : List Stmt) :
    (loop l body).substmts = .loop l body :: substmtsList body := by
  simp [substmts, substmtsList, nodes]

@[simp] theorem Stmt.substmts_goto (x : String) : (goto l x).substmts = [.goto l x] := rfl

@[simp] theorem Stmt.substmts_fence : (fence l).substmts = [.fence l] := rfl

@[simp] theorem Stmt.substmts_break : (Stmt.break l).substmts = [.break l] := rfl

@[simp] theorem Stmt.substmts_continue : (Stmt.continue l).substmts = [.continue l] := rfl

@[simp] theorem Stmt.substmts_assign (x y : Expr) : (assign l x y).substmts = [.assign l x y] := by
  simp [substmts, nodes]

@[simp] theorem Stmt.substmts_expr (e : Expr) : (expr l e).substmts = [.expr l e] := by
  simp [substmts, nodes]

@[simp] theorem Stmt.substmts_read : (read l).substmts = [.read l] := rfl

@[simp] theorem Stmt.substmts_write : (write l).substmts = [.write l] := rfl

@[simp] theorem Stmt.substmts_decl (d : Decl) : (decl l d).substmts = [.decl l d] := by
  simp [substmts, nodes]

@[simp] theorem Stmt.substmts_stall (c : Expr) : (stall l c).substmts = [.stall l c] := by
  simp [substmts, nodes]

end

@[simp] theorem Stmt.substmtsList_nil : substmtsList [] = [] := rfl

@[simp] theorem Stmt.substmtsList_cons (s : Stmt) (ss : List Stmt) :
    substmtsList (s :: ss) = s.substmts ++ substmtsList ss := by
  simp [substmts, substmtsList, nodesList]

@[simp] theorem Stmt.substmtsList_append (ss ss' : List Stmt) :
    substmtsList (ss ++ ss') = substmtsList ss ++ substmtsList ss' := by
  induction ss with
  | nil => rfl
  | cons s ss ih => simp [ih]

@[simp] theorem Stmt.substmtsDefault_none : substmtsDefault none = [] := rfl

@[simp] theorem Stmt.substmtsDefault_some (body : List Stmt) : substmtsDefault (some body) = substmtsList body := rfl

@[simp] theorem Clause.substmtsList_nil : Clause.substmtsList [] = [] := rfl

@[simp] theorem Clause.substmtsList_cons (c : Clause) (cs : List Clause) :
    Clause.substmtsList (c :: cs) = Stmt.substmtsList c.body ++ Clause.substmtsList cs := by
  obtain ⟨l, conds, body⟩ := c
  have h : ∀ ns, Node.stmts (.clause ⟨l, conds, body⟩ :: ns) = Node.stmts ns := fun _ => rfl
  simp [Stmt.substmtsList, Clause.substmtsList, Clause.nodesList, Clause.nodes, h]

/-! ## Events and positions -/

variable {Γ : SymbolTable} {α : Type} {st st' : Store Γ}

/-- Every event has a counterpart in a list whose first element stands for a position. -/
def Placed (R : Event Γ → α → Prop) (i : Nat) (xs : List α) (t : List (Event Γ)) : Prop :=
  ∀ ev ∈ t, ∃ k x, ev.position = i + k ∧ xs[k]? = some x ∧ R ev x

namespace Placed

variable {R : Event Γ → α → Prop} {i : Nat} {xs ys : List α} {t t' : List (Event Γ)}

theorem nil : Placed R i xs [] := fun _ h => by simp at h

theorem append (h : Placed R i xs t) (h' : Placed R i xs t') : Placed R i xs (t ++ t') := by
  intro ev hev
  rcases mem_append.mp hev with hev | hev
  · exact h ev hev
  · exact h' ev hev

theorem left (h : Placed R i xs t) : Placed R i (xs ++ ys) t := by
  intro ev hev
  obtain ⟨k, x, hk, hx, hR⟩ := h ev hev
  exact ⟨k, x, hk, by rw [List.getElem?_append_left (List.getElem?_eq_some_iff.mp hx).1]; exact hx, hR⟩

theorem right (h : Placed R (i + xs.length) ys t) : Placed R i (xs ++ ys) t := by
  intro ev hev
  obtain ⟨k, x, hk, hx, hR⟩ := h ev hev
  refine ⟨xs.length + k, x, by omega, ?_, hR⟩
  rw [getElem?_append_right (by omega)]
  simpa using hx

theorem cons {s : Stmt} {st : Store Γ} {x : α} (hR : R ⟨i, s, st⟩ x) (h : Placed R (i + 1) xs t) :
    Placed R i (x :: xs) (⟨i, s, st⟩ :: t) := by
  intro ev hev
  rcases mem_cons.mp hev with rfl | hev
  · exact ⟨0, x, rfl, rfl, hR⟩
  · obtain ⟨k, y, hk, hy, hRy⟩ := h ev hev
    exact ⟨k + 1, y, by omega, hy, hRy⟩

end Placed

/-! ## Runs -/

theorem Store.Assigned.sameOff {lhs rhs : Expr} (h : Assigned lhs rhs st st') : SameOff lhs.roots st st' := by
  unfold Assigned at h
  split at h
  · rename_i s hs
    obtain ⟨v, -, rfl⟩ := h
    have hroots : lhs.roots = [s] := by
      cases lhs <;> simp_all [Expr.symbol?, Expr.roots]
    rw [hroots]
    exact st.sameOff_set s v
  · exact h

theorem Store.Declared.sameOff {d : Decl} (h : Declared d st st') : SameOff [d.symbol] st st' := by
  obtain ⟨v, -, rfl⟩ := h
  exact st.sameOff_set _ v

variable (base : Bindings)

/-- What a statement does by itself, without the statements in it, is allowed by a relation of stores. -/
def Stmt.Allows (R : Store Γ → Store Γ → Prop) : Stmt → Prop
  | .assign _ lhs rhs => ∀ st st', Assigned lhs rhs st st' → R st st'
  | .decl _ d => ∀ st st', Declared d st st' → R st st'
  | .read _ => ∀ st st' : Store Γ, (∀ s, (Γ.kind s).isPipeline = false → st'.value s = st.value s) → R st st'
  | .goto .. | .fence _ => ∀ st st' : Store Γ, st'.Agrees base → R st st'
  | _ => True

/-- What a behaviour does with the statements of a list, from a position on: its events are about them, and it changes the store
as a relation allows that allows what each of them does by itself. -/
def Behaviour.Tracks (R : Store Γ → Store Γ → Prop) (i : Nat) (ss : List Stmt) (p : Behaviour Γ) : Prop :=
  ∀ ⦃st t o st'⦄, p st t o st' → Placed (fun ev s => s = ev.stmt) i ss t ∧ ((∀ x ∈ ss, x.Allows base R) → R st st')

section

variable {base : Bindings} {R R' : Store Γ → Store Γ → Prop} {i : Nat} {ss ss' : List Stmt} {p q : Behaviour Γ}
  {t : List (Event Γ)} {o : Outcome}

namespace Behaviour.Tracks

theorem left (hp : Tracks base R i ss p) (h : p st t o st') :
    Placed (fun ev s => s = ev.stmt) i (ss ++ ss') t ∧ ((∀ x ∈ ss ++ ss', x.Allows base R) → R st st') :=
  ⟨(hp h).1.left, fun hall => (hp h).2 fun x hx => hall x (mem_append_left _ hx)⟩

theorem right (hp : Tracks base R (i + ss.length) ss' p) (h : p st t o st') :
    Placed (fun ev s => s = ev.stmt) i (ss ++ ss') t ∧ ((∀ x ∈ ss ++ ss', x.Allows base R) → R st st') :=
  ⟨(hp h).1.right, fun hall => (hp h).2 fun x hx => hall x (mem_append_right _ hx)⟩

variable [IsPreorder (Store Γ) R]

theorem ends (o : Outcome) : Tracks base R i ss (.ends o) := by
  rintro st t o' _ ⟨rfl, -, rfl⟩
  exact ⟨.nil, fun _ => refl_of R _⟩

theorem entering (s : Stmt) (h : Tracks base R (i + 1) ss p) : Tracks base R i (s :: ss) (.entering i s p) := by
  rintro st t o _ ⟨t', rfl, ⟨rfl, -, rfl⟩ | hp⟩
  · exact ⟨.cons rfl .nil, fun _ => refl_of R _⟩
  · exact ⟨.cons rfl (h hp).1, fun hall => (h hp).2 fun x hx => hall x (mem_cons_of_mem _ hx)⟩

theorem changes {s : Stmt} (hs : s.substmts = [s]) (h : s.Allows base R → ∀ st st', R' st st' → R st st') :
    Tracks base R i s.substmts (.entering i s (.changes R')) := by
  rw [hs]
  rintro st t o _ ⟨t', rfl, ⟨rfl, -, rfl⟩ | ⟨rfl, -, hR⟩⟩
  · exact ⟨.cons rfl .nil, fun _ => refl_of R _⟩
  · exact ⟨.cons rfl .nil, fun hall => h (hall s (mem_singleton_self s)) _ _ hR⟩

theorem andThen (hp : Tracks base R i ss p) (hq : Tracks base R (i + ss.length) ss' q) :
    Tracks base R i (ss ++ ss') (.andThen p q) := by
  rintro st t o st' (⟨-, h⟩ | ⟨t1, t2, st1, rfl, h1, h2⟩)
  · exact hp.left h
  · exact ⟨(hp.left h1).1.append (hq.right h2).1, fun hall => trans_of R ((hp.left h1).2 hall) ((hq.right h2).2 hall)⟩

theorem iterated (hp : Tracks base R i ss p) : Tracks base R i ss (.Iterated p) := by
  intro st t o st' h
  induction h with
  | leave h => exact hp h
  | cut h => exact hp h
  | again _ h _ ih => exact ⟨(hp h).1.append ih.1, fun hall => trans_of R ((hp h).2 hall) (ih.2 hall)⟩

end Behaviour.Tracks

open Behaviour

mutual
theorem Stmt.runs_tracks [IsPreorder (Store Γ) R] (s : Stmt) (i : Nat) : Tracks base R i s.substmts (s.Runs base i) := by
  cases s <;> rw [Stmt.Runs]
  case block body =>
    rw [Stmt.substmts_block]
    exact .entering _ (Stmt.runsList_tracks body _)
  case cond yes no =>
    rw [Stmt.substmts_cond]
    apply Tracks.entering
    rintro st t o st' ⟨v, -, ⟨-, h⟩ | ⟨-, h⟩⟩
    · exact (Stmt.runsList_tracks yes _).left h
    · exact (Stmt.runsList_tracks no _).right h
  case case cs d =>
    rw [Stmt.substmts_case]
    apply Tracks.entering
    rintro st t o st' ⟨v, -, h⟩
    exact Clause.runsList_tracks v cs _ (Stmt.runsDefault_tracks d _) h
  case loop body =>
    rw [Stmt.substmts_loop]
    exact .entering _ (.iterated (Stmt.runsList_tracks body _))
  case goto | fence | assign | read | decl => exact .changes (by simp) id
  case «break» | «continue» | expr | write | stall => simpa using Tracks.entering _ (.ends _)

theorem Stmt.runsList_tracks [IsPreorder (Store Γ) R] :
    ∀ (ss : List Stmt) (i : Nat), Tracks base R i (Stmt.substmtsList ss) (Stmt.RunsList base i ss)
  | [], i => .ends _
  | s :: ss, i => by
    rw [Stmt.substmtsList_cons, Stmt.RunsList]
    exact .andThen (Stmt.runs_tracks s i) (Stmt.runsList_tracks ss _)

theorem Stmt.runsDefault_tracks [IsPreorder (Store Γ) R] :
    ∀ (d : Option (List Stmt)) (i : Nat), Tracks base R i (substmtsDefault d) (Stmt.RunsDefault base i d)
  | none, _ => .ends _
  | some body, i => Stmt.runsList_tracks body i

theorem Clause.runsList_tracks [IsPreorder (Store Γ) R] (v : Int) : ∀ (cs : List Clause) (i : Nat) {ds : List Stmt}
    {p : Behaviour Γ}, Tracks base R (i + (Clause.substmtsList cs).length) ds p →
      Tracks base R i (Clause.substmtsList cs ++ ds) (Clause.RunsList base v i cs p)
  | [], _, _, _, hp => hp
  | { loc, conds, body } :: cs, i, ds, p, hp => by
    rw [Clause.substmtsList_cons, append_assoc]
    rw [Clause.substmtsList_cons, length_append, ← Nat.add_assoc] at hp
    rintro st t o st' (⟨-, hb⟩ | ⟨-, hr⟩)
    · exact (Stmt.runsList_tracks body i).left hb
    · exact (Clause.runsList_tracks v cs _ hp).right hr
end

/-- The events of a run name the statements they are about. -/
theorem Stmt.runsList_names (ss : List Stmt) (i : Nat) (h : RunsList base i ss st t o st') :
    Placed (fun ev s => s = ev.stmt) i (substmtsList ss) t := (runsList_tracks (R := Eq) ss i h).1

def Behaviour.Keeps (R : Store Γ → Store Γ → Prop) (p : Behaviour Γ) : Prop := ∀ st t o st', p st t o st' → R st st'

/-- A run changes the store as its statements may do each by itself. -/
theorem Stmt.runsList_keeps [IsPreorder (Store Γ) R] (ss : List Stmt) (i : Nat)
    (h : ∀ x ∈ substmtsList ss, x.Allows base R) : Keeps R (RunsList base i ss) :=
  fun _ _ _ _ hrun => (runsList_tracks ss i hrun).2 h

end

end HdlLowering
