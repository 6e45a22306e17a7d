import HdlLowering.Proofs.Traversal.Parts

/-!
# Postconditions of walks

Rules for what walks give: an invariant of the session is carried along, and a precondition holds of every node that is visited.
Aborts are either accepted, or the rule says that there are none.
-/

namespace HdlLowering

open List Node Forest

/-! ## Steps that may abort -/

section

variable {ε σ α β : Type} {aborts : Prop} {E : ε → Prop} {r : EStateM.Result ε σ α} {good better : α → σ → Prop}
  {x : EStateM ε σ α} {f : α → EStateM ε σ β}

/-- A step ends with a result that is as wanted, or it aborts in a way that is accepted. -/
def Lands (E : ε → Prop) (good : α → σ → Prop) : EStateM.Result ε σ α → Prop
  | .ok a s => good a s
  | .error e _ => E e

theorem Lands.bind {s : σ} {mid : α → σ → Prop} {good : β → σ → Prop} (hx : Lands E mid (x s))
    (hf : ∀ a s', mid a s' → Lands E good (f a s')) : Lands E good ((x >>= f) s) := by
  cases h : x s with
  | ok a s' =>
    rw [h] at hx
    rw [bind_ok h]
    exact hf a s' hx
  | error e s' =>
    rw [h] at hx
    rw [bind_error h]
    exact hx

theorem Lands.mono (h : Lands E better r) (himp : ∀ a s, better a s → good a s) : Lands E good r := by
  cases r with
  | ok a s => exact himp a s h
  | error e s => exact h

theorem Lands.ends (h : Lands E good r) (hE : ∀ e, ¬ E e) : ∃ a s, r = .ok a s ∧ good a s := by
  cases r with
  | ok a s => exact ⟨a, s, rfl, h⟩
  | error e s => exact absurd h (hE e)

theorem Lands.of_ok (h : Lands E good r) {a : α} {s : σ} (hr : r = .ok a s) : good a s := by
  subst hr
  exact h

/-- A step ends with a result that is as wanted, or it aborts and that is accepted. -/
def Yields (aborts : Prop) (good : α → σ → Prop) : EStateM.Result ε σ α → Prop
  | .ok a s => good a s
  | .error _ _ => aborts

theorem yields_iff : Yields aborts good r ↔ Lands (fun _ => aborts) good r := by
  cases r <;> rfl

theorem Yields.bind {s : σ} {mid : α → σ → Prop} {good : β → σ → Prop}
    (hx : Yields aborts mid (x s)) (hf : ∀ a s', mid a s' → Yields aborts good (f a s')) : Yields aborts good ((x >>= f) s) := by
  simp only [yields_iff] at hx hf ⊢
  exact hx.bind hf

theorem Yields.mono (h : Yields aborts better r) (himp : ∀ a s, better a s → good a s) : Yields aborts good r :=
  yields_iff.mpr ((yields_iff.mp h).mono himp)

theorem Lands.accept (h : Lands E good r) (haborts : aborts) : Yields aborts good r := by
  cases r with
  | ok a s => exact h
  | error e s => exact haborts

section

variable (h : Yields aborts good r)
include h

theorem Yields.accept {aborts' : Prop} (haborts : aborts') : Yields aborts' good r :=
  (yields_iff.mp h).accept haborts

theorem Yields.ends (haborts : ¬ aborts) : ∃ a s, r = .ok a s ∧ good a s :=
  (yields_iff.mp h).ends fun _ => haborts

theorem Yields.of_ok {a : α} {s : σ} (hr : r = .ok a s) : good a s := (yields_iff.mp h).of_ok hr

end

/-- A step keeps an invariant and ends with a result that is as wanted, or it aborts in a way that is accepted. -/
def Gives (E : ε → Prop) (inv : σ → Prop) (good : α → Prop) (x : EStateM ε σ α) : Prop :=
  ∀ s, inv s → Lands E (fun a s' => inv s' ∧ good a) (x s)

variable {inv : σ → Prop} {good : α → Prop}

theorem Gives.pure {a : α} (h : good a) : Gives E inv good (Pure.pure a : EStateM ε σ α) := fun _ hs => ⟨hs, h⟩

theorem Gives.bind {better : β → Prop} (hx : Gives E inv good x)
    (hf : ∀ a, good a → Gives E inv better (f a)) : Gives E inv better (x >>= f) := fun s hs =>
  (hx s hs).bind fun a s' ⟨hs', ha⟩ => hf a ha s' hs'

end

/-! ## Results of visits -/

mutual
def Forest.leaves : Forest → List Node
  | .nothing => []
  | .node n => [n]
  | .several fs => leavesList fs

def Forest.leavesList : List Forest → List Node
  | [] => []
  | f :: fs => f.leaves ++ leavesList fs
end

theorem Forest.leaves_several {α : Type} (mk : α → Node) (xs : List α) :
    (several (xs.map fun x => .node (mk x))).leaves = xs.map mk := by
  rw [leaves]
  induction xs with
  | nil => rfl
  | cons x xs ih => rw [map_cons, leavesList, ih]; rfl

theorem Forest.leaves_ofStmts (ss : List Stmt) : (ofStmts ss).leaves = ss.map .stmt := by
  unfold ofStmts
  split
  · rfl
  · exact leaves_several .stmt ss

def Reply.forest (n : Node) : Reply → Forest
  | .keep => .node n
  | .put f => f

theorem Reply.getD_result (r : Reply) (rebuilt : Option Node) (n : Node) :
    (r.result rebuilt).getD (.node n) = r.forest (rebuilt.getD n) := by
  cases r with
  | keep => cases rebuilt <;> rfl
  | put f => rfl

inductive Splices {α : Type} (post : Node → Forest → Prop) (mk : α → Node) : List α → List α → Prop
  | nil : Splices post mk [] []
  | cons {x : α} {f : Forest} {xs ys zs : List α} (hx : post (mk x) f) (hf : f.leaves = ys.map mk)
    (hxs : Splices post mk xs zs) : Splices post mk (x :: xs) (ys ++ zs)

inductive SplicesDefault (post : Node → Forest → Prop) : Option (List Stmt) → Option (List Stmt) → Prop
  | none : SplicesDefault post .none .none
  | some {b b' : List Stmt} (hb : Splices post .stmt b b') : SplicesDefault post (.some b) (.some b')

/-- A node and the same node with what stands for its children. -/
inductive Rebuilt (post : Node → Forest → Prop) : Node → Node → Prop
  | ref (l : Loc) (s : Symbol) : Rebuilt post (.expr (.ref l s)) (.expr (.ref l s))
  | num (l : Loc) (signed : Bool) (v : Int) : Rebuilt post (.expr (.num l signed v)) (.expr (.num l signed v))
  | int (l : Loc) (signed : Bool) (w : Int64) (v : Int) : Rebuilt post (.expr (.int l signed w v)) (.expr (.int l signed w v))
  | unary (l : Loc) (op : UnaryOp) {x x' : Expr} (hx : post (.expr x) (.node (.expr x'))) :
    Rebuilt post (.expr (.unary l op x)) (.expr (.unary l op x'))
  | binary (l : Loc) (op : BinaryOp) {x x' y y' : Expr} (hx : post (.expr x) (.node (.expr x')))
    (hy : post (.expr y) (.node (.expr y'))) : Rebuilt post (.expr (.binary l op x y)) (.expr (.binary l op x' y'))
  | ternary (l : Loc) {c c' x x' y y' : Expr} (hc : post (.expr c) (.node (.expr c')))
    (hx : post (.expr x) (.node (.expr x'))) (hy : post (.expr y) (.node (.expr y'))) :
    Rebuilt post (.expr (.ternary l c x y)) (.expr (.ternary l c' x' y'))
  | cat (l : Loc) {ps ps' : List Expr} (hps : Splices post .expr ps ps') :
    Rebuilt post (.expr (.cat l ps)) (.expr (.cat l ps'))
  | rep (l : Loc) {n n' x x' : Expr} (hn : post (.expr n) (.node (.expr n'))) (hx : post (.expr x) (.node (.expr x'))) :
    Rebuilt post (.expr (.rep l n x)) (.expr (.rep l n' x'))
  | index (l : Loc) {x x' i i' : Expr} (hx : post (.expr x) (.node (.expr x'))) (hi : post (.expr i) (.node (.expr i'))) :
    Rebuilt post (.expr (.index l x i)) (.expr (.index l x' i'))
  | slice (l : Loc) {x x' m m' n n' : Expr} (hx : post (.expr x) (.node (.expr x')))
    (hm : post (.expr m) (.node (.expr m'))) (hn : post (.expr n) (.node (.expr n'))) :
    Rebuilt post (.expr (.slice l x m n)) (.expr (.slice l x' m' n'))
  | select (l : Loc) (f : String) {x x' : Expr} (hx : post (.expr x) (.node (.expr x'))) :
    Rebuilt post (.expr (.select l x f)) (.expr (.select l x' f))
  | call (l : Loc) {f f' : Expr} {as as' : List Expr} (hf : post (.expr f) (.node (.expr f')))
    (has : Splices post .expr as as') : Rebuilt post (.expr (.call l f as)) (.expr (.call l f' as'))
  | declBare (l : Loc) (s : Symbol) : Rebuilt post (.decl ⟨l, s, none⟩) (.decl ⟨l, s, none⟩)
  | decl (l : Loc) (s : Symbol) {e e' : Expr} (he : post (.expr e) (.node (.expr e'))) :
    Rebuilt post (.decl ⟨l, s, some e⟩) (.decl ⟨l, s, some e'⟩)
  | inst (i : Instance) : Rebuilt post (.inst i) (.inst i)
  | connect (l : Loc) {x x' : Expr} {ys ys' : List Expr} (hx : post (.expr x) (.node (.expr x')))
    (hys : Splices post .expr ys ys') : Rebuilt post (.connect ⟨l, x, ys⟩) (.connect ⟨l, x', ys'⟩)
  | block (l : Loc) {b b' : List Stmt} (hb : Splices post .stmt b b') :
    Rebuilt post (.stmt (.block l b)) (.stmt (.block l b'))
  | cond (l : Loc) {c c' : Expr} {t t' e e' : List Stmt} (hc : post (.expr c) (.node (.expr c')))
    (ht : Splices post .stmt t t') (he : Splices post .stmt e e') :
    Rebuilt post (.stmt (.cond l c t e)) (.stmt (.cond l c' t' e'))
  | case (l : Loc) {x x' : Expr} {cs cs' : List Clause} {d d' : Option (List Stmt)}
    (hx : post (.expr x) (.node (.expr x'))) (hcs : Splices post .clause cs cs') (hd : SplicesDefault post d d') :
    Rebuilt post (.stmt (.case l x cs d)) (.stmt (.case l x' cs' d'))
  | loop (l : Loc) {b b' : List Stmt} (hb : Splices post .stmt b b') :
    Rebuilt post (.stmt (.loop l b)) (.stmt (.loop l b'))
  | assign (l : Loc) {x x' y y' : Expr} (hx : post (.expr x) (.node (.expr x'))) (hy : post (.expr y) (.node (.expr y'))) :
    Rebuilt post (.stmt (.assign l x y)) (.stmt (.assign l x' y'))
  | expr (l : Loc) {e e' : Expr} (he : post (.expr e) (.node (.expr e'))) :
    Rebuilt post (.stmt (.expr l e)) (.stmt (.expr l e'))
  | declStmt (l : Loc) {d d' : Decl} (hd : post (.decl d) (.node (.decl d'))) :
    Rebuilt post (.stmt (.decl l d)) (.stmt (.decl l d'))
  | stall (l : Loc) {c c' : Expr} (hc : post (.expr c) (.node (.expr c'))) :
    Rebuilt post (.stmt (.stall l c)) (.stmt (.stall l c'))
  | goto (l : Loc) (t : String) : Rebuilt post (.stmt (.goto l t)) (.stmt (.goto l t))
  | fence (l : Loc) : Rebuilt post (.stmt (.fence l)) (.stmt (.fence l))
  | break (l : Loc) : Rebuilt post (.stmt (.break l)) (.stmt (.break l))
  | continue (l : Loc) : Rebuilt post (.stmt (.continue l)) (.stmt (.continue l))
  | read (l : Loc) : Rebuilt post (.stmt (.read l)) (.stmt (.read l))
  | write (l : Loc) : Rebuilt post (.stmt (.write l)) (.stmt (.write l))
  | clause (l : Loc) {conds conds' : List Expr} {b b' : List Stmt} (hconds : Splices post .expr conds conds')
    (hb : Splices post .stmt b b') : Rebuilt post (.clause ⟨l, conds, b⟩) (.clause ⟨l, conds', b'⟩)
  | entity (l : Loc) (s : Symbol) {ds ds' : List Decl} {es es' : List Entity} {is is' : List Instance}
    {cs cs' : List Connect} {ss ss' : List Stmt} (hds : Splices post .decl ds ds') (hes : Splices post .entity es es')
    (his : Splices post .inst is is') (hcs : Splices post .connect cs cs') (hss : Splices post .stmt ss ss') :
    Rebuilt post (.entity ⟨l, s, ds, es, is, cs, ss⟩) (.entity ⟨l, s, ds', es', is', cs', ss'⟩)
  | root (l : Loc) {es es' : List Entity} (hes : Splices post .entity es es') :
    Rebuilt post (.root ⟨l, es⟩) (.root ⟨l, es'⟩)

def Slot.Stands (post : Node → Forest → Prop) : {α : Type} → Slot α → α → Prop
  | _, expr e, e' => post (.expr e) (.node (.expr e'))
  | _, decl d, d' => post (.decl d) (.node (.decl d'))
  | _, @list _ mk _ _ _ xs, ys => Splices post mk xs ys

section

variable {α : Type} {post : Node → Forest → Prop} {mk : α → Node} {post' : Node → Forest → Prop} {xs ys : List α}
  {d d' : Option (List Stmt)} {n n' : Node}

theorem Rebuilt.of_fills (h : n.parts.Fills (Slot.Stands post) n') : Rebuilt post n n' := by
  cases n with
  | root r =>
    obtain ⟨_, es', rfl, hes, rfl⟩ := h
    exact .root _ hes
  | entity e =>
    cases e
    obtain ⟨_, _, ⟨_, _, ⟨_, _, ⟨_, _, ⟨_, _, rfl, hds, rfl⟩, hes, rfl⟩, his, rfl⟩, hcs, rfl⟩, hss, rfl⟩ := h
    exact .entity _ _ hds hes his hcs hss
  | decl d =>
    obtain ⟨l, s, _ | e⟩ := d
    · obtain rfl := h
      exact .declBare l s
    · obtain ⟨_, _, rfl, he, rfl⟩ := h
      exact .decl l s he
  | inst i =>
    obtain rfl := h
    exact .inst i
  | connect c =>
    obtain ⟨_, _, ⟨_, _, rfl, hx, rfl⟩, hys, rfl⟩ := h
    exact .connect _ hx hys
  | clause c =>
    cases c
    obtain ⟨_, _, ⟨_, _, rfl, hconds, rfl⟩, hb, rfl⟩ := h
    exact .clause _ hconds hb
  | stmt s =>
    cases s
    case goto | fence | «break» | «continue» | read | write =>
      obtain rfl := h
      constructor
    case block | loop | expr | decl | stall =>
      obtain ⟨_, _, rfl, hx, rfl⟩ := h
      constructor
      exact hx
    case assign =>
      obtain ⟨_, _, ⟨_, _, rfl, hx, rfl⟩, hy, rfl⟩ := h
      exact .assign _ hx hy
    case cond =>
      obtain ⟨_, _, ⟨_, _, ⟨_, _, rfl, hc, rfl⟩, ht, rfl⟩, he, rfl⟩ := h
      exact .cond _ hc ht he
    case case d =>
      cases d with
      | none =>
        obtain ⟨_, _, ⟨_, _, rfl, hx, rfl⟩, hcs, rfl⟩ := h
        exact .case _ hx hcs .none
      | some b =>
        obtain ⟨_, _, ⟨_, _, ⟨_, _, rfl, hx, rfl⟩, hcs, rfl⟩, hb, rfl⟩ := h
        exact .case _ hx hcs (.some hb)
  | expr e =>
    cases e
    case ref | num | int =>
      obtain rfl := h
      constructor
    case unary | cat | select =>
      obtain ⟨_, _, rfl, hx, rfl⟩ := h
      constructor
      exact hx
    case binary | rep | index | call =>
      obtain ⟨_, _, ⟨_, _, rfl, hx, rfl⟩, hy, rfl⟩ := h
      constructor <;> assumption
    case ternary | slice =>
      obtain ⟨_, _, ⟨_, _, ⟨_, _, rfl, hx, rfl⟩, hy, rfl⟩, hz, rfl⟩ := h
      constructor <;> assumption

section

variable (h : Splices post mk xs ys)
include h

theorem Splices.exists_of_mem {y : α} (hy : y ∈ ys) : ∃ x ∈ xs, ∃ f, post (mk x) f ∧ mk y ∈ f.leaves := by
  induction h with
  | nil => nomatch hy
  | cons hx hf _ ih =>
    rcases mem_append.mp hy with hy | hy
    · exact ⟨_, mem_cons_self, _, hx, hf ▸ mem_map_of_mem hy⟩
    · obtain ⟨x, hmem, hx⟩ := ih hy
      exact ⟨x, mem_cons_of_mem _ hmem, hx⟩

theorem Splices.visited : ∀ m ∈ xs.map mk, ∃ f, post m f := by
  induction h with
  | nil => exact forall_mem_nil _
  | cons hx _ _ ih => exact forall_mem_cons.mpr ⟨⟨_, hx⟩, ih⟩

theorem Splices.eq_map {g : α → α}
    (hmk : ∀ {x y}, mk x = mk y → x = y) (hpost : ∀ x f, post (mk x) f → f = .node (mk (g x))) : ys = xs.map g := by
  induction h with
  | nil => rfl
  | @cons x f xs ys zs hx hf _ ih =>
    obtain rfl := hpost x f hx
    have hys : ys = [g x] := map_injective_iff.mpr (fun _ _ => hmk) hf.symm
    rw [hys, ih]
    rfl

theorem Splices.mono (himp : ∀ n f, post n f → post' n f) : Splices post' mk xs ys := by
  induction h with
  | nil => exact .nil
  | cons hx hf _ ih => exact .cons (himp _ _ hx) hf ih

end

theorem SplicesDefault.mono (h : SplicesDefault post d d')
    (himp : ∀ n f, post n f → post' n f) : SplicesDefault post' d d' := by
  cases h with
  | none => exact .none
  | some hb => exact .some (hb.mono himp)

theorem Rebuilt.mono (h : Rebuilt post n n') (himp : ∀ n f, post n f → post' n f) : Rebuilt post' n n' := by
  cases h <;> constructor <;>
    first | exact himp _ _ (by assumption) | exact Splices.mono (by assumption) himp | exact SplicesDefault.mono (by assumption) himp

/-- Every one of some nodes stands for one of others. -/
def StandFor (post : Node → Forest → Prop) (ns ns' : List Node) : Prop := ∀ m' ∈ ns', ∃ m ∈ ns, ∃ f, post m f ∧ m' ∈ f.leaves

namespace StandFor

variable {ns ns' ms ms' : List Node} {n n' : Node}

theorem none : StandFor post ns [] := nofun

theorem append (h : StandFor post ns ns') (h' : StandFor post ms ms') : StandFor post (ns ++ ms) (ns' ++ ms') := by
  refine forall_mem_append.mpr ⟨fun k hk => ?_, fun k hk => ?_⟩
  · obtain ⟨m, hm, hf⟩ := h k hk
    exact ⟨m, mem_append_left _ hm, hf⟩
  · obtain ⟨m, hm, hf⟩ := h' k hk
    exact ⟨m, mem_append_right _ hm, hf⟩

theorem cons (hn : post n (.node n')) (h : StandFor post ns ns') : StandFor post (n :: ns) (n' :: ns') := by
  have hhead : StandFor post [n] [n'] :=
    forall_mem_singleton.mpr ⟨n, mem_singleton_self n, _, hn, mem_singleton_self n'⟩
  exact hhead.append h

theorem list (h : Splices post mk xs ys) : StandFor post (xs.map mk) (ys.map mk) := by
  refine forall_mem_map.mpr fun y hy => ?_
  obtain ⟨x, hx, hf⟩ := h.exists_of_mem hy
  exact ⟨_, mem_map_of_mem hx, hf⟩

theorem default (h : SplicesDefault post d d') : StandFor post ((d.getD []).map .stmt) ((d'.getD []).map .stmt) := by
  cases h with
  | none => exact none
  | some hb => exact list hb

end StandFor

theorem Rebuilt.standFor (h : Rebuilt post n n') : StandFor post n.children n'.children := by
  cases h with
  | ref | num | int | declBare | inst | goto | fence | «break» | «continue» | read | write => exact .none
  | unary l op hx | select l f hx | expr l hx | stall l hx | declStmt l hx | decl l s hx => exact .cons hx .none
  | binary l op hx hy | rep l hx hy | index l hx hy | assign l hx hy => exact .cons hx (.cons hy .none)
  | ternary l hx hy hz | slice l hx hy hz => exact .cons hx (.cons hy (.cons hz .none))
  | cat l hxs | block l hxs | loop l hxs | root l hxs => exact .list hxs
  | call l hx hxs | connect l hx hxs => exact .cons hx (.list hxs)
  | cond l hx hxs hys => exact .cons hx ((StandFor.list hxs).append (.list hys))
  | case l hx hxs hd => exact .cons hx ((StandFor.list hxs).append (.default hd))
  | clause l hxs hys => exact (StandFor.list hxs).append (.list hys)
  | entity l s hds hes his hcs hss =>
    exact ((((StandFor.list hds).append (.list hes)).append (.list his)).append (.list hcs)).append (.list hss)

theorem Rebuilt.visited (h : Rebuilt post n n') : ∀ m ∈ n.children, ∃ f, post m f := by
  intro m hm
  cases h
  case case hd => cases hd <;> grind [children, Stmt.children, Splices.visited]
  all_goals grind [children, Expr.operands, Stmt.children, Splices.visited]

end

/-! ## The rule -/

variable {σ α β : Type}

theorem Rebuilt.alike {post : Node → Forest → Prop} {n n' m : Node} (h : Rebuilt post n n') (hm : n'.alike m = true) :
    n.alike m = true := by
  cases h <;> cases m <;> first | rfl | nomatch hm

/-- Every visit of a pass to a node with the precondition keeps an invariant and gives the node a postcondition when the new
children have theirs. -/
structure Pass.Establishes (p : Pass σ) (E : Abort → Prop) (pre : Node → Prop) (inv : Session σ → Prop)
    (post : Node → Forest → Prop) : Prop where
  below : ∀ n, pre n → ∀ m ∈ n.children, pre m
  skip : ∀ n, pre n → Gives E inv (fun b => b = true → post n (.node n)) (p.skip n)
  enter : ∀ n, pre n → Gives E inv (fun _ => True) (p.enter n)
  transform : ∀ n n', pre n → Rebuilt post n n' → Gives E inv (fun r => post n (r.forest n')) (p.transform n')
  expr : ∀ e f, post (.expr e) f → ∃ e', f = .node (.expr e')
  decl : ∀ d f, post (.decl d) f → ∃ d', f = .node (.decl d')
  alike : ∀ n f, post n f → ∀ m ∈ f.leaves, n.alike m = true

section

variable {p : Pass σ} {E : Abort → Prop} {pre : Node → Prop} {inv : Session σ → Prop} {post : Node → Forest → Prop}
  {mk : α → Node} {pick : Node → Option α} {wanted : String} {n : Node} {a : α}

mutual
theorem Pass.splice_gives (hmk : Form mk pick) : ∀ f : Forest, (∀ m ∈ f.leaves, ∃ y, m = mk y) →
    Gives E inv (fun ys => f.leaves = ys.map mk) (p.splice wanted pick f)
  | .nothing, _ => .pure rfl
  | .node n, h => by
    obtain ⟨y, rfl⟩ := h n (mem_singleton_self n)
    rw [splice, (hmk.pick_eq_some _ y).mpr rfl]
    exact .pure rfl
  | .several fs, h => spliceList_gives hmk fs h

theorem Pass.spliceList_gives (hmk : Form mk pick) : ∀ fs : List Forest, (∀ m ∈ leavesList fs, ∃ y, m = mk y) →
    Gives E inv (fun ys => leavesList fs = ys.map mk) (p.spliceList wanted pick fs)
  | [], _ => .pure rfl
  | f :: fs, h => by
    rw [leavesList, forall_mem_append] at h
    rw [spliceList]
    refine (splice_gives hmk f h.1).bind fun ys hys => (spliceList_gives hmk fs h.2).bind fun zs hzs => ?_
    refine .pure ?_
    rw [leavesList, hys, hzs, map_append]
end

/-- What a walk puts in the place of an element of a list: it can be spliced in, whatever the state. -/
def Pass.Puts (p : Pass σ) (wanted : String) (pick : Node → Option α) (x : α) (f : Option Forest) (xs : List α) : Prop :=
  ∀ s, ∃ o, p.spliced wanted pick f s = .ok o s ∧ o.getD [x] = xs

theorem Pass.puts_of_leaves (hmk : Form mk pick) {x : α} {xs : List α} {f : Option Forest}
    (h : (f.getD (.node (mk x))).leaves = xs.map mk) : p.Puts wanted pick x f xs := by
  have hmap : ∀ {ys : List α}, ys.map mk = xs.map mk → ys = xs := (map_inj_right fun _ _ => hmk.inj).mp
  intro s
  cases f with
  | none => exact ⟨none, rfl, hmap h⟩
  | some f =>
    have hleaves : f.leaves = xs.map mk := h
    have hgives : Gives (fun _ => False) (· = s) (fun ys => f.leaves = ys.map mk) (p.splice wanted pick f) :=
      splice_gives hmk f (hleaves ▸ forall_mem_map.mpr fun y _ => ⟨y, rfl⟩)
    obtain ⟨ys, _, hsplice, rfl, hys⟩ := (hgives s rfl).ends fun _ => id
    exact ⟨some ys, bind_ok hsplice, hmap (hys.symm.trans hleaves)⟩

theorem Pass.puts_rebuilt (hmk : Form mk pick) {x y : α} {rebuilt : Option Node} (h : rebuilt.getD (mk x) = mk y) :
    p.Puts wanted pick x (rebuilt.map .node) [y] := by
  refine puts_of_leaves hmk ?_
  rw [Option.getD_map, h]
  rfl

/-- An abort below is an abort, whatever unwinding does to the state. -/
theorem Gives.guarded {good : α → Prop} {x : PassM σ α} (hx : Gives E inv good x) : Gives E inv good (p.guarded n x) := by
  intro s hs
  have hxs := hx s hs
  unfold Pass.guarded
  cases hr : x s with
  | ok a s' => rwa [hr] at hxs
  | error e s' =>
    rw [hr] at hxs
    cases p.unwind <;> exact hxs

namespace Pass.Establishes

variable (h : p.Establishes E pre inv post)

include h

theorem visit {children : PassM σ (Option Node)} (hn : pre n)
    (hchildren : Gives E inv (fun o => Rebuilt post n (o.getD n)) children) :
    Gives E inv (fun o => post n (o.getD (.node n))) (p.visit n children) := by
  refine (h.skip n hn).bind fun b hskip => ?_
  cases b with
  | true => exact .pure (hskip rfl)
  | false =>
    refine (h.enter n hn).bind fun _ _ => .guarded (hchildren.bind fun rebuilt hrebuilt => ?_)
    refine (h.transform n _ hn hrebuilt).bind fun r hpost => ?_
    cases r with
    | keep => cases rebuilt <;> exact .pure hpost
    | put f => exact .pure hpost

theorem cons (hmk : Form mk pick) {x : α} {xs : List α}
    {head : PassM σ (Option Forest)} {rest : PassM σ (Option (List α))}
    (hhead : Gives E inv (fun o => post (mk x) (o.getD (.node (mk x)))) head)
    (hrest : Gives E inv (fun o => Splices post mk xs (o.getD xs)) rest) :
    Gives E inv (fun o => Splices post mk (x :: xs) (o.getD (x :: xs))) (head >>= fun r => p.spliced wanted pick r >>=
      fun ys => rest >>= fun zs => pure (joined x xs ys zs)) := by
  refine hhead.bind fun r hr => ?_
  have hspliced : Gives E inv (fun ys => (r.getD (.node (mk x))).leaves = (ys.getD [x]).map mk)
      (p.spliced wanted pick r) := by
    cases r with
    | none => exact .pure rfl
    | some f =>
      have hleaves := fun m hm => hmk.of_alike x m (h.alike _ _ hr m hm)
      exact (p.splice_gives hmk f hleaves).bind fun ys hys => .pure hys
  refine hspliced.bind fun ys hys => hrest.bind fun zs hzs => .pure ?_
  rw [getD_joined]
  exact .cons hr hys hzs

theorem each (hmk : Form mk pick) {walk : α → PassM σ (Option Forest)} :
    ∀ xs : List α, (∀ x ∈ xs, Gives E inv (fun o => post (mk x) (o.getD (.node (mk x)))) (walk x)) →
      Gives E inv (fun o => Splices post mk xs (o.getD xs)) (p.walkEach wanted pick walk xs)
  | [], _ => .pure .nil
  | x :: xs, hwalk => by
    rw [forall_mem_cons] at hwalk
    exact h.cons hmk hwalk.1 (each hmk xs hwalk.2)

end Pass.Establishes

/-! ## Walks -/

variable (h : p.Establishes E pre inv post)

include h

theorem Slot.walk_gives (x : Slot α) (hbelow : ∀ m ∈ x.nodes, Gives E inv (fun o => post m (o.getD (.node m))) (m.walk p)) :
    Gives E inv (fun o => x.Stands post (o.getD x.value)) (x.walk p) := by
  cases x with
  | expr e =>
    refine (hbelow _ (.head _)).bind fun r hr => ?_
    cases r with
    | none => exact .pure hr
    | some f =>
      obtain ⟨e', rfl⟩ := h.expr e f hr
      exact .pure hr
  | decl d =>
    refine (hbelow _ (.head _)).bind fun r hr => ?_
    cases r with
    | none => exact .pure hr
    | some f =>
      obtain ⟨d', rfl⟩ := h.decl d f hr
      exact .pure hr
  | list hmk wanted xs => exact h.each hmk xs fun x hx => hbelow _ (mem_map_of_mem hx)

theorem Parts.walk_gives : ∀ {β : Type} (a : Parts β),
    (∀ m ∈ a.nodes, Gives E inv (fun o => post m (o.getD (.node m))) (m.walk p)) →
      Gives E inv (fun o => a.Fills (Slot.Stands post) (o.getD a.value)) (a.walk p)
  | _, const _, _ => .pure rfl
  | _, fill f x, hbelow => by
    rw [nodes, forall_mem_append] at hbelow
    refine (Parts.walk_gives f hbelow.1).bind fun f' hf => (x.walk_gives h hbelow.2).bind fun x' hx => .pure ?_
    exact ⟨_, _, hf, hx, (getD_rebuilt2 (fun f x => f x) f.value x.value f' x').symm⟩

/-- When every visit gives its node a postcondition, provided that the new children have theirs, a walk gives the whole node its
postcondition. -/
theorem Node.walk_gives (n : Node) (hpre : pre n) : Gives E inv (fun o => post n (o.getD (.node n))) (n.walk p) := by
  have hparts := n.parts.walk_gives h fun m hm => by
    have hm' : m ∈ n.children := n.nodes_parts ▸ hm
    have hless := length_nodes_child hm'
    exact m.walk_gives (h.below n hpre m hm')
  rw [n.walk_eq]
  rw [n.value_parts] at hparts
  exact h.visit hpre fun s hs => (hparts s hs).mono fun o s' ho => ⟨ho.1, .of_fills ho.2⟩
termination_by n.nodes.length

theorem Stmt.walkList_gives (ss : List Stmt) (hpre : ∀ s ∈ ss, pre (.stmt s)) :
    Gives E inv (fun o => Splices post .stmt ss (o.getD ss)) (Stmt.walkList p ss) := by
  rw [Stmt.walkList_eq]
  exact h.each form_stmt ss fun s hs => (stmt s).walk_gives h (hpre s hs)

end

theorem Pass.apply_yields {σ : Type} {p : Pass σ} {r : Root} {o : Option Root} {s s' : Session σ}
    (hwalk : r.walk p s = .ok (o.map fun r => .node (.root r)) s')
    (hdefault : Yields True (fun _ s1 => s1 = s') (p.defaultCheck r (o.getD r) s'))
    (hfinal : Yields True (fun _ s1 => s1 = s') (p.finalCheck (o.getD r) s')) :
    Yields (s'.ctx.checkTrees = true) (fun out s1 => out = o ∧ s1 = s') (p.apply r s) := by
  rw [apply_of_walk hwalk, checked_eq]
  split
  · rename_i hcheck
    refine (hdefault.accept hcheck).bind ?_
    rintro ⟨⟩ _ rfl
    refine (hfinal.accept hcheck).bind ?_
    rintro ⟨⟩ _ rfl
    exact ⟨rfl, rfl⟩
  · exact ⟨rfl, rfl⟩

theorem Pass.of_run_ok {σ : Type} {p : Pass σ} {r : Root} {out : Option Root} {s s' : Session σ}
    (hdefault : ∀ r r' s, Yields True (fun _ s1 => s1 = s) (p.defaultCheck r r' s))
    (hfinal : ∀ r s, Yields True (fun _ s1 => s1 = s) (p.finalCheck r s)) (h : p.run r s = .ok out s') :
    r.walk p ⟨{ s.ctx with reporter := { s.ctx.reporter with pass := p.name } }, s.own⟩ =
      .ok (out.map fun r => .node (.root r)) s' := by
  rw [run_eq] at h
  unfold apply at h
  obtain ⟨o, s2, hwalk, h⟩ := of_bind_ok h
  have hchecked {o' : Option Root} (hrest : p.checked r o' s2 = .ok out s') : s2 = s' ∧ o' = out := by
    rw [checked_eq] at hrest
    split at hrest
    · obtain ⟨⟨⟩, s3, hfirst, hsecond⟩ := of_bind_ok hrest
      obtain rfl := (hdefault _ _ _).of_ok hfirst
      obtain ⟨⟨⟩, s4, hcheck, hreturn⟩ := of_bind_ok hsecond
      obtain rfl := (hfinal _ _).of_ok hcheck
      obtain ⟨rfl, rfl⟩ := EStateM.Result.ok.inj hreturn
      exact ⟨rfl, rfl⟩
    · obtain ⟨rfl, rfl⟩ := EStateM.Result.ok.inj hrest
      exact ⟨rfl, rfl⟩
  dsimp only at h
  split at h
  · obtain ⟨rfl, rfl⟩ := hchecked h
    exact hwalk
  · obtain ⟨rfl, rfl⟩ := hchecked h
    exact hwalk
  · obtain ⟨_, _, habort, -⟩ := of_bind_ok h
    nomatch habort

end HdlLowering
