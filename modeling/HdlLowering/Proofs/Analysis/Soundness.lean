import HdlLowering.Proofs.Analysis.Loops
import HdlLowering.Proofs.Analysis.Transfer

/-!
# What is recorded holds

Whenever control reaches a statement of a body, `analyze` has a record for it and the store agrees with that record
(`analyze_agrees`). The records of a loop are those of the first entry, less what its body writes, unless there is a fence in
it. A jump ends the clock cycle as a fence does, so a loop with a jump must have a fence too: `JumpInLoop.record_wrong` is one
without.
-/

namespace HdlLowering

open List Stmt Behaviour Store

variable {Γ : SymbolTable} {base : Bindings} {p : Behaviour Γ} {last : List Stmt}

/-- What the records of a body rest on: nothing is read from a pipeline, a loop with a jump has a fence, what always holds is
never written, and numbers tell written symbols apart. -/
structure Analyzable (Γ : SymbolTable) (base : Bindings) (ss : List Stmt) : Prop where
  noRead : ∀ l, read l ∉ substmtsList ss
  fenced : ∀ l body, loop l body ∈ substmtsList ss → (∃ l' x, goto l' x ∈ substmtsList body) →
    ∃ l', fence l' ∈ substmtsList body
  fixed : ∀ e ∈ base.entries, e.1 ∉ writesList ss
  numbered : Γ.Numbered (writesList ss)

/-- A store that control may go on with when some values are known; when control never gets there, none. -/
def Store.Reaches (st : Store Γ) (out : Option Bindings) : Prop := ∃ b, out = some b ∧ st.Agrees b

theorem Store.Reaches.meet? {st : Store Γ} {out out' : Option Bindings} (h : st.Reaches out ∨ st.Reaches out') :
    st.Reaches (Bindings.meet? out out') := by
  rcases h with ⟨b, rfl, hb⟩ | ⟨b, rfl, hb⟩
  · exact hb.meet?_left out'
  · exact hb.meet?_right out

/-- A run is as recorded: events agree with the records at their positions, what always holds still does at the end, and a run
that falls through ends with a store that is expected there. -/
structure AsRecorded (base : Bindings) (i : Nat) (rs : Records) (after : Store Γ → Prop) (t : List (Event Γ)) (o : Outcome)
    (st' : Store Γ) : Prop where
  events : Placed (fun ev r => ∃ b, r = some b ∧ ev.store.Agrees b) i rs t
  always : st'.Agrees base
  falls : o = .falls → after st'

namespace AsRecorded

variable {i : Nat} {rs rs' : Records} {after after' : Store Γ → Prop} {t t' : List (Event Γ)} {o : Outcome}
  {st' : Store Γ}

theorem left (h : AsRecorded base i rs after t o st') : AsRecorded base i (rs ++ rs') after t o st' :=
  ⟨h.events.left, h.always, h.falls⟩

theorem right (h : AsRecorded base (i + rs.length) rs' after t o st') : AsRecorded base i (rs ++ rs') after t o st' :=
  ⟨h.events.right, h.always, h.falls⟩

theorem imp (h : AsRecorded base i rs after t o st') (himp : ∀ st, after st → after' st) :
    AsRecorded base i rs after' t o st' :=
  ⟨h.events, h.always, fun ho => himp _ (h.falls ho)⟩

theorem append {o' : Outcome} {st1 : Store Γ} (h : AsRecorded base i rs after t o' st1)
    (h' : AsRecorded base i rs after' t' o st') : AsRecorded base i rs after' (t ++ t') o st' :=
  ⟨h.events.append h'.events, h'.always, h'.falls⟩

end AsRecorded

def Behaviour.Follows (base : Bindings) (st : Store Γ) (i : Nat) (rs : Records) (after : Store Γ → Prop) (p : Behaviour Γ) :
    Prop :=
  ∀ ⦃t o st'⦄, p st t o st' → AsRecorded base i rs after t o st'

namespace Behaviour.Follows

variable {i : Nat} {rs : Records} {after : Store Γ → Prop} {st : Store Γ} {b : Bindings} {s : Stmt} {out : Option Bindings}

theorem entering (hbase : st.Agrees base) (hb : st.Agrees b) (h : p.Follows base st (i + 1) rs after) :
    (entering i s p).Follows base st i (some b :: rs) after := by
  rintro t o st' ⟨t', rfl, ⟨rfl, rfl, rfl⟩ | hp⟩
  · exact ⟨.cons ⟨b, rfl, hb⟩ .nil, hbase, nofun⟩
  · have h := h hp
    exact ⟨.cons ⟨b, rfl, hb⟩ h.events, h.always, h.falls⟩

theorem changes {R : Store Γ → Store Γ → Prop} (hbase : st.Agrees base) (hb : st.Agrees b)
    (h : ∀ st', R st st' → st'.Agrees base ∧ st'.Reaches out) :
    (Behaviour.entering i s (.changes R)).Follows base st i [some b] (·.Reaches out) := by
  refine entering hbase hb ?_
  rintro t o st' ⟨rfl, -, hR⟩
  exact ⟨.nil, (h st' hR).1, fun _ => (h st' hR).2⟩

theorem ends {o' : Outcome} (hbase : st.Agrees base) (hb : st.Agrees b) (h : o' = .falls → out = some b) :
    (Behaviour.entering i s (.ends o')).Follows base st i [some b] (·.Reaches out) := by
  refine entering hbase hb ?_
  rintro t o st' ⟨rfl, rfl, rfl⟩
  exact ⟨.nil, hbase, fun ho => ⟨b, h ho, hb⟩⟩

end Behaviour.Follows

/-! ## Assignments, declarations and loops -/

section

variable {all : List Stmt} {st st' : Store Γ} {b : Bindings} {body : List Stmt}

theorem Analyzable.agrees_of_sameOff (h : Analyzable Γ base all) {ss : List Symbol}
    (hsub : ∀ x ∈ ss, x ∈ writesList all) (hs : SameOff ss st st') (hbase : st.Agrees base) :
    st'.Agrees base :=
  hbase.of_sameOff hs fun e he hmem => h.fixed e he (hsub e.1 hmem)

/-- After an assignment the value is known when it was known before, and otherwise nothing of the symbols that it changes. -/
theorem Store.Agrees.assigned (h : st.Agrees b) {lhs rhs : Expr} (hr : Assigned lhs rhs st st') :
    st'.Agrees (match lhs.symbol?, rhs.eval Γ b with
      | some s, some v => b.bind Γ s v
      | _, _ => b.drop lhs.roots) := by
  split
  · rename_i s v hs hv
    unfold Assigned at hr
    rw [hs] at hr
    obtain ⟨w, hw, rfl⟩ := hr
    rw [h.eq_of_mayBe hv hw]
    exact h.set_bind s v
  · exact h.drop hr.sameOff

theorem Store.Agrees.declared (h : st.Agrees b) {d : Decl} (hr : Declared d st st') :
    st'.Agrees (match d.init.bind (·.eval Γ b) with
      | some v => b.bind Γ d.symbol v
      | none => b.drop [d.symbol]) := by
  split
  · rename_i v hv
    obtain ⟨e, he, hv⟩ := Option.bind_eq_some_iff.mp hv
    obtain ⟨w, hw, rfl⟩ := hr
    rw [h.eq_of_mayBe hv (hw e he)]
    exact h.set_bind _ v
  · exact h.drop hr.sameOff

/-- What is known in a loop, at every round of it. -/
def loopEntry (Γ : SymbolTable) (base b : Bindings) (body : List Stmt) : Bindings :=
  if hasFence body then base else b.drop (Γ.written body).symbols

theorem Store.Agrees.loopEntry (h : st.Agrees b) (hbase : st.Agrees base) (body : List Stmt) :
    st.Agrees (loopEntry Γ base b body) := by
  unfold HdlLowering.loopEntry
  split
  · exact hbase
  · exact h.drop (Store.SameOff.refl _ st)

/-- A round of a loop keeps what is known in it: with a fence that is what always holds, and without one the body neither reads
nor jumps. -/
theorem Analyzable.loopEntry_kept (h : Analyzable Γ base all) {l : Loc}
    (hs : ∀ x ∈ (loop l body).substmts, x ∈ substmtsList all) {i : Nat} {t : List (Event Γ)} {o : Outcome}
    (hrun : RunsList base i body st t o st') (hbase : st'.Agrees base) (hin : st.Agrees (loopEntry Γ base b body)) :
    st'.Agrees (loopEntry Γ base b body) := by
  rw [substmts_loop, forall_mem_cons] at hs
  unfold loopEntry at hin ⊢
  split
  · exact hbase
  · rename_i hf
    rw [if_neg hf] at hin
    have hsub : ∀ x ∈ writesList body, x ∈ writesList all := by
      intro x hx
      obtain ⟨s, hsb, hx⟩ := mem_flatMap.mp hx
      exact mem_writesList (hs.2 s hsb) hx
    intro e he
    have huntouched : Untouched Γ base body e :=
      ⟨fun ⟨l', hread⟩ => absurd (hs.2 _ hread) (h.noRead l'),
        fun hjump => absurd ((hasFence_iff body).mpr (h.fenced l body hs.1 hjump)) hf⟩
    have hw := not_written_of_mem_drop (fun x hx y hy => h.numbered x (hsub x hx) y (hsub y hy)) he
    exact huntouched.round (by simpa using hf) hw i _ _ _ _ hrun (hin e he)

end

/-- Rounds of a loop that each are as recorded, and each keep what the records start from. -/
theorem Behaviour.Follows.iterated {i : Nat} {rs : Records} {inner : Bindings}
    (hp : ∀ st t o st', st.Agrees base → st.Agrees inner → p st t o st' →
      AsRecorded base i rs (fun _ => True) t o st' ∧ st'.Agrees inner)
    {st : Store Γ} (hbase : st.Agrees base) (hin : st.Agrees inner) :
    (Iterated p).Follows base st i rs (·.Reaches (some inner)) := by
  intro t o st' hrun
  induction hrun with
  | leave h =>
    obtain ⟨hr, hin'⟩ := hp _ _ _ _ hbase hin h
    exact ⟨hr.events, hr.always, fun _ => ⟨inner, rfl, hin'⟩⟩
  | cut h =>
    obtain ⟨hr, -⟩ := hp _ _ _ _ hbase hin h
    exact ⟨hr.events, hr.always, nofun⟩
  | again _ h _ ih =>
    obtain ⟨hr, hin'⟩ := hp _ _ _ _ hbase hin h
    exact hr.append (ih hr.always hin')

/-! ## Every run is as recorded -/

section

variable {all : List Stmt}

mutual
theorem Stmt.runs_asRecorded (h : Analyzable Γ base all) (s : Stmt) (i : Nat) (b : Bindings)
    (hs : ∀ x ∈ s.substmts, x ∈ Stmt.substmtsList all) {st : Store Γ} (hbase : st.Agrees base) (hb : st.Agrees b) :
    (s.Runs base i).Follows base st i (s.analyze Γ base b).1 (·.Reaches (s.analyze Γ base b).2) := by
  have hw := fun x => Stmt.mem_writesList (x := x) (hs s (by cases s <;> simp))
  cases s <;> rw [Stmt.Runs, Stmt.analyze]
  case block body => exact .entering hbase hb (Stmt.runsList_asRecorded h body _ b (fun x hx => hs x (by simp [hx])) hbase hb)
  case cond c yes no =>
    have hyes := fun b' => Stmt.runsList_asRecorded h yes (i + 1) b' fun x hx => hs x (by simp [hx])
    have hno := fun b' => Stmt.runsList_asRecorded h no (i + 1 + (Stmt.substmtsList yes).length) b' fun x hx =>
      hs x (by simp [hx])
    cases hc : c.eval Γ b with
    | some v =>
      by_cases hv : v ≠ 0
      · simp only [hv, ↓reduceIte, ne_eq, not_false_eq_true]
        refine .entering hbase hb fun t o st' hr => ?_
        rw [hb.branches hc, if_pos hv] at hr
        exact (hyes b hbase hb hr).left
      · simp only [hv, ↓reduceIte]
        refine .entering hbase hb fun t o st' hr => ?_
        rw [hb.branches hc, if_neg hv, ← length_deadRecords] at hr
        rw [← length_deadRecords] at hno
        exact (hno b hbase hb hr).right
    | none =>
      refine .entering hbase hb ?_
      rintro t o st' ⟨w, hw, ⟨h0, hr⟩ | ⟨h0, hr⟩⟩
      · have hc : c.MayTurnOut st true := hw.mayTurnOut (by simpa using h0)
        exact ((hyes _ hbase (hb.refine hc) hr).left).imp fun _ h => .meet? (Or.inl h)
      · have hc : c.MayTurnOut st false := hw.mayTurnOut (by simpa using h0)
        have hno := hno _ hbase (hb.refine hc) hr
        rw [← Stmt.length_analyzeList Γ base yes (some (refine Γ c true b))] at hno
        exact hno.right.imp fun _ h => .meet? (Or.inr h)
  case case x cs d =>
    have hcs : ∀ y ∈ Clause.substmtsList cs, y ∈ Stmt.substmtsList all := fun y hy => hs y (by simp [hy])
    have hd := Stmt.runsDefault_asRecorded h d (i + 1 + (Clause.substmtsList cs).length) b (fun y hy => hs y (by simp [hy]))
      hbase hb
    split
    · rename_i arm harm
      obtain ⟨v, hv, harm⟩ := Option.bind_eq_some_iff.mp harm
      refine .entering hbase hb ?_
      rintro t o st' ⟨w, hw, hr⟩
      obtain rfl := hb.eq_of_mayBe hv hw
      refine (Clause.runsChosen_asRecorded h cs _ b hcs hbase hb harm ?_ hr).imp fun _ => .meet?
      rintro rfl
      exact hd
    · refine .entering hbase hb ?_
      rintro t o st' ⟨w, hw, hr⟩
      exact (Clause.runsList_asRecorded h cs _ b hcs hbase hb hw hd hr).imp fun _ => .meet?
  case loop body =>
    refine .entering hbase hb (.iterated ?_ hbase (hb.loopEntry hbase body))
    intro st1 t1 o1 st2 hbase1 hin1 hr1
    have hrec := Stmt.runsList_asRecorded h body (i + 1) (loopEntry Γ base b body)
      (fun x hx => hs x (by simp [hx])) hbase1 hin1 hr1
    exact ⟨hrec.imp fun _ _ => trivial, h.loopEntry_kept hs hr1 hrec.always hin1⟩
  case goto | fence => exact .changes hbase hb fun _ hr => ⟨hr, base, rfl, hr⟩
  case «break» | «continue» => exact .ends hbase hb nofun
  case expr | write | stall => exact .ends hbase hb fun _ => rfl
  case assign => exact .changes hbase hb fun _ hr => ⟨h.agrees_of_sameOff hw hr.sameOff hbase, _, rfl, hb.assigned hr⟩
  case decl => exact .changes hbase hb fun _ hr => ⟨h.agrees_of_sameOff hw hr.sameOff hbase, _, rfl, hb.declared hr⟩
  case read l => exact absurd (hs (.read l) (by simp)) (h.noRead l)

theorem Stmt.runsList_asRecorded (h : Analyzable Γ base all) : ∀ (ss : List Stmt) (i : Nat) (b : Bindings),
    (∀ x ∈ Stmt.substmtsList ss, x ∈ Stmt.substmtsList all) → ∀ ⦃st : Store Γ⦄, st.Agrees base → st.Agrees b →
      (Stmt.RunsList base i ss).Follows base st i (Stmt.analyzeList Γ base ss (some b)).1
        (·.Reaches (Stmt.analyzeList Γ base ss (some b)).2)
  | [], i, b, hs, st, hbase, hb => by
    rintro t o st' ⟨rfl, rfl, rfl⟩
    exact ⟨.nil, hbase, fun _ => ⟨b, rfl, hb⟩⟩
  | s :: ss, i, b, hs, st, hbase, hb => by
    rw [Stmt.substmtsList_cons] at hs
    rw [Stmt.RunsList, Stmt.analyzeList]
    have hfirst := Stmt.runs_asRecorded h s i b (fun x hx => hs x (by simp [hx])) hbase hb
    rintro t o st' (⟨ho, hr⟩ | ⟨t1, t2, st1, rfl, h1, h2⟩)
    · have hr := hfirst hr
      exact ⟨hr.events.left, hr.always, fun ho' => absurd ho' ho⟩
    · have hr1 := hfirst h1
      obtain ⟨b', hb', hst1⟩ := hr1.falls rfl
      have hr2 := Stmt.runsList_asRecorded h ss _ b' (fun x hx => hs x (by simp [hx])) hr1.always hst1 h2
      rw [← length_analyze Γ base s b] at hr2
      simp only [Option.getD_some, hb']
      exact (hr1.left).append hr2.right

theorem Stmt.runsDefault_asRecorded (h : Analyzable Γ base all) : ∀ (d : Option (List Stmt)) (i : Nat) (b : Bindings),
    (∀ x ∈ substmtsDefault d, x ∈ substmtsList all) → ∀ ⦃st : Store Γ⦄, st.Agrees base → st.Agrees b →
      (RunsDefault base i d).Follows base st i (analyzeDefault Γ base (some b) d).1
        (·.Reaches (analyzeDefault Γ base (some b) d).2)
  | none, i, b, hs, st, hbase, hb => by
    rintro t o st' ⟨rfl, rfl, rfl⟩
    exact ⟨.nil, hbase, fun _ => ⟨b, rfl, hb⟩⟩
  | some body, i, b, hs, st, hbase, hb => Stmt.runsList_asRecorded h body i b hs hbase hb

theorem Clause.runsList_asRecorded (h : Analyzable Γ base all) : ∀ (cs : List Clause) (i : Nat) (b : Bindings),
    (∀ y ∈ Clause.substmtsList cs, y ∈ substmtsList all) →
    ∀ {st : Store Γ} {x : Expr} {v : Int} {p : Behaviour Γ} {rd : Records} {after : Store Γ → Prop}, st.Agrees base →
      st.Agrees b → x.MayBe st v → p.Follows base st (i + (Clause.substmtsList cs).length) rd after →
      (Clause.RunsList base v i cs p).Follows base st i ((Clause.analyzeList Γ base x b cs).1 ++ rd)
        fun st => st.Reaches (Clause.analyzeList Γ base x b cs).2 ∨ after st
  | [], i, b, hs, st, x, v, p, rd, after, hbase, hb, hx, hp => fun _ _ _ hrun => (hp hrun).imp fun _ => Or.inr
  | { loc, conds, body } :: cs, i, b, hs, st, x, v, p, rd, after, hbase, hb, hx, hp => by
    rw [Clause.substmtsList_cons] at hs hp
    rw [length_append, ← Nat.add_assoc] at hp
    rw [Clause.analyzeList, append_assoc]
    rintro t o st' (⟨hit, hr⟩ | ⟨-, hr⟩)
    · have hr := Stmt.runsList_asRecorded h body i _ (fun y hy => hs y (by simp [hy])) hbase (hb.clauseEntry hx hit) hr
      exact hr.left.imp fun _ h => Or.inl (.meet? (Or.inl h))
    · have hr := Clause.runsList_asRecorded h cs _ b (fun y hy => hs y (by simp [hy])) hbase hb hx hp hr
      rw [← length_analyzeList Γ base body (some (clauseEntry Γ x conds b))] at hr
      exact hr.right.imp fun _ h => h.imp (fun h => .meet? (Or.inr h)) id

theorem Clause.runsChosen_asRecorded (h : Analyzable Γ base all) : ∀ (cs : List Clause) (i : Nat) (b : Bindings),
    (∀ y ∈ Clause.substmtsList cs, y ∈ substmtsList all) →
    ∀ {st : Store Γ} {arm : Arm} {v : Int} {p : Behaviour Γ} {rd : Records} {after : Store Γ → Prop}, st.Agrees base →
      st.Agrees b → chooseArm Γ b v cs = some arm →
      (arm = .fallback → p.Follows base st (i + (Clause.substmtsList cs).length) rd after) →
      (Clause.RunsList base v i cs p).Follows base st i ((Clause.analyzeChosen Γ base b arm cs).1 ++ rd)
        fun st => st.Reaches (Clause.analyzeChosen Γ base b arm cs).2 ∨ after st
  | [], i, b, hs, st, arm, v, p, rd, after, hbase, hb, harm, hp => by
    obtain rfl : Arm.fallback = arm := by simpa [chooseArm] using harm
    exact fun _ _ _ hrun => (hp rfl hrun).imp fun _ => Or.inr
  | { loc, conds, body } :: cs, i, b, hs, st, arm, v, p, rd, after, hbase, hb, harm, hp => by
    rw [Clause.substmtsList_cons] at hs hp
    rw [length_append, ← Nat.add_assoc] at hp
    have hcond := hb.condsMatch v conds
    rw [chooseArm] at harm
    split at harm
    · nomatch harm
    · rename_i hm
      obtain rfl : Arm.clause 0 = arm := by simpa using harm
      rintro t o st' (⟨-, hr⟩ | ⟨hmiss, -⟩)
      · have hr := Stmt.runsList_asRecorded h body i b (fun y hy => hs y (by simp [hy])) hbase hb hr
        rw [Clause.analyzeChosen, append_assoc]
        exact hr.left.imp fun _ => Or.inl
      · exact absurd hmiss (hcond.1 hm).2
    · rename_i hm
      obtain ⟨arm', harm', rfl⟩ := Option.map_eq_some_iff.mp harm
      rintro t o st' (⟨hit, -⟩ | ⟨-, hr⟩)
      · exact absurd hit (hcond.2 hm).2
      · have hr := Clause.runsChosen_asRecorded h cs _ b (fun y hy => hs y (by simp [hy])) hbase hb harm'
          (fun hf => hp (by rw [hf]; rfl)) hr
        rw [← length_deadRecords] at hr
        rw [Clause.analyzeChosen_succ, append_assoc]
        exact hr.right
end

end

/-- Soundness of the analysis, which no negative width stops: whenever control reaches a statement of a body, started with a store
that holds what always holds, there is a record of it and the store agrees with the record. -/
theorem analyze_agrees (Γ : SymbolTable) (ss : List Stmt) (initial : Bindings) (hproper : Node.Proper Γ (nodesList ss))
    (h : Analyzable Γ initial ss) {st st' : Store Γ} {t : List (Event Γ)} {o : Outcome} (hst : st.Agrees initial)
    (hrun : RunsList initial 0 ss st t o st') : Node.Evaluable Γ (nodesList ss) ∧
    ∀ ev ∈ t, (substmtsList ss)[ev.position]? = some ev.stmt ∧
      ∃ b, (analyze Γ ss initial)[ev.position]? = some (some b) ∧ ev.store.Agrees b := by
  refine ⟨hproper.evaluable, fun ev hev => ?_⟩
  have hrec := runsList_asRecorded h ss 0 initial (fun _ hx => hx) hst hst hrun
  obtain ⟨k, r, hk, hr, b, rfl, hb⟩ := hrec.events ev hev
  obtain ⟨k', s, hk', hs, rfl⟩ := runsList_names ss 0 hrun ev hev
  rw [Nat.zero_add] at hk hk'
  rw [← hk] at hr
  rw [← hk'] at hs
  exact ⟨hs, b, hr, hb⟩

namespace JumpInLoop

def table : SymbolTable := ⟨#[.value 1 "x" (.uint 4), .value 2 "y" (.uint 4), .value 3 "z" (.uint 4), .entity 4 "top" []]⟩

def x : Symbol := ⟨0⟩

def y : Symbol := ⟨1⟩

def exit : Stmt := .cond {} (.ref {} y) [.break {}] []

/-- A loop that is left when `y` is set, and jumps otherwise, between an assignment of `x` and what looks at it. -/
def body (fences last : List Stmt) : List Stmt :=
  .assign {} (.ref {} x) (.num {} false 5) :: .loop {} (exit :: (fences ++ [.goto {} "next"])) :: last

def start : Store table := default

def assigned : Store table := start.set x 5

def later : Store table := start.set y 1

theorem mayBe_value (s : Symbol) (st : Store table) : (Expr.ref {} s).MayBe st (st.value s) := by
  intro w hw
  rw [Expr.valueIn_ref] at hw
  exact Option.some.inj hw

open Behaviour in
theorem exit_stays : exit.Runs {} 2 assigned [⟨2, exit, assigned⟩] .falls assigned := by
  rw [exit, Runs]
  exact enter ⟨0, mayBe_value y assigned, Or.inr ⟨rfl, rfl, rfl, rfl⟩⟩

open Behaviour in
theorem exit_leaves : exit.Runs {} 2 later [⟨2, exit, later⟩, ⟨3, .break {}, later⟩] .breaks later := by
  rw [exit, Runs]
  exact enter ⟨1, mayBe_value y later, Or.inl ⟨by decide, andThen_stops (by decide) (enter ⟨rfl, rfl, rfl⟩)⟩⟩

theorem jump_runs (i : Nat) : RunsList {} i [.goto {} "next"] assigned [⟨i, .goto {} "next", assigned⟩] .falls later :=
  Or.inr ⟨_, [], later, rfl, enter ⟨rfl, rfl, nofun⟩, rfl, rfl, rfl⟩

open Behaviour in
theorem body_runs (fences : List Stmt) {t t' : List (Event table)} {o : Outcome} {st' : Store table}
    (h : RunsList {} 4 (fences ++ [.goto {} "next"]) assigned t .falls later)
    (hlast : RunsList {} (5 + (substmtsList fences).length) last later t' o st') :
    RunsList {} 0 (body fences last) start
      ([⟨0, .assign {} (.ref {} x) (.num {} false 5), start⟩] ++
        (⟨1, .loop {} (exit :: (fences ++ [.goto {} "next"])), assigned⟩ ::
          (⟨2, exit, assigned⟩ :: t ++ [⟨2, exit, later⟩, ⟨3, .break {}, later⟩]) ++ t')) o st' := by
  have hassign : Runs {} 0 (.assign {} (.ref {} x) (.num {} false 5)) start _ .falls assigned :=
    enter ⟨rfl, rfl, 5, fun _ hw => Option.some.inj hw, rfl⟩
  have hloop : Runs {} 1 (.loop {} (exit :: (fences ++ [.goto {} "next"]))) assigned _ .falls later :=
    enter (.again (Or.inl rfl) (andThen_falls exit_stays h) (.leave (andThen_stops (by decide) exit_leaves)))
  have hlen : 0 + 1 + (loop {} (exit :: (fences ++ [.goto {} "next"]))).substmts.length =
      5 + (substmtsList fences).length := by
    simp [exit]
    omega
  rw [← hlen] at hlast
  exact andThen_falls hassign (andThen_falls hloop hlast)

def look : Stmt := .expr {} (.ref {} x)

theorem look_runs (i : Nat) : RunsList {} i [look] later [⟨i, look, later⟩] .falls later :=
  Or.inr ⟨_, [], later, rfl, enter ⟨rfl, rfl, rfl⟩, rfl, rfl, rfl⟩

/-- Without a fence in the loop a record is wrong: after the loop `x` is recorded to be what it was assigned before the loop,
although the jump went on in a cycle where it has another value. -/
theorem record_wrong : ∃ (st st' : Store table) (t : List (Event table)) (o : Outcome) (ev : Event table),
    RunsList {} 0 (body [] [look]) st t o st' ∧ ev ∈ t ∧
      (analyze table (body [] [look]) {})[ev.position]? = some (some ⟨[(x, 5)]⟩) ∧ ev.store.value x ≠ 5 :=
  ⟨start, later, _, .falls, ⟨5, look, later⟩, body_runs [] (jump_runs 4) (look_runs 5), by simp, by decide, by decide⟩

theorem fence_runs : RunsList {} 4 [.fence {}, .goto {} "next"] assigned
    [⟨4, .fence {}, assigned⟩, ⟨5, .goto {} "next", assigned⟩] .falls later :=
  Or.inr ⟨_, _, assigned, rfl, enter ⟨rfl, rfl, nofun⟩, jump_runs 5⟩

theorem analyzable_body (hread : ∀ l, read l ∉ substmtsList last)
    (hloop : ∀ l b, loop l b ∉ substmtsList last) (hnum : table.Numbered (x :: writesList last)) :
    Analyzable table {} (body [.fence {}] last) where
  noRead l := by simp [body, exit, hread]
  fenced l b h _ := by
    obtain ⟨-, rfl⟩ : l = {} ∧ b = [exit, .fence {}, .goto {} "next"] := by
      simpa [body, exit, hloop] using h
    exact ⟨{}, by simp⟩
  fixed e he := nomatch he
  numbered := by
    have hw : writesList (body [.fence {}] last) = x :: writesList last := by
      simp [writesList, body, exit, Node.writes, Expr.roots]
    rw [hw]
    exact hnum

/-- With a fence in the loop the same run is as recorded. -/
theorem record_right : Node.Proper table (nodesList (body [.fence {}] [look])) ∧ Analyzable table {} (body [.fence {}] [look]) ∧
    ∃ t : List (Event table), RunsList {} 0 (body [.fence {}] [look]) start t .falls later ∧ ⟨6, look, later⟩ ∈ t ∧
      ∀ ev ∈ t, (substmtsList (body [.fence {}] [look]))[ev.position]? = some ev.stmt ∧
        ∃ b, (analyze table (body [.fence {}] [look]) {})[ev.position]? = some (some b) ∧ ev.store.Agrees b := by
  have h : Analyzable table {} (body [.fence {}] [look]) :=
    analyzable_body (by simp [look]) (by simp [look]) (by simp [SymbolTable.Numbered, writesList, look, Node.writes])
  have hproper : Node.Proper table (nodesList (body [.fence {}] [look])) := by decide
  have hrun := body_runs [.fence {}] fence_runs (look_runs 6)
  exact ⟨hproper, h, _, hrun, by simp, (analyze_agrees table _ {} hproper h (fun _ he => absurd he not_mem_nil) hrun).2⟩

end JumpInLoop

end HdlLowering
