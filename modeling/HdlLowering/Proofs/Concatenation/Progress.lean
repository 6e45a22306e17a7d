import Mathlib.Logic.Relation
import HdlLowering.Proofs.Concatenation.Constants
import HdlLowering.Proofs.Concatenation.Positions

/-!
# Grouping never runs out of parts

The groups of two concatenations are made by going through both lists of parts: `Cursor.Advance` is one step.
-/

namespace HdlLowering.Concatenation

open List Expr

variable {Γ : SymbolTable} {ts ss : List Expr} {tps sps : List Part}

/-- How far two lists of parts are grouped: the groups that are complete, the one in the making, and the parts left. -/
structure Cursor where
  done : List Group
  current : Option Open
  targets : List Part
  sources : List Part

namespace Cursor

/-- One step of the grouping. It takes a part of a side only where there is one. -/
inductive Advance : Cursor → Cursor → Prop
  | start (done : List Group) (t s : Part) (ts ss : List Part) :
    Advance ⟨done, none, t :: ts, s :: ss⟩ ⟨done, some ⟨⟨[t.1], [s.1]⟩, t.2, s.2⟩, ts, ss⟩
  | close (done : List Group) (o : Open) (ts ss : List Part) (h : o.targetWidth = o.sourceWidth) :
    Advance ⟨done, some o, ts, ss⟩ ⟨done ++ [o.group], none, ts, ss⟩
  | target (done : List Group) (o : Open) (t : Part) (ts ss : List Part) (h : o.targetWidth < o.sourceWidth) :
    Advance ⟨done, some o, t :: ts, ss⟩
      ⟨done, some ⟨⟨o.group.target ++ [t.1], o.group.source⟩, o.targetWidth + t.2, o.sourceWidth⟩, ts, ss⟩
  | source (done : List Group) (o : Open) (s : Part) (ts ss : List Part) (h : o.sourceWidth < o.targetWidth) :
    Advance ⟨done, some o, ts, s :: ss⟩
      ⟨done, some ⟨⟨o.group.target, o.group.source ++ [s.1]⟩, o.targetWidth, o.sourceWidth + s.2⟩, ts, ss⟩

variable (c : Cursor)

def Finished : Prop := c.current = none ∧ c.targets = []

def result : List Group := c.done ++ groups c.current c.targets c.sources

def size : Nat := 2 * (c.targets.length + c.sources.length) + (if c.current.isSome then 1 else 0)

variable {c c' : Cursor}

theorem Advance.result_eq (h : Advance c c') : c'.result = c.result := by
  cases h with
  | start done t s ts ss =>
    have hgroups : groups none (t :: ts) (s :: ss) = groups (some ⟨⟨[t.1], [s.1]⟩, t.2, s.2⟩) ts ss := by rw [groups]
    exact congrArg (done ++ ·) hgroups.symm
  | close done o ts ss h =>
    have hgroups : groups (some o) ts ss = o.group :: groups none ts ss := by
      rw [groups.eq_def (some o) ts ss]
      exact if_pos h
    simp [result, hgroups]
  | target done o t ts ss h =>
    have hne : o.targetWidth ≠ o.sourceWidth := Int64.ne_of_lt h
    have hgroups : groups (some o) (t :: ts) ss =
        groups (some ⟨⟨o.group.target ++ [t.1], o.group.source⟩, o.targetWidth + t.2, o.sourceWidth⟩) ts ss := by
      rw [groups.eq_def (some o) (t :: ts) ss]
      exact (if_neg hne).trans (if_pos h)
    exact congrArg (done ++ ·) hgroups.symm
  | source done o s ts ss h =>
    have hne : o.targetWidth ≠ o.sourceWidth := (Int64.ne_of_lt h).symm
    have hge : ¬ o.targetWidth < o.sourceWidth := Int64.not_lt.mpr (Int64.le_of_lt h)
    have hgroups : groups (some o) ts (s :: ss) =
        groups (some ⟨⟨o.group.target, o.group.source ++ [s.1]⟩, o.targetWidth, o.sourceWidth + s.2⟩) ts ss := by
      rw [groups.eq_def (some o) ts (s :: ss)]
      exact (if_neg hne).trans (if_neg hge)
    exact congrArg (done ++ ·) hgroups.symm

theorem Advance.size_lt (h : Advance c c') : c'.size < c.size := by
  cases h <;> simp only [size, length_cons, Option.isSome_some, Option.isSome_none, if_true, Bool.false_eq_true, if_false] <;>
    omega

/-- Parts with known widths, as many bits left on both sides, and a group in the making that can be completed. -/
structure Sound (Γ : SymbolTable) (c : Cursor) : Prop where
  targets : Measured Γ c.targets
  sources : Measured Γ c.sources
  between : c.current = none → bitsList Γ (c.targets.map (·.1)) = bitsList Γ (c.sources.map (·.1)) ∧
    (bitsList Γ (c.targets.map (·.1)) : Int) < Word.limit
  pending : ∀ o, c.current = some o → Pending Γ o c.targets c.sources

theorem Sound.advance (h : Sound Γ c) (hstep : Advance c c') : Sound Γ c' := by
  obtain ⟨htargets, hsources, hbetween, hpending⟩ := h
  cases hstep with
  | start done t s ts ss =>
    rw [Measured, forall_mem_cons] at htargets hsources
    obtain ⟨htotal, hroom⟩ := hbetween rfl
    refine ⟨htargets.2, hsources.2, by simp, ?_⟩
    rintro o ⟨⟩
    exact .first htargets.1 hsources.1 htotal hroom
  | close done o ts ss h => exact ⟨htargets, hsources, fun _ => ((hpending o rfl).close h).2, by simp⟩
  | target done o t ts ss h =>
    rw [Measured, forall_mem_cons] at htargets
    refine ⟨htargets.2, hsources, by simp, ?_⟩
    rintro o ⟨⟩
    exact (hpending _ rfl).add_target htargets.1
  | source done o s ts ss h =>
    rw [Measured, forall_mem_cons] at hsources
    refine ⟨htargets, hsources.2, by simp, ?_⟩
    rintro o ⟨⟩
    exact (hpending _ rfl).add_source hsources.1

theorem Sound.reaches (h : Sound Γ c) (hrun : Relation.ReflTransGen Advance c c') : Sound Γ c' := by
  induction hrun with
  | refl => exact h
  | tail _ hstep ih => exact ih.advance hstep

theorem bitsList_pos {p : Part} {ps : List Part} (h : Measured Γ (p :: ps)) : 0 < bitsList Γ ((p :: ps).map (·.1)) := by
  have hpositive := (bits_of_measured (h p mem_cons_self)).2
  rw [map_cons, bitsList_cons]
  omega

/-- With widths that add up to the same word on both sides, a cursor that is not at the end finds the part that it goes on with.
-/
theorem Sound.progress (h : Sound Γ c) : c.Finished ∧ c.sources = [] ∨ ∃ c', Advance c c' := by
  obtain ⟨done, current, ts, ss⟩ := c
  obtain ⟨htargets, hsources, hbetween, hpending⟩ := h
  cases current with
  | none =>
    obtain ⟨htotal, -⟩ := hbetween rfl
    match ts, ss with
    | [], [] => exact Or.inl ⟨⟨rfl, rfl⟩, rfl⟩
    | t :: ts, s :: ss => exact Or.inr ⟨_, .start done t s ts ss⟩
    | [], s :: ss =>
      have hpositive := bitsList_pos hsources
      simp only [map_nil, bitsList_nil] at htotal
      omega
    | t :: ts, [] =>
      have hpositive := bitsList_pos htargets
      simp only [map_nil, bitsList_nil] at htotal
      omega
  | some o =>
    have hopen := hpending o rfl
    have htotal := hopen.total
    by_cases heq : o.targetWidth = o.sourceWidth
    · exact Or.inr ⟨_, .close done o ts ss heq⟩
    · by_cases hlt : o.targetWidth < o.sourceWidth
      · -- the target is behind, so it has parts left
        have hbehind := hopen.target_behind hlt
        match ts with
        | t :: ts => exact Or.inr ⟨_, .target done o t ts ss hlt⟩
        | [] =>
          simp only [map_nil, bitsList_nil] at htotal
          omega
      · have hbehind := hopen.source_behind heq hlt
        match ss with
        | s :: ss =>
          have hlt' := Int64.lt_of_le_of_ne (Int64.not_lt.mp hlt) (Ne.symm heq)
          exact Or.inr ⟨_, .source done o s ts ss hlt'⟩
        | [] =>
          simp only [map_nil, bitsList_nil] at htotal
          omega

/-- A cursor comes to the end with no part left. -/
theorem Sound.finishes (h : Sound Γ c) :
    ∃ c', Relation.ReflTransGen Advance c c' ∧ c'.Finished ∧ c'.sources = [] ∧ c'.done = c.result := by
  induction hsize : c.size using Nat.strong_induction_on generalizing c with
  | h n ih =>
    subst hsize
    rcases h.progress with ⟨hfinished, hsources⟩ | ⟨c1, hstep⟩
    · refine ⟨c, .refl, hfinished, hsources, ?_⟩
      rw [result, hfinished.1, hfinished.2, hsources, groups, append_nil]
      simp
    · obtain ⟨c', hrun, hfinished, hsources, hdone⟩ := ih _ hstep.size_lt (h.advance hstep) rfl
      exact ⟨c', .head hstep hrun, hfinished, hsources, hdone.trans hstep.result_eq⟩

end Cursor

/-- A step of the grouping is always possible before the end, where no part is left and the groups are those that the pass
makes. -/
structure Sweeps (ts ss : List Part) : Prop where
  progress : ∀ c, Relation.ReflTransGen Cursor.Advance ⟨[], none, ts, ss⟩ c → c.Finished ∨ ∃ c', Cursor.Advance c c'
  finishes : ∃ c, Relation.ReflTransGen Cursor.Advance ⟨[], none, ts, ss⟩ c ∧ c.Finished ∧ c.sources = [] ∧
    c.done = groups none ts ss

theorem sweeps_of_measured (ht : Measured Γ tps) (hs : Measured Γ sps)
    (hbits : bitsList Γ (tps.map (·.1)) = bitsList Γ (sps.map (·.1)))
    (hroom : (bitsList Γ (tps.map (·.1)) : Int) < Word.limit) : Sweeps tps sps := by
  have hstart : Cursor.Sound Γ ⟨[], none, tps, sps⟩ := ⟨ht, hs, fun _ => ⟨hbits, hroom⟩, nofun⟩
  refine ⟨fun c hrun => ?_, ?_⟩
  · exact (hstart.reaches hrun).progress.imp_left And.left
  · obtain ⟨c, hrun, hfinished, hsources, hdone⟩ := hstart.finishes
    exact ⟨c, hrun, hfinished, hsources, hdone.trans (nil_append _)⟩

/-! ## Groups of one width -/

theorem peel_balanced (ts ss : List Expr) (h : Group.Balanced Γ ⟨ts, ss⟩) : ∀ g ∈ peel Γ ts ss, g.Balanced Γ := by
  fun_induction peel Γ ts ss with
  | case1 t t' ts s s' ss wt ws hw ih => exact forall_mem_cons.mpr ⟨(h.same hw).1, ih (h.same hw).2⟩
  | case2 t t' ts s s' ss wt ws hne hlt top rest hsplit ih =>
    obtain ⟨hfirst, hothers, -⟩ := h.cut_target hsplit hlt
    exact forall_mem_cons.mpr ⟨hfirst, ih hothers⟩
  | case4 t t' ts s s' ss wt ws hne hlt top rest hsplit ih =>
    obtain ⟨hfirst, hothers, -⟩ := h.cut_source hsplit (Int64.lt_of_le_of_ne (Int64.not_lt.mp hlt) hne)
    exact forall_mem_cons.mpr ⟨hfirst, ih hothers⟩
  | case3 | case5 | case6 => exact forall_mem_singleton.mpr h

theorem Spans.toInt_width_concat (h : Spans Γ ts) : ((Expr.concat ts).width Γ).toInt = bitsList Γ ts := by
  match ts, h.adds.toInt_width_cat with
  | [], hcat => exact hcat _
  | [t], _ =>
    change (t.width Γ).toInt = _
    rw [bitsList_cons, bitsList_nil, Nat.add_zero, bits, size_eq (Int64.le_of_lt (h.width t mem_cons_self))]
  | _ :: _ :: _, hcat => exact hcat _

theorem Group.Balanced.width_eq {g : Group} (h : g.Balanced Γ) :
    (Expr.concat g.target).width Γ = (Expr.concat g.source).width Γ := by
  rw [← Int64.toInt_inj, h.target.toInt_width_concat, h.source.toInt_width_concat, h.bits]

/-- The parts of two concatenations: widths that add up to words, and no slices of an array. -/
structure Regroupable (Γ : SymbolTable) (ts ss : List Expr) : Prop where
  target : Adds Γ ts
  source : Adds Γ ss
  solid : ∀ p ∈ ts ++ ss, p.slicesArray Γ = false

theorem Regroupable.sweeps (h : Regroupable Γ ts ss) (ht : measured? Γ ts = some tps)
    (hs : measured? Γ ss = some sps) (htotal : total tps = total sps) : Sweeps tps sps := by
  obtain ⟨htne, rfl⟩ := measured?_eq_some.mp ht
  obtain ⟨hsne, rfl⟩ := measured?_eq_some.mp hs
  refine sweeps_of_measured (measured_measure (width_pos_of_adds h.target htne))
    (measured_measure (width_pos_of_adds h.source hsne)) ?_ ?_
  · rw [map_fst_measure, map_fst_measure, bitsList_of_total h.target h.source htotal]
  · rw [map_fst_measure]
    exact h.target.room

/-- All groups have sides of one width. -/
theorem Regroupable.balanced {gs : List Group} (h : Regroupable Γ ts ss) (hgs : Regrouped Γ ts ss gs) : ∀ g ∈ gs, g.Balanced Γ := by
  obtain ⟨gs0, rfl, -, -, hbalanced, -⟩ := hgs.balanced h.target h.source h.solid
  exact forall_mem_flatMap.mpr fun g hg => peel_balanced g.target g.source (hbalanced g hg)

end HdlLowering.Concatenation
