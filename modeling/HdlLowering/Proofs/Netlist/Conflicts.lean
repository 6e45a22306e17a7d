import HdlLowering.DesignRules
import HdlLowering.Proofs.Netlist.Delta
import Mathlib.Algebra.Ring.Nat
import Mathlib.Data.List.Nodup
import Mathlib.Data.Set.Function

/-!
# Signals with several drivers

The message about a signal with several drivers tells which signal it is, as long as no parenthesis is opened in the kinds of
its drivers (`conflictMessage_inj`), so each such signal is reported exactly once (`DesignRules.conflicts_reported`).
-/

namespace HdlLowering

open List Netlist Violation Decimal Word Rule

/-! ## Violations as a set -/

theorem mem_eraseReps {α : Type} [DecidableEq α] {l : List α} {x : α} : x ∈ l.eraseReps ↔ x ∈ l := by
  have hloop : ∀ (as : List α) (a : α) (acc : List α), x ∈ eraseRepsBy.loop (· == ·) a as acc ↔ x ∈ acc ∨ x ∈ a :: as := by
    intro as
    induction as with
    | nil => simp [eraseRepsBy.loop, or_comm]
    | cons a' as ih =>
      intro a acc
      rw [eraseRepsBy.loop]
      split
      · rename_i heq
        rw [ih, beq_iff_eq.mp heq]
        simp
      · rw [ih]
        simp [or_left_comm, or_assoc]
  cases l with
  | nil => rfl
  | cons a as => exact (hloop as a []).trans (by simp)

theorem nodup_eraseReps {α : Type} [DecidableEq α] {le : α → α → Prop} (hantisymm : ∀ a b, le a b → le b a → a = b) {l : List α}
    (hl : l.Pairwise le) : l.eraseReps.Nodup := by
  have hloop : ∀ (as : List α) (a : α) (acc : List α), (a :: as).Pairwise le → acc.Nodup → (∀ x ∈ acc, x ∉ a :: as) →
      (eraseRepsBy.loop (· == ·) a as acc).Nodup := by
    intro as
    induction as with
    | nil =>
      intro a acc _ hacc hout
      rw [eraseRepsBy.loop, nodup_reverse, nodup_cons]
      exact ⟨fun ha => hout a ha mem_cons_self, hacc⟩
    | cons a' as ih =>
      intro a acc hsorted hacc hout
      obtain ⟨hle, htail⟩ := pairwise_cons.mp hsorted
      rw [eraseRepsBy.loop]
      split
      · rename_i heq
        obtain rfl := beq_iff_eq.mp heq
        exact ih a acc htail hacc fun x hx => not_mem_of_not_mem_cons (hout x hx)
      · rename_i heq
        have hne := beq_eq_false_iff_ne.mp heq
        have hafter : a ∉ a' :: as := by
          intro ha
          rcases mem_cons.mp ha with rfl | ha
          · exact hne rfl
          · have hback := (pairwise_cons.mp htail).1 a ha
            exact hne (hantisymm a a' (hle a' mem_cons_self) hback)
        refine ih a' (a :: acc) htail (nodup_cons.mpr ⟨fun ha => hout a ha mem_cons_self, hacc⟩) ?_
        exact forall_mem_cons.mpr ⟨hafter, fun x hx => not_mem_of_not_mem_cons (hout x hx)⟩
  cases l with
  | nil => exact nodup_nil
  | cons a as => exact hloop as a [] hl nodup_nil nofun

namespace Violation

theorem order_eq : order = compareLex (compareOn entity) (compareLex (compareOn line) (compareLex (compareOn message)
    (compareLex (compareOn file) (compareLex (compareOn rule) (compareOn severity))))) := rfl

instance : Std.TransCmp order := order_eq ▸ inferInstance

theorem le_iff (a b : Violation) : a.le b = true ↔ (order a b).isLE = true := by
  unfold le
  cases order a b <;> decide

theorem eq_of_le {a b : Violation} (h : a.le b = true) (h' : b.le a = true) : a = b := by
  rw [le_iff] at h h'
  have heq := Std.OrientedCmp.isLE_antisymm h h'
  rw [order_eq] at heq
  simp only [compareLex, compareOn, Ordering.then_eq_eq, Std.LawfulEqCmp.compare_eq_iff_eq] at heq
  obtain ⟨h1, h2, h3, h4, h5, h6⟩ := heq
  cases a
  cases b
  simp_all

end Violation

theorem Rule.mem_all (r : Rule) : r ∈ all := by
  cases r <;> decide

namespace DesignRules

variable {t : Tables} {severity : Rule → String}

theorem nodup_violations (t : Tables) (severity : Rule → String) : (evaluate t severity).violations.Nodup := by
  refine nodup_eraseReps (fun _ _ => eq_of_le) (pairwise_mergeSort ?_ ?_ _)
  · simp only [le_iff]
    exact fun _ _ _ => Std.TransCmp.isLE_trans
  · intro a b
    have hswap : order b a = (order a b).swap := Std.OrientedCmp.eq_swap
    rw [Bool.or_eq_true, le_iff, le_iff, hswap]
    cases order a b <;> decide

theorem mem_violations {v : Violation} : v ∈ (evaluate t severity).violations ↔ ∃ r, v ∈ violationsOf (seen t) severity r := by
  change v ∈ (mergeSort _ _).eraseReps ↔ _
  rw [mem_eraseReps, mem_mergeSort, mem_flatMap]
  exact ⟨fun ⟨r, _, hr⟩ => ⟨r, hr⟩, fun ⟨r, hr⟩ => ⟨r, r.mem_all, hr⟩⟩

/-! ## Messages -/

def conflictMessage (entity signal : String) (all : List DriverRow) : String :=
  let kinds := String.intercalate ", " (all.map (·.kind))
  s!"{entity}.{signal} has {all.length} drivers ({kinds})"

theorem not_mem_intercalate {c : Char} (hc : c ∉ (", ").toList) : ∀ {xs : List String}, (∀ x ∈ xs, c ∉ x.toList) →
    c ∉ (String.intercalate ", " xs).toList
  | [], _ => by simp
  | [x], h => by simpa using h
  | x :: y :: ys, h => by
    rw [forall_mem_cons] at h
    rw [String.intercalate_cons_cons, String.toList_append, String.toList_append, mem_append, mem_append]
    rintro ((hx | hsep) | hrest)
    exacts [h.1 hx, hc hsep, not_mem_intercalate hc h.2 hrest]

theorem not_mem_toString_nat {c : Char} (hc : c.isDigit = false) (n : Nat) : c ∉ (toString n).toList := by
  intro hmem
  rw [Nat.toString_eq_repr, Nat.toList_repr] at hmem
  rw [Nat.isDigit_of_mem_toDigits (by decide) (by decide) hmem] at hc
  nomatch hc

theorem append_cons_left_inj {c : Char} {xs ys rest rest' : List Char} (hrest : c ∉ rest) (hrest' : c ∉ rest')
    (h : xs ++ c :: rest = ys ++ c :: rest') : xs = ys := by
  have hcount := congrArg (count c) h
  simp only [count_append, count_cons_self, count_eq_zero.mpr hrest, count_eq_zero.mpr hrest'] at hcount
  exact (append_cons_inj (by omega) h).1

/-- A message tells which signal it is about: what it says about the drivers starts with the last parenthesis. -/
theorem conflictMessage_inj {entity signal signal' : String} {all all' : List DriverRow} (hall : ∀ d ∈ all, '(' ∉ d.kind.toList)
    (hall' : ∀ d ∈ all', '(' ∉ d.kind.toList) (h : conflictMessage entity signal all = conflictMessage entity signal' all') :
    signal = signal' := by
  have hkinds {all : List DriverRow} (hall : ∀ d ∈ all, '(' ∉ d.kind.toList) :
      '(' ∉ (String.intercalate ", " (all.map (·.kind)) ++ ")").toList := by
    rw [String.toList_append, mem_append]
    rintro (hkind | hend)
    · exact not_mem_intercalate (by decide) (forall_mem_map.mpr hall) hkind
    · revert hend
      decide
  have hsplit (signal : String) (all : List DriverRow) : (conflictMessage entity signal all).toList =
      (entity ++ ".").toList ++ (((signal ++ " has").toList ++ ' ' :: (toString all.length).toList) ++ " drivers ".toList) ++
        '(' :: (String.intercalate ", " (all.map (·.kind)) ++ ")").toList := by
    have hself (s : String) : toString s = s := rfl
    simp [conflictMessage, hself]
  have hlist := congrArg String.toList h
  rw [hsplit, hsplit] at hlist
  have hfront := append_cancel_left (append_cons_left_inj (hkinds hall) (hkinds hall') hlist)
  have hsignal := append_cons_left_inj (not_mem_toString_nat rfl _) (not_mem_toString_nat rfl _) (append_cancel_right hfront)
  rw [String.toList_append, String.toList_append] at hsignal
  exact String.toList_injective (append_cancel_right hsignal)

/-! ## The rule -/

def conflict (severity : String) (t : Tables) (p : String × String) : Violation :=
  let all := driversOf t p.1 p.2
  let first := all.headD {}
  ⟨"multiple_drivers", severity, p.1, first.file, first.line, conflictMessage p.1 p.2 all⟩

theorem seenLine_eq {line : Int64} (h : line.toInt.natAbs ≤ 2 ^ 53) : seenLine line = line := by
  have hnat : ∀ n ≤ 2 ^ 53, natThroughDouble n = n := by
    intro n hn
    rcases Nat.lt_or_eq_of_le hn with hlt | rfl
    · exact if_pos hlt
    · decide +kernel
  have hexact : throughDouble line.toInt = line.toInt := by
    cases hline : line.toInt with
    | ofNat n =>
      rw [hline] at h
      exact congrArg Int.ofNat (hnat n h)
    | negSucc n =>
      rw [hline] at h
      rw [throughDouble, hnat (n + 1) h]
      rfl
  have hrange : max (-limit) (min (limit - 1) line.toInt) = line.toInt := by
    unfold limit
    omega
  rw [seenLine, hexact, hrange, Int64.ofInt_toInt]

theorem drivers_seen (h : ∀ d ∈ t.drivers, d.line.toInt.natAbs ≤ 2 ^ 53) : (seen t).drivers = t.drivers := by
  conv_rhs => rw [← map_id t.drivers]
  exact map_congr_left fun d hd => by rw [seenLine_eq (h d hd), id]

theorem mem_conflicts (hon : severity .multipleDrivers ≠ "off") {v : Violation} :
    v ∈ violationsOf t severity .multipleDrivers ↔
      ∃ p, 2 ≤ (driversOf t p.1 p.2).length ∧ conflict (severity .multipleDrivers) t p = v := by
  have hviolations : violationsOf t severity .multipleDrivers = _ := if_neg (by simpa using hon)
  rw [hviolations, mem_map]
  constructor
  · rintro ⟨f, hf, rfl⟩
    obtain ⟨d, hd, hf⟩ := mem_filterMap.mp hf
    dsimp only at hf
    split at hf
    · rename_i hcond
      rw [Bool.and_eq_true, decide_eq_true_iff, beq_iff_eq] at hcond
      cases hf
      refine ⟨(d.entity, d.signal), hcond.1, ?_⟩
      rw [conflict, headD_eq_head?_getD, hcond.2]
      rfl
    · nomatch hf
  · rintro ⟨⟨entity, signal⟩, hmany, rfl⟩
    obtain ⟨d, rest, hall⟩ := exists_cons_of_length_pos (Nat.lt_of_lt_of_le Nat.zero_lt_two hmany)
    have hd : d ∈ t.drivers.filter _ := hall ▸ mem_cons_self
    obtain ⟨hmem, hof⟩ := mem_filter.mp hd
    rw [Bool.and_eq_true, beq_iff_eq, beq_iff_eq] at hof
    obtain ⟨rfl, rfl⟩ := hof
    refine ⟨_, mem_filterMap.mpr ⟨d, hmem, if_pos ?_⟩, ?_⟩
    · rw [Bool.and_eq_true, decide_eq_true_iff, beq_iff_eq, hall]
      exact ⟨hall ▸ hmany, rfl⟩
    · rw [conflict, hall]
      rfl

theorem rule_of_mem {v : Violation} {r : Rule} (h : v ∈ violationsOf t severity r) : v.rule = r.name := by
  unfold violationsOf at h
  split at h
  · nomatch h
  · obtain ⟨_, -, rfl⟩ := mem_map.mp h
    rfl

/-- Each signal with several drivers is reported exactly once, when the rule is not switched off: the violations of the rule are
one for each entity and signal with two or more driver rows, at the place of the first row and with the number of all of them.
Lines are at most 2^53, so that a double holds them, and no parenthesis is opened in the kind of a driver. -/
theorem conflicts_reported (hon : severity .multipleDrivers ≠ "off")
    (hlines : ∀ d ∈ t.drivers, d.line.toInt.natAbs ≤ 2 ^ 53) (hkinds : ∀ d ∈ t.drivers, '(' ∉ d.kind.toList) :
    (evaluate t severity).violations.Nodup ∧
      Set.BijOn (conflict (severity .multipleDrivers) t) {p | 2 ≤ (driversOf t p.1 p.2).length}
        {v | v ∈ (evaluate t severity).violations ∧ v.rule = "multiple_drivers"} := by
  have hdrivers (p : String × String) : driversOf (seen t) p.1 p.2 = driversOf t p.1 p.2 := by
    rw [driversOf, drivers_seen hlines, driversOf]
  have hmem (v : Violation) : v ∈ (evaluate t severity).violations ∧ v.rule = "multiple_drivers" ↔
      ∃ p, 2 ≤ (driversOf t p.1 p.2).length ∧ conflict (severity .multipleDrivers) t p = v := by
    rw [mem_violations]
    trans v ∈ violationsOf (seen t) severity .multipleDrivers
    · constructor
      · rintro ⟨⟨r, hr⟩, hrule⟩
        rw [rule_of_mem hr] at hrule
        cases r with
        | multipleDrivers => exact hr
        | _ => nomatch hrule
      · exact fun hv => ⟨⟨_, hv⟩, rule_of_mem hv⟩
    · rw [mem_conflicts hon]
      simp only [conflict, hdrivers]
  have hclear (p : String × String) : ∀ d ∈ driversOf t p.1 p.2, '(' ∉ d.kind.toList := fun d hd => hkinds d (mem_of_mem_filter hd)
  refine ⟨nodup_violations t severity, fun p hp => (hmem _).mpr ⟨p, hp, rfl⟩, fun p _ q _ heq => ?_,
    fun v hv => (hmem v).mp hv⟩
  obtain ⟨p1, p2⟩ := p
  obtain ⟨q1, q2⟩ := q
  simp only [conflict, Violation.mk.injEq, true_and] at heq
  obtain ⟨rfl, -, -, hmessage⟩ := heq
  rw [conflictMessage_inj (hclear (p1, p2)) (hclear (p1, q2)) hmessage]

def twiceDriven : Tables where
  drivers := [{ entity := "top", signal := "a", kind := "connect", file := "t", line := 3 },
    { entity := "top", signal := "b", kind := "assign", file := "t", line := 4 },
    { entity := "top", signal := "a", kind := "connect", file := "t", line := 3 }]

theorem twiceDriven_reported : (evaluate twiceDriven defaultSeverity).violations.Nodup ∧
    Set.BijOn (conflict "error" twiceDriven) {p | 2 ≤ (driversOf twiceDriven p.1 p.2).length}
      {v | v ∈ (evaluate twiceDriven defaultSeverity).violations ∧ v.rule = "multiple_drivers"} := by
  have hon : defaultSeverity .multipleDrivers ≠ "off" := by decide
  exact conflicts_reported hon (by decide) (by decide +kernel)

/-- A signal whose first driver stands on a line that no double holds. -/
def farDown : Tables where
  drivers := [{ entity := "top", signal := "a", kind := "connect", line := 9007199254740993 },
    { entity := "top", signal := "a", kind := "assign", line := 4 }]

/-- Two signals whose messages are the same text. -/
def alike : Tables where
  drivers := [{ entity := "top", signal := "a", kind := "x) has 2 drivers (y" }, { entity := "top", signal := "a", kind := "z" },
    { entity := "top", signal := "a has 2 drivers (x)", kind := "y" },
    { entity := "top", signal := "a has 2 drivers (x)", kind := "z" }]

/-- The line is rounded, and two signals are reported as one. -/
theorem conflicts_misreported :
    ((driversOf farDown "top" "a").map (·.line) = [9007199254740993, 4] ∧
      ∀ v ∈ (evaluate farDown Rule.defaultSeverity).violations, v.line = 9007199254740992) ∧
    ((driversOf alike "top" "a").length = 2 ∧ (driversOf alike "top" "a has 2 drivers (x)").length = 2 ∧
      ∀ v ∈ (evaluate alike Rule.defaultSeverity).violations, v.message = "top.a has 2 drivers (x) has 2 drivers (y, z)") := by
  have hfar : ∀ r ∈ Rule.all, ∀ v ∈ violationsOf (seen farDown) Rule.defaultSeverity r, v.line = 9007199254740992 := by
    decide +kernel
  have halike : ∀ r ∈ Rule.all, ∀ v ∈ violationsOf (seen alike) Rule.defaultSeverity r,
      v.message = "top.a has 2 drivers (x) has 2 drivers (y, z)" := by
    decide +kernel
  refine ⟨⟨by decide +kernel, fun v hv => ?_⟩, by decide +kernel, by decide +kernel, fun v hv => ?_⟩
  · obtain ⟨r, hr⟩ := mem_violations.mp hv
    exact hfar r r.mem_all v hr
  · obtain ⟨r, hr⟩ := mem_violations.mp hv
    exact halike r r.mem_all v hr

end DesignRules

end HdlLowering
