import HdlLowering.Proofs.Execution.Assignment
import Mathlib.Data.List.Forall2

/-!
# Writing targets one after the other

Targets of different variables can be written one after the other (`Store.writeAll_eq_writes`).
-/

namespace HdlLowering

open List Expr Store

variable {Γ : SymbolTable} {ω : Unknowns} {st st' cur : Store Γ} {fields : List (Expr × Int)} {f : Expr × Int} {s : Symbol}

/-! ## Positions -/

theorem Expr.target_congr : ∀ t : Expr, st.SameOn t.steers st' →
    (∀ h, t.held ω st h = t.held ω st' h) ∧ ∀ h v, t.put ω st h v = t.put ω st' h v
  | .index l x i, hsame => by
    obtain ⟨hheld, hput⟩ := target_congr x hsame.left
    simp only [held, put, hheld, hput, value_congr hsame.right, implies_true, and_self]
  | .slice l x m n, hsame => by
    obtain ⟨hheld, hput⟩ := target_congr x hsame.left.left
    simp only [held, put, hheld, hput, value_congr hsame.left.right, value_congr hsame.right, implies_true, and_self]
  | .ref .., _ | .num .., _ | .int .., _ | .unary .., _ | .binary .., _ | .ternary .., _ | .cat .., _ | .rep .., _ | .select .., _
  | .call .., _ => ⟨fun _ => rfl, fun _ _ => rfl⟩

/-! ## One write after the other -/

namespace Store

/-- Writes a value to a target in the store `cur`. The positions are read in the store `st`. -/
def write (ω : Unknowns) (st cur : Store Γ) (f : Expr × Int) : Store Γ :=
  match f.1.root? with
  | some x => cur.set x (f.1.put ω st (cur.value x) f.2)
  | none => cur

def writes (ω : Unknowns) (st cur : Store Γ) (fields : List (Expr × Int)) : Store Γ :=
  fields.foldl (write ω st) cur

@[simp] theorem writes_cons (f : Expr × Int) (fields : List (Expr × Int)) :
    st.writes ω cur (f :: fields) = st.writes ω (st.write ω cur f) fields := rfl

theorem writes_append (fs gs : List (Expr × Int)) : st.writes ω cur (fs ++ gs) = st.writes ω (st.writes ω cur fs) gs :=
  foldl_append

theorem write_of_root {x : Symbol} (hx : f.1.root? = some x) :
    st.write ω cur f = cur.set x (f.1.put ω st (cur.value x) f.2) := by
  rw [write, hx]

theorem write_of_ne_root (h : f.1.root? ≠ some s) : (st.write ω cur f).value s = cur.value s := by
  unfold write
  split
  · rename_i x hx
    exact set_value_of_ne _ _ fun heq => h (heq ▸ hx)
  · rfl

theorem writes_of_not_root (h : ∀ f ∈ fields, f.1.root? ≠ some s) : (st.writes ω cur fields).value s = cur.value s := by
  induction fields generalizing cur with
  | nil => rfl
  | cons f fields ih =>
    rw [forall_mem_cons] at h
    rw [writes_cons, ih h.2, write_of_ne_root h.1]

theorem writes_of_mem
    (hroots : (fields.map fun f => f.1.root?).Nodup) (hf : f ∈ fields) (hs : f.1.root? = some s) :
    (st.writes ω cur fields).value s = (Γ.kind s).normalize (f.1.put ω st (cur.value s) f.2) := by
  induction fields generalizing cur with
  | nil => nomatch hf
  | cons g fields ih =>
    rw [map_cons, nodup_cons] at hroots
    rw [writes_cons]
    rcases mem_cons.mp hf with rfl | hf
    · have hlater : ∀ g ∈ fields, g.1.root? ≠ some s := fun g hg heq =>
        hroots.1 (mem_map.mpr ⟨g, hg, heq.trans hs.symm⟩)
      rw [writes_of_not_root hlater, write_of_root hs, set_value_self]
    · have hfirst : g.1.root? ≠ some s := fun heq => hroots.1 (mem_map.mpr ⟨f, hf, hs.trans heq.symm⟩)
      rw [ih hroots.2 hf, write_of_ne_root hfirst]

/-- Targets of different variables can be written one after the other. -/
theorem writeAll_eq_writes (hroots : (fields.map fun f => f.1.root?).Nodup) : st.writeAll ω fields = st.writes ω st fields := by
  refine Store.ext (funext fun s => ?_)
  by_cases h : ∃ f ∈ fields, f.1.root? = some s
  · obtain ⟨f, hf, hs⟩ := h
    rw [writeAll_of_mem hroots hf hs, writes_of_mem hroots hf hs]
  · have hnone : ∀ f ∈ fields, f.1.root? ≠ some s := fun f hf hs => h ⟨f, hf, hs⟩
    rw [writeAll_of_not_root hnone, writes_of_not_root hnone]

theorem writes_congr (h : ∀ f ∈ fields, st.SameOn f.1.steers st') : st.writes ω cur fields = st'.writes ω cur fields := by
  induction fields generalizing cur with
  | nil => rfl
  | cons f fields ih =>
    rw [forall_mem_cons] at h
    have hwrite : st.write ω cur f = st'.write ω cur f := by
      unfold write
      split
      · rw [(target_congr _ h.1).2]
      · rfl
    rw [writes_cons, writes_cons, hwrite, ih h.2]

end Store

theorem Store.SameOn.symm {ss : List Symbol} (h : st.SameOn ss st') : st'.SameOn ss st := fun s hs => (h s hs).symm

/-! ## Several assignments -/

/-- The second of two assignments reads nothing that the first one writes. -/
def Undisturbed (a b : Expr × Expr) : Prop :=
  ∀ p ∈ a.1.targets, ∀ x, p.root? = some x → (∀ q ∈ b.1.targets, x ∉ q.steers) ∧ x ∉ b.2.symbols

theorem Expr.map_root?_cut (ts : List Expr) (v : Int) : ((cut Γ ts v).map fun f => f.1.root?) = ts.map root? := by
  calc (cut Γ ts v).map (fun f => f.1.root?)
    _ = ((cut Γ ts v).map (·.1)).map root? := by rw [map_map]; rfl
    _ = ts.map root? := by rw [map_fst_cut]

theorem Expr.mem_targets_of_mem_cut {ts : List Expr} {v : Int} (h : f ∈ cut Γ ts v) : f.1 ∈ ts :=
  map_fst_cut (Γ := Γ) ts v ▸ mem_map_of_mem h

theorem Store.assign_eq_writes {a : Expr × Expr} (hroots : (a.1.targets.map root?).Nodup)
    (hsteers : ∀ q ∈ a.1.targets, st.SameOn q.steers cur) (hreads : st.SameOn a.2.symbols cur) :
    cur.assign ω a.1 a.2 = st.writes ω cur (cut Γ a.1.targets (a.2.value ω st)) := by
  rw [assign, receive, ← value_congr hreads, writeAll_eq_writes (by rwa [map_root?_cut])]
  exact writes_congr fun f hf => (hsteers f.1 (mem_targets_of_mem_cut hf)).symm

/-- Several assignments do what writing all their fields does, with every value and position found in the first store, when no
variable that is written is read later. -/
theorem foldl_assign {as : List (Expr × Expr)} (hroots : ∀ a ∈ as, (a.1.targets.map root?).Nodup)
    (hlater : as.Pairwise Undisturbed)
    (hcur : ∀ a ∈ as, (∀ q ∈ a.1.targets, st.SameOn q.steers cur) ∧ st.SameOn a.2.symbols cur) :
    as.foldl (fun st a => st.assign ω a.1 a.2) cur =
      st.writes ω cur (as.flatMap fun a => cut Γ a.1.targets (a.2.value ω st)) := by
  induction as generalizing cur with
  | nil => rfl
  | cons a as ih =>
    rw [forall_mem_cons] at hroots hcur
    obtain ⟨hfirst, hrest⟩ := pairwise_cons.mp hlater
    rw [foldl_cons, flatMap_cons, writes_append,
      assign_eq_writes hroots.1 hcur.1.1 hcur.1.2]
    refine ih hroots.2 hrest fun b hb => ?_
    -- what is read later is as before, since the first assignment does not write it
    have hkeep : ∀ x, (∀ p ∈ a.1.targets, p.root? ≠ some x) →
        (st.writes ω cur (cut Γ a.1.targets (a.2.value ω st))).value x = cur.value x := fun x hx =>
      writes_of_not_root fun f hf => hx f.1 (mem_targets_of_mem_cut hf)
    obtain ⟨hsteers, hreads⟩ := hcur.2 b hb
    refine ⟨fun q hq x hx => ?_, fun x hx => ?_⟩
    · rw [hkeep x fun p hp hroot => (hfirst b hb p hp x hroot).1 q hq hx]
      exact hsteers q hq x hx
    · rw [hkeep x fun p hp hroot => (hfirst b hb p hp x hroot).2 hx]
      exact hreads x hx

end HdlLowering
