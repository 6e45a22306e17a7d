import HdlLowering.Proofs.Value.Normalize

/-!
# Identity of kinds

`Kind.same` decides whether two kinds are built alike. The depth of a stack counts by which depth of the design it is, and what
a kind says about values does not depend on it.
-/

namespace HdlLowering.Kind

mutual
/-- A kind without the expressions of stack depths; which depth of the design each of them is stays. -/
def bare : Kind → Kind
  | .struct n fs => .struct n (bareFields fs)
  | .array e n => .array (bare e) n
  | .input k f => .input (bare k) f
  | .output k f st => .output (bare k) f st
  | .const k => .const (bare k)
  | .pipeline k => .pipeline (bare k)
  | .stack e d => .stack (bare e) { d with expr := default }
  | k => k

def bareFields : List (String × Kind) → List (String × Kind)
  | [] => []
  | (n, k) :: fs => (n, bare k) :: bareFields fs
end

mutual
/-- Kinds are the same exactly when they are equal once the expressions of depths are left out. -/
theorem same_iff : ∀ a b : Kind, a.same b = true ↔ a.bare = b.bare
  | .struct n fs, b => by cases b <;> simp [same, bare, sameFields_iff fs]
  | .output k f st, b => by cases b <;> simp [same, bare, same_iff k, and_comm, and_assoc]
  | .array k _, b | .input k _, b | .stack k _, b => by cases b <;> simp [same, bare, same_iff k, and_comm]
  | .const k, b | .pipeline k, b => by cases b <;> simp [same, bare, same_iff k]
  | .uint _, b | .sint _, b | .num _, b | .void, b | .entity _, b | .inst _, b => by cases b <;> simp [same, bare]

theorem sameFields_iff : ∀ fs gs : List (String × Kind), sameFields fs gs = true ↔ bareFields fs = bareFields gs
  | [], gs => by cases gs <;> simp [sameFields, bareFields]
  | (n, k) :: fs, gs => by cases gs <;> simp [sameFields, bareFields, same_iff k, sameFields_iff fs, and_assoc]
end

mutual
theorem width_bare : ∀ k : Kind, k.bare.width = k.width
  | .struct n fs => by rw [bare, width, width, widthFields_bare fs]
  | .array k _ | .input k _ | .output k _ _ | .const k | .pipeline k => by rw [bare, width, width, width_bare k]
  | .stack .. | .uint _ | .sint _ | .num _ | .void | .entity _ | .inst _ => rfl

theorem widthFields_bare : ∀ fs : List (String × Kind), widthFields (bareFields fs) = widthFields fs
  | [] => rfl
  | (n, k) :: fs => by rw [bareFields, widthFields, widthFields, width_bare k, widthFields_bare fs]
end

theorem underlying_bare (k : Kind) : k.bare.underlying = k.underlying.bare := by
  fun_induction underlying k with
  | case1 k f ih => exact ih
  | case2 k f st ih => exact ih
  | case3 k ih => exact ih
  | case4 k ih => exact ih
  | case5 k h1 h2 h3 h4 => cases k <;> simp_all [underlying, bare]

theorem signed_bare (k : Kind) : k.bare.signed = k.signed := by
  rw [signed, signed, underlying_bare]
  cases k.underlying <;> rfl

theorem isPort_bare (k : Kind) : k.bare.isPort = k.isPort := by
  cases k <;> rfl

/-- Comparing kinds decides whether they are equal but for the expressions of depths, it is an equivalence, every kind is the same
as its copy, and kinds that are the same have the same width, sign, direction and underlying kind. -/
theorem same_decides_identity (a b : Kind) :
    (a.same b = true ↔ a.bare = b.bare) ∧ Equivalence (fun a b => same a b = true) ∧ a.same a.clone = true ∧
      (a.same b = true → a.width = b.width ∧ a.signed = b.signed ∧ a.isPort = b.isPort ∧
        a.underlying.same b.underlying = true) := by
  have hequiv : Equivalence (fun a b => same a b = true) := by
    simp only [same_iff]
    exact ⟨fun _ => rfl, Eq.symm, Eq.trans⟩
  refine ⟨same_iff a b, hequiv, a.clone_eq.symm ▸ hequiv.refl a, fun h => ?_⟩
  have hbare := (same_iff a b).mp h
  refine ⟨?_, ?_, ?_, ?_⟩
  · rw [← width_bare, hbare, width_bare]
  · rw [← signed_bare, hbare, signed_bare]
  · rw [← isPort_bare, hbare, isPort_bare]
  · rw [same_iff, ← underlying_bare, hbare, underlying_bare]

end HdlLowering.Kind
