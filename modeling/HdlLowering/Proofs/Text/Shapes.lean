import HdlLowering.Proofs.Value.Simplification

/-!
# What the text of an expression shows

The text of an expression shows neither locations nor whether a number without a size is signed, and a negative number looks
like the negation of a positive one. What is left is its shape. Negative bounds of a slice and negative counts of replications
are excluded: these are literals, and their negations are not.
-/

namespace HdlLowering

open List UnaryOp

/-! ## Legible expressions -/

/-- Characters that end a word. -/
def delimiters : List Char := [' ', '(', ')', '[', ']', '\x7b', '\x7d', '.', ',', ':']

def UnaryOp.known : List UnaryOp := [.plus, .minus, .complement, .not, .allOnes, .anyOne, .parity]

def BinaryOp.known : List BinaryOp :=
  [.add, .sub, .mul, .div, .rem, .and, .or, .xor, .shiftLeft, .shiftRight, .shiftRightSigned, .eq, .ne, .lt, .le, .gt, .ge,
    .both, .either]

def UnaryOp.ofChar? (c : Char) : Option UnaryOp := known.find? (·.text.toList == [c])

/-- A word that starts with neither a digit nor a unary operator. -/
def Identifier (s : String) : Prop :=
  (∀ c ∈ s.toList, c ∉ delimiters) ∧ ∃ c ∈ s.toList.head?, c.isDigit = false ∧ ofChar? c = none

/-- Symbols whose names are distinct identifiers. -/
structure Scope (Γ : SymbolTable) where
  symbols : List Symbol
  identifiers : ∀ s ∈ symbols, Identifier (Γ.name s)
  distinct : ∀ s ∈ symbols, ∀ t ∈ symbols, Γ.name s = Γ.name t → s = t

variable {Γ : SymbolTable} (scope : Scope Γ)

namespace Expr

/-- A number that is written with a minus sign. -/
def negative : Expr → Bool
  | .num _ _ v => v < 0
  | _ => false

/-- The text of an expression starts with a unary operator. -/
def prefixed : Expr → Bool
  | .unary .. => true
  | e => e.negative

/-- What an expression must be, apart from its operands, for its text to show how it is built. -/
def Clear : Expr → Prop
  | .ref _ s => s ∈ scope.symbols
  | .int _ _ w _ => 0 ≤ w
  | .unary _ op _ => op ∈ known
  | .binary _ op _ _ => op ∈ BinaryOp.known
  | .rep _ n _ => n.negative = false
  | .index _ x _ => x.prefixed = false
  | .slice _ x m l => x.prefixed = false ∧ m.negative = false ∧ l.negative = false
  | .select _ x f => x.prefixed = false ∧ Identifier f
  | .call _ f _ => f.prefixed = false
  | _ => True

def Legible (e : Expr) : Prop := ∀ x ∈ e.subterms, x.Clear scope

variable {scope} {e : Expr}

theorem Legible.clear (h : e.Legible scope) : e.Clear scope := h e e.self_mem_subterms

theorem Legible.operand (h : e.Legible scope) {x : Expr} (hx : x ∈ e.operands) : x.Legible scope :=
  fun y hy => h y (mem_subterms_of_operand hx hy)

/-! ## Shapes -/

/-- The shape of a number without a size. -/
def number (v : Int) : Expr :=
  if v < 0 then .unary .synthetic .minus (.num .synthetic false (-v)) else .num .synthetic false v

mutual
def shape : Expr → Expr
  | .ref _ s => .ref .synthetic s
  | .num _ _ v => number v
  | .int _ signed w v => .int .synthetic signed w v
  | .unary _ op x => .unary .synthetic op (shape x)
  | .binary _ op x y => .binary .synthetic op (shape x) (shape y)
  | .ternary _ c x y => .ternary .synthetic (shape c) (shape x) (shape y)
  | .cat _ ps => .cat .synthetic (shapes ps)
  | .rep _ n x => .rep .synthetic (shape n) (shape x)
  | .index _ x i => .index .synthetic (shape x) (shape i)
  | .slice _ x m l => .slice .synthetic (shape x) (shape m) (shape l)
  | .select _ x f => .select .synthetic (shape x) f
  | .call _ f as => .call .synthetic (shape f) (shapes as)

def shapes : List Expr → List Expr
  | [] => []
  | e :: es => shape e :: shapes es
end

theorem literal?_shape (h : e.negative = false) : e.shape.literal? = e.literal? := by
  cases e with
  | num l s v =>
    rw [shape, number, if_neg (of_decide_eq_false h)]
    rfl
  | _ => rfl

end Expr

/-! ## Types -/

/-- Types that are equal but for the sign of a number without a size. -/
def Kind.Near (a b : Kind) : Prop := a = b ∨ ∃ s s', a = .num s ∧ b = .num s'

namespace Kind.Near

variable {a a' b b' : Kind} (h : Near a b)
include h

theorem alike : a.Alike b := h.imp_right Or.inl

theorem fieldType (f : String) : a.fieldType Γ f = b.fieldType Γ f := by
  rcases h with rfl | ⟨s, s', rfl, rfl⟩ <;> rfl

theorem methodType (f : String) : Near (a.methodType Γ f) (b.methodType Γ f) := by
  unfold Kind.methodType
  rw [h.fieldType]
  split
  · exact h
  all_goals rcases h with rfl | ⟨s, s', rfl, rfl⟩ <;> exact .inl rfl

theorem join (h' : Near a' b') : Near (a.join a') (b.join b') := by
  rcases h with rfl | ⟨s, s', rfl, rfl⟩ <;> rcases h' with rfl | ⟨t, t', rfl, rfl⟩
  · exact .inl rfl
  · cases a <;> first | exact .inl rfl | exact .inr ⟨_, _, rfl, rfl⟩
  · cases a' <;> first | exact .inl rfl | exact .inr ⟨_, _, rfl, rfl⟩
  · exact .inr ⟨_, _, rfl, rfl⟩

end Kind.Near

namespace Expr

variable {scope} {e : Expr} {b : Bindings}

theorem widths_shapes : ∀ {es : List Expr}, (∀ e ∈ es, (e.shape.type Γ).Near (e.type Γ)) → widths Γ (shapes es) = widths Γ es
  | [], _ => rfl
  | e :: es, h => by
    rw [forall_mem_cons] at h
    rw [shapes, widths, widths, widths_shapes h.2, h.1.alike.width]

theorem type_shape (h : e.Legible scope) : (e.shape.type Γ).Near (e.type Γ) := by
  have hall : ∀ x ∈ e :: e.operands, (x.shape.type Γ).Near (x.type Γ) := by
    -- the type of a call depends on the operand of its function, so what is shown of an expression includes its operands
    induction e using of_operands with
    | h e ih =>
    have hops (x) (hx : x ∈ e.operands) := ih x hx (h.operand hx)
    have hnear (x) (hx : x ∈ e.operands) := hops x hx x (.head _)
    refine forall_mem_cons.mpr ⟨?_, hnear⟩
    have hclear := h.clear
    cases e with
    | ref | int => exact .inl rfl
    | num l s v =>
      rw [shape, number]
      split <;> exact .inr ⟨_, _, rfl, rfl⟩
    | unary l op x => cases op <;> first | exact .inl rfl | exact hnear x (.head _)
    | binary l op x y =>
      have hx := hnear x (.head _)
      cases op <;> first | exact .inl rfl | exact hx | exact hx.join (hnear y (.tail _ (.head _)))
    | ternary l c x y => exact (hnear x (.tail _ (.head _))).join (hnear y (.tail _ (.tail _ (.head _))))
    | cat l ps => exact .inl (congrArg Kind.uint (widths_shapes hnear))
    | rep l n x =>
      simp only [shape, type, literal?_shape hclear, (hnear x (.tail _ (.head _))).alike.width]
      exact .inl rfl
    | index l x i =>
      simp only [shape, type]
      rcases hnear x (.head _) with hx | ⟨s, s', hs, hs'⟩
      · exact .inl (by rw [hx])
      · exact .inl (by rw [hs, hs'])
    | slice l x m n =>
      simp only [shape, type, literal?_shape hclear.2.1, literal?_shape hclear.2.2]
      exact .inl rfl
    | select l x f => exact .inl ((hnear x (.head _)).fieldType f)
    | call l f as =>
      cases f with
      | select l x g => exact (hops _ (.head _) x (.tail _ (.head _))).methodType g
      | num l s v =>
        rw [shape, shape, number]
        split <;> exact .inl rfl
      | _ => exact .inl rfl
  exact hall e (.head _)

/-! ## Values -/

theorem width_shape (h : e.Legible scope) : e.shape.width Γ = e.width Γ := (type_shape h).alike.width

theorem fit_shape (h : e.Legible scope) (v : Option Int) : e.shape.fit Γ v = e.fit Γ v :=
  (fit_of_alike (type_shape h).alike v).symm

theorem rawParts_shapes : ∀ {es : List Expr} {acc : Int}, (∀ e ∈ es, e.Legible scope ∧ e.shape.raw Γ b = e.raw Γ b) →
    rawParts Γ b acc (shapes es) = rawParts Γ b acc es
  | [], _, _ => rfl
  | e :: es, acc, h => by
    rw [forall_mem_cons] at h
    simp only [shapes, rawParts, width_shape h.1.1, fit_shape h.1.1, h.1.2, rawParts_shapes h.2]

theorem raw_shape (h : e.Legible scope) : e.shape.raw Γ b = e.raw Γ b := by
  induction e using of_operands with
  | h e ih =>
  have hraw (x) (hx : x ∈ e.operands) : x.Legible scope ∧ x.shape.raw Γ b = x.raw Γ b := ⟨h.operand hx, ih x hx (h.operand hx)⟩
  have hfit : ∀ x ∈ e.operands, x.shape.fit Γ (x.shape.raw Γ b) = x.fit Γ (x.raw Γ b) ∧ x.shape.width Γ = x.width Γ :=
    fun x hx => ⟨by rw [(hraw x hx).2, fit_shape (hraw x hx).1], width_shape (hraw x hx).1⟩
  cases e with
  | ref | int | select | call => rfl
  | num l s v =>
    rw [shape, number]
    split
    · exact congrArg some (Int.neg_neg v)
    · rfl
  | cat l ps => exact rawParts_shapes hraw
  | index l x i =>
    simp only [operands, forall_mem_cons] at hfit
    simp only [shape, raw, hfit]
    rcases type_shape (hraw x (.head _)).1 with hx | ⟨s, s', hs, hs'⟩
    · rw [hx]
    · rw [hs, hs']
  | unary | binary | ternary | rep | slice =>
    simp only [operands, forall_mem_cons] at hfit
    simp only [shape, raw, hfit]

/-- An expression has the value of its shape. -/
theorem eval_shape (h : e.Legible scope) (b : Bindings) : e.shape.eval Γ b = e.eval Γ b := by
  rw [eval, eval, raw_shape h, fit_shape h]

end Expr

end HdlLowering
