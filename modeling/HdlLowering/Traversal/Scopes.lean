/-!
# Scope stacks

What belongs to the enclosing entities and statements. Taking from an empty stack gives nothing and leaves it empty.
-/

namespace HdlLowering

structure Scopes (α : Type) where
  items : List α := []
  deriving DecidableEq

namespace Scopes

variable {α : Type} (s : Scopes α)

def push (a : α) : Scopes α := ⟨a :: s.items⟩

def top? : Option α := s.items.head?

def pop : Scopes α := ⟨s.items.tail⟩

/-- The scope a number of levels above the innermost one. -/
def level? (levels : Nat) : Option α := s.items[levels]?

def modifyLevel (levels : Nat) (f : α → α) : Scopes α := ⟨s.items.modify levels f⟩

def size : Nat := s.items.length

def isEmpty : Bool := s.items.isEmpty

end Scopes

end HdlLowering
