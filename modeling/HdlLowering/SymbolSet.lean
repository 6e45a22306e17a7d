import HdlLowering.SymbolTable

/-!
# Sets of symbols

A set is kept in the order of the numbers of its symbols, by which they are told apart.
-/

namespace HdlLowering

structure Member where
  id : Int64
  symbol : Symbol
  deriving DecidableEq

/-- A set of symbols: its members, by ascending number. -/
structure SymbolSet where
  members : List Member := []
  deriving DecidableEq, Inhabited

namespace SymbolSet

def insertMember (m : Member) : List Member → List Member
  | [] => [m]
  | x :: xs => if m.id < x.id then m :: x :: xs else if m.id = x.id then m :: xs else x :: insertMember m xs

variable (s : SymbolSet)

def has (m : Member) : Bool := s.members.any (·.id == m.id)

def insert (m : Member) : SymbolSet := ⟨insertMember m s.members⟩

def erase (m : Member) : SymbolSet := ⟨s.members.filter (·.id != m.id)⟩

def ofList (ms : List Member) : SymbolSet := ms.foldl insert {}

def union (s o : SymbolSet) : SymbolSet := o.members.foldl insert s

def inter (s o : SymbolSet) : SymbolSet := ⟨s.members.filter o.has⟩

def size : Nat := s.members.length

def isEmpty : Bool := s.members.isEmpty

def symbols : List Symbol := s.members.map (·.symbol)

end SymbolSet

def SymbolTable.member (Γ : SymbolTable) (s : Symbol) : Member := ⟨Γ.id s, s⟩

def SymbolTable.setOf (Γ : SymbolTable) (ss : List Symbol) : SymbolSet := SymbolSet.ofList (ss.map Γ.member)

end HdlLowering
