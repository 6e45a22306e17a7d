import HdlLowering.SymbolTable
import HdlLowering.Value.Bits

/-!
# Known values

Which symbols hold a known value. `Bindings.bind` records a value of the kind of the symbol, `Bindings.drop` forgets symbols,
and `Bindings.meet` keeps what two of them agree on.
-/

namespace HdlLowering

/-- The known values of symbols, at most one for each. -/
structure Bindings where
  entries : List (Symbol × Int) := []
  deriving DecidableEq

namespace Bindings

def get? (b : Bindings) (s : Symbol) : Option Int := b.entries.lookup s

def erase (b : Bindings) (s : Symbol) : Bindings := ⟨b.entries.filter (·.1 != s)⟩

def set (b : Bindings) (s : Symbol) (v : Int) : Bindings := ⟨(s, v) :: (b.erase s).entries⟩

/-- Records the value of a symbol, cut to its kind. -/
def bind (Γ : SymbolTable) (b : Bindings) (s : Symbol) (v : Int) : Bindings :=
  b.set s ((Γ.kind s).underlying.normalize v)

def drop (b : Bindings) (ss : List Symbol) : Bindings := ⟨b.entries.filter fun e => !ss.contains e.1⟩

/-- What both sides agree on. -/
def meet (a b : Bindings) : Bindings := ⟨a.entries.filter fun e => b.get? e.1 == some e.2⟩

/-- What holds where two ways of control come together; a way that control never takes says nothing. -/
def meet? : Option Bindings → Option Bindings → Option Bindings
  | none, b => b
  | a, none => a
  | some a, some b => some (a.meet b)

end Bindings

end HdlLowering
