import HdlLowering.Tree.Preorder

/-!
# Symbols that a design mentions

The symbols of its nodes, the ports of entities and the entities of instances among them, and what these mention in turn.
-/

namespace HdlLowering

def Node.symbols : Node → List Symbol
  | .entity e => [e.symbol]
  | .decl d => [d.symbol]
  | .inst i => [i.symbol, i.entity]
  | .expr (.ref _ s) => [s]
  | _ => []

namespace SymbolTable

variable (Γ : SymbolTable)

def neighbours (s : Symbol) : List Symbol := Γ.entityPorts s ++ (Γ.instanceEntity? s).toList

def unseen (seen : List Symbol) : List Symbol → List Symbol
  | [] => []
  | s :: ss => if seen.contains s then unseen seen ss else s :: unseen (s :: seen) ss

/-- The symbols reached from some, round by round, together with those already seen. -/
def reach : Nat → List Symbol → List Symbol → List Symbol
  | 0, seen, _ => seen
  | rounds + 1, seen, frontier =>
    match unseen seen frontier with
    | [] => seen
    | new => reach rounds (seen ++ new) (new.flatMap Γ.neighbours)

def mentions (seen : List Symbol) (r : Root) : List Symbol :=
  Γ.reach (Γ.entries.size + 1) seen (r.nodes.flatMap Node.symbols)

def byNumber (ss : List Symbol) : List Symbol := ss.mergeSort fun a b => Γ.id a ≤ Γ.id b

end SymbolTable

end HdlLowering
