import HdlLowering.Proofs.Execution.Store

/-!
# Clock cycles

An entity whose body has assignments and choices only runs once in every clock cycle. Assignments take effect at once, and a
cycle starts with what the one before left in registers and array cells. `Expr.IsWord` and `Expr.IsBit` are rules for
expressions over registers of a fixed width.
-/

namespace HdlLowering

open Bits Stmt Kind List

variable {Γ : SymbolTable}

/-! ## Words and bits -/

def Expr.rawIn (st : Store Γ) (e : Expr) : Option Int := e.raw Γ (st.known e.symbols)

/-- An expression has a value in a store, as an unsigned word of a width. -/
structure Expr.IsWord (st : Store Γ) (e : Expr) (w : Int64) (v : Int) : Prop where
  type : e.type Γ = .uint w
  value : e.valueIn st = some v

abbrev Expr.IsBit (st : Store Γ) (e : Expr) (b : Bool) : Prop := e.IsWord st 1 (ofBool b)

theorem Kind.join_uint (w : Int64) : (uint w).join (.uint w) = .uint w := by
  simp [join, signed, underlying, width]

theorem Bits.ofBool_lt (b : Bool) : 0 ≤ ofBool b ∧ ofBool b < values 1 := by
  cases b <;> decide

namespace Expr

variable {st : Store Γ} {w : Int64} {x y : Expr} {u v : Int} {a b : Bool} (l : Loc)

theorem isWord_ref {s : Symbol} (h : (Γ.kind s).underlying = .uint w) (hv : st.value s = v) :
    (ref l s).IsWord st w v where
  type := h
  value := hv ▸ valueIn_ref st l s

theorem rawIn_ref (s : Symbol) : (ref l s).rawIn st = some (st.value s) :=
  st.get?_known (mem_singleton_self s)

theorem isWord_int (h0 : 0 ≤ v) (h : v < values w) : (int l false w v).IsWord st w v where
  type := rfl
  value := congrArg some (normalize_uint h0 h)

theorem IsWord.rawIn_binary (op : BinaryOp) (hx : x.IsWord st w u) (hy : y.IsWord st w v) :
    (binary l op x y).rawIn st = op.eval w (some u) (some v) := by
  have hu := eval_known st x (x.symbols ++ y.symbols) fun s hs => mem_append_left _ hs
  have hv := eval_known st y (x.symbols ++ y.symbols) fun s hs => mem_append_right _ hs
  rw [hx.value] at hu
  rw [hy.value] at hv
  have hwidth : x.width Γ = w := by rw [width, hx.type, Kind.width]
  rw [rawIn, symbols_binary, raw, hwidth]
  exact congrArg₂ (op.eval w) hu hv

section

variable (hx : x.IsWord st w u) (hy : y.IsWord st w v)
include hx hy

theorem IsWord.joined {l : Loc} {op : BinaryOp} {r : Int}
    (htype : (binary l op x y).type Γ = (x.type Γ).join (y.type Γ)) (hr : op.eval w (some u) (some v) = some r)
    (h0 : 0 ≤ r) (h : r < values w) : (binary l op x y).IsWord st w r := by
  have ht : (binary l op x y).type Γ = .uint w := by rw [htype, hx.type, hy.type, join_uint]
  refine ⟨ht, ?_⟩
  have hraw := hx.rawIn_binary l op hy
  rw [hr] at hraw
  change ((binary l op x y).rawIn st).map _ = _
  rw [hraw, ht, Option.map_some, normalize_uint h0 h]

theorem IsWord.add (h0 : 0 ≤ u + v) (h : u + v < values w) : (binary l .add x y).IsWord st w (u + v) :=
  hx.joined hy rfl rfl h0 h

theorem IsWord.sub (h0 : 0 ≤ u - v) (h : u - v < values w) : (binary l .sub x y).IsWord st w (u - v) :=
  hx.joined hy rfl rfl h0 h

theorem IsWord.eq : (binary l .eq x y).IsBit st (decide (u = v)) where
  type := rfl
  value := by
    change ((binary l .eq x y).rawIn st).map _ = _
    rw [hx.rawIn_binary l .eq hy]
    exact congrArg some (normalize_ofBool _)

end

variable (hx : x.IsBit st a)
include hx

theorem IsWord.and (hy : y.IsBit st b) : (Expr.binary l .and x y).IsBit st (a && b) := by
  have h : Bits.and (ofBool a) (ofBool b) = ofBool (a && b) := by
    cases a <;> cases b <;> rfl
  exact hx.joined hy rfl (congrArg some h) (ofBool_lt _).1 (ofBool_lt _).2

theorem IsWord.or (hy : y.IsBit st b) : (Expr.binary l .or x y).IsBit st (a || b) := by
  have h : Bits.or (ofBool a) (ofBool b) = ofBool (a || b) := by
    cases a <;> cases b <;> rfl
  exact hx.joined hy rfl (congrArg some h) (ofBool_lt _).1 (ofBool_lt _).2

theorem IsWord.complement : (unary l .complement x).IsBit st (!a) where
  type := hx.type
  value := by
    have ht : (unary l .complement x).type Γ = .uint 1 := hx.type
    rw [valueIn_unary, hx.value, fit, ht]
    cases a <;> rfl

end Expr

/-! ## Machines -/

/-- An assignment that was made: what it was to, the value assigned, and the store it was made in. -/
structure Write (Γ : SymbolTable) where
  target : Expr
  value : Expr
  store : Store Γ

def Write.Exact (w : Write Γ) : Prop := w.value.rawIn w.store = w.value.valueIn w.store

def Write.Inside (w : Write Γ) (size : Nat) : Prop :=
  ∀ l a i, w.target = .index l a i → ∃ v, i.valueIn w.store = some v ∧ 0 ≤ v ∧ v < size

/-- What an entity holds: the values of its symbols and the cells of its arrays. The assignments made so far are kept. -/
structure Machine (Γ : SymbolTable) where
  store : Store Γ
  cell : Symbol → Int → Int
  writes : List (Write Γ) := []

namespace Machine

variable (m : Machine Γ)

/-- The element of an array that an expression stands for, with its type. There is none outside of the array. -/
def element? : Expr → Option (Symbol × Kind × Int)
  | .index _ (.ref _ a) i =>
    match (Γ.kind a).underlying with
    | .array elem size => ((i.valueIn m.store).filter fun v => 0 ≤ v && v < size.toInt).map fun v => (a, elem, v)
    | _ => none
  | _ => none

/-- The value of an expression, which may be an element of an array. -/
def read (e : Expr) : Option Int :=
  match m.element? e with
  | some (a, _, i) => some (m.cell a i)
  | none => e.valueIn m.store

theorem element?_index {idx : Expr} {a : Symbol} {elem : Kind} {size : Int64} {i : Int} (l l' : Loc)
    (ha : (Γ.kind a).underlying = .array elem size) (hi : idx.valueIn m.store = some i) (h0 : 0 ≤ i) (hsize : i < size.toInt) :
    m.element? (.index l (.ref l' a) idx) = some (a, elem, i) := by
  simp [element?, ha, hi, h0, hsize]

def set (s : Symbol) (v : Int) : Machine Γ := { m with store := m.store.set s v }

def setCell (a : Symbol) (i v : Int) : Machine Γ :=
  { m with cell := fun b j => if b = a ∧ j = i then v else m.cell b j }

def note (target value : Expr) : Machine Γ := { m with writes := m.writes ++ [⟨target, value, m.store⟩] }

def assign (lhs rhs : Expr) : Option (Machine Γ) :=
  (rhs.valueIn m.store).bind fun v =>
    match lhs with
    | .ref _ s => some ((m.note lhs rhs).set s v)
    | _ => (m.element? lhs).map fun (a, elem, i) => (m.note lhs rhs).setCell a i (elem.normalize v)

end Machine

mutual
/-- Runs a statement within a clock cycle. Only assignments, choices and blocks can be. -/
def Stmt.exec : Stmt → Machine Γ → Option (Machine Γ)
  | .assign _ lhs rhs, m => m.assign lhs rhs
  | .block _ body, m => execList body m
  | .cond _ c yes no, m =>
    (c.valueIn m.store).bind fun v => if v = 0 then execList no m else execList yes m
  | _, _ => none

def Stmt.execList : List Stmt → Machine Γ → Option (Machine Γ)
  | [], m => some m
  | s :: ss, m => (s.exec m).bind (execList ss)
end

theorem Stmt.exec_assign {m : Machine Γ} {rhs : Expr} {v : Int} (l l' : Loc) (s : Symbol) (h : rhs.valueIn m.store = some v) :
    (assign l (.ref l' s) rhs).exec m = some ((m.note (.ref l' s) rhs).set s v) := by
  rw [exec, Machine.assign, h]
  rfl

theorem Stmt.exec_assign_element {m : Machine Γ} {idx rhs : Expr} {a : Symbol} {elem : Kind} {size : Int64} {i v : Int}
    (l l' l'' : Loc) (ha : (Γ.kind a).underlying = .array elem size) (hi : idx.valueIn m.store = some i) (h0 : 0 ≤ i)
    (hsize : i < size.toInt) (h : rhs.valueIn m.store = some v) :
    (assign l (.index l' (.ref l'' a) idx) rhs).exec m =
      some ((m.note (.index l' (.ref l'' a) idx) rhs).setCell a i (elem.normalize v)) := by
  rw [exec, Machine.assign, h, Option.bind_some, m.element?_index l' l'' ha hi h0 hsize]
  rfl

theorem Stmt.exec_yes {m m' : Machine Γ} {c : Expr} (l : Loc) {yes : List Stmt} (no : List Stmt) (hc : c.IsBit m.store true)
    (h : execList yes m = some m') : (cond l c yes no).exec m = some m' := by
  rw [exec, hc.value]
  exact h

theorem Stmt.exec_no {m m' : Machine Γ} {c : Expr} (l : Loc) (yes : List Stmt) {no : List Stmt} (hc : c.IsBit m.store false)
    (h : execList no m = some m') : (cond l c yes no).exec m = some m' := by
  rw [exec, hc.value]
  exact h

theorem Stmt.execList_cons {m m' m'' : Machine Γ} {s : Stmt} {ss : List Stmt} (h : s.exec m = some m')
    (h' : execList ss m' = some m'') : execList (s :: ss) m = some m'' := by
  rw [execList, h]
  exact h'

namespace Entity

variable (e : Entity)

def declared? (Γ : SymbolTable) (name : String) : Option Symbol :=
  (e.decls.find? fun d => Γ.name d.symbol == name).map (·.symbol)

variable (m : Machine Γ)

def drive (pin : String × Int) : Machine Γ :=
  match e.declared? Γ pin.1 with
  | some s => m.set s pin.2
  | none => m

def cycle (pins : List (String × Int)) : Option (Machine Γ) :=
  execList e.stmts (pins.foldl e.drive m)

/-- What is seen at an output: the source of its connection, or else what it holds. -/
def output (name : String) : Option Int :=
  (e.declared? Γ name).bind fun s =>
    match e.connects.find? fun c => c.sinks.any fun x => x.symbol? == some s with
    | some c => m.read c.source
    | none => some (m.store.value s)

def startDecl (d : Decl) : Machine Γ :=
  match d.init.bind fun x => x.eval Γ {} with
  | some v => m.set d.symbol v
  | none => m

/-- The start: the declared initial values, and anything where none is declared. -/
def start : Machine Γ := e.decls.foldl startDecl { m with writes := [] }

def run (inputs : List (List (String × Int))) : Option (Machine Γ) := inputs.foldlM e.cycle m

/-- A run of cycles follows a specification when every cycle does. -/
theorem run_follows {σ ι : Type} {R : σ → Machine Γ → Prop} {next : σ → ι → σ} {pins : ι → List (String × Int)}
    (hcycle : ∀ a m i, R a m → ∃ m', e.cycle m (pins i) = some m' ∧ R (next a i) m') (is : List ι) {a : σ} {m : Machine Γ}
    (h : R a m) : ∃ m', e.run m (is.map pins) = some m' ∧ R (is.foldl next a) m' := by
  induction is generalizing a m with
  | nil => exact ⟨m, rfl, h⟩
  | cons i is ih =>
    obtain ⟨m1, hm1, h1⟩ := hcycle a m i h
    obtain ⟨m', hm', h'⟩ := ih h1
    refine ⟨m', ?_, h'⟩
    rw [map_cons, run, foldlM_cons, hm1]
    exact hm'

end Entity

end HdlLowering
