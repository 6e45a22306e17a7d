import HdlLowering.Lowering.StackEntity
import HdlLowering.Proofs.Symbols.Steps
import HdlLowering.Proofs.Symbols.Table

/-!
# What a stack is made of

Making a stack adds its symbols to the table, one after the other, and declares each of them (`StackEntity.Laid`).
-/

namespace HdlLowering.StackEntity

open List

theorem DraftM.bind_ok {α β : Type} {x : DraftM α} {f : α → DraftM β} {u u' : Draft} {c c' : Context} {a : α}
    (h : x u c = .ok (a, u') c') : (x >>= f) u c = f a u' c' := by
  change (x u >>= fun p => f p.1 p.2) c = _
  rw [HdlLowering.bind_ok h]

/-- A symbol of a stack: its name, its kind and the value it starts with. -/
structure Row where
  name : String
  kind : Kind
  init : Option Expr := none

def signature (rows : List Row) : List (String × Kind) := rows.map fun r => (r.name, r.kind)

def declsAt (loc : Loc) (n : Nat) (rows : List Row) : List Decl := rows.mapIdx fun i r => ⟨loc, ⟨n + i⟩, r.init⟩

structure Laid (loc : Loc) (n : Nat) (rows : List Row) (u : Draft) (c : Context) : Prop where
  place : u.loc = loc
  ends : c.symbols.Ends n (signature rows)
  decls : u.decls = declsAt loc n rows

variable {loc : Loc} {n : Nat} {rows : List Row} {u : Draft} {c : Context}

section

variable (h : Laid loc n rows u c)
include h

theorem laid_reg (name : String) (kind : Kind) (init : Option Expr) :
    ∃ u' c', reg name kind init u c = .ok (⟨n + rows.length⟩, u') c' ∧ Laid loc n (rows ++ [⟨name, kind, init⟩]) u' c' := by
  have hsize : c.symbols.entries.size = n + rows.length := by simpa [signature] using h.ends.size
  have hends : (c.symbols.push { id := c.nextId, name, loc := u.loc, kind }).2.Ends n
      (signature (rows ++ [⟨name, kind, init⟩])) := by
    rw [signature, map_append]
    exact h.ends.push _
  have hdecls : u.decls ++ [⟨u.loc, ⟨n + rows.length⟩, init⟩] = declsAt loc n (rows ++ [⟨name, kind, init⟩]) := by
    rw [h.decls, h.place, declsAt, declsAt, mapIdx_concat]
  rw [← hsize] at hdecls ⊢
  cases init with
  | none => exact ⟨_, _, rfl, h.place, hends, hdecls⟩
  | some x => exact ⟨_, _, rfl, h.place, hends.modify ⟨c.symbols.entries.size⟩ (fun _ => rfl) (fun _ => rfl), hdecls⟩

theorem laid_port (name : String) (kind : Kind) (init : Option Expr) :
    ∃ u' c', port name kind init u c = .ok (⟨n + rows.length⟩, u') c' ∧ Laid loc n (rows ++ [⟨name, kind, init⟩]) u' c' := by
  obtain ⟨u', c', hreg, h'⟩ := laid_reg h name kind init
  exact ⟨_, c', (DraftM.bind_ok hreg).trans rfl, h'.place, h'.ends, h'.decls⟩

theorem laid_ports (kind : Kind) (names : List String) : ∃ u' c', (names.mapM fun name => port name kind none) u c =
        .ok ((range' (n + rows.length) names.length).map Symbol.mk, u') c' ∧
      Laid loc n (rows ++ names.map fun name => ⟨name, kind, none⟩) u' c' := by
  induction names generalizing rows u c with
  | nil => exact ⟨u, c, rfl, by simpa using h⟩
  | cons name names ih =>
    obtain ⟨u1, c1, hport, h1⟩ := laid_port h name kind none
    obtain ⟨u', c', hports, h'⟩ := ih h1
    refine ⟨u', c', ?_, by simpa using h'⟩
    rw [mapM_cons, DraftM.bind_ok hport, DraftM.bind_ok hports]
    simp
    rfl

theorem laid_setRole (s : Symbol) (role : Role) :
    ∃ c', (ContextM.setRole s role : DraftM Unit) u c = .ok ((), u) c' ∧ Laid loc n rows u c' :=
  ⟨_, rfl, h.place, h.ends.modify s (fun _ => rfl) (fun _ => rfl), h.decls⟩

end

def pin (n k : Nat) : Expr := .ofSymbol ⟨n + k⟩

def portsAt (n : Nat) : Ports where
  en := pin n 0
  push := pin n 1
  pop := pin n 2
  d := pin n 4
  q := pin n 5
  empty := pin n 6
  full := pin n 7

variable (elem : Kind) (depth : Int64)

def portRows : List Row :=
  let storage : Storage := if depth = 1 then .wire else .reg
  let init (v : Int) : Option Expr := if depth = 1 then none else some (.ofUInt 1 v)
  controlPorts.map (fun name => ⟨name, .input (.uint 1) .none, none⟩) ++
    [⟨"d", .input elem.clone .none, none⟩, ⟨"q", .output elem.clone .none .wire, none⟩,
      ⟨"empty", .output (.uint 1) .none storage, init 1⟩, ⟨"full", .output (.uint 1) .none storage, init 0⟩]

variable (c : Context)

theorem make_eq (loc : Loc) (elem : Kind) (depth : Int64) :
    ∃ u c', Laid loc c.symbols.entries.size (portRows elem depth) u c' ∧
      make elem depth { loc } c = (if depth = 1 then single (portsAt c.symbols.entries.size) elem
        else multi (portsAt c.symbols.entries.size) elem depth) u c' := by
  have h0 : Laid loc c.symbols.entries.size [] { loc } c := ⟨rfl, c.symbols.ends_nil, rfl⟩
  obtain ⟨u1, c1, hcontrol, h1⟩ := laid_ports h0 (.input (.uint 1) .none) controlPorts
  obtain ⟨u2, c2, hd, h2⟩ := laid_port h1 "d" (.input elem.clone .none) none
  obtain ⟨u3, c3, hq, h3⟩ := laid_port h2 "q" (.output elem.clone .none .wire) none
  obtain ⟨u4, c4, hempty, h4⟩ := laid_port h3 "empty" (.output (.uint 1) .none (if depth = 1 then .wire else .reg))
    (if depth = 1 then none else some (.ofUInt 1 1))
  obtain ⟨u5, c5, hfull, h5⟩ := laid_port h4 "full" (.output (.uint 1) .none (if depth = 1 then .wire else .reg))
    (if depth = 1 then none else some (.ofUInt 1 0))
  refine ⟨u5, c5, h5, ?_⟩
  rw [make, DraftM.bind_ok hcontrol, DraftM.bind_ok hd, DraftM.bind_ok hq, DraftM.bind_ok hempty, DraftM.bind_ok hfull]
  rfl

/-- An entity is made of rows that are laid from a position, with connections and a body. -/
structure MadeOf (loc : Loc) (n : Nat) (rows : List Row) (connects : List Connect) (stmts : List Stmt) (e : Entity)
    (Γ : SymbolTable) : Prop where
  ends : ∃ more, Γ.Ends n (signature rows ++ more)
  decls : e.decls = declsAt loc n rows
  connects : e.connects = connects
  stmts : e.stmts = stmts

theorem ofDepth_ok {name : String} {elem : Kind} {depth : Int64} {u : Draft} {c c' : Context} {connects : List Connect}
    {stmts : List Stmt} (hmake : make elem depth { loc } c = .ok ((connects, stmts), u) c') (h : Laid loc n rows u c') :
    ∃ e c'', ofDepth name loc elem depth c = .ok e c'' ∧ MadeOf loc n rows connects stmts e c''.symbols := by
  let entry : SymbolEntry := { id := c'.nextId, name, loc, cls := .type, kind := .entity u.ports }
  refine ⟨{ loc, symbol := ⟨c'.symbols.entries.size⟩, decls := u.decls, connects, stmts },
    { c' with symbols := (c'.symbols.push entry).2, nextId := c'.nextId + 1 }, ?_, ⟨_, h.ends.push entry⟩, h.decls, rfl, rfl⟩
  have hrun : (make elem depth).run { loc } c = .ok ((connects, stmts), u) c' := hmake
  rw [ofDepth, HdlLowering.bind_ok hrun]
  rfl

def oneRows : List Row :=
  portRows elem 1 ++ [⟨"s", elem.clone, none⟩, ⟨"valid", .uint 1, some (.ofUInt 1 0)⟩]

def oneConnects (loc : Loc) (n : Nat) : List Connect :=
  [wire loc (pin n 8) (pin n 5), wire loc (complement (pin n 9)) (pin n 6), wire loc (pin n 9) (pin n 7)]

def oneStmts (loc : Loc) (n : Nat) : List Stmt :=
  [.cond loc (pin n 0) [
    assign (pin n 8) (pin n 4),
    assign (pin n 9) (binary .and (complement (pin n 2)) (binary .or (pin n 9) (pin n 1)))] []]

/-- The entity made for a stack of depth one. -/
theorem ofDepth_one (name : String) (loc : Loc) (elem : Kind) : ∃ e c', ofDepth name loc elem 1 c = .ok e c' ∧
      MadeOf loc c.symbols.entries.size (oneRows elem) (oneConnects loc c.symbols.entries.size)
        (oneStmts loc c.symbols.entries.size) e c'.symbols := by
  obtain ⟨u1, c1, h1, hmake⟩ := make_eq c loc elem 1
  obtain ⟨u2, c2, hs, h2⟩ := laid_reg h1 "s" elem.clone none
  obtain ⟨u3, c3, hvalid, h3⟩ := laid_reg h2 "valid" (.uint 1) (some (.ofUInt 1 0))
  obtain ⟨c4, hrole, h4⟩ := laid_setRole h3 ⟨c.symbols.entries.size + 8⟩ .stackStorage
  refine ofDepth_ok (hmake.trans ?_) h4
  have hget : (get : DraftM Draft) u1 c1 = .ok (u1, u1) c1 := rfl
  rw [if_pos rfl, single, DraftM.bind_ok hget, DraftM.bind_ok hs, DraftM.bind_ok hvalid]
  refine (DraftM.bind_ok hrole).trans ?_
  rw [h1.place]
  rfl

def pointerWidth : Int64 := bitsFor (depth - 1).toUInt64

def manyRows : List Row :=
  portRows elem depth ++
    [⟨"ptr", .uint (pointerWidth depth), some (.ofUInt (pointerWidth depth) 0)⟩, ⟨"s", .array elem.clone depth, none⟩]

def top (n : Nat) : Expr := .index .synthetic (pin n 9) (pin n 8)

/-- The body of a stack of several elements when it is popped. -/
def onPop (n : Nat) (w : Int64) : List Stmt :=
  [assign (pin n 6) (binary .eq (pin n 8) (.ofUInt w 0)),
    assign (pin n 7) (.ofUInt 1 0),
    .cond .synthetic (complement (pin n 6)) [assign (pin n 8) (binary .sub (pin n 8) (.ofUInt w 1))] []]

def onPush (n : Nat) (w : Int64) (depth : Int64) : List Stmt :=
  [.cond .synthetic (binary .and (binary .and (complement (pin n 6)) (complement (pin n 7))) (pin n 1))
      [assign (pin n 8) (binary .add (pin n 8) (.ofUInt w 1))] [],
    assign (top n) (pin n 4),
    assign (pin n 6) (binary .and (pin n 6) (complement (pin n 1))),
    assign (pin n 7) (binary .eq (pin n 8) (.ofUInt w (depth - 1).toInt))]

def manyStmts (loc : Loc) (n : Nat) (depth : Int64) : List Stmt :=
  [.cond loc (pin n 0)
    [.cond .synthetic (pin n 2) (onPop n (pointerWidth depth)) (onPush n (pointerWidth depth) depth)] []]

/-- The entity made for a deeper stack. -/
theorem ofDepth_many (name : String) (loc : Loc) (elem : Kind) {depth : Int64} (hdepth : depth ≠ 1) :
    ∃ e c', ofDepth name loc elem depth c = .ok e c' ∧
      MadeOf loc c.symbols.entries.size (manyRows elem depth)
        [wire loc (top c.symbols.entries.size) (pin c.symbols.entries.size 5)]
        (manyStmts loc c.symbols.entries.size depth) e c'.symbols := by
  obtain ⟨u1, c1, h1, hmake⟩ := make_eq c loc elem depth
  obtain ⟨u2, c2, hptr, h2⟩ := laid_reg h1 "ptr" (.uint (pointerWidth depth)) (some (.ofUInt (pointerWidth depth) 0))
  obtain ⟨u3, c3, hs, h3⟩ := laid_reg h2 "s" (.array elem.clone depth) none
  obtain ⟨c4, hrole, h4⟩ := laid_setRole h3 ⟨c.symbols.entries.size + 9⟩ .stackStorage
  refine ofDepth_ok (hmake.trans ?_) h4
  have hget : (get : DraftM Draft) u1 c1 = .ok (u1, u1) c1 := rfl
  rw [if_neg hdepth, multi, DraftM.bind_ok hget]
  refine (DraftM.bind_ok hptr).trans ?_
  rw [DraftM.bind_ok hs]
  refine (DraftM.bind_ok hrole).trans ?_
  rw [h1.place]
  rfl

end HdlLowering.StackEntity
