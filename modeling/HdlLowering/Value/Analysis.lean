import HdlLowering.Tree.Preorder
import HdlLowering.Value.Eval

/-!
# Static analysis of a body

`analyze` records, for every statement in the order of `Stmt.nodesList`, the values known on entry, or nothing for one that is
never reached. What holds everywhere, such as the values of constants, is given from outside; after a fence or a jump only
that is known, because what follows runs in a later clock cycle.
-/

namespace HdlLowering

open Bindings

/-- The bindings on entry to each statement of a body in the order they are written; nothing for a statement not
reached. -/
abbrev Records := List (Option Bindings)

variable (Γ : SymbolTable)

/-- Known values after an equation between two expressions turned out true: a plain reference on one side has
the value of the other side. -/
def refineEq (lhs rhs : Expr) (b : Bindings) : Bindings :=
  match lhs.symbol?, rhs.eval Γ b with
  | some s, some v => b.bind Γ s v
  | _, _ =>
    match rhs.symbol?, lhs.eval Γ b with
    | some s, some v => b.bind Γ s v
    | _, _ => b

/-- Known values after a condition turned out true or false. -/
def refine : Expr → Bool → Bindings → Bindings
  | .unary _ .not x, truth, b => refine x (!truth) b
  | .binary _ .eq x y, true, b => refineEq Γ x y b
  | .binary _ .ne x y, false, b => refineEq Γ x y b
  | .binary _ .both x y, true, b => refine y true (refine x true b)
  | .binary _ .either x y, false, b => refine y false (refine x false b)
  | .ref _ s, true, b => if (Γ.kind s).width = 1 then b.bind Γ s 1 else b
  | .ref _ s, false, b => b.bind Γ s 0
  | _, _, b => b

/-- Whether one of the conditions of an arm equals a value: nothing when a condition before the first equal one
is unknown. -/
def condsMatch (b : Bindings) (v : Int) : List Expr → Option Bool
  | [] => some false
  | c :: cs =>
    match c.eval Γ b with
    | none => none
    | some x => if x = v then some true else condsMatch b v cs

/-- An arm of a case statement: one of its clauses by position, or the default. -/
inductive Arm where
  | clause (index : Nat)
  | fallback
  deriving DecidableEq

def Arm.succ : Arm → Arm
  | .clause i => .clause (i + 1)
  | .fallback => .fallback

/-- The arm taken for a value of the subject, when the conditions up to it are known. -/
def chooseArm (b : Bindings) (v : Int) : List Clause → Option Arm
  | [] => some .fallback
  | c :: cs =>
    match condsMatch Γ b v c.conds with
    | none => none
    | some true => some (.clause 0)
    | some false => (chooseArm b v cs).map .succ

def Arm.body (clauses : List Clause) (fallback : Option (List Stmt)) : Arm → List Stmt
  | .clause i => (clauses[i]?.map (·.body)).getD []
  | .fallback => fallback.getD []

def hasFence (ss : List Stmt) : Bool :=
  (Stmt.nodesList ss).any fun
    | .stmt (.fence _) => true
    | _ => false

def deadRecords (ss : List Stmt) : Records := (Node.stmts (Stmt.nodesList ss)).map fun _ => none

def clauseEntry (subject : Expr) (conds : List Expr) (b : Bindings) : Bindings :=
  match conds with
  | [c] => refineEq Γ subject c b
  | _ => b

variable (base : Bindings)

mutual
/-- The records of a statement entered with known values, and what is known after it; nothing when control never
gets there. -/
def Stmt.analyze : Stmt → Bindings → Records × Option Bindings
  | .assign _ lhs rhs, b =>
    ([some b], some (match lhs.symbol?, rhs.eval Γ b with
      | some s, some v => b.bind Γ s v
      | _, _ => b.drop lhs.roots))
  | .decl _ d, b =>
    ([some b], some (match d.init.bind (·.eval Γ b) with
      | some v => b.bind Γ d.symbol v
      | none => b.drop [d.symbol]))
  | .block _ body, b =>
    let (rs, out) := Stmt.analyzeList body (some b)
    (some b :: rs, out)
  | .cond _ c t e, b =>
    match c.eval Γ b with
    | some v =>
      if v ≠ 0 then
        let (rs, out) := Stmt.analyzeList t (some b)
        (some b :: (rs ++ deadRecords e), out)
      else
        let (rs, out) := Stmt.analyzeList e (some b)
        (some b :: (deadRecords t ++ rs), out)
    | none =>
      let (rt, outT) := Stmt.analyzeList t (some (refine Γ c true b))
      let (re, outE) := Stmt.analyzeList e (some (refine Γ c false b))
      (some b :: (rt ++ re), meet? outT outE)
  | .case _ x cs d, b =>
    match (x.eval Γ b).bind fun v => chooseArm Γ b v cs with
    | some arm =>
      let (rc, outC) := Clause.analyzeChosen b arm cs
      let (rd, outD) := Stmt.analyzeDefault (if arm = .fallback then some b else none) d
      (some b :: (rc ++ rd), meet? outC outD)
    | none =>
      let (rc, outC) := Clause.analyzeList x b cs
      let (rd, outD) := Stmt.analyzeDefault (some b) d
      (some b :: (rc ++ rd), meet? outC outD)
  | .loop _ body, b =>
    let inner := if hasFence body then base else b.drop (Γ.written body).symbols
    let (rs, _) := Stmt.analyzeList body (some inner)
    (some b :: rs, some inner)
  | .fence _, b => ([some b], some base)
  | .goto _ _, b => ([some b], some base)
  | .break _, b => ([some b], none)
  | .continue _, b => ([some b], none)
  | .read _, b => ([some b], some ⟨b.entries.filter fun e => !(Γ.kind e.1).isPipeline⟩)
  | .write _, b => ([some b], some b)
  | .expr _ _, b => ([some b], some b)
  | .stall _ _, b => ([some b], some b)

/-- The records of some statements; a statement that nothing falls through to starts from what always holds. -/
def Stmt.analyzeList : List Stmt → Option Bindings → Records × Option Bindings
  | [], b => ([], b)
  | s :: ss, b =>
    let (r, b') := Stmt.analyze s (b.getD base)
    let (rs, out) := Stmt.analyzeList ss b'
    (r ++ rs, out)

def Stmt.analyzeDefault (b : Option Bindings) :
    Option (List Stmt) → Records × Option Bindings
  | none => ([], b)
  | some body =>
    match b with
    | some b => Stmt.analyzeList body (some b)
    | none => (deadRecords body, none)

/-- The records of the arms of a case statement when any of them may be taken. -/
def Clause.analyzeList (subject : Expr) (b : Bindings) :
    List Clause → Records × Option Bindings
  | [] => ([], none)
  | { conds, body, .. } :: cs =>
    let (r, out) := Stmt.analyzeList body (some (clauseEntry Γ subject conds b))
    let (rs, outs) := Clause.analyzeList subject b cs
    (r ++ rs, meet? out outs)

/-- The records of the arms of a case statement when only one of them is taken. -/
def Clause.analyzeChosen (b : Bindings) :
    Arm → List Clause → Records × Option Bindings
  | _, [] => ([], none)
  | arm, { body, .. } :: cs =>
    match arm with
    | .clause 0 =>
      let (r, out) := Stmt.analyzeList body (some b)
      (r ++ cs.flatMap (fun c => deadRecords c.body), out)
    | .clause (i + 1) =>
      let (rs, out) := Clause.analyzeChosen b (.clause i) cs
      (deadRecords body ++ rs, out)
    | .fallback =>
      let (rs, out) := Clause.analyzeChosen b .fallback cs
      (deadRecords body ++ rs, out)
end

/-- The bindings on entry to every statement of a body, given what holds at every point of it. -/
def analyze (stmts : List Stmt) (initial : Bindings) : Records :=
  (Stmt.analyzeList Γ initial stmts (some initial)).1

/-- One round of evaluating the constants among some declarations that have no value yet. -/
def constRound (decls : List Decl) (b : Bindings) : Bindings :=
  decls.foldl (fun b d =>
    if (Γ.kind d.symbol).isConst && (b.get? d.symbol).isNone then
      match (d.init.or (Γ.init d.symbol)).bind (·.eval Γ b) with
      | some v => b.bind Γ d.symbol v
      | none => b
    else b) b

/-- The values of the constants that an entity declares. They may use each other in any order, so rounds are repeated; every round
but the last gives one more constant its value. -/
def constBindings (e : Entity) : Bindings :=
  e.decls.length.repeat (constRound Γ e.decls) {}

/-- Evaluates the constant of a declaration if it has no value yet. -/
def giveConst (b : Bindings) (d : Decl) : Except Crash Bindings :=
  match d.init.or (Γ.init d.symbol) with
  | some x =>
    if (Γ.kind d.symbol).isConst && (b.get? d.symbol).isNone then do
      match ← x.evaluate Γ b with
      | some v => b.bound Γ d.symbol v
      | none => return b
    else return b
  | none => return b

/-- The evaluation of the constants of an entity, until it stops. Its answer is `constBindings`. -/
def constants (e : Entity) : Except Crash Bindings :=
  e.decls.length.repeat (· >>= e.decls.foldlM (giveConst Γ)) (pure {})

end HdlLowering
