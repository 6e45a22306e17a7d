import HdlLowering.Traversal.Walk
import HdlLowering.Tree.Preorder
import HdlLowering.Value.Eval

/-!
# Concatenations

The pass flattens concatenations, and splits an assignment or a connection between two of them into one for each group of
parts with the same number of bits on both sides. A group with several parts on both sides is split further by cutting the
leading part of the wider side, when that is a variable or a range of its bits. A constant is dealt out to the parts.

An assignment stays when a symbol stands on both sides or a width is not known. Sides of different widths are an error.
-/

namespace HdlLowering.Concatenation

open Word Expr ContextM Bits

/-- Parts of the target and parts of the source with the same total width. -/
structure Group where
  target : List Expr
  source : List Expr

abbrev Part := Expr × Int64

/-- The parts of a concatenation with the parts of the concatenations directly inside it. -/
def flatParts (parts : List Expr) : List Expr :=
  parts.flatMap fun
    | .cat _ ps => ps
    | e => [e]

def isNested (parts : List Expr) : Bool :=
  parts.any fun
    | .cat .. => true
    | _ => false

/-- What stands for a concatenation: nested ones are flattened and a single part stands alone. -/
def flatten? (l : Loc) (parts : List Expr) : Option Expr :=
  match flatParts parts with
  | [e] => some e
  | flat => if isNested parts then some (.cat l flat) else none

variable (Γ : SymbolTable)

def measured? (parts : List Expr) : Option (List Part) :=
  parts.mapM fun e => if e.width Γ = 0 then none else some (e, e.width Γ)

def total (parts : List Part) : Int64 := (parts.map (·.2)).foldl (· + ·) 0

/-- A group in the making, with the widths of both sides. -/
structure Open where
  group : Group
  targetWidth : Int64
  sourceWidth : Int64

/-- The finest groups, in order, that have the same width on both sides. -/
def groups : Option Open → List Part → List Part → List Group
  | none, t :: ts, s :: ss => groups (some ⟨⟨[t.1], [s.1]⟩, t.2, s.2⟩) ts ss
  | none, _, _ => []
  | some o, ts, ss =>
    if o.targetWidth = o.sourceWidth then o.group :: groups none ts ss
    else if o.targetWidth < o.sourceWidth then
      match ts with
      | t :: ts =>
        groups (some { o with
          group := { o.group with target := o.group.target ++ [t.1] }, targetWidth := o.targetWidth + t.2 }) ts ss
      | [] => [o.group]
    else
      match ss with
      | s :: ss =>
        groups (some { o with
          group := { o.group with source := o.group.source ++ [s.1] }, sourceWidth := o.sourceWidth + s.2 }) ts ss
      | [] => [o.group]
termination_by o ts ss => 2 * (ts.length + ss.length) + (if o.isSome then 1 else 0)

/-- Some bits of an expression; a single bit is an index. -/
def bitRange (base : Expr) (msb lsb : Int64) : Expr :=
  if msb = lsb then .index base.loc base (.ofInt msb.toInt)
  else .slice base.loc base (.ofInt msb.toInt) (.ofInt lsb.toInt)

def bitsOf? : Expr → Option (Expr × Int64 × Int64)
  | .ref l s =>
    match (Γ.kind s).underlying with
    | .uint _ | .sint _ => some (.ref l s, (Γ.kind s).width - 1, 0)
    | _ => none
  | .slice _ (.ref l s) msb lsb => do
    let hi ← msb.literal?
    let lo ← lsb.literal?
    return (.ref l s, low hi, low lo)
  | _ => none

/-- Cuts a number of the highest bits off a variable or a range of bits; something must be left. -/
def splitTop? (e : Expr) (count : Int64) : Option (Expr × Expr) := do
  let (base, hi, lo) ← bitsOf? Γ e
  if count ≤ 0 || hi - lo < count then none
  else return (bitRange base hi (hi - count + 1), bitRange base (hi - count) lo)

/-- Splits a group with several parts on both sides as far as the leading parts can be cut. -/
def peel : List Expr → List Expr → List Group
  | t :: t' :: ts, s :: s' :: ss =>
    let wt := t.width Γ
    let ws := s.width Γ
    if wt = ws then ⟨[t], [s]⟩ :: peel (t' :: ts) (s' :: ss)
    else if ws < wt then
      match splitTop? Γ t ws with
      | some (top, rest) => ⟨[top], [s]⟩ :: peel (rest :: t' :: ts) (s' :: ss)
      | none => [⟨t :: t' :: ts, s :: s' :: ss⟩]
    else
      match splitTop? Γ s wt with
      | some (top, rest) => ⟨[t], [top]⟩ :: peel (t' :: ts) (rest :: s' :: ss)
      | none => [⟨t :: t' :: ts, s :: s' :: ss⟩]
  | ts, ss => [⟨ts, ss⟩]
termination_by ts ss => ts.length + ss.length

def overlap (target source : List Expr) : Bool :=
  let written := Γ.setOf (Node.refs (nodesList target))
  (Node.refs (nodesList source)).any fun s => written.has (Γ.member s)

/-- The groups that two concatenations are split into, or nothing when they stay as they are. -/
def regroup (loc : Loc) (target source : List Expr) : ContextM (Option (List Group)) := do
  let Γ ← symbols
  if overlap Γ target source then
    return none
  match measured? Γ target, measured? Γ source with
  | some ts, some ss =>
    if total ts ≠ total ss then
      error loc (.widthMismatch (total ts) (total ss))
      return none
    let gs := (groups none ts ss).flatMap fun g => peel Γ g.target g.source
    match gs with
    | [g] => if g.target.length = target.length && g.source.length = source.length then return none else return some gs
    | _ => return some gs
  | _, _ => return none

/-- The bits of a constant dealt out to some parts, the first part the highest bits. -/
def dealOut (loc : Loc) (v : Int) : Int64 → List Expr → Option (List Stmt)
  | _, [] => some []
  | offset, e :: es => do
    let w := e.width Γ
    if w = 0 then none
    else
      let rest := offset - w
      let field := unsigned (v >>> size rest) w
      return .assign loc e (ofValue loc field (e.type Γ)) :: (← dealOut loc v rest es)

def assignReply (l : Loc) (lhs rhs : Expr) : PassM Unit Reply := do
  match lhs, rhs with
  | .cat _ target, .cat _ source =>
    match ← regroup l target source with
    | some gs =>
      return .put (.several (gs.map fun g => .node (.stmt (.assign l (concat g.target) (concat g.source)))))
    | none => return .keep
  | .cat _ target, _ =>
    let Γ ← PassM.symbols
    match rhs.eval Γ {} with
    | some v =>
      let w := lhs.width Γ
      match if w = 0 then none else dealOut Γ l v w target with
      | some ss => return .put (.several (ss.map fun s => .node (.stmt s)))
      | none => return .keep
    | none => return .keep
  | _, _ => return .keep

def connectReply (c : Connect) : PassM Unit Reply := do
  match c.source, c.sinks with
  | .cat _ source, [.cat _ target] =>
    match ← regroup c.loc target source with
    | some gs =>
      return .put (.several (gs.map fun g => .node (.connect ⟨c.loc, concat g.source, [concat g.target]⟩)))
    | none => return .keep
  | _, _ => return .keep

def pass : Pass Unit where
  name := "SimplifyCat"
  transform
    | .expr (.cat l parts) =>
      match flatten? l parts with
      | some e => return .put (.node (.expr e))
      | none => return .keep
    | .stmt (.assign l lhs rhs) => assignReply l lhs rhs
    | .connect c => connectReply c
    | _ => return .keep

end HdlLowering.Concatenation
