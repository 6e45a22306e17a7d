import HdlLowering.Proofs.Concatenation.Regrouping

/-!
# Constants dealt out to concatenations

The literals that a constant is dealt out to are side by side its lowest bits, and each is a value of the type of its part
(`assignReply_constant`). Widths are added as words: `WrappedTotal.kept` is an assignment that stays because they add up to
zero.
-/

namespace HdlLowering

open List Expr Bits Word

variable {Γ : SymbolTable} {b : Bindings} {v : Int} {fs : List (Nat × Int)}

/-- The values of some expressions with their numbers of bits, if all are known. -/
def Expr.knownFields (Γ : SymbolTable) (b : Bindings) : List Expr → Option (List (Nat × Int))
  | [] => some []
  | e :: es =>
    if e.width Γ = 0 then none
    else (e.eval Γ b).bind fun v => (knownFields Γ b es).map ((e.bits Γ, v) :: ·)

theorem Expr.rawParts_eq (ps : List Expr) (front : Int) : rawParts Γ b front ps = (knownFields Γ b ps).map (join front) := by
  induction ps generalizing front with
  | nil => rfl
  | cons p ps ih =>
    have heval : p.fit Γ (p.raw Γ b) = p.eval Γ b := rfl
    rw [rawParts, knownFields, heval]
    by_cases hw : p.width Γ = 0
    · cases p.eval Γ b <;> simp [hw]
    · cases p.eval Γ b with
      | none => simp [hw]
      | some v =>
        simp only [hw, if_false, ih, Option.bind_some, Option.map_map, unsigned_eq]
        congr 1

theorem Expr.count_knownFields {ps : List Expr} (h : knownFields Γ b ps = some fs) : Bits.count fs = bitsList Γ ps := by
  induction ps generalizing fs with
  | nil =>
    obtain rfl := Option.some.inj h
    rfl
  | cons p ps ih =>
    rw [knownFields] at h
    split at h
    · cases h
    · obtain ⟨v, -, h⟩ := Option.bind_eq_some_iff.mp h
      obtain ⟨gs, hgs, rfl⟩ := Option.map_eq_some_iff.mp h
      rw [Bits.count_cons, Expr.bitsList_cons, ih hgs]

theorem Expr.Adds.eval_cat {ps : List Expr} (h : Expr.Adds Γ ps)
    (hfs : knownFields Γ b ps = some fs) (l : Loc) : (cat l ps).eval Γ b = some (join 0 fs) := by
  have htype : (cat l ps).type Γ = .uint ((cat l ps).width Γ) := by
    rw [Expr.width, type]
    rfl
  obtain ⟨h0, hlt⟩ := join_bounds fs
  rw [count_knownFields hfs, ← h.bits_cat l, bits] at hlt
  rw [eval, fit, raw, rawParts_eq, hfs, Option.map_some, Option.map_some, htype]
  exact congrArg some (Kind.normalize_uint h0 (by rwa [values_eq]))

/-- The fields of a value put side by side again are its lowest bits. -/
theorem Bits.join_cut (front v : Int) (ts : List Expr) :
    join front ((cut Γ ts v).map fun f => (f.1.bits Γ, f.2)) =
      front * 2 ^ bitsList Γ ts + v % 2 ^ bitsList Γ ts := by
  induction ts generalizing front with
  | nil => simp [cut, join]
  | cons t ts ih =>
    rw [cut, map_cons, join, ih, bitsList_cons, Nat.add_comm, emod_two_pow_add, pow_add]
    ring

/-! ## Values of a kind -/

/-- A value that a kind of a width holds: an unsigned one of as many bits, or a signed one. -/
def Kind.InRange (k : Kind) (v : Int) : Prop :=
  if k.signed then -2 ^ (size k.width - 1) ≤ v ∧ v < 2 ^ (size k.width - 1)
  else 0 ≤ v ∧ v < 2 ^ size k.width

theorem Kind.inRange_normalize {k : Kind} (h : 0 < k.width) (v : Int) : k.InRange (k.normalize v) := by
  have hne : k.width ≠ 0 := (Int64.ne_of_lt h).symm
  have hlow := unsigned_nonneg v k.width
  have hhigh := unsigned_lt v k.width
  have hhalf : (2 : Int) ^ size k.width = 2 * 2 ^ (size k.width - 1) := by
    rw [← pow_succ', Nat.sub_add_cancel (size_pos.mpr h)]
  rw [values_eq] at hhigh
  unfold Kind.InRange
  simp only [Kind.normalize, hne, if_false, values_eq]
  cases k.signed with
  | false => exact ⟨hlow, hhigh⟩
  | true =>
    simp only [if_true, Bool.true_and, decide_eq_true_eq]
    split <;> omega

namespace Concatenation

variable {ps : List Expr} {l : Loc}

def literals (Γ : SymbolTable) (l : Loc) (v : Int) (ps : List Expr) : List Expr :=
  (cut Γ ps v).map fun f => .ofValue l f.2 (f.1.type Γ)

theorem ofValue_unsigned {k : Kind} (h : 0 < k.width) (l : Loc) (v : Int) :
    ofValue l (unsigned v k.width) k = .ofValue l v k := by
  have hne : k.width ≠ 0 := (Int64.ne_of_lt h).symm
  rw [ofValue, ofValue, if_pos h, if_pos h, Kind.normalize_eq_of_unsigned hne (unsigned_unsigned v k.width)]

/-- A constant is dealt out to the parts of a concatenation, one literal for each. -/
theorem dealOut_eq {w : Int64} (hpositive : ∀ p ∈ ps, 0 < p.width Γ) (hw : w.toInt = bitsList Γ ps) :
    dealOut Γ l v w ps = some ((ps.zip (literals Γ l v ps)).map fun a => .assign l a.1 a.2) := by
  induction ps generalizing w with
  | nil => rfl
  | cons p ps ih =>
    rw [forall_mem_cons] at hpositive
    have hne : p.width Γ ≠ 0 := (Int64.ne_of_lt hpositive.1).symm
    have hmost := Int64.toInt_lt w
    have hsize := size_eq (Int64.le_of_lt hpositive.1)
    rw [bitsList_cons, bits] at hw
    -- what is left of the width is that of the later parts
    have hleft : (w - p.width Γ).toInt = bitsList Γ ps := by
      have hlimit := limit_eq
      rw [toInt_sub] <;> omega
    have hshift : size (w - p.width Γ) = bitsList Γ ps := by
      rw [size, hleft]
      exact Int.toNat_natCast _
    have hliteral := ofValue_unsigned (k := p.type Γ) hpositive.1 l (v >>> bitsList Γ ps)
    rw [← width] at hliteral
    simp only [dealOut, hne, if_false, ih hpositive.2 hleft, hshift, hliteral]
    rfl

theorem forall₂_literals (hpositive : ∀ p ∈ ps, 0 < p.width Γ) : Forall₂
    (fun p x => ∃ u, x = .int l (p.type Γ).signed (p.width Γ) u ∧ (p.type Γ).InRange u) ps (literals Γ l v ps) := by
  induction ps with
  | nil => exact .nil
  | cons p ps ih =>
    rw [forall_mem_cons] at hpositive
    have hpos : 0 < (p.type Γ).width := hpositive.1
    refine .cons ⟨(p.type Γ).normalize (v >>> bitsList Γ ps), ?_, Kind.inRange_normalize hpos _⟩ (ih hpositive.2)
    exact if_pos hpos

theorem width_ofValue {p : Expr} (h : 0 < p.width Γ) (l : Loc) (v : Int) : (ofValue l v (p.type Γ)).width Γ = p.width Γ :=
  (type_ofValue Γ l v (Or.inr h)).width.symm

section

variable (hpositive : ∀ p ∈ ps, 0 < p.width Γ)
include hpositive

theorem map_width_literals : (literals Γ l v ps).map (width Γ) = ps.map (width Γ) := by
  induction ps with
  | nil => rfl
  | cons p ps ih =>
    rw [forall_mem_cons] at hpositive
    rw [literals, cut, map_cons, map_cons, map_cons, width_ofValue hpositive.1, ← literals, ih hpositive.2]

theorem adds_literals (hroom : (bitsList Γ ps : Int) < limit) : Adds Γ (literals Γ l v ps) where
  width x hx := by
    have hmem : x.width Γ ∈ ps.map (width Γ) := map_width_literals (l := l) (v := v) hpositive ▸ mem_map_of_mem hx
    obtain ⟨p, hp, heq⟩ := mem_map.mp hmem
    exact heq ▸ Int64.le_of_lt (hpositive p hp)
  span := by
    have hspan := congrArg (fun ws : List Int64 => (ws.map Int64.toInt).sum) (map_width_literals (l := l) (v := v) hpositive)
    simp only [map_map] at hspan
    rw [bitsList_eq_span fun p hp => Int64.le_of_lt (hpositive p hp)] at hroom
    exact lt_of_eq_of_lt hspan hroom

theorem knownFields_literals (b : Bindings) : ∃ fs, knownFields Γ b (literals Γ l v ps) = some fs ∧
      ∀ front, join front fs = join front ((cut Γ ps v).map fun f => (f.1.bits Γ, f.2)) := by
  induction ps with
  | nil => exact ⟨[], rfl, fun _ => rfl⟩
  | cons p ps ih =>
    rw [forall_mem_cons] at hpositive
    obtain ⟨fs, hfs, hjoin⟩ := ih hpositive.2
    have hpos : 0 < (p.type Γ).width := hpositive.1
    have hwidth := width_ofValue hpositive.1 l (v >>> bitsList Γ ps)
    have heval : (ofValue l (v >>> bitsList Γ ps) (p.type Γ)).eval Γ b =
        some ((p.type Γ).normalize (v >>> bitsList Γ ps)) := by
      rw [← eval_ofValue Γ b l (Or.inr hpos) (Kind.normalize_normalize (p.type Γ) (v >>> bitsList Γ ps)),
        ofValue, ofValue, if_pos hpos, if_pos hpos, Kind.normalize_normalize]
    refine ⟨(p.bits Γ, (p.type Γ).normalize (v >>> bitsList Γ ps)) :: fs, ?_, fun front => ?_⟩
    · rw [literals, cut, map_cons, knownFields, hwidth, if_neg (Int64.ne_of_lt hpositive.1).symm, heval,
        Option.bind_some, ← literals, hfs, Option.map_some, bits, hwidth]
      rfl
    · have hlow := Kind.unsigned_normalize (p.type Γ) (v >>> bitsList Γ ps)
      simp only [unsigned_eq, values_eq] at hlow
      rw [cut, map_cons, join, join, hjoin]
      exact congrArg (fun u => join (front * 2 ^ p.bits Γ + u) _) hlow

theorem eval_literals (hroom : (bitsList Γ ps : Int) < limit)
    (b : Bindings) (l' : Loc) : (cat l' (literals Γ l v ps)).eval Γ b = some (v % 2 ^ bitsList Γ ps) := by
  obtain ⟨fs, hfs, hjoin⟩ := knownFields_literals (l := l) (v := v) hpositive b
  rw [(adds_literals hpositive hroom).eval_cat hfs, hjoin, join_cut, zero_mul, zero_add]

end

theorem assignReply_of_eval {s : Session Unit} {lc : Loc} {rhs : Expr} {o : Option (List Stmt)}
    (hrhs : rhs.isCat = false) (hv : rhs.eval s.ctx.symbols {} = some v)
    (ho : (if (cat lc ps).width s.ctx.symbols = 0 then none
      else dealOut s.ctx.symbols l v ((cat lc ps).width s.ctx.symbols) ps) = o) :
    assignReply l (.cat lc ps) rhs s =
      .ok (o.elim .keep fun out => .put (.several (out.map fun x => .node (.stmt x)))) s := by
  generalize hlhs : cat lc ps = lhs at ho ⊢
  unfold assignReply
  split
  · nomatch hrhs
  · obtain ⟨rfl, rfl⟩ := cat.inj hlhs
    rw [bind_ok (PassM.symbols_ok s)]
    simp only [hv, ho]
    cases o <;> rfl
  · rename_i hno _
    exact absurd hlhs.symm (hno lc ps)

/-- A constant assigned to parts of positive widths becomes one literal for each part, within the range of its type, and the
literals side by side are the lowest bits of the constant. The widths add up to a word. -/
theorem assignReply_constant {s : Session Unit} {l lc : Loc} {ps : List Expr} {rhs : Expr} {v : Int} (hrhs : rhs.isCat = false)
    (hv : rhs.eval s.ctx.symbols {} = some v) (hpositive : ∀ p ∈ ps, 0 < p.width s.ctx.symbols)
    (hroom : (bitsList s.ctx.symbols ps : Int) < Word.limit) : ∃ r xs, assignReply l (.cat lc ps) rhs s = .ok r s ∧
      (ps ≠ [] → r = .put (.several ((ps.zip xs).map fun a => .node (.stmt (.assign l a.1 a.2))))) ∧
      Forall₂ (fun p x => ∃ u, x = .int l (p.type s.ctx.symbols).signed (p.width s.ctx.symbols) u ∧
        (p.type s.ctx.symbols).InRange u) ps xs ∧
      ∀ b l', (Expr.cat l' xs).eval s.ctx.symbols b = some (v % 2 ^ bitsList s.ctx.symbols ps) := by
  have hadds : Adds s.ctx.symbols ps :=
    ⟨fun p hp => Int64.le_of_lt (hpositive p hp), bitsList_eq_span (fun p hp => Int64.le_of_lt (hpositive p hp)) ▸ hroom⟩
  have htotal : ((cat lc ps).width s.ctx.symbols).toInt = bitsList s.ctx.symbols ps := by
    rw [bitsList_eq_span hadds.width, ← hadds.toInt_widths, width, type]
    rfl
  cases ps with
  | nil => exact ⟨.keep, [], assignReply_of_eval hrhs hv rfl, fun h => absurd rfl h, .nil, eval_literals (l := l) hpositive hroom⟩
  | cons p ps =>
    -- some part has bits, so the total width is not zero
    have hzero : (cat lc (p :: ps)).width s.ctx.symbols ≠ 0 := by
      intro hzero
      have hpos := size_pos.mpr (hpositive p mem_cons_self)
      rw [hzero, bitsList_cons, bits, Int64.toInt_zero] at htotal
      omega
    have hdealt := dealOut_eq (l := l) (v := v) hpositive htotal
    refine ⟨_, literals s.ctx.symbols l v (p :: ps), assignReply_of_eval hrhs hv ((if_neg hzero).trans hdealt), fun _ => ?_,
      forall₂_literals hpositive, eval_literals hpositive hroom⟩
    rw [Option.elim_some, map_map]
    rfl

namespace NegativeConstant

def table : SymbolTable := ⟨#[.value 1 "x" (.sint 3), .value 2 "m" (.array (.uint 2) 2), .value 3 "y" (.uint 1)]⟩

def parts : List Expr := [.ref {} ⟨0⟩, .ref {} ⟨1⟩, .ref {} ⟨2⟩]

def constant : Expr := .num {} true (-300)

def session : Session Unit := ⟨{ symbols := table }, ()⟩

def dealt : List Expr := [.int {} true 3 (-2), .int {} false 4 10, .int {} false 1 0]

theorem dealt_right : (∀ p ∈ parts, 0 < p.width table) ∧ (bitsList table parts : Int) < Word.limit ∧
    assignReply {} (.cat {} parts) constant session =
      .ok (.put (.several ((parts.zip dealt).map fun a => .node (.stmt (.assign {} a.1 a.2))))) session ∧
    ∀ b l, (Expr.cat l dealt).eval table b = some ((-300) % 2 ^ 8) := by
  have hpositive : ∀ p ∈ parts, 0 < p.width table := by decide
  have hroom : (bitsList table parts : Int) < Word.limit := by decide
  have hreply : assignReply {} (.cat {} parts) constant session =
      .ok (.put (.several ((parts.zip dealt).map fun a => .node (.stmt (.assign {} a.1 a.2))))) session := by
    with_unfolding_all rfl
  obtain ⟨r, xs, hr, hput, hxs, heval⟩ := @assignReply_constant session {} {} parts constant (-300) rfl rfl hpositive hroom
  obtain rfl : dealt = xs := by
    rw [hreply, hput (by decide)] at hr
    have hlength : xs.length = 3 := hxs.length_eq.symm
    match xs, hlength with
    | [x, y, z], _ =>
      simp only [EStateM.Result.ok.injEq, Reply.put.injEq, Forest.several.injEq, parts, dealt, zip_cons_cons,
        zip_nil_left, map_cons, map_nil, cons.injEq, Forest.node.injEq, Node.stmt.injEq,
        Stmt.assign.injEq, true_and, and_true] at hr
      obtain ⟨rfl, rfl, rfl⟩ := hr
      rfl
  exact ⟨hpositive, hroom, hreply, heval⟩

end NegativeConstant

namespace WrappedTotal

def table : SymbolTable :=
  ⟨#[.value 1 "a" (.uint 0x4000000000000000), .value 2 "b" (.uint 0x4000000000000000),
    .value 3 "c" (.uint 0x4000000000000000), .value 4 "d" (.uint 0x4000000000000000)]⟩

def parts : List Expr := [.ref {} ⟨0⟩, .ref {} ⟨1⟩, .ref {} ⟨2⟩, .ref {} ⟨3⟩]

def session : Session Unit := ⟨{ symbols := table }, ()⟩

/-- The widths of the parts add up to zero as words, so the constant is not dealt out. -/
theorem kept : (∀ p ∈ parts, 0 < p.width table) ∧ (Expr.num {} false 5).eval table {} = some 5 ∧
    assignReply {} (.cat {} parts) (.num {} false 5) session = .ok .keep session :=
  ⟨by decide, rfl, assignReply_of_eval rfl rfl (if_pos (by decide))⟩

end WrappedTotal

end Concatenation

end HdlLowering
