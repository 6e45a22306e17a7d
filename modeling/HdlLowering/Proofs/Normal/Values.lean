import HdlLowering.Proofs.Normal.Widths

/-!
# Values of flattened expressions

Flattening an expression keeps its type and every value that it is known to have (`walk_keeps_value`), when no concatenation is
left with a single part that is no unsigned word, the widths of concatenations in others add up, and no count, bound or method
appears where there was a concatenation. `Bare` has an example for each.
-/

namespace HdlLowering

open List Bits

/-- An expression whose size and value flattening keeps: a single part that is left is an unsigned word, the widths of
concatenations in another add up, and no count, bound or function is a concatenation of which a literal or a selection is left. -/
def Expr.Flattens (Γ : SymbolTable) : Expr → Prop
  | .cat l ps => ((cat l ps).flat.isCat = false → ∃ w, (cat l ps).flat.type Γ = .uint w) ∧
    ∀ l' qs, .cat l' qs ∈ ps → Adds Γ qs
  | .rep _ n _ => n.flat.literal? = n.literal?
  | .slice _ _ m n => m.flat.literal? = m.literal? ∧ n.flat.literal? = n.literal?
  | .call _ f _ => f.isCat = true → ∀ l x g, f.flat ≠ .select l x g
  | _ => True

namespace Concatenation

open Expr

variable {Γ : SymbolTable} {b : Bindings} {e : Expr} {ps : List Expr}

/-- A flattened expression has the type of the expression and the values that this is known to have, and its parts add up when
those of the expression do. -/
structure Flatly (Γ : SymbolTable) (e : Expr) : Prop where
  type : e.flat.type Γ = e.type Γ
  eval : ∀ b, Sharper (e.eval Γ b) (e.flat.eval Γ b)
  adds : Adds Γ e.targets → Adds Γ e.flat.targets

theorem Flatly.width (h : Flatly Γ e) : e.flat.width Γ = e.width Γ := congrArg Kind.width h.type

theorem Flatly.bits (h : Flatly Γ e) : e.flat.bits Γ = e.bits Γ := congrArg size h.width

/-! ## Parts -/

theorem widths_append (es fs : List Expr) : widths Γ (es ++ fs) = widths Γ es + widths Γ fs := by
  induction es with
  | nil => simp [widths]
  | cons e es ih => rw [cons_append, widths, ih, widths, Int64.add_assoc]

theorem widths_targets (e : Expr) : widths Γ e.targets = e.width Γ := by
  rcases cat_or_targets e with ⟨l, ps, rfl⟩ | ⟨-, htargets⟩
  · rw [width, type]
    rfl
  · rw [htargets, widths, widths, Int64.add_zero]
    rfl

theorem isCat_of_mem_flatParts {q : Expr} (hq : q ∈ flatParts (ps.map flat)) : q.isCat = false :=
  (flatParts_unnested (forall_mem_map.mpr fun p _ => unnested_flat p) q hq).1

theorem targets_flat_cat (l : Loc) (ps : List Expr) : (cat l ps).flat.targets = flatParts (ps.map flat) := by
  rw [flat, flatList_eq]
  rcases flattened_cases l (ps.map flat) with ⟨q, hq, hflat⟩ | ⟨-, hflat⟩
  · rw [hflat, hq, targets_of_not_cat (isCat_of_mem_flatParts (hq ▸ mem_singleton_self q))]
  · rw [hflat]
    rfl

theorem widths_flatParts (h : ∀ p ∈ ps, p.flat.type Γ = p.type Γ) : widths Γ (flatParts (ps.map flat)) = widths Γ ps := by
  rw [flatParts_eq]
  induction ps with
  | nil => rfl
  | cons p ps ih =>
    rw [forall_mem_cons] at h
    rw [map_cons, flatMap_cons, widths_append, ih h.2, widths_targets, width, h.1, widths]

/-- What is said of the concatenations among some parts. -/
def NestedAdds (Γ : SymbolTable) (ps : List Expr) : Prop := ∀ l qs, .cat l qs ∈ ps → Adds Γ qs

theorem NestedAdds.tail {p : Expr} (h : NestedAdds Γ (p :: ps)) : NestedAdds Γ ps :=
  fun l qs hmem => h l qs (mem_cons_of_mem _ hmem)

theorem NestedAdds.flat {p : Expr} (h : NestedAdds Γ ps) (hp : p ∈ ps) (hflat : Flatly Γ p) (hcat : p.flat.isCat = true) :
    Adds Γ p.flat.targets := by
  cases hform : p.isCat with
  | false => rw [isCat_flat hform] at hcat; nomatch hcat
  | true =>
    cases p with
    | cat l qs => exact hflat.adds (h l qs hp)
    | _ => nomatch hform

theorem adds_single {x : Expr} (h : 0 ≤ x.width Γ) : Adds Γ [x] := by
  refine ⟨forall_mem_singleton.mpr h, ?_⟩
  have hmost := Int64.toInt_lt (x.width Γ)
  rw [span_cons, span_nil, Word.limit_eq]
  omega

theorem adds_flat (hadds : Adds Γ ps) (h : ∀ p ∈ ps, Flatly Γ p) (hnested : NestedAdds Γ ps) :
    Adds Γ (flatParts (ps.map flat)) := by
  have hparts : ∀ p ∈ ps, Adds Γ p.flat.targets := by
    intro p hp
    cases hcat : p.flat.isCat with
    | false =>
      rw [targets_of_not_cat hcat]
      exact adds_single ((h p hp).width ▸ hadds.width p hp)
    | true => exact hnested.flat hp (h p hp) hcat
  have hspan : span Γ ((ps.map flat).flatMap targets) = span Γ ps := by
    clear hadds hnested
    induction ps with
    | nil => rfl
    | cons p ps ih =>
      rw [forall_mem_cons] at h hparts
      rw [map_cons, flatMap_cons, span_append, ih h.2 hparts.2, span_cons, ← hparts.1.toInt_widths, widths_targets,
        h.1.width]
  rw [flatParts_eq]
  refine ⟨fun q hq => ?_, hspan ▸ hadds.span⟩
  obtain ⟨_, hmem, hq⟩ := mem_flatMap.mp hq
  obtain ⟨p, hp, rfl⟩ := mem_map.mp hmem
  exact (hparts p hp).width q hq

/-! ## Known parts -/

theorem knownFields_append {xs ys : List Expr} {fs gs : List (Nat × Int)} (hxs : knownFields Γ b xs = some fs)
    (hys : knownFields Γ b ys = some gs) : knownFields Γ b (xs ++ ys) = some (fs ++ gs) := by
  induction xs generalizing fs with
  | nil =>
    obtain rfl := Option.some.inj hxs
    exact hys
  | cons x xs ih =>
    rw [knownFields] at hxs
    split at hxs
    · cases hxs
    · rename_i hw
      obtain ⟨v, hv, hxs⟩ := Option.bind_eq_some_iff.mp hxs
      obtain ⟨fs', hfs', rfl⟩ := Option.map_eq_some_iff.mp hxs
      rw [cons_append, knownFields, if_neg hw, hv, Option.bind_some, ih hfs']
      rfl

theorem knownFields_of_eval {l : Loc} {v : Int} (h : (cat l ps).eval Γ b = some v) :
    ∃ fs, knownFields Γ b ps = some fs ∧ (Kind.uint (widths Γ ps)).normalize (join 0 fs) = v := by
  rw [eval, fit, raw, rawParts_eq, type, Option.map_map] at h
  exact Option.map_eq_some_iff.mp h

theorem knownFields_targets {v : Int} (hadds : e.isCat = true → Adds Γ e.targets) (hw : e.width Γ ≠ 0)
    (hv : e.eval Γ b = some v) : ∃ fs, knownFields Γ b e.targets = some fs ∧
      ∀ front rest, join front (fs ++ rest) = join front ((e.bits Γ, v) :: rest) := by
  cases hcat : e.isCat with
  | false =>
    refine ⟨[(e.bits Γ, v)], ?_, fun _ _ => rfl⟩
    rw [targets_of_not_cat hcat, knownFields, if_neg hw, hv]
    rfl
  | true =>
    cases e with
    | cat l qs =>
      have hqs : Adds Γ qs := hadds hcat
      obtain ⟨fs, hfs, -⟩ := knownFields_of_eval hv
      obtain rfl : join 0 fs = v := Option.some.inj ((hqs.eval_cat hfs l).symm.trans hv)
      refine ⟨fs, hfs, fun front rest => ?_⟩
      rw [hqs.bits_cat, ← count_knownFields hfs, join_nested]
    | _ => cases hcat

theorem knownFields_flatParts {fs : List (Nat × Int)} (h : ∀ p ∈ ps, Flatly Γ p) (hnested : NestedAdds Γ ps)
    (hfs : knownFields Γ b ps = some fs) : ∃ gs, knownFields Γ b (flatParts (ps.map flat)) = some gs ∧
      ∀ front, join front gs = join front fs := by
  rw [flatParts_eq]
  induction ps generalizing fs with
  | nil =>
    obtain rfl := Option.some.inj hfs
    exact ⟨[], rfl, fun _ => rfl⟩
  | cons p ps ih =>
    have hp := h p mem_cons_self
    rw [knownFields] at hfs
    split at hfs
    · cases hfs
    · rename_i hw
      obtain ⟨v, hv, hfs⟩ := Option.bind_eq_some_iff.mp hfs
      obtain ⟨fs', hfs', rfl⟩ := Option.map_eq_some_iff.mp hfs
      obtain ⟨gs', hgs', hjoin'⟩ := ih (fun q hq => h q (mem_cons_of_mem _ hq)) hnested.tail hfs'
      obtain ⟨gs, hgs, hjoin⟩ := knownFields_targets (fun hcat => hnested.flat mem_cons_self hp hcat)
        (hp.width ▸ hw) (hp.eval b v hv)
      refine ⟨gs ++ gs', knownFields_append hgs hgs', fun front => ?_⟩
      rw [hjoin, hp.bits, join, hjoin', join]

/-! ## Expressions -/

theorem Flatly.of_raw (hcat : e.isCat = false) (htype : e.flat.type Γ = e.type Γ)
    (hraw : ∀ b, Sharper (e.raw Γ b) (e.flat.raw Γ b)) : Flatly Γ e where
  type := htype
  eval b := by
    rw [Expr.eval, Expr.eval, fit, fit, htype]
    exact (hraw b).map _
  adds hadds := by
    rw [targets_of_not_cat hcat] at hadds
    rw [targets_of_not_cat (isCat_flat hcat)]
    exact adds_single (by rw [Expr.width, htype]; exact hadds.width e (mem_singleton_self e))

theorem Flatly.of_cat (l : Loc) (h : ∀ p ∈ ps, Flatly Γ p) (hself : (cat l ps).Flattens Γ) : Flatly Γ (.cat l ps) := by
  obtain ⟨hsingle, hnested⟩ := hself
  have hwidths := widths_flatParts fun p hp => (h p hp).type
  have hadds : Adds Γ ps → Adds Γ (cat l ps).flat.targets := fun hps => targets_flat_cat l ps ▸ adds_flat hps h hnested
  have hform : (cat l ps).flat = flattened l (ps.map flat) := by rw [flat, flatList_eq]
  rcases flattened_cases l (ps.map flat) with ⟨q, hq, hflat⟩ | ⟨-, hflat⟩
  · -- the part that is left is an unsigned word of the width of the whole
    rw [hflat] at hform
    rw [hform] at hsingle
    obtain ⟨w, hw⟩ := hsingle (isCat_of_mem_flatParts (hq ▸ mem_singleton_self q))
    have hwhole : widths Γ ps = w := by
      rw [← hwidths, hq, widths, widths, hw, Int64.add_zero]
      rfl
    refine ⟨by rw [hform, hw, Expr.type, hwhole], fun b v hv => ?_, hadds⟩
    obtain ⟨fs, hfs, rfl⟩ := knownFields_of_eval hv
    obtain ⟨gs, hgs, hjoin⟩ := knownFields_flatParts h hnested hfs
    rw [hq, knownFields] at hgs
    split at hgs
    · cases hgs
    · rename_i hne
      obtain ⟨u, hu, hgs⟩ := Option.bind_eq_some_iff.mp hgs
      obtain rfl : [(q.bits Γ, u)] = gs := by simpa [knownFields] using hgs
      have hbits : (2 : Int) ^ q.bits Γ = values w := by
        rw [values_eq, Expr.bits, Expr.width, hw]
        rfl
      have hwne : (Kind.uint w).width ≠ 0 := by rwa [Expr.width, hw] at hne
      have hfixed := normalize_of_eval hu
      rw [hw] at hfixed
      rw [hform, hu, hwhole, ← hjoin, join, join, zero_mul, zero_add, hbits, ← unsigned_eq]
      exact congrArg some (hfixed.symm.trans (Kind.normalize_eq_of_unsigned hwne (unsigned_unsigned u w).symm))
  · rw [hflat] at hform
    have htype : (Expr.cat l ps).flat.type Γ = (Expr.cat l ps).type Γ := by rw [hform, Expr.type, Expr.type, hwidths]
    refine ⟨htype, fun b v hv => ?_, hadds⟩
    obtain ⟨fs, hfs, rfl⟩ := knownFields_of_eval hv
    obtain ⟨gs, hgs, hjoin⟩ := knownFields_flatParts h hnested hfs
    rw [Expr.eval, fit, htype, hform, raw, rawParts_eq, hgs, Expr.type, Option.map_some, Option.map_some, hjoin]

theorem type_call_flat {l : Loc} {f : Expr} {as : List Expr} (hbase : ∀ x ∈ f.operands, x.flat.type Γ = x.type Γ)
    (hself : (call l f as).Flattens Γ) : (call l f as).flat.type Γ = (call l f as).type Γ := by
  rw [flat]
  cases f with
  | select l' x g =>
    rw [flat, type, type, hbase x mem_cons_self]
  | cat l' ps =>
    have hno := hself rfl
    cases hform : (cat l' ps).flat with
    | select l x g => exact absurd hform (hno l x g)
    | _ => rfl
  | _ => rfl

theorem flatly_of_flattens (e : Expr) (h : ∀ x ∈ e.subterms, x.Flattens Γ) : ∀ x ∈ e.subterms, Flatly Γ x := by
  induction e using of_operands with
  | h e ih =>
    have hbelow : ∀ y ∈ e.operands, ∀ x ∈ y.subterms, Flatly Γ x := fun y hy =>
      ih y hy fun x hx => h x (mem_subterms_of_operand hy hx)
    have hop : ∀ y ∈ e.operands, Flatly Γ y := fun y hy => hbelow y hy y (self_mem_subterms y)
    have hself := h e (self_mem_subterms e)
    have hwhole : Flatly Γ e := by
      cases e with
      | ref | num | int => exact .of_raw rfl rfl fun b => .refl _
      | unary l op x =>
        have hx := hop x mem_cons_self
        refine .of_raw rfl (by cases op <;> simp only [flat, type, hx.type]) fun b => ?_
        simp only [flat, raw, hx.width]
        exact (hx.eval b).bind _
      | binary l op x y =>
        have hx := hop x mem_cons_self
        have hy := hop y (mem_cons_of_mem _ mem_cons_self)
        refine .of_raw rfl (by cases op <;> simp only [flat, type, hx.type, hy.type]) fun b => ?_
        simp only [flat, raw, hx.width]
        exact BinaryOp.eval_sharper op _ (hx.eval b) (hy.eval b)
      | ternary l c x y =>
        have hc := hop c mem_cons_self
        have hx := hop x (by simp [operands])
        have hy := hop y (by simp [operands])
        refine .of_raw rfl (by simp only [flat, type, hx.type, hy.type]) fun b => ?_
        simp only [flat, raw]
        exact ternaryValue_sharper (hc.eval b) (hx.eval b) (hy.eval b)
      | cat l ps => exact .of_cat l hop hself
      | rep l n x =>
        have hn := hop n mem_cons_self
        have hx := hop x (mem_cons_of_mem _ mem_cons_self)
        have hliteral : n.flat.literal? = n.literal? := hself
        refine .of_raw rfl (by simp only [flat, type, hx.type, hliteral]) fun b => ?_
        simp only [flat, raw, hx.width]
        exact repValue_sharper _ (hn.eval b) (hx.eval b)
      | index l x i =>
        have hx := hop x mem_cons_self
        have hi := hop i (mem_cons_of_mem _ mem_cons_self)
        refine .of_raw rfl (by simp only [flat, type, hx.type]) fun b => ?_
        simp only [flat, raw, hx.type]
        split
        · exact .none _
        · exact indexValue_sharper (hx.eval b) (hi.eval b)
      | slice l x m n =>
        have hx := hop x mem_cons_self
        have hm := hop m (by simp [operands])
        have hn := hop n (by simp [operands])
        obtain ⟨hmsb, hlsb⟩ := hself
        refine .of_raw rfl (by simp only [flat, type, hmsb, hlsb]) fun b => ?_
        simp only [flat, raw]
        exact sliceValue_sharper (hx.eval b) (hm.eval b) (hn.eval b)
      | select l x f =>
        have hx := hop x mem_cons_self
        exact .of_raw rfl (by simp only [flat, type, hx.type]) fun b => .none _
      | call l f as =>
        have hf := hbelow f mem_cons_self
        refine .of_raw rfl (type_call_flat (fun x hx => ?_) hself) fun b => .none _
        exact (hf x (mem_subterms_of_operand hx (self_mem_subterms x))).type
    intro x hx
    rw [subterms_eq] at hx
    rcases mem_cons.mp hx with rfl | hx
    · exact hwhole
    · obtain ⟨y, hy, hx⟩ := mem_flatMap.mp hx
      exact hbelow y hy x hx

/-- The pass puts for an expression one in which no concatenation stands in another or has a single part. That has every value
that the expression is known to have, and its width and sign. -/
theorem walk_keeps_value (s : Session Unit) (e : Expr) (h : ∀ x ∈ e.subterms, x.Flattens s.ctx.symbols) : ∃ o s' e',
    walk pass e s = .ok o s' ∧ o.getD (.node (.expr e)) = .node (.expr e') ∧ (∀ x ∈ e'.subterms, x.Unnested) ∧
      (∀ b v, e.eval s.ctx.symbols b = some v → e'.eval s.ctx.symbols b = some v) ∧
      e'.width s.ctx.symbols = e.width s.ctx.symbols ∧
      (e'.type s.ctx.symbols).signed = (e.type s.ctx.symbols).signed := by
  have hflat := flatly_of_flattens e h e (self_mem_subterms e)
  obtain ⟨o, s', hwalk, -, hanswer⟩ := (Node.walk_gives (pass_answers s.ctx.symbols) (.expr e) trivial s rfl).ends fun _ => id
  refine ⟨o, s', e.flat, hwalk, hanswer.expr e rfl, unnested_flat e, hflat.eval, hflat.width, ?_⟩
  rw [hflat.type]

namespace Layers

/-- Variables of two bits, one of them signed, and a bit. -/
def table : SymbolTable := ⟨#[.value 1 "a" (.uint 2), .value 2 "b" (.sint 2), .value 3 "c" (.uint 1)]⟩

def session : Session Unit := ⟨{ symbols := table }, ()⟩

/-- `{a, {b, {c}}} - 1` -/
def nested : Expr := .binary {} .sub
  (.cat {} [.ref {} ⟨0⟩, .cat {} [.ref {} ⟨1⟩, .cat {} [.ref {} ⟨2⟩]]]) (.num {} false 1)

/-- `{a, b, c} - 1` -/
def flat : Expr := .binary {} .sub (.cat {} [.ref {} ⟨0⟩, .ref {} ⟨1⟩, .ref {} ⟨2⟩]) (.num {} false 1)

def known : Bindings := ⟨[(⟨0⟩, 1), (⟨1⟩, -1), (⟨2⟩, 1)]⟩

theorem nested_flattens : ∀ x ∈ nested.subterms, x.Flattens table := by
  have hlast : (cat {} [.ref {} ⟨2⟩]).Flattens table := ⟨fun _ => ⟨1, rfl⟩, by simp⟩
  have hmiddle : (cat {} [.ref {} ⟨1⟩, .cat {} [.ref {} ⟨2⟩]]).Flattens table := by
    refine ⟨nofun, fun l qs hmem => ?_⟩
    obtain ⟨-, rfl⟩ : l = {} ∧ qs = [.ref {} ⟨2⟩] := by simpa using hmem
    exact ⟨by decide, by decide⟩
  have hwhole : (cat {} [.ref {} ⟨0⟩, .cat {} [.ref {} ⟨1⟩, .cat {} [.ref {} ⟨2⟩]]]).Flattens table := by
    refine ⟨nofun, fun l qs hmem => ?_⟩
    obtain ⟨-, rfl⟩ : l = {} ∧ qs = [.ref {} ⟨1⟩, .cat {} [.ref {} ⟨2⟩]] := by simpa using hmem
    exact ⟨by decide, by decide⟩
  intro x hx
  simp only [nested, subterms, subtermsList, cons_append, nil_append, mem_cons, not_mem_nil,
    or_false] at hx
  rcases hx with rfl | rfl | rfl | rfl | rfl | rfl | rfl | rfl
  · trivial
  · exact hwhole
  · trivial
  · exact hmiddle
  · trivial
  · exact hlast
  · trivial
  · trivial

theorem nested_kept : (∀ x ∈ nested.subterms, x.Flattens table) ∧
    walk pass nested session = .ok (some (.node (.expr flat))) session ∧
    nested.eval table known = some 14 ∧ flat.eval table known = some 14 ∧ flat.width table = nested.width table := by
  have hwalk : walk pass nested session = .ok (some (.node (.expr flat))) session := by with_unfolding_all rfl
  have hvalue : nested.eval table known = some 14 := by decide
  obtain ⟨o, s', e', hwalk', hout, -, heval, hwidth, -⟩ := walk_keeps_value session nested nested_flattens
  obtain ⟨rfl, rfl⟩ := EStateM.Result.ok.inj (hwalk.symm.trans hwalk')
  obtain rfl : flat = e' := by simpa using hout
  exact ⟨nested_flattens, hwalk, hvalue, heval known 14 hvalue, hwidth⟩

end Layers

namespace Bare

/-- A signed variable, an array, a structure, a word and a stack. -/
def table : SymbolTable :=
  ⟨#[.value 1 "x" (.sint 4), .value 2 "m" (.array (.uint 2) 2), .value 3 "r" (.struct "r_t" [("f", .uint 8)]),
    .value 4 "y" (.uint 2), .value 5 "st" (.stack (.uint 8) ⟨0, .num {} false 2⟩)]⟩

def known : Bindings := ⟨[(⟨0⟩, -1), (⟨1⟩, 5), (⟨3⟩, 1)]⟩

/-- `{x}` -/
def sign : Expr := .cat {} [.ref {} ⟨0⟩]

/-- `{m}[0]` -/
def element : Expr := .index {} (.cat {} [.ref {} ⟨1⟩]) (.num {} false 0)

/-- `1 ? x : {5}` -/
def number : Expr := .ternary {} (.num {} false 1) (.ref {} ⟨0⟩) (.cat {} [.num {} false 5])

/-- `1 ? y : {r}.f` -/
def field : Expr := .ternary {} (.num {} false 1) (.ref {} ⟨3⟩) (.select {} (.cat {} [.ref {} ⟨2⟩]) "f")

/-- `y[{1'd1}:0]` -/
def bound : Expr := .slice {} (.ref {} ⟨3⟩) (.cat {} [.int {} false 1 1]) (.num {} false 0)

/-- The replication of `y` by `{2'd3}` -/
def count : Expr := .rep {} (.cat {} [.int {} false 2 3]) (.ref {} ⟨3⟩)

/-- `1 ? y : {st.pop}()` -/
def method : Expr := .ternary {} (.num {} false 1) (.ref {} ⟨3⟩) (.call {} (.cat {} [.select {} (.ref {} ⟨4⟩) "pop"]) [])

/-- A concatenation of a single part is unsigned, has bits and no elements or fields, and is no literal and no method. What is
left without it may be otherwise, and changes the value, the sign or the width. -/
theorem bare_part_differs :
    (sign.eval table known = some 15 ∧ sign.flat.eval table known = some (-1)) ∧
    (element.eval table known = some 1 ∧ element.flat.eval table known = none) ∧
    (number.eval table known = some 15 ∧ number.flat.eval table known = some (-1)) ∧
    (field.eval table known = some 1 ∧ field.width table = 2 ∧ field.flat.width table = 8) ∧
    (bound.eval table known = some 1 ∧ bound.width table = 0 ∧ bound.flat.width table = 2) ∧
    (count.eval table known = some 21 ∧ count.width table = 0 ∧ count.flat.width table = 6) ∧
    (method.eval table known = some 1 ∧ method.width table = 2 ∧ method.flat.width table = 8) := by
  decide

end Bare

end Concatenation

end HdlLowering
