import HdlLowering.Proofs.Normal.Splitting

/-!
# What the pass does to assignments

The assignments that the pass puts for one to a concatenation leave the same store (`walkList_assign`). It does not look at the
positions in the targets, so a variable that is written must not be read for the position of a later one, as in
`Steered.split_wrong`.
-/

namespace HdlLowering.Concatenation

open List Expr Store

variable {Γ : SymbolTable} {l : Loc} {rhs : Expr} {ps : List Expr}

/-- Targets of different variables whose widths add up, none of them read for the position of a later one, and a source. All sizes
are as they look. -/
structure Splittable (Γ : SymbolTable) (parts : List Expr) (rhs : Expr) : Prop where
  root : ∀ p ∈ parts, p.root? ≠ none
  distinct : (parts.map root?).Nodup
  later : parts.Pairwise Later
  sized : ∀ p ∈ parts, p.Sized Γ
  adds : Adds Γ parts
  source : rhs.Sized Γ

/-- Flattening gives every expression one that stands for it. -/
theorem same_flat (e : Expr) (h : e.Sized Γ) : Same Γ e e.flat := by
  induction e using of_operands with
  | h e ih =>
    obtain ⟨hself, hbelow⟩ := forall_mem_subterms.mp h
    have hop : ∀ x ∈ e.operands, Same Γ x x.flat := fun x hx => ih x hx (hbelow x hx)
    have hlist : ∀ es : List Expr, (∀ x ∈ es, x ∈ e.operands) → Forall₂ (Same Γ) es (flatList es) := by
      intro es hes
      rw [flatList_eq, forall₂_map_right_iff, forall₂_same]
      exact fun x hx => hop x (hes x hx)
    cases e with
    | ref l s | num l b v | int l b w v => exact .leaf rfl trivial
    | unary l op x => exact (hop x (by simp [operands])).unary l op
    | binary l op x y => exact (hop x (by simp [operands])).binary (hop y (by simp [operands])) l op
    | ternary l c x y =>
      exact (hop c (by simp [operands])).ternary (hop x (by simp [operands])) (hop y (by simp [operands])) l
    | cat l ps => exact flattened_same (hlist ps fun _ h => h) l hself
    | rep l n x => exact (hop n (by simp [operands])).rep (hop x (by simp [operands])) l hself
    | index l x i => exact (hop x (by simp [operands])).index (hop i (by simp [operands])) l
    | slice l x m n =>
      exact (hop x (by simp [operands])).slice (hop m (by simp [operands])) (hop n (by simp [operands])) l hself
    | select l x f => exact (hop x (by simp [operands])).select l f
    | call l f as => exact (hop f (by simp [operands])).call (hlist as fun x hx => by simp [operands, hx]) l hself

/-! ## Targets -/

theorem targets_flat (h : ∀ p ∈ ps, p.root? ≠ none) (l : Loc) : (cat l ps).flat.targets = ps.map flat := by
  have hcat : ∀ q ∈ ps.map flat, q.isCat = false := forall_mem_map.mpr fun p hp => isCat_flat (not_cat_of_root (h p hp))
  have hflat := flatParts_of_not_nested (isNested_eq_false.mpr hcat)
  rw [flat, flatList_eq]
  rcases flattened_cases l (ps.map flat) with ⟨q, hq, heq⟩ | ⟨-, heq⟩
  · rw [hflat] at hq
    rw [heq, hq, targets_of_not_cat (hcat q (hq ▸ mem_singleton_self q))]
  · rw [heq, hflat]
    rfl

namespace Splittable

variable (h : Splittable Γ ps rhs)

include h

theorem same : ∀ p ∈ ps, Same Γ p p.flat ∧ SameTarget Γ p p.flat := fun p hp =>
  have hsame := same_flat p (h.sized p hp)
  ⟨hsame, hsame.target (h.root p hp)⟩

theorem ready : Ready Γ (ps.map flat) rhs.flat := by
  have hrhs := same_flat rhs h.source
  refine ⟨forall_mem_map.mpr fun p hp => ?_, ?_, ?_, forall_mem_map.mpr fun p hp => (h.same p hp).1.sized,
    ⟨forall_mem_map.mpr fun p hp => ?_, ?_⟩, hrhs.sized, fun p hp => (hrhs.parts p hp).2⟩
  · rw [(h.same p hp).2.root]
    exact h.root p hp
  · rw [map_map]
    exact map_congr_left (fun p hp => (h.same p hp).2.root) ▸ h.distinct
  · refine pairwise_map.mpr (h.later.imp_of_mem fun {p q} hp hq hlater x hx hmem => ?_)
    exact hlater x ((h.same p hp).2.root ▸ hx) ((h.same q hq).2.steers x hmem)
  · rw [(h.same p hp).1.width]
    exact h.adds.width p hp
  · rw [Expr.span, map_map, map_congr_left (g := fun p => (p.width Γ).toInt)]
    · exact h.adds.span
    · exact fun p hp => congrArg Int64.toInt (h.same p hp).1.width

theorem writes_cut {ω : Unknowns} {st : Store Γ} (cur : Store Γ) (v : Int) :
    st.writes ω cur (cut Γ (ps.map flat) v) = st.writes ω cur (cut Γ ps v) := by
  have hsame := h.same
  clear h
  induction ps generalizing cur with
  | nil => rfl
  | cons p ps ih =>
    rw [forall_mem_cons] at hsame
    obtain ⟨hroots, -, -, hput⟩ := hsame.1.2
    have hbits : bitsList Γ (ps.map flat) = bitsList Γ ps := by
      rw [bitsList, map_map, bitsList]
      exact congrArg sum (map_congr_left fun q hq => (hsame.2 q hq).1.bits)
    have hwrite : ∀ v, st.write ω cur (p.flat, v) = st.write ω cur (p, v) := by
      intro v
      simp only [write, hroots, hput]
    rw [map_cons, cut, cut, writes_cons, writes_cons, hbits, hwrite, ih _ hsame.2]

theorem assign_flat {ω : Unknowns} {st : Store Γ} (l : Loc) :
    st.assign ω (cat l ps).flat rhs.flat = st.assign ω (.cat l ps) rhs := by
  rw [assign, receive, targets_flat h.root, (same_flat rhs h.source).value, assign, receive,
    writeAll_eq_writes (by rw [map_root?_cut]; exact h.ready.distinct), h.writes_cut,
    ← writeAll_eq_writes (by rw [map_root?_cut]; exact h.distinct)]
  rfl

end Splittable

/-- The assignments that the pass puts for an assignment to a concatenation leave the same store, one after the other, as the
assignment itself, which reads all that it reads before it writes any part. No part of the source has a negative width, so the
evaluation of it does not stop. -/
theorem walkList_assign (s : Session Unit) (l lc : Loc) (parts : List Expr) (rhs : Expr)
    (h : Splittable s.ctx.symbols parts rhs) (hproper : rhs.flat.Proper s.ctx.symbols) :
    rhs.flat.evaluate s.ctx.symbols {} = .ok (rhs.flat.eval s.ctx.symbols {}) ∧ ∃ o s' as,
      Stmt.walkList pass [.assign l (.cat lc parts) rhs] s = .ok o s' ∧
      o.getD [.assign l (.cat lc parts) rhs] = stmtsOf l as ∧
      ∀ ω (st : Store s.ctx.symbols), assigns ω st as = st.assign ω (.cat lc parts) rhs := by
  refine ⟨hproper.works.evaluate, ?_⟩
  have hwalk := Stmt.walkList_gives (pass_answers s.ctx.symbols) [.assign l (.cat lc parts) rhs] (fun _ _ => trivial) s rfl
  cases hresult : Stmt.walkList pass [.assign l (.cat lc parts) rhs] s with
  | error e s' =>
    rw [hresult] at hwalk
    exact hwalk.elim
  | ok o s' =>
    rw [hresult] at hwalk
    obtain ⟨-, hsplices⟩ := hwalk
    generalize hout : o.getD [.assign l (.cat lc parts) rhs] = out at hsplices
    cases hsplices with
    | @cons _ f _ ys zs hx hf hrest =>
      cases hrest
      obtain ⟨r, as, hleaves, hreplaces⟩ := hx.assign l _ rhs rfl
      refine ⟨o, s', as, rfl, ?_, fun ω st => ?_⟩
      · rw [hout, append_nil]
        exact (List.map_inj_right fun _ _ h => Node.stmt.inj h).mp (hf.symm.trans hleaves)
      · rw [hreplaces.assigns_eq (by rw [targets_flat h.root]; exact h.ready), h.assign_flat]

namespace Unaligned

def table : SymbolTable := ⟨#[.value 1 "a" (.uint 3), .value 2 "b" (.uint 2), .value 3 "x" (.uint 1), .value 4 "y" (.uint 4)]⟩

def parts : List Expr := [.ref {} ⟨0⟩, .ref {} ⟨1⟩]

def source : Expr := .cat {} [.ref {} ⟨2⟩, .ref {} ⟨3⟩]

def session : Session Unit := ⟨{ symbols := table }, ()⟩

theorem parts_splittable : Splittable table parts source where
  root := by decide
  distinct := by decide
  later := by simp [parts, Later, steers]
  sized := by simp [parts, Sized, subterms, WellSized]
  adds := ⟨by decide, by decide⟩
  source := by
    have hadds : Adds table [.ref {} ⟨2⟩, .ref {} ⟨3⟩] := ⟨by decide, by decide⟩
    simp [source, Sized, subterms, subtermsList, WellSized, hadds]

def split : List (Expr × Expr) :=
  [(.index {} (.ref {} ⟨0⟩) (.ofInt 2), .ref {} ⟨2⟩),
    (.cat .synthetic [.slice {} (.ref {} ⟨0⟩) (.ofInt 1) (.ofInt 0), .ref {} ⟨1⟩], .ref {} ⟨3⟩)]

theorem walkList_split :
    Stmt.walkList pass [.assign {} (.cat {} parts) source] session = .ok (some (stmtsOf {} split)) session := by
  with_unfolding_all rfl

theorem split_right : Splittable table parts source ∧
    ∀ ω (st : Store table), assigns ω st split = st.assign ω (.cat {} parts) source := by
  obtain ⟨-, o, s', as, hwalk, hout, hmeaning⟩ := walkList_assign session {} {} parts source parts_splittable (by decide)
  rw [walkList_split] at hwalk
  obtain ⟨rfl, rfl⟩ : some (stmtsOf {} split) = o ∧ session = s' := by simpa using hwalk
  obtain rfl : split = as := stmtsOf_injective {} hout
  exact ⟨parts_splittable, hmeaning⟩

end Unaligned

namespace Steered

def table : SymbolTable := ⟨#[.value 1 "a" (.uint 1), .value 2 "b" (.uint 2), .value 3 "x" (.uint 1), .value 4 "y" (.uint 1)]⟩

def parts : List Expr := [.ref {} ⟨0⟩, .index {} (.ref {} ⟨1⟩) (.ref {} ⟨0⟩)]

def source : Expr := .cat {} [.ref {} ⟨2⟩, .ref {} ⟨3⟩]

def session : Session Unit := ⟨{ symbols := table }, ()⟩

def start : Store table := (set default ⟨2⟩ 1).set ⟨3⟩ 1

/-- The targets are of different variables and stand on one side only, but the second assignment writes the bit that the first
one points at. -/
theorem split_wrong : (parts.map root?).Nodup ∧ ∃ as,
    Stmt.walkList pass [.assign {} (.cat {} parts) source] session = .ok (some (stmtsOf {} as)) session ∧
      ∀ ω, assigns ω start as ≠ start.assign ω (.cat {} parts) source := by
  refine ⟨by decide, [(.ref {} ⟨0⟩, .ref {} ⟨2⟩), (.index {} (.ref {} ⟨1⟩) (.ref {} ⟨0⟩), .ref {} ⟨3⟩)], ?_, fun ω heq => ?_⟩
  · with_unfolding_all rfl
  · have hsplit : (assigns ω start [(.ref {} ⟨0⟩, .ref {} ⟨2⟩),
        (.index {} (.ref {} ⟨1⟩) (.ref {} ⟨0⟩), .ref {} ⟨3⟩)]).value ⟨1⟩ = 2 := by with_unfolding_all rfl
    have hwhole : (start.assign ω (.cat {} parts) source).value ⟨1⟩ = 1 := by with_unfolding_all rfl
    rw [heq, hwhole] at hsplit
    nomatch hsplit

end Steered

end HdlLowering.Concatenation
