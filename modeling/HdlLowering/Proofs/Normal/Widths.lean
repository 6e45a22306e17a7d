import HdlLowering.Proofs.Concatenation.Progress
import HdlLowering.Proofs.Normal.Splitting

/-!
# Widths of what is put for assignments and connections

When widths add up to words and no array is sliced, the pass over concatenations never runs out of parts, and what it puts for
an assignment or a connection has sides of one width (`walk_balanced`). `Irregular` has the ways in which this fails otherwise,
by a slice of an array and by a slice between reversed bounds.
-/

namespace HdlLowering.Concatenation

open List Expr

variable {Γ : SymbolTable} {as : List (Expr × Expr)}

/-! ## Assignments and connections -/

/-- Two sides, the first of them written, of which the concatenations can be regrouped. -/
structure Regular (Γ : SymbolTable) (x y : Expr) : Prop where
  parts : ∀ l ts, x = .cat l ts → ∀ t ∈ ts, 0 ≤ t.width Γ
  sides : ∀ lt ts ls ss, x = .cat lt ts → y = .cat ls ss → overlap Γ ts ss = false → Regroupable Γ ts ss

/-- Where two concatenations are regrouped, this does not run out of parts. -/
def Swept (Γ : SymbolTable) (x y : Expr) : Prop :=
  ∀ lt ts ls ss tps sps, x = .cat lt ts → y = .cat ls ss → overlap Γ ts ss = false → measured? Γ ts = some tps →
    measured? Γ ss = some sps → total tps = total sps → Sweeps tps sps

theorem Regular.swept {x y : Expr} (h : Regular Γ x y) : Swept Γ x y :=
  fun lt ts ls ss _ _ hx hy hapart htps hsps htotal => (h.sides lt ts ls ss hx hy hapart).sweeps htps hsps htotal

theorem Replaces.balanced {l : Loc} {x y : Expr} {r : Reply} (h : Replaces Γ l x y r as) (hxy : Regular Γ x y) :
    as = [(x, y)] ∨ ∀ a ∈ as, a.1.width Γ = a.2.width Γ := by
  cases h with
  | same => exact Or.inl rfl
  | groups lt ls hgs =>
    refine Or.inr (forall_mem_map.mpr fun g hg => ?_)
    exact ((hxy.sides lt _ ls _ rfl rfl hgs.apart).balanced hgs g hg).width_eq
  | constant lt _ hv _ hdeal =>
    have hdealt := dealt_of_dealOut hdeal
    refine Or.inr fun a ha => ?_
    have ht := hdealt.mem ha
    obtain ⟨u, hu⟩ := hdealt.literal a ha
    rw [hu, width_ofValue (Int64.lt_of_le_of_ne (hxy.parts lt _ rfl _ ht) (hdealt.width _ ht).symm)]

theorem Splits.balanced {c : Connect} {cs : List Connect} (h : Splits Γ c cs)
    (hc : ∀ t, c.flat.sinks = [t] → Regular Γ t c.flat.source) :
    cs = [c.flat] ∨ ∀ c' ∈ cs, ∀ t ∈ c'.sinks, t.width Γ = c'.source.width Γ := by
  cases h with
  | same => exact Or.inl rfl
  | groups hsource hsinks hgs =>
    refine Or.inr (forall_mem_map.mpr fun g hg => forall_mem_singleton.mpr ?_)
    exact (((hc _ hsinks).sides _ _ _ _ rfl hsource hgs.apart).balanced hgs g hg).width_eq

/-- Regrouping concatenations whose widths add up to words, without slices of arrays: the grouping of an assignment or of a
connection does not run out of parts, and either the assignment or connection stays as it is, flattened, or both sides of all
that is put for it have one width. -/
theorem walk_balanced (s : Session Unit) :
    (∀ l x y, Regular s.ctx.symbols x.flat y.flat → Swept s.ctx.symbols x.flat y.flat ∧ ∃ o s' as,
      Stmt.walk pass (.assign l x y) s = .ok o s' ∧
      (o.getD (.node (.stmt (.assign l x y)))).leaves = (stmtsOf l as).map .stmt ∧
      (as = [(x.flat, y.flat)] ∨ ∀ a ∈ as, a.1.width s.ctx.symbols = a.2.width s.ctx.symbols)) ∧
    ∀ c : Connect, (∀ t, c.flat.sinks = [t] → Regular s.ctx.symbols t c.flat.source) →
      (∀ t, c.flat.sinks = [t] → Swept s.ctx.symbols t c.flat.source) ∧ ∃ o s' cs, Connect.walk pass c s = .ok o s' ∧
      (o.getD (.node (.connect c))).leaves = cs.map .connect ∧
      (cs = [c.flat] ∨ ∀ c' ∈ cs, ∀ t ∈ c'.sinks, t.width s.ctx.symbols = c'.source.width s.ctx.symbols) := by
  refine ⟨fun l x y hxy => ⟨hxy.swept, ?_⟩, fun c hc => ⟨fun t ht => (hc t ht).swept, ?_⟩⟩
  · obtain ⟨o, s', hwalk, -, hanswer⟩ :=
      (Node.walk_gives (pass_answers s.ctx.symbols) (.stmt (.assign l x y)) trivial s rfl).ends fun _ => id
    obtain ⟨_, as, hleaves, hreplaces⟩ := hanswer.assign l x y rfl
    exact ⟨o, s', as, hwalk, hleaves, hreplaces.balanced hxy⟩
  · obtain ⟨o, s', hwalk, -, hanswer⟩ :=
      (Node.walk_gives (pass_answers s.ctx.symbols) (.connect c) trivial s rfl).ends fun _ => id
    obtain ⟨cs, hleaves, hsplits⟩ := hanswer.connect c rfl
    exact ⟨o, s', cs, hwalk, hleaves, hsplits.balanced hc⟩

namespace Aligned

def table : SymbolTable := ⟨#[.value 1 "a" (.uint 3), .value 2 "b" (.sint 2), .value 3 "x" (.uint 1), .value 4 "y" (.uint 4)]⟩

def session : Session Unit := ⟨{ symbols := table }, ()⟩

def targets : List Expr := [.ref {} ⟨0⟩, .ref {} ⟨1⟩]

/-- `{{x}, y}` -/
def source : Expr := .cat {} [.cat {} [.ref {} ⟨2⟩], .ref {} ⟨3⟩]

def split : List (Expr × Expr) :=
  [(.index {} (.ref {} ⟨0⟩) (.ofInt 2), .ref {} ⟨2⟩),
    (.cat .synthetic [.slice {} (.ref {} ⟨0⟩) (.ofInt 1) (.ofInt 0), .ref {} ⟨1⟩], .ref {} ⟨3⟩)]

theorem regular : Regular table (cat {} targets).flat source.flat where
  parts := by
    rintro _ _ ⟨⟩
    decide
  sides := by
    rintro _ _ _ _ ⟨⟩ ⟨⟩ -
    exact ⟨⟨by decide, by decide⟩, ⟨by decide, by decide⟩, by decide⟩

def connects : List Connect := split.map fun a => ⟨{}, a.2, [a.1]⟩

/-- The highest bit of the first target and the rest of both are assigned, and connected, with values of their widths. -/
theorem split_balanced : Regular table (Expr.cat {} targets).flat source.flat ∧
    Stmt.walk pass (.assign {} (.cat {} targets) source) session =
      .ok (some (.several ((stmtsOf {} split).map fun x => .node (.stmt x)))) session ∧
    (∀ a ∈ split, a.1.width table = a.2.width table) ∧
    Connect.walk pass ⟨{}, source, [.cat {} targets]⟩ session =
      .ok (some (.several (connects.map fun c => .node (.connect c)))) session ∧
    ∀ c ∈ connects, ∀ t ∈ c.sinks, t.width table = c.source.width table := by
  have hassign : Stmt.walk pass (.assign {} (.cat {} targets) source) session =
      .ok (some (.several ((stmtsOf {} split).map fun x => .node (.stmt x)))) session := by
    with_unfolding_all rfl
  have hconnect : Connect.walk pass ⟨{}, source, [.cat {} targets]⟩ session =
      .ok (some (.several (connects.map fun c => .node (.connect c)))) session := by
    with_unfolding_all rfl
  obtain ⟨hassigns, hconnects⟩ := walk_balanced session
  refine ⟨regular, hassign, ?_, hconnect, ?_⟩
  · obtain ⟨-, o, s', as, hwalk, hleaves, hbalanced⟩ := hassigns {} (.cat {} targets) source regular
    obtain ⟨rfl, rfl⟩ := EStateM.Result.ok.inj (hassign.symm.trans hwalk)
    obtain rfl : split = as := stmtsOf_injective {} ((List.map_inj_right fun _ _ h => Node.stmt.inj h).mp hleaves)
    exact hbalanced.resolve_left nofun
  · obtain ⟨-, o, s', cs, hwalk, hleaves, hbalanced⟩ := hconnects ⟨{}, source, [.cat {} targets]⟩ (by
      rintro _ ⟨⟩
      exact regular)
    obtain ⟨rfl, rfl⟩ := EStateM.Result.ok.inj (hconnect.symm.trans hwalk)
    obtain rfl : connects = cs := (List.map_inj_right fun _ _ h => Node.connect.inj h).mp hleaves
    exact hbalanced.resolve_left nofun

end Aligned

namespace Irregular

def table : SymbolTable :=
  ⟨#[.value 1 "a" (.uint 1), .value 2 "b" (.uint 2), .value 3 "m" (.array (.uint 8) 2), .value 4 "c" (.uint 1),
    .value 5 "p" (.uint 4), .value 6 "q" (.uint 8)]⟩

def session : Session Unit := ⟨{ symbols := table }, ()⟩

def targets : List Expr := [.ref {} ⟨0⟩, .ref {} ⟨1⟩]

/-- `{m[1:0], c}` -/
def elements : List Expr := [.slice {} (.ref {} ⟨2⟩) (.num {} false 1) (.num {} false 0), .ref {} ⟨3⟩]

/-- `{p, q[0:2]}` -/
def reversed : List Expr := [.ref {} ⟨4⟩, .slice {} (.ref {} ⟨5⟩) (.num {} false 0) (.num {} false 2)]

/-- A slice of two elements counts as two bits and is cut into its elements of eight bits. A slice between reversed bounds has
minus one bit, so that the other source is wider than all targets, and the targets run out. -/
theorem regrouping_unsafe :
    (∃ x y z, Stmt.walk pass (.assign {} (.cat {} targets) (.cat {} elements)) session =
      .ok (some (.several [.node (.stmt (.assign {} (.ref {} ⟨0⟩) x)), .node (.stmt (.assign {} y z))])) session ∧
      (Expr.ref {} ⟨0⟩).width table = 1 ∧ x.width table = 8) ∧
    ∃ tps sps, overlap table targets reversed = false ∧ measured? table targets = some tps ∧
      measured? table reversed = some sps ∧ total tps = total sps ∧ ¬ Sweeps tps sps := by
  refine ⟨⟨.index {} (.ref {} ⟨2⟩) (.ofInt 1), .ref {} ⟨1⟩, .cat .synthetic [.index {} (.ref {} ⟨2⟩) (.ofInt 0), .ref {} ⟨3⟩], ?_,
    by decide, by decide⟩, measure table targets, measure table reversed, by decide, by rfl, by rfl, by decide, fun h => ?_⟩
  · with_unfolding_all rfl
  · -- both targets are taken and are still narrower than the first source
    have hfirst := Cursor.Advance.start [] (.ref {} ⟨0⟩, 1) (.ref {} ⟨4⟩, 4) [(.ref {} ⟨1⟩, 2)] [(reversed[1], -1)]
    have hsecond := Cursor.Advance.target [] ⟨⟨[.ref {} ⟨0⟩], [.ref {} ⟨4⟩]⟩, 1, 4⟩ (.ref {} ⟨1⟩, 2) [] [(reversed[1], -1)]
      (by decide)
    rcases h.progress _ (.tail (.single hfirst) hsecond) with ⟨hnone, -⟩ | ⟨c, hstep⟩
    · nomatch hnone
    · generalize hcursor : (Cursor.mk [] (some ⟨⟨[.ref {} ⟨0⟩] ++ [.ref {} ⟨1⟩], [.ref {} ⟨4⟩]⟩, 1 + 2, 4⟩) []
        [(reversed[1], -1)]) = from' at hstep
      cases hstep with
      | start => nomatch hcursor
      | close _ _ _ _ heq =>
        obtain ⟨-, rfl, -⟩ := by simpa using hcursor
        exact absurd heq (by decide)
      | target => nomatch hcursor
      | source _ _ _ _ _ hlt =>
        obtain ⟨-, rfl, -⟩ := by simpa using hcursor
        exact absurd hlt (by decide)

end Irregular

end HdlLowering.Concatenation
