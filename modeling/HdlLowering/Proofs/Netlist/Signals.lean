import HdlLowering.Proofs.Normal.Drivers

/-!
# Names of driven signals

The driver rows of a netlist name what is driven: a port of an instance with the instance, anything else by its variables
(`Netlist.drivers_named`). A bit, a slice or a field of such a port does not count as the port: it is taken for the instance.
-/

namespace HdlLowering

open List Netlist Stmt Node Expr Tables

/-- One of the expressions that stand side by side in concatenations, nested or not; alone it is a part of itself. -/
inductive Expr.Part (p : Expr) : Expr → Prop
  | self (h : p.isCat = false) : Part p p
  | cat (l : Loc) {q : Expr} {ps : List Expr} (hq : q ∈ ps) (h : Part p q) : Part p (.cat l ps)

/-- What is assigned at a node: the left side of an assignment, and the receiver of a write. -/
def Node.assigned : Node → List Expr
  | .stmt (.assign _ lhs _) => [lhs]
  | .expr (.call _ (.select _ base "write") _) => [base]
  | _ => []

def Entity.driven (e : Entity) : List (String × Expr) :=
  (e.connects.flatMap (·.sinks)).map ("connect", ·) ++ ((Stmt.nodesList e.stmts).flatMap Node.assigned).map ("assign", ·)

namespace Netlist

variable {Γ : SymbolTable} {signal : String} {e p : Expr}

/-- The port of an instance that an expression is, or is made from by indices, slices and selections of fields. -/
def portOf? (Γ : SymbolTable) : Expr → Option (Symbol × String)
  | .select _ (.ref _ s) f => if (Γ.instanceEntity? s).isSome then some (s, f) else none
  | .select _ x _ | .index _ x _ | .slice _ x _ _ => portOf? Γ x
  | _ => none

/-- A bit, a slice or a field of a port of an instance, and not the whole port. -/
def isCut (Γ : SymbolTable) : Expr → Bool
  | .select _ (.ref ..) _ => false
  | p => (portOf? Γ p).isSome

/-- The signals by the names they should have: the port of an instance with the instance, anything else by its variables. -/
def signalsOf (Γ : SymbolTable) (p : Expr) : List String :=
  match portOf? Γ p with
  | some (s, f) => [Γ.name s ++ "." ++ f]
  | none => p.roots.map Γ.name

def recordedFor (Γ : SymbolTable) (p : Expr) : List String := if isCut Γ p then p.roots.map Γ.name else signalsOf Γ p

theorem drivenSignals_part (h : p.isCat = false) : drivenSignals Γ p = recordedFor Γ p := by
  have hchain {p : Expr} (hcut : isCut Γ p = (portOf? Γ p).isSome) : p.roots.map Γ.name = recordedFor Γ p := by
    rw [recordedFor, signalsOf, hcut]
    cases portOf? Γ p <;> rfl
  cases p with
  | cat => nomatch h
  | select l b f =>
    cases b with
    | ref l' s =>
      simp only [drivenSignals, recordedFor, isCut, signalsOf, portOf?]
      cases (Γ.instanceEntity? s).isSome <;> rfl
    | _ => exact hchain rfl
  | _ => exact hchain rfl

theorem mem_drivenSignals (e : Expr) : signal ∈ drivenSignals Γ e ↔ ∃ p, Part p e ∧ signal ∈ recordedFor Γ p := by
  induction e using of_operands with
  | h e ih =>
    cases hcat : e.isCat with
    | false =>
      rw [drivenSignals_part hcat]
      refine ⟨fun hs => ⟨e, .self hcat, hs⟩, ?_⟩
      rintro ⟨p, hp, hs⟩
      cases hp with
      | self => exact hs
      | cat => nomatch hcat
    | true =>
      cases e with
      | cat l ps =>
        rw [Concatenation.drivenSignals_cat, mem_flatMap]
        constructor
        · rintro ⟨q, hq, hs⟩
          obtain ⟨p, hp, hs⟩ := (ih q hq).mp hs
          exact ⟨p, .cat l hq hp, hs⟩
        · rintro ⟨p, hp, hs⟩
          cases hp with
          | self h => nomatch h
          | cat _ hq hp => exact ⟨_, hq, (ih _ hq).mpr ⟨p, hp, hs⟩⟩
      | _ => nomatch hcat

theorem fst_nodeDrives (n : Node) : (nodeDrives Γ n).map (·.1) = n.assigned.flatMap (drivenSignals Γ) := by
  unfold nodeDrives assigned
  split <;> simp [Function.comp_def]

theorem mem_firstDrives (ds : List (String × Loc)) :
    signal ∈ (firstDrives [] ds).map (·.1) ↔ signal ∈ ds.map (·.1) := by
  rw [← count_pos_iff, Normal.count_firstDrives]
  split <;> simp_all

theorem mem_assignDrivers (entity : String) (ss : List Stmt) :
    signal ∈ (assignDrivers Γ entity ss).map (·.signal) ↔
      ∃ x ∈ (nodesList ss).flatMap assigned, signal ∈ drivenSignals Γ x := by
  have hsignals : (assignDrivers Γ entity ss).map (·.signal) =
      (firstDrives [] ((nodesList ss).flatMap (nodeDrives Γ))).map (·.1) := by
    simp only [assignDrivers, map_map, Function.comp_def]
  rw [hsignals, mem_firstDrives, map_flatMap, ← mem_flatMap, flatMap_assoc]
  simp only [fst_nodeDrives]

/-- The rows of an entity name it, and the way in which each expression is driven. -/
theorem mem_drivers_ofEntity (e : Entity) (entity signal kind : String) :
    (∃ d ∈ (ofEntity Γ e).drivers, d.entity = entity ∧ d.signal = signal ∧ d.kind = kind) ↔
      Γ.name e.symbol = entity ∧ ∃ x, (kind, x) ∈ e.driven ∧ signal ∈ drivenSignals Γ x := by
  constructor
  · rintro ⟨d, hd, rfl, rfl, rfl⟩
    rcases mem_append.mp hd with hd | hd
    · obtain ⟨c, hc, hd⟩ := mem_flatMap.mp hd
      obtain ⟨signal, hs, rfl⟩ := mem_map.mp hd
      obtain ⟨x, hx, hs⟩ := mem_flatMap.mp hs
      exact ⟨rfl, x, mem_append_left _ (mem_map_of_mem (mem_flatMap.mpr ⟨c, hc, hx⟩)), hs⟩
    · obtain ⟨x, hx, hs⟩ := (mem_assignDrivers _ _).mp (mem_map_of_mem hd)
      obtain ⟨⟨signal, l⟩, -, rfl⟩ := mem_map.mp hd
      exact ⟨rfl, x, mem_append_right _ (mem_map_of_mem hx), hs⟩
  · rintro ⟨rfl, x, hx, hs⟩
    rcases mem_append.mp hx with hx | hx <;> obtain ⟨x, hx, ⟨⟩⟩ := mem_map.mp hx
    · obtain ⟨c, hc, hx⟩ := mem_flatMap.mp hx
      have hd : _ ∈ connectDrivers Γ (Γ.name e.symbol) c := mem_map_of_mem (mem_flatMap.mpr ⟨x, hx, hs⟩)
      exact ⟨_, mem_append_left _ (mem_flatMap.mpr ⟨c, hc, hd⟩), rfl, rfl, rfl⟩
    · obtain ⟨d, hd, rfl⟩ := mem_map.mp ((mem_assignDrivers (Γ.name e.symbol) _).mpr ⟨x, hx, hs⟩)
      obtain ⟨⟨signal, l⟩, -, rfl⟩ := mem_map.mp hd
      exact ⟨_, mem_append_right _ hd, rfl, rfl, rfl⟩

/-- The rows of a design name every port that is driven as a whole with its instance, and any other expression by its variables:
also a part of a port, which gets the name of the instance. -/
theorem drivers_named {r : Root} {t : Tables} (h : ofRoot Γ r = .ok t) (entity signal kind : String) :
    (∃ d ∈ t.drivers, d.entity = entity ∧ d.signal = signal ∧ d.kind = kind) ↔
      ∃ e ∈ r.entities, Γ.name e.symbol = entity ∧
        ∃ x, (kind, x) ∈ e.driven ∧ ∃ p, Expr.Part p x ∧ signal ∈ recordedFor Γ p := by
  have hdrivers : t.drivers = r.entities.flatMap fun e => (ofEntity Γ e).drivers := by
    unfold ofRoot at h
    split at h
    · nomatch h
    · cases h
      simp only [Normal.drivers_foldl, nil_append, flatMap_map]
  simp only [hdrivers, mem_flatMap, ← mem_drivenSignals, ← mem_drivers_ofEntity]
  grind

namespace DrivenPort

/-- An instance with a port of two bits, and two variables, in an entity. -/
def table : SymbolTable :=
  ⟨#[.value 1 "p" (.uint 2), .entity 2 "child" [⟨0⟩], .value 3 "u" (.inst ⟨1⟩), .value 4 "a" (.uint 4),
    .value 5 "b" (.uint 1), .entity 6 "top" []]⟩

def port : Expr := .select {} (.ref {} ⟨2⟩) "p"

def nested : Expr := .cat {} [.ref {} ⟨4⟩, .cat {} [port, .ref {} ⟨4⟩]]

def entity (sink : Expr) : Entity := ⟨{}, ⟨5⟩, [], [], [⟨{}, ⟨2⟩, ⟨1⟩⟩], [⟨{}, .ref {} ⟨3⟩, [sink]⟩], []⟩

theorem whole_port_named : ∃ t, ofRoot table ⟨{}, [entity nested]⟩ = .ok t ∧
    ∃ d ∈ t.drivers, d.entity = "top" ∧ d.signal = "u.p" ∧ d.kind = "connect" := by
  have hpart : Expr.Part port nested :=
    .cat _ (mem_cons_of_mem _ (mem_singleton_self _)) (.cat _ mem_cons_self (.self rfl))
  exact ⟨_, rfl, (drivers_named (Γ := table) (r := ⟨{}, [entity nested]⟩) rfl "top" "u.p" "connect").mpr
    ⟨entity nested, mem_singleton_self _, by decide, nested, mem_singleton_self _, port, hpart, by decide⟩⟩

/-- A bit of the port is driven, and the row has the name of the instance alone. -/
theorem bit_named_as_instance : portOf? table (.index {} port (.num {} false 0)) = some (⟨2⟩, "p") ∧
    ∃ t, ofRoot table ⟨{}, [entity (.index {} port (.num {} false 0))]⟩ = .ok t ∧ t.drivers.map (·.signal) = ["u"] :=
  ⟨by decide, _, rfl, by decide⟩

end DrivenPort

end Netlist

end HdlLowering
