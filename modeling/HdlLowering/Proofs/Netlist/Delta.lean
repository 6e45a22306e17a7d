import HdlLowering.Netlist.Delta
import HdlLowering.Proofs.Text.Decimal

/-!
# What a delta tells apart

Rows are compared by their columns joined with bars. These can be taken apart again when bars stand in one column only
(`rowKey_inj`), and then a delta has exactly the rows that differ from every row of the other netlist in more than their place
(`Delta.between_exact`).

The rows of some entities can be picked out of a delta, or out of the netlists before (`Delta.ofEntities_between`): a key begins
with the name of the entity, which the first bar ends (`rowKey_head_inj`).
-/

namespace HdlLowering.Netlist

open List Delta

/-! ## Joined columns -/

/-- What stands before a separator and after it, when it is known how many separators stand before it. -/
theorem append_cons_inj {α : Type} [DecidableEq α] {sep : α} : ∀ {xs ys rest rest' : List α}, xs.count sep = ys.count sep →
    xs ++ sep :: rest = ys ++ sep :: rest' → xs = ys ∧ rest = rest'
  | [], [], _, _, _, h => ⟨rfl, (cons.inj h).2⟩
  | [], y :: ys, _, _, hcount, h => by
    obtain ⟨rfl, -⟩ := cons.inj h
    simp at hcount
  | x :: xs, [], _, _, hcount, h => by
    obtain ⟨rfl, -⟩ := cons.inj h
    simp at hcount
  | x :: xs, y :: ys, _, _, hcount, h => by
    obtain ⟨rfl, htail⟩ := cons.inj h
    rw [count_cons, count_cons, Nat.add_right_cancel_iff] at hcount
    obtain ⟨rfl, hrest⟩ := append_cons_inj hcount htail
    exact ⟨rfl, hrest⟩

def bars (s : String) : Nat := s.toList.count '|'

theorem toList_rowKey (x y : String) (ys : List String) :
    (rowKey (x :: y :: ys)).toList = x.toList ++ '|' :: (rowKey (y :: ys)).toList := by
  rw [rowKey, String.intercalate_cons_cons, String.toList_append, String.toList_append, append_assoc]
  rfl

theorem bars_rowKey (x y : String) (ys : List String) : bars (rowKey (x :: y :: ys)) = bars x + bars (rowKey (y :: ys)) + 1 := by
  rw [bars, toList_rowKey, count_append, count_cons_self]
  rfl

theorem bars_rowKey_of_clear : ∀ {xs : List String}, (∀ x ∈ xs, bars x = 0) → bars (rowKey xs) = xs.length - 1
  | [], _ => rfl
  | [x], h => h x (mem_singleton_self x)
  | x :: y :: ys, h => by
    rw [forall_mem_cons] at h
    rw [bars_rowKey, bars_rowKey_of_clear h.2, h.1, Nat.zero_add]
    rfl

/-- No bar stands in any column but one. -/
def BarredAt (k : Nat) (xs : List String) : Prop := ∀ x ∈ xs.eraseIdx k, bars x = 0

instance (k : Nat) (xs : List String) : Decidable (BarredAt k xs) := inferInstanceAs (Decidable (∀ _ ∈ _, _))

theorem BarredAt.tail {k : Nat} {x : String} {xs : List String} (h : BarredAt k (x :: xs)) : BarredAt (k - 1) xs := by
  cases k with
  | zero => exact fun y hy => h y (mem_of_mem_eraseIdx hy)
  | succ k => exact fun y hy => h y (mem_cons_of_mem x hy)

/-- Columns can be taken apart when bars stand in one of them only. -/
theorem rowKey_inj : ∀ {k : Nat} {xs ys : List String}, BarredAt k xs → BarredAt k ys → xs.length = ys.length →
    rowKey xs = rowKey ys → xs = ys
  | _, [], [], _, _, _, _ => rfl
  | _, [x], [y], _, _, _, h => by simpa [rowKey] using h
  | k, x :: x' :: xs, y :: y' :: ys, hxs, hys, hlen, h => by
    have hbars : bars x = bars y := by
      cases k with
      | zero =>
        -- the other columns have no bars, so what bars there are beyond those that join columns stand in the first
        have hall := congrArg bars h
        have hbelow : bars (rowKey (x' :: xs)) = xs.length := bars_rowKey_of_clear hxs
        have hbelow' : bars (rowKey (y' :: ys)) = ys.length := bars_rowKey_of_clear hys
        rw [bars_rowKey, bars_rowKey, hbelow, hbelow'] at hall
        simp only [length_cons] at hlen
        omega
      | succ k => rw [hxs x mem_cons_self, hys y mem_cons_self]
    have hlist := congrArg String.toList h
    rw [toList_rowKey, toList_rowKey] at hlist
    obtain ⟨hhead, hrest⟩ := append_cons_inj hbars hlist
    rw [String.toList_injective hhead,
      rowKey_inj hxs.tail hys.tail (Nat.succ.inj hlen) (String.toList_injective hrest)]

/-! ## Rows -/

def PortRow.columns (r : PortRow) : List String :=
  [r.entity, r.name, r.direction, r.type, toString r.width.toInt, r.flow, r.storage]

def DeclRow.columns (r : DeclRow) : List String := [r.entity, r.name, r.kind, r.type, toString r.width.toInt, r.init]

def InstanceRow.columns (r : InstanceRow) : List String := [r.entity, r.name, r.target]

def ConnectRow.columns (r : ConnectRow) : List String := [r.entity, r.source, r.sink]

def DriverRow.columns (r : DriverRow) : List String := [r.entity, r.signal, r.kind]

/-- The rows that agree with no older row, apart from what `bare` takes away. -/
def unmatched {α : Type} [DecidableEq α] (bare : α → α) (old new : List α) : List α :=
  new.filter fun r => ∀ p ∈ old, bare p ≠ bare r

def Tables.beyond (new old : Tables) : Tables where
  entities := unmatched (fun r => { r with file := "", line := 0 }) old.entities new.entities
  ports := unmatched (fun r => { r with file := "", line := 0 }) old.ports new.ports
  decls := unmatched (fun r => { r with file := "", line := 0 }) old.decls new.decls
  instances := unmatched (fun r => { r with file := "", line := 0 }) old.instances new.instances
  connects := unmatched (fun r => { r with file := "", line := 0 }) old.connects new.connects
  drivers := unmatched (fun r => { r with file := "", line := 0 }) old.drivers new.drivers

/-- Bars stand in one column of a relation only. -/
def Separable {α : Type} (columns : α → List String) (old new : List α) : Prop := ∃ k, ∀ r ∈ old ++ new, BarredAt k (columns r)

theorem newRows_eq {α : Type} [DecidableEq α] {key : α → String} {columns : α → List String} {bare : α → α} {old new : List α}
    (h : Separable columns old new) (hkey : ∀ r, key r = rowKey (columns r))
    (hlen : ∀ r p, (columns r).length = (columns p).length) (hbare : ∀ r p, columns r = columns p ↔ bare r = bare p) :
    newRows key old new = unmatched bare old new := by
  obtain ⟨k, hk⟩ := h
  rw [forall_mem_append] at hk
  refine filter_congr fun r hr => ?_
  have hagree : ∀ p ∈ old, key p = key r ↔ bare p = bare r := by
    intro p hp
    rw [hkey, hkey, ← hbare]
    exact ⟨rowKey_inj (hk.1 p hp) (hk.2 r hr) (hlen p r), congrArg rowKey⟩
  rw [Bool.eq_iff_iff]
  simp only [Bool.not_eq_true', contains_eq_mem, decide_eq_false_iff_not, mem_map, not_exists, not_and, decide_eq_true_iff]
  exact forall₂_congr fun p hp => not_congr (hagree p hp)

structure Tables.Apart (old new : Tables) : Prop where
  ports : Separable PortRow.columns old.ports new.ports
  decls : Separable DeclRow.columns old.decls new.decls
  instances : Separable InstanceRow.columns old.instances new.instances
  connects : Separable ConnectRow.columns old.connects new.connects
  drivers : Separable DriverRow.columns old.drivers new.drivers

theorem Tables.Apart.symm {old new : Tables} (h : old.Apart new) : new.Apart old := by
  have hsymm {α : Type} {columns : α → List String} {xs ys : List α} : Separable columns xs ys → Separable columns ys xs :=
    fun ⟨k, hk⟩ => ⟨k, fun r hr => hk r (perm_append_comm.mem_iff.mp hr)⟩
  exact ⟨hsymm h.ports, hsymm h.decls, hsymm h.instances, hsymm h.connects, hsymm h.drivers⟩

theorem Tables.Apart.since_eq {old new : Tables} (h : old.Apart new) : new.since old = new.beyond old := by
  have hentities : Separable (fun r : EntityRow => [r.name]) old.entities new.entities := ⟨0, by simp [BarredAt]⟩
  unfold Tables.since Tables.beyond
  congr 1
  · exact newRows_eq hentities (by simp [EntityRow.key, rowKey]) (fun _ _ => rfl) (by simp)
  · exact newRows_eq h.ports (fun _ => rfl) (fun _ _ => rfl) (by simp [PortRow.columns, repr_inj, Int64.toInt_inj])
  · exact newRows_eq h.decls (fun _ => rfl) (fun _ _ => rfl) (by simp [DeclRow.columns, repr_inj, Int64.toInt_inj])
  · exact newRows_eq h.instances (fun _ => rfl) (fun _ _ => rfl) (by simp [InstanceRow.columns])
  · exact newRows_eq h.connects (fun _ => rfl) (fun _ _ => rfl) (by simp [ConnectRow.columns])
  · exact newRows_eq h.drivers (fun _ => rfl) (fun _ _ => rfl) (by simp [DriverRow.columns])

/-- A delta is exact up to places, when in each relation bars stand in one column only: it has the rows of either netlist that
agree with no row of the other on all columns but the place, in order. -/
theorem Delta.between_exact {old new : Tables} (h : old.Apart new) :
    between old new = ⟨new.beyond old, old.beyond new⟩ := by
  rw [between, h.since_eq, h.symm.since_eq]

namespace Rewired

/-- A declaration that is moved and one whose initial value is changed, with a bar in the values. -/
def before : Tables where
  decls := [{ entity := "top", name := "x", kind := "var", type := "u8", width := 8, init := "a | b", line := 3 },
    { entity := "top", name := "y", kind := "var", type := "u8", width := 8, init := "a", line := 4 }]

def after : Tables where
  decls := [{ entity := "top", name := "x", kind := "var", type := "u8", width := 8, init := "a | b", line := 7 },
    { entity := "top", name := "y", kind := "var", type := "u8", width := 8, init := "b | a", line := 4 }]

theorem changed_row : between before after = ⟨after.beyond before, before.beyond after⟩ ∧
    (after.beyond before).decls = after.decls.drop 1 :=
  ⟨between_exact ⟨⟨0, nofun⟩, ⟨5, by decide +kernel⟩, ⟨0, nofun⟩, ⟨0, nofun⟩, ⟨0, nofun⟩⟩, by decide +kernel⟩

def oneWay : Tables where
  connects := [{ entity := "top", source := "a", sink := "b|c" }]

def otherWay : Tables where
  connects := [{ entity := "top", source := "a|b", sink := "c" }]

/-- Two different connections with the same key: the delta is empty, although neither agrees with the other. -/
theorem rewiring_missed : between oneWay otherWay = {} ∧ otherWay.beyond oneWay = otherWay ∧
    oneWay.beyond otherWay = oneWay := by
  decide +kernel

end Rewired

/-! ## Deltas of some entities -/

/-- Equal keys begin with the same column, when that has no bars. -/
theorem rowKey_head_inj {x x' y y' : String} {xs ys : List String} (hx : bars x = 0) (hy : bars y = 0)
    (h : rowKey (x :: x' :: xs) = rowKey (y :: y' :: ys)) : x = y := by
  have hlist := congrArg String.toList h
  rw [toList_rowKey, toList_rowKey] at hlist
  exact String.toList_injective (append_cons_inj (hx.trans hy.symm) hlist).1

/-- New rows can be picked by their owners before or after the comparison, when rows with equal keys have one owner. -/
theorem filter_newRows {α : Type} {key owner : α → String} {old new : List α} (names : List String)
    (h : ∀ p ∈ old, ∀ r ∈ new, key p = key r → owner p = owner r) :
    (newRows key old new).filter (fun r => names.contains (owner r)) =
      newRows key (old.filter fun r => names.contains (owner r)) (new.filter fun r => names.contains (owner r)) := by
  simp only [newRows, filter_filter]
  refine filter_congr fun r hr => ?_
  cases hkept : names.contains (owner r) with
  | false => simp only [Bool.false_and, Bool.and_false]
  | true =>
    -- an old row with the key of `r` has its owner, so it is picked as well
    have hold : key r ∈ old.map key ↔ key r ∈ (old.filter fun p => names.contains (owner p)).map key := by
      simp only [mem_map, mem_filter]
      constructor
      · rintro ⟨p, hp, hkey⟩
        exact ⟨p, ⟨hp, by rw [h p hp r hr hkey, hkept]⟩, hkey⟩
      · rintro ⟨p, ⟨hp, -⟩, hkey⟩
        exact ⟨p, hp, hkey⟩
    simp only [Bool.true_and, Bool.and_true, contains_eq_mem, decide_eq_decide.mpr hold]

def Tables.owners (t : Tables) : List String :=
  t.entities.map (·.name) ++ t.ports.map (·.entity) ++ t.decls.map (·.entity) ++ t.instances.map (·.entity) ++
    t.connects.map (·.entity) ++ t.drivers.map (·.entity)

theorem Tables.ofEntities_since {old new : Tables} (hold : ∀ name ∈ old.owners, bars name = 0)
    (hnew : ∀ name ∈ new.owners, bars name = 0) (names : List String) :
    (new.since old).ofEntities names = (new.ofEntities names).since (old.ofEntities names) := by
  simp only [owners, forall_mem_append, forall_mem_map] at hold hnew
  obtain ⟨⟨⟨⟨⟨-, hports⟩, hdecls⟩, hinstances⟩, hconnects⟩, hdrivers⟩ := hold
  obtain ⟨⟨⟨⟨⟨-, hports'⟩, hdecls'⟩, hinstances'⟩, hconnects'⟩, hdrivers'⟩ := hnew
  unfold since ofEntities
  congr 1
  · exact filter_newRows names fun _ _ _ _ hkey => hkey
  · exact filter_newRows names fun p hp r hr => rowKey_head_inj (hports p hp) (hports' r hr)
  · exact filter_newRows names fun p hp r hr => rowKey_head_inj (hdecls p hp) (hdecls' r hr)
  · exact filter_newRows names fun p hp r hr => rowKey_head_inj (hinstances p hp) (hinstances' r hr)
  · exact filter_newRows names fun p hp r hr => rowKey_head_inj (hconnects p hp) (hconnects' r hr)
  · exact filter_newRows names fun p hp r hr => rowKey_head_inj (hdrivers p hp) (hdrivers' r hr)

/-- The delta of some entities is the delta between the netlists of these entities, row by row, for any entities and any netlists
in which the names of entities have no bars. -/
theorem Delta.ofEntities_between {old new : Tables} (hold : ∀ name ∈ old.owners, bars name = 0)
    (hnew : ∀ name ∈ new.owners, bars name = 0) (names : List String) :
    (between old new).ofEntities names = between (old.ofEntities names) (new.ofEntities names) := by
  rw [between, ofEntities, Tables.ofEntities_since hold hnew, Tables.ofEntities_since hnew hold, between]

namespace Renamed

/-- Two entities, the name of one beginning with that of the other, with bars in their expressions. -/
def before : Tables where
  entities := [{ name := "top", line := 1 }, { name := "top__c", line := 5 }]
  connects := [{ entity := "top", source := "a|b", sink := "c" }, { entity := "top__c", source := "x", sink := "y" }]
  drivers := [{ entity := "top", signal := "c", kind := "connect" }, { entity := "top__c", signal := "y", kind := "connect" }]

def after : Tables where
  entities := [{ name := "top", line := 2 }, { name := "top__d", line := 5 }]
  connects := [{ entity := "top", source := "b|a", sink := "c" }, { entity := "top__d", source := "x", sink := "y" }]
  drivers := [{ entity := "top", signal := "c", kind := "connect" }, { entity := "top__d", signal := "y", kind := "connect" }]

/-- Of the entity that is kept under its name, only the changed connection is left, whichever is done first. -/
theorem top_between : (between before after).ofEntities ["top", "top__x"] =
      between (before.ofEntities ["top", "top__x"]) (after.ofEntities ["top", "top__x"]) ∧
    (between before after).ofEntities ["top", "top__x"] =
      ⟨{ connects := [{ entity := "top", source := "b|a", sink := "c" }] },
        { connects := [{ entity := "top", source := "a|b", sink := "c" }] }⟩ :=
  ⟨ofEntities_between (by decide +kernel) (by decide +kernel) _, by decide +kernel⟩

end Renamed

end HdlLowering.Netlist
