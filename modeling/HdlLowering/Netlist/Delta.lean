import HdlLowering.Netlist.Interchange

/-!
# Differences of netlists

The rows added and removed between two netlists. The key of a row leaves out its place, so moving a line is no change.
-/

namespace HdlLowering.Netlist

def rowKey (columns : List String) : String := String.intercalate "|" columns

def EntityRow.key (r : EntityRow) : String := r.name

def PortRow.key (r : PortRow) : String :=
  rowKey [r.entity, r.name, r.direction, r.type, toString r.width.toInt, r.flow, r.storage]

def DeclRow.key (r : DeclRow) : String := rowKey [r.entity, r.name, r.kind, r.type, toString r.width.toInt, r.init]

def InstanceRow.key (r : InstanceRow) : String := rowKey [r.entity, r.name, r.target]

def ConnectRow.key (r : ConnectRow) : String := rowKey [r.entity, r.source, r.sink]

def DriverRow.key (r : DriverRow) : String := rowKey [r.entity, r.signal, r.kind]

def newRows {α : Type} (key : α → String) (old new : List α) : List α :=
  let keys := old.map key
  new.filter fun r => !keys.contains (key r)

def Tables.since (new old : Tables) : Tables where
  entities := newRows EntityRow.key old.entities new.entities
  ports := newRows PortRow.key old.ports new.ports
  decls := newRows DeclRow.key old.decls new.decls
  instances := newRows InstanceRow.key old.instances new.instances
  connects := newRows ConnectRow.key old.connects new.connects
  drivers := newRows DriverRow.key old.drivers new.drivers

def Tables.ofEntities (t : Tables) (names : List String) : Tables where
  entities := t.entities.filter fun r => names.contains r.name
  ports := t.ports.filter fun r => names.contains r.entity
  decls := t.decls.filter fun r => names.contains r.entity
  instances := t.instances.filter fun r => names.contains r.entity
  connects := t.connects.filter fun r => names.contains r.entity
  drivers := t.drivers.filter fun r => names.contains r.entity

structure Delta where
  added : Tables := {}
  removed : Tables := {}
  deriving DecidableEq

namespace Delta

def between (old new : Tables) : Delta := ⟨new.since old, old.since new⟩

def isEmpty (d : Delta) : Bool := d.added.size = 0 && d.removed.size = 0

def ofEntities (d : Delta) (names : List String) : Delta := ⟨d.added.ofEntities names, d.removed.ofEntities names⟩

def json (d : Delta) : Json := .obj [("added", d.added.json), ("removed", d.removed.json)]

end Delta

end HdlLowering.Netlist
