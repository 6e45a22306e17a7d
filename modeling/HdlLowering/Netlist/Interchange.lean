import HdlLowering.Json.Fields
import HdlLowering.Netlist.Tables

/-!
# Netlists as JSON

Tables are written with their columns in a fixed order and read with any column missing.
-/

namespace HdlLowering.Netlist

open Json (Members readRecord)

def EntityRow.json (r : EntityRow) : Json :=
  .obj [("name", .str r.name), ("file", .str r.file), ("line", .int64 r.line)]

def PortRow.json (r : PortRow) : Json :=
  .obj [("entity", .str r.entity), ("name", .str r.name), ("direction", .str r.direction), ("type", .str r.type),
    ("width", .int64 r.width), ("flow", .str r.flow), ("storage", .str r.storage), ("file", .str r.file),
    ("line", .int64 r.line)]

def DeclRow.json (r : DeclRow) : Json :=
  .obj [("entity", .str r.entity), ("name", .str r.name), ("kind", .str r.kind), ("type", .str r.type),
    ("width", .int64 r.width), ("init", .str r.init), ("file", .str r.file), ("line", .int64 r.line)]

def InstanceRow.json (r : InstanceRow) : Json :=
  .obj [("entity", .str r.entity), ("name", .str r.name), ("target", .str r.target), ("file", .str r.file),
    ("line", .int64 r.line)]

def ConnectRow.json (r : ConnectRow) : Json :=
  .obj [("entity", .str r.entity), ("source", .str r.source), ("sink", .str r.sink), ("file", .str r.file),
    ("line", .int64 r.line)]

def DriverRow.json (r : DriverRow) : Json :=
  .obj [("entity", .str r.entity), ("signal", .str r.signal), ("kind", .str r.kind), ("file", .str r.file),
    ("line", .int64 r.line)]

def Tables.json (t : Tables) : Json :=
  .obj [("entities", .arr (t.entities.map (·.json))), ("ports", .arr (t.ports.map (·.json))),
    ("decls", .arr (t.decls.map (·.json))), ("instances", .arr (t.instances.map (·.json))),
    ("connects", .arr (t.connects.map (·.json))), ("drivers", .arr (t.drivers.map (·.json)))]

variable (ms : Members)

def EntityRow.read : Option EntityRow :=
  return {
    name := ← ms.text "name", file := ← ms.text "file", line := ← ms.int "line" }

def PortRow.read : Option PortRow :=
  return {
    entity := ← ms.text "entity", name := ← ms.text "name", direction := ← ms.text "direction"
    type := ← ms.text "type", width := ← ms.int "width", flow := ← ms.text "flow"
    storage := ← ms.text "storage", file := ← ms.text "file", line := ← ms.int "line" }

def DeclRow.read : Option DeclRow :=
  return {
    entity := ← ms.text "entity", name := ← ms.text "name", kind := ← ms.text "kind", type := ← ms.text "type"
    width := ← ms.int "width", init := ← ms.text "init", file := ← ms.text "file", line := ← ms.int "line" }

def InstanceRow.read : Option InstanceRow :=
  return {
    entity := ← ms.text "entity", name := ← ms.text "name", target := ← ms.text "target"
    file := ← ms.text "file", line := ← ms.int "line" }

def ConnectRow.read : Option ConnectRow :=
  return {
    entity := ← ms.text "entity", source := ← ms.text "source", sink := ← ms.text "sink"
    file := ← ms.text "file", line := ← ms.int "line" }

def DriverRow.read : Option DriverRow :=
  return {
    entity := ← ms.text "entity", signal := ← ms.text "signal", kind := ← ms.text "kind"
    file := ← ms.text "file", line := ← ms.int "line" }

def Tables.readMembers : Option Tables :=
  return {
    entities := ← ms.list (readRecord EntityRow.read) "entities"
    ports := ← ms.list (readRecord PortRow.read) "ports"
    decls := ← ms.list (readRecord DeclRow.read) "decls"
    instances := ← ms.list (readRecord InstanceRow.read) "instances"
    connects := ← ms.list (readRecord ConnectRow.read) "connects"
    drivers := ← ms.list (readRecord DriverRow.read) "drivers" }

def Tables.read (j : Json) : Option Tables := readRecord Tables.readMembers [j]

end HdlLowering.Netlist
