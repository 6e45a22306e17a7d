import HdlLowering.Json.Reader
import HdlLowering.Json.Writer
import HdlLowering.Netlist.Interchange

/-!
# Netlist snapshots

The netlist of a design is kept in a file until the next run. A file of another design or version counts as none.
-/

namespace HdlLowering.Netlist

structure Snapshot where
  version : Int64 := 0
  design : String := ""
  tables : Tables := {}
  deriving DecidableEq

namespace Snapshot

def currentVersion : Int64 := 1

def suffix : String := ".netlist.json"

def ofTables (design : String) (tables : Tables) : Snapshot := ⟨currentVersion, design, tables⟩

def text (s : Snapshot) : String :=
  (Json.obj [("version", .int64 s.version), ("design", .str s.design), ("tables", s.tables.json)]).indented

def readMembers (ms : Json.Members) : Option Snapshot :=
  return {
    version := ← ms.int "version"
    design := ← ms.text "design"
    tables := ← ms.record Tables.readMembers "tables" }

def parse (text : String) : Option Snapshot :=
  (Json.parse text).bind fun j => Json.readRecord readMembers [j]

/-- The netlist in a snapshot, if it is of a design and of the current version. -/
def tablesOf? (s : Snapshot) (design : String) : Option Tables :=
  if s.version = currentVersion ∧ s.design = design then some s.tables else none

end Snapshot

end HdlLowering.Netlist
