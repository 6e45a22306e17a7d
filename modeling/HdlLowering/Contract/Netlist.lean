import HdlLowering.Contract.Schema

/-!
# The contract of netlists

Names are there, no pipeline or stack is left, an input has no storage and an output has one that is known.
-/

namespace HdlLowering.Contract

open Schema in
def netlistSchema : List Entry :=
  let name : Term := .name "#Name"
  let place : List Entry := [has "file" anyText, has "line" (.name "#Line")]
  let lowType : Term := meet anyText (unlike "^(pipeline|stack)")
  [definition "#Name" filledText,
    definition "#Line" (wholeFrom 0),
    form "#EntityRow" (has "name" name :: place),
    form "#PortRow"
      ([has "entity" name, has "name" name, has "direction" (oneOf ["in", "out"]), has "type" lowType, has "width" (wholeFrom 0),
        has "flow" (oneOf ["none", "valid", "ready"]), has "storage" anyText] ++ place ++
      [whenText "direction" "in" [has "storage" (text "")],
        whenText "direction" "out"
          [has "storage" (like "^(reg|wire|((fslice|bslice|bubble)( (fslice|bslice|bubble))*))$")]]),
    form "#DeclRow"
      ([has "entity" name, has "name" name, has "kind" (oneOf ["const", "var", "array"]), has "type" lowType,
        has "width" (wholeFrom 0), has "init" anyText] ++ place),
    form "#InstanceRow" ([has "entity" name, has "name" name, has "target" name] ++ place),
    form "#ConnectRow" ([has "entity" name, has "source" name, has "sink" name] ++ place),
    form "#DriverRow" ([has "entity" name, has "signal" name, has "kind" (oneOf ["connect", "assign"])] ++ place),
    form "#Netlist"
      [has "entities" (listOf (.name "#EntityRow")), has "ports" (listOf (.name "#PortRow")),
        has "decls" (listOf (.name "#DeclRow")), has "instances" (listOf (.name "#InstanceRow")),
        has "connects" (listOf (.name "#ConnectRow")), has "drivers" (listOf (.name "#DriverRow"))]]

def netlistAdmits (text : String) : Bool := admitsText netlistSchema "#Netlist" text

end HdlLowering.Contract
