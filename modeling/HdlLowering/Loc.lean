/-!
# Source locations

Lines and columns count from one; what a pass makes stands nowhere and has no positive line. `Loc.before` orders by file,
line and column, with what stands nowhere last.
-/

namespace HdlLowering

structure Loc where
  file : String := ""
  line : Int64 := 0
  col : Int64 := 0
  deriving DecidableEq, Repr, Inhabited

namespace Loc

def synthetic : Loc := {}

def valid (l : Loc) : Bool := 0 < l.line

/-- The order of places: by file, line and column, and places in no file after all others. -/
def before (l o : Loc) : Bool :=
  if l.valid != o.valid then l.valid
  else if l.file ≠ o.file then l.file < o.file
  else if l.line ≠ o.line then l.line < o.line
  else l.col < o.col

def text (l : Loc) : String :=
  if l.valid then
    let place := s!"{l.line.toInt}:{l.col.toInt}"
    if l.file.isEmpty then place else l.file ++ ":" ++ place
  else "<synthetic>"

end Loc

end HdlLowering
