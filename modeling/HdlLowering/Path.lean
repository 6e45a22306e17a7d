/-!
# File paths

`Path.clean` gives the shortest path that names the same place when no link is followed: no empty component, no `.`, and
`..` only at the front of a relative path.
-/

namespace HdlLowering.Path

variable (path : String)

def isAbsolute : Bool := path.startsWith "/"

def push (rooted : Bool) (before : List String) (component : String) : List String :=
  match component, before with
  | "", _ => before
  | ".", _ => before
  | "..", [] => if rooted then [] else [".."]
  | "..", ".." :: rest => ".." :: ".." :: rest
  | "..", _ :: rest => rest
  | c, _ => c :: before

def clean : String :=
  let rooted := isAbsolute path
  let parts := ((path.splitOn "/").foldl (push rooted) []).reverse
  let body := String.intercalate "/" parts
  if rooted then "/" ++ body else if body.isEmpty then "." else body

/-- Paths one below another; empty ones are passed over. -/
def join (paths : List String) : String :=
  match paths.filter (!·.isEmpty) with
  | [] => ""
  | ps => clean (String.intercalate "/" ps)

def trimSlashes : String := String.ofList (path.toList.reverse.dropWhile (· = '/')).reverse

def base : String :=
  if path.isEmpty then "."
  else
    let name := ((trimSlashes path).splitOn "/").getLast?.getD ""
    if name.isEmpty then "/" else name

def dir : String :=
  clean (String.ofList (path.toList.reverse.dropWhile (· ≠ '/')).reverse)

def extension : String :=
  let name := path.toList.reverse.takeWhile (· ≠ '/')
  if '.' ∈ name then String.ofList ('.' :: (name.takeWhile (· ≠ '.')).reverse) else ""

end HdlLowering.Path
