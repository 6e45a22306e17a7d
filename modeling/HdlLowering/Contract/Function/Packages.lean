import HdlLowering.Contract.Function.Lists
import HdlLowering.Contract.Function.Numbers

/-!
# Packages

Packages of functions and values that can be imported. What a function that is not described here gives is not known, so
terms hang on it.
-/

namespace HdlLowering.Contract.Function

def functionsOf : String → List (String × Function)
  | "strings" => texts
  | "strconv" => conversions
  | "regexp" => regexes
  | "math" => numbers
  | "list" => lists
  | "struct" => records
  | _ => []

def furtherMembers : String → Option (List String)
  | "strings" => some []
  | "strconv" => some ["Unquote", "ParseNumber", "ParseFloat", "IntSize", "FormatFloat", "QuoteToASCII", "QuoteToGraphic",
      "QuoteRune", "QuoteRuneToASCII", "QuoteRuneToGraphic", "IsPrint", "IsGraphic"]
  | "regexp" => some ["FindAll", "FindAllNamedSubmatch", "FindAllSubmatch", "FindNamedSubmatch", "FindSubmatch", "ReplaceAll",
      "ReplaceAllLiteral", "QuoteMeta"]
  | "math" => some ["MaxExp", "MinExp", "MaxPrec", "ToNearestEven", "ToNearestAway", "ToZero", "AwayFromZero", "ToNegativeInf",
      "ToPositiveInf", "Below", "Exact", "Above", "Jacobi", "MaxBase", "Acosh", "Asin", "Acos", "Asinh", "Atan", "Atan2",
      "Atanh", "Cbrt", "Copysign", "Erf", "Erfc", "Erfinv", "Erfcinv", "Exp", "Exp2", "Expm1", "Gamma", "Hypot", "J0", "Y0",
      "J1", "Y1", "Jn", "Yn", "Ldexp", "Log", "Log10", "Log2", "Log1p", "Logb", "Ilogb", "Mod", "Modf", "Frexp", "Pow10",
      "Remainder", "Cos", "Sin", "Sinh", "Cosh", "Sqrt", "Tan", "Tanh"]
  | "list" => some ["MatchN"]
  | "struct" => some []
  | _ => none

def wholeConstants : List (String × Int) := [("strconv.IntSize", 64), ("math.MaxBase", 62)]

def orders : List (String × Term) :=
  [("list.Ascending", ordering .less), ("list.Descending", ordering .greater),
    ("list.Comparer", ordering .less)]

def member (path name : String) : Attempt Val := do
  let full := path ++ "." ++ name
  match orders.lookup full, wholeConstants.lookup full, constants.lookup name with
  | some order, _, _ => return .node (← Work.allocateTerm none order [])
  | _, some n, _ => return .scalar (.whole n)
  | _, _, some d => if path = "math" then return .scalar (.fraction d) else throw .conflict
  | none, none, none =>
    if ((functionsOf path).lookup name).isSome then return .function full
    else match furtherMembers path with
      | some names => if names.contains name then return .function full else throw .conflict
      | none => if name.front.isUpper then return .function full else throw .conflict

def division (o : Operator) : Function :=
  ofScalars [.whole, .whole] fun
    | [a, b] => a.calculate o b
    | _ => none

/-- The length of a text or of bytes, of a list, or of a record. -/
def length : Function where
  params := [.ofList [.text, .bytes, .list, .record]]
  truth := false
  apply _
    | [.scalar s] => return .scalar (.whole (rawBytes s).length)
    | [.list id] => do return .scalar (.whole (Evaluator.length (← Work.node id)))
    | [.record id] => do return .scalar (.whole (fieldCount (← Work.node id)))
    | _ => throw .conflict

def conjunction : Function where
  params := [.list]
  truth := false
  apply E
    | [.list id] => do
      return (← E.items id).foldl (fun t id => match t with
        | .any => .node id
        | t => .binary .meet t (.node id)) .any
    | _ => throw .conflict

def disjunction : Function where
  params := [.list]
  truth := false
  apply E
    | [.list id] => do
      match ← E.items id with
      | [] => throw .incomplete
      | id :: ids => return ids.foldl (fun t id => .binary .choose t (.node id)) (.node id)
    | _ => throw .conflict

/-- The functions that have a name everywhere, apart from those that do not evaluate their arguments. -/
def everywhere : List (String × Function) :=
  [("len", length), ("div", division .euclidDiv), ("mod", division .euclidMod), ("quo", division .truncDiv),
    ("rem", division .truncMod), ("and", conjunction), ("or", disjunction)]

def find? (name : String) : Option Function :=
  match everywhere.lookup name with
  | some f => some f
  | none =>
    match name.splitOn "." with
    | [path, w] => (functionsOf path).lookup w
    | _ => none

end HdlLowering.Contract.Function
