import HdlLowering.SymbolTable
import HdlLowering.Tree

/-!
# The text of a design

Designs are shown as indented source text, two blanks for each level. Binary and conditional expressions are
always parenthesized, so the text of an expression shows how it is built.
-/

namespace HdlLowering

open Expr

def FlowControl.text : FlowControl → String
  | .none => ""
  | .valid => "sync"
  | .ready => "sync ready"

def SliceKind.text : SliceKind → String
  | .forward => "fslice"
  | .backward => "bslice"
  | .bubble => "bubble"

def Storage.text : Storage → String
  | .reg => "reg"
  | .wire => "wire"
  | .slices chain => String.intercalate " " (chain.map SliceKind.text)

variable (Γ : SymbolTable)

def Kind.text : Kind → String
  | .uint w => s!"u{w.toInt}"
  | .sint w => s!"i{w.toInt}"
  | .num s => if s then "int" else "uint"
  | .void => "void"
  | .struct name _ => name
  | .array e n => text e ++ s!"[{n.toInt}]"
  | .input k f =>
    "in " ++ (if f = .none then "" else f.text ++ " ") ++ text k
  | .output k f st =>
    "out " ++ (if f = .none then "" else f.text ++ " ") ++ (if st = .reg ∨ st.text = "" then "" else st.text ++ " ") ++
      text k
  | .const k => "const " ++ text k
  | .pipeline k => "pipeline " ++ text k
  | .stack e _ => "stack<" ++ text e ++ ">"
  | .entity ps => "entity(" ++ String.intercalate ", " (ps.map Γ.name) ++ ")"
  | .inst e => "instance " ++ Γ.name e

mutual
def Expr.text : Expr → String
  | .ref _ s => Γ.name s
  | .num _ _ v => toString v
  | .int _ signed w v => toString w.toInt ++ (if signed then "'sd" else "'d") ++ toString v
  | .unary _ op e => op.text ++ text e
  | .binary _ op x y => "(" ++ text x ++ " " ++ op.text ++ " " ++ text y ++ ")"
  | .ternary _ c x y => "(" ++ text c ++ " ? " ++ text x ++ " : " ++ text y ++ ")"
  | .cat _ ps => "\x7b" ++ String.intercalate ", " (texts ps) ++ "\x7d"
  | .rep _ n e => "\x7b" ++ text n ++ "\x7b" ++ text e ++ "\x7d\x7d"
  | .index _ e i => text e ++ "[" ++ text i ++ "]"
  | .slice _ e m l => text e ++ "[" ++ text m ++ ":" ++ text l ++ "]"
  | .select _ e f => text e ++ "." ++ f
  | .call _ f as => text f ++ "(" ++ String.intercalate ", " (texts as) ++ ")"

def Expr.texts : List Expr → List String
  | [] => []
  | e :: es => text e :: texts es
end

mutual
def Kind.full : Kind → String
  | .struct name fs => "struct " ++ name ++ "\x7b" ++ String.intercalate ", " (fullFields fs) ++ "\x7d"
  | .array e n => "array(" ++ full e ++ s!", {n.toInt})"
  | .input k f => "in(" ++ full k ++ ", \"" ++ f.text ++ "\")"
  | .output k f st => "out(" ++ full k ++ ", \"" ++ f.text ++ "\", \"" ++ st.text ++ "\")"
  | .const k => "const(" ++ full k ++ ")"
  | .pipeline k => "pipeline(" ++ full k ++ ")"
  | .stack e d => "stack(" ++ full e ++ ", " ++ d.expr.text Γ ++ ")"
  | .entity ps => "entity(" ++ String.intercalate ", " (ps.map Γ.text) ++ ")"
  | .inst e => "instance(" ++ Γ.text e ++ ")"
  | k => k.text Γ

def Kind.fullFields : List (String × Kind) → List String
  | [] => []
  | (n, k) :: fs => (n ++ ": " ++ full k) :: fullFields fs
end

def lineAt (depth : Nat) (s : String) : String := String.ofList (List.replicate (2 * depth) ' ') ++ s

def Decl.text (d : Decl) : String :=
  (Γ.kind d.symbol).text Γ ++ " " ++ Γ.name d.symbol ++
    match d.init with
    | some e => " = " ++ e.text Γ
    | none => ""

def Instance.text (i : Instance) : String := Γ.name i.symbol ++ " = new " ++ Γ.name i.entity ++ ";"

def Connect.text (c : Connect) : String :=
  c.source.text Γ ++ " -> " ++ String.intercalate ", " (texts Γ c.sinks) ++ ";"

def blockLines (depth : Nat) (head : String) (body : List String) : List String :=
  lineAt depth (if head.isEmpty then "\x7b" else head ++ " \x7b") :: body ++ [lineAt depth "\x7d"]

mutual
def Stmt.lines (depth : Nat) : Stmt → List String
  | .block _ b => blockLines depth "" (Stmt.linesList (depth + 1) b)
  | .cond _ c t e =>
    blockLines depth ("if (" ++ c.text Γ ++ ")") (Stmt.linesList (depth + 1) t) ++
      (if e.isEmpty then [] else blockLines depth "else" (Stmt.linesList (depth + 1) e))
  | .case _ x cs d =>
    lineAt depth ("case (" ++ x.text Γ ++ ") \x7b") ::
      (Clause.linesList (depth + 1) cs ++ Stmt.linesDefault (depth + 1) d) ++ [lineAt depth "\x7d"]
  | .loop _ b => blockLines depth "loop" (Stmt.linesList (depth + 1) b)
  | .goto _ t => [lineAt depth ("goto " ++ t ++ ";")]
  | .fence _ => [lineAt depth "fence;"]
  | .break _ => [lineAt depth "break;"]
  | .continue _ => [lineAt depth "continue;"]
  | .assign _ x y => [lineAt depth (x.text Γ ++ " = " ++ y.text Γ ++ ";")]
  | .expr _ e => [lineAt depth (e.text Γ ++ ";")]
  | .read _ => [lineAt depth "read;"]
  | .write _ => [lineAt depth "write;"]
  | .decl _ d => [lineAt depth (d.text Γ ++ ";")]
  | .stall _ c => [lineAt depth ("stall " ++ c.text Γ ++ ";")]

def Stmt.linesList (depth : Nat) : List Stmt → List String
  | [] => []
  | s :: ss => Stmt.lines depth s ++ Stmt.linesList depth ss

def Stmt.linesDefault (depth : Nat) : Option (List Stmt) → List String
  | none => []
  | some b => blockLines depth "default:" (Stmt.linesList (depth + 1) b)

def Clause.lines (depth : Nat) : Clause → List String
  | { conds, body, .. } =>
    blockLines depth (String.intercalate ", " (Expr.texts Γ conds) ++ ":") (Stmt.linesList (depth + 1) body)

def Clause.linesList (depth : Nat) : List Clause → List String
  | [] => []
  | c :: cs => Clause.lines depth c ++ Clause.linesList depth cs
end

mutual
def Entity.lines (depth : Nat) : Entity → List String
  | { symbol, decls, entities, instances, connects, stmts, .. } =>
    lineAt depth ("entity " ++ Γ.name symbol ++ " \x7b") ::
      (decls.map (fun d => lineAt (depth + 1) (d.text Γ ++ ";")) ++
        Entity.linesList (depth + 1) entities ++
        instances.map (fun i => lineAt (depth + 1) (i.text Γ)) ++
        connects.map (fun c => lineAt (depth + 1) (c.text Γ)) ++
        Stmt.linesList Γ (depth + 1) stmts) ++
      [lineAt depth "\x7d"]

def Entity.linesList (depth : Nat) : List Entity → List String
  | [] => []
  | e :: es => lines depth e ++ linesList depth es
end

/-- Lines as one text, each ended by a newline. -/
def unlines (lines : List String) : String := String.join (lines.map (· ++ "\n"))

def Root.text (r : Root) : String :=
  String.intercalate "\n" (r.entities.map fun e => unlines (Entity.lines Γ 0 e))

/-- A node as text. An arm of a case statement has no text of its own, and an expression has no newline. -/
def Node.text : Node → String
  | .root r => r.text Γ
  | .entity e => unlines (Entity.lines Γ 0 e)
  | .decl d => d.text Γ ++ ";\n"
  | .inst i => i.text Γ ++ "\n"
  | .connect c => c.text Γ ++ "\n"
  | .clause _ => ""
  | .stmt s => unlines (Stmt.lines Γ 0 s)
  | .expr e => e.text Γ

end HdlLowering
