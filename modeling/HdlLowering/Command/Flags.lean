import HdlLowering.Text.Quoted

/-!
# Flags on a command line

A flag starts with one dash or two and has its value behind an equals sign; a flag with a text may have it as the next
argument, and a switch needs none. The first argument that is no flag ends the flags, and so does `--`.
-/

namespace HdlLowering.Command

inductive FlagKind where
  | switch
  | text
  deriving DecidableEq

structure Flag where
  name : String
  kind : FlagKind
  usage : String := ""

inductive FlagError where
  | help
  | malformed (argument : String)
  | unknown (name : String)
  | noValue (name : String)
  | notBoolean (name value : String)
  deriving DecidableEq

def FlagError.message : FlagError → String
  | .help => ""
  | .malformed argument => "bad flag syntax: " ++ argument ++ "\n"
  | .unknown name => "flag provided but not defined: -" ++ name ++ "\n"
  | .noValue name => "flag needs an argument: -" ++ name ++ "\n"
  | .notBoolean name value => "invalid boolean value " ++ Text.quoted value ++ " for -" ++ name ++ ": parse error\n"

def FlagError.exitCode : FlagError → UInt8
  | .help => 0
  | _ => 2

/-- The flags that were given, the last first, and the other arguments. -/
structure Arguments where
  given : List (String × String) := []
  rest : List String := []

namespace Arguments

def text (a : Arguments) (name : String) : String := (a.given.lookup name).getD ""

def isOn (a : Arguments) (name : String) : Bool := a.text name = "true"

end Arguments

def boolean? (value : String) : Option Bool :=
  if ["1", "t", "T", "true", "TRUE", "True"].contains value then some true
  else if ["0", "f", "F", "false", "FALSE", "False"].contains value then some false
  else none

/-- What an argument is: one that ends the flags, the mark that ends them, or a flag with its value. -/
inductive ArgumentForm where
  | plain
  | terminator
  | malformed
  | flag (name : String) (value : Option String)
  deriving DecidableEq

/-- A name and what stands behind the first equals sign that is not its first character. -/
def splitValue (text : List Char) : ArgumentForm :=
  let name := text.take 1 ++ (text.drop 1).takeWhile (· ≠ '=')
  .flag (String.ofList name) (((text.drop name.length).head?).map fun _ => String.ofList (text.drop (name.length + 1)))

def ArgumentForm.of (argument : String) : ArgumentForm :=
  match argument.toList with
  | ['-', '-'] => .terminator
  | '-' :: '-' :: c :: cs => if c = '-' ∨ c = '=' then .malformed else splitValue (c :: cs)
  | '-' :: c :: cs => if c = '=' then .malformed else splitValue (c :: cs)
  | _ => .plain

def kindOf? (flags : List Flag) (name : String) : Option FlagKind := (flags.find? fun f => f.name = name).map Flag.kind

def parseFlags (flags : List Flag) (given : List (String × String)) : List String → Except FlagError Arguments
  | [] => .ok ⟨given, []⟩
  | a :: as =>
    match ArgumentForm.of a with
    | .plain => .ok ⟨given, a :: as⟩
    | .terminator => .ok ⟨given, as⟩
    | .malformed => .error (.malformed a)
    | .flag name value =>
      match kindOf? flags name, value with
      | none, _ => if name = "help" ∨ name = "h" then .error .help else .error (.unknown name)
      | some .switch, none => parseFlags flags ((name, "true") :: given) as
      | some .switch, some v =>
        match boolean? v with
        | some b => parseFlags flags ((name, if b then "true" else "false") :: given) as
        | none => .error (.notBoolean name v)
      | some .text, some v => parseFlags flags ((name, v) :: given) as
      | some .text, none =>
        match as with
        | v :: rest => parseFlags flags ((name, v) :: given) rest
        | [] => .error (.noValue name)

def usageLines (flags : List Flag) : String :=
  String.join (flags.map fun f => s!"  -{f.name} string\n    \t{f.usage}\n")

end HdlLowering.Command
