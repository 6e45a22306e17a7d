import HdlLowering.Text.Markup

/-!
# Notices

A message behind a label, its further lines under the first one. Line ends behind the last line count as one, and marks for
colours are left out.
-/

namespace HdlLowering.Command

inductive Notice where
  | info
  | success
  | warning
  | error
  deriving DecidableEq

def Notice.label : Notice → String
  | .info => " INFO  "
  | .success => " SUCCESS  "
  | .warning => " WARNING  "
  | .error => "  ERROR   "

/-- A text with tags left out a number of times, since leaving out one may bring about another. -/
def untaggedOften (times : Nat) (s : String) : String := times.repeat Text.untagged s

def Notice.text (n : Notice) (message : String) : String :=
  let message := untaggedOften 2 message
  let ended := message.toList.reverse.dropWhile (· = '\n') |>.reverse
  let margin := String.ofList (List.replicate n.label.length ' ')
  let lines := ((String.ofList ended).splitOn "\n").map Text.shown
  let whole := n.label ++ String.intercalate ("\n" ++ margin) lines
  untaggedOften 5 (whole ++ if ended.length < message.length then "\n\n" else "\n")

end HdlLowering.Command
