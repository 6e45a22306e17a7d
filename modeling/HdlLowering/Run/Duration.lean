/-!
# Durations

Numbers of nanoseconds, shown in the largest unit that fits to a person and in milliseconds to a program.
-/

namespace HdlLowering.Duration

/-- The decimal with some places that a number of its last places stands for, with no zeros behind the point. -/
def decimal (n places : Nat) : String :=
  let digits := (toString (n % Nat.pow 10 places)).toList
  let padded := List.replicate (places - digits.length) '0' ++ digits
  let fraction := (padded.reverse.dropWhile (· = '0')).reverse
  toString (n / Nat.pow 10 places) ++ if fraction.isEmpty then "" else "." ++ String.ofList fraction

def text (ns : Nat) : String :=
  if ns = 0 then "0s"
  else if ns < 1000 then toString ns ++ "ns"
  else if ns < 1000000 then decimal ns 3 ++ "µs"
  else if ns < 1000000000 then decimal ns 6 ++ "ms"
  else
    let minutes := ns / 60000000000
    (if minutes < 60 then "" else toString (minutes / 60) ++ "h") ++
      (if minutes = 0 then "" else toString (minutes % 60) ++ "m") ++ decimal (ns % 60000000000) 9 ++ "s"

def rounded (ns : Nat) : Nat := (ns + 500) / 1000 * 1000

def millis (ns : Nat) : String := decimal ns 6

end HdlLowering.Duration
