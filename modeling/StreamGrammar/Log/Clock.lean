import StreamGrammar.Text.Hex

/-!
# The time of day

The wall clock of a log line: hours, minutes and seconds of a moment in universal time.
-/

namespace StreamGrammar.Log

/-- A number below one hundred in two digits. -/
def twoDigits (n : Int) : String := Text.padZeros 2 (toString n)

/-- The time of day, as `HH:mm:ss`, at a moment given in milliseconds since the epoch. -/
def timeOfDay (now : Int) : String :=
  let seconds := (now.fdiv 1000).fmod 86400
  ":".intercalate
    [twoDigits (seconds / 3600), twoDigits (seconds / 60 % 60), twoDigits (seconds % 60)]

end StreamGrammar.Log
