/-!
# Joined text

Pieces of text in a row with a separator between neighbours.
-/

namespace StreamSynth

def joinWith (separator : String) : List String → String
  | [] => ""
  | [piece] => piece
  | piece :: next :: rest => piece ++ separator ++ joinWith separator (next :: rest)

/-- Pieces separated by a comma and a blank, as arguments are. -/
def commaSeparated (pieces : List String) : String := joinWith ", " pieces

/-- Naturals between square brackets. -/
def bracketed (values : List Nat) : String :=
  "[" ++ commaSeparated (values.map toString) ++ "]"

end StreamSynth
