import StreamSynth.ScalarType

/-!
# Identifiers and types of the generated code
-/

namespace StreamSynth

def isIdentifierChar (c : Char) : Bool := c.isAlphanum || c = '_'

/-- The characters of an identifier: what cannot stand in one becomes an underscore, and a
leading digit gets an underscore before it. -/
def identifierChars (name : List Char) : List Char :=
  let chars := name.map fun c => if isIdentifierChar c then c else '_'
  if chars.head?.any Char.isDigit then '_' :: chars else chars

def identifier (name : String) : String := String.ofList (identifierChars name.toList)

/-- The type in the generated code. Widths without a type of their own fall back to the common
one of their kind. -/
def ScalarType.generated (t : ScalarType) : String :=
  match t.kind with
  | .int =>
    if t.bits = 8 then "int8_t" else if t.bits = 16 then "int16_t"
    else if t.bits = 64 then "int64_t" else "int32_t"
  | .uint =>
    if t.bits = 1 then "bool" else if t.bits = 8 then "uint8_t"
    else if t.bits = 16 then "uint16_t" else if t.bits = 64 then "uint64_t" else "uint32_t"
  | .float =>
    if t.bits = 64 then "double" else if t.bits = 16 then "uint16_t" else "float"
  | .handle => "void *"

end StreamSynth
