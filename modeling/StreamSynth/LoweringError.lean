import StreamSynth.Text.Join

/-!
# Errors of lowering

Every way in which lowering a pipeline, or an operation on stencil values, can be refused. Each
cause has a stable code, a message and perhaps a hint.
-/

namespace StreamSynth

inductive LoweringError where
  | malformed (construct message : String)
  | unsupported (construct message : String)
  | wordWidth (expected found : Nat)
  | indexOutOfBounds (index extents : List Nat)
  | extentMismatch (dimension stencil : Nat) (buffer : Int)
  | invalidExtents (extents : List Nat) (message : String)
  | updateInRegion (name region : String)
  | unscopedStream (name region : String)
  | ambiguousName (name region : String)
  | argumentCollision (first second printed region : String)
  deriving DecidableEq

namespace LoweringError

def code : LoweringError → String
  | malformed .. => "E0101"
  | unsupported .. => "E0102"
  | wordWidth .. => "E0201"
  | indexOutOfBounds .. => "E0202"
  | extentMismatch .. => "E0203"
  | invalidExtents .. => "E0204"
  | updateInRegion .. => "E0301"
  | unscopedStream .. => "E0302"
  | ambiguousName .. => "E0303"
  | argumentCollision .. => "E0304"

def message : LoweringError → String
  | malformed construct text => "malformed `" ++ construct ++ "`: " ++ text
  | unsupported construct text => "unsupported `" ++ construct ++ "`: " ++ text
  | wordWidth expected found =>
    "word width mismatch: element type has " ++ toString expected ++
      " bits, declared word has " ++ toString found
  | indexOutOfBounds index extents =>
    "index " ++ bracketed index ++ " out of bounds for stencil extents " ++ bracketed extents
  | extentMismatch dimension stencil buffer =>
    "extent mismatch in dimension " ++ toString dimension ++ ": stencil has " ++
      toString stencil ++ ", buffer has " ++ toString buffer
  | invalidExtents extents text => "invalid stencil extents " ++ bracketed extents ++ ": " ++ text
  | updateInRegion name region =>
    "stencil update `" ++ name ++ "` referenced inside hardware region `" ++ region ++ "`"
  | unscopedStream name region =>
    "stream `" ++ name ++ "` used in hardware region `" ++ region ++
      "` has no stencil type in scope"
  | ambiguousName name region =>
    "cannot classify `" ++ name ++ "` in hardware region `" ++ region ++
      "`: matches both stream and scalar conventions"
  | argumentCollision first second printed region =>
    "`" ++ first ++ "` and `" ++ second ++ "` both print as kernel argument `" ++ printed ++
      "` in hardware region `" ++ region ++ "`"

/-- Names that do not fit their region point at the front end; an unsupported sequence can be
split. -/
def hint? : LoweringError → Option String
  | updateInRegion .. | unscopedStream .. | ambiguousName .. | argumentCollision .. =>
    some "front-end contract violation: check the lowered IR for this region"
  | unsupported .. =>
    some "split the statement sequence so each drain is paired with one consumer"
  | _ => none

end LoweringError

/-- Why an operation stops without a result: an error refuses it, or a number it computes leaves
the 64-bit range. -/
inductive Stop where
  | refused (error : LoweringError)
  | overflow
  deriving DecidableEq

/-- A number that is missing because it leaves the 64-bit range. -/
def orOverflow {α : Type} : Option α → Except Stop α
  | some value => .ok value
  | none => .error .overflow

end StreamSynth
