import StreamSynth.Expr.Simplify
import StreamSynth.LoweringError
import StreamSynth.Scope

/-!
# Sizes of buffers

The number of elements of a buffer, as far as the enclosing constructs tell it. An allocation
tells it by its extents. A buffer descriptor tells it by a flattened shape, four fields to a
dimension, of which the second is the extent.
-/

namespace StreamSynth

abbrev BufferSizes := Scope Expr

namespace BufferSizes

def shapeExtents : List Expr → List Expr
  | _ :: extent :: _ :: _ :: rest => extent :: shapeExtents rest
  | _ => []

def recordAllocation (sizes : BufferSizes) (name : String) (extents : List Expr) :
    Except Stop BufferSizes :=
  match Expr.product extents with
  | some size => .ok (sizes.push name size)
  | none => .error .overflow

def recordShape (sizes : BufferSizes) (name : String) (shape : List Expr) :
    Except Stop BufferSizes :=
  if shape.length % 4 ≠ 0 then
    .error (.refused (.malformed "make_struct"
      ("shape of `" ++ name ++ "` has " ++ toString shape.length ++
        " fields, expected a multiple of 4")))
  else recordAllocation sizes name (shapeExtents shape)

end BufferSizes

end StreamSynth
