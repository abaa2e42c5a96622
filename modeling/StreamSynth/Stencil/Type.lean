import StreamSynth.Emit.Identifier
import StreamSynth.Expr.Display
import StreamSynth.Expr.Simplify
import StreamSynth.LoweringError
import StreamSynth.Stmt

/-!
# Stencil types

The type of a stencil variable of the generated code: how its elements are laid out, their type,
the extents of its one to four dimensions and, for a stream, the depth of its queue.
-/

namespace StreamSynth

inductive StencilLayout where
  | unpacked
  | packed
  | streaming
  | memory
  deriving DecidableEq

structure StencilType where
  layout : StencilLayout
  element : ScalarType
  extents : List Nat
  depth : Nat
  deriving DecidableEq

namespace StencilType

/-- The extents of realized bounds, each a positive constant. `done` are the extents of the
dimensions before. -/
def extentsOf (done : List Nat) : List Bound → Except Stop (List Nat)
  | [] => .ok done
  | bound :: rest =>
    match bound.extent.simplify with
    | none => .error .overflow
    | some extent =>
      match extent.int? with
      | none =>
        .error (.refused (.malformed "realize"
          ("extent of dimension " ++ toString done.length ++ " is not constant: " ++
            bound.extent.display)))
      | some value =>
        if value.toInt < 1 then
          .error (.refused (.invalidExtents done
            ("dimension " ++ toString done.length ++ " has extent " ++ toString value.toInt)))
        else extentsOf (done ++ [value.toInt.toNat]) rest

def ofBounds (layout : StencilLayout) (element : ScalarType) (bounds : List Bound) (depth : Nat) :
    Except Stop StencilType :=
  if bounds.isEmpty ∨ 4 < bounds.length then
    .error (.refused (.invalidExtents []
      ("stencils have 1 to 4 dimensions, found " ++ toString bounds.length)))
  else do
    let extents ← extentsOf [] bounds
    return ⟨layout, element, extents, depth⟩

def memoryOf (element : ScalarType) : StencilType := ⟨.memory, element, [], 0⟩

def isStream (t : StencilType) : Bool := t.layout = .streaming

def generated (t : StencilType) : String :=
  let element := t.element.generated
  let arguments := element ++ ", " ++ commaSeparated (t.extents.map toString)
  match t.layout with
  | .unpacked => "Stencil<" ++ arguments ++ ">"
  | .packed => "PackedStencil<" ++ arguments ++ ">"
  | .streaming => "hls::stream<AxiPackedStencil<" ++ arguments ++ "> >"
  | .memory => element ++ " *"

def pragmas (t : StencilType) (name : String) : List String :=
  match t.layout with
  | .streaming =>
    ["#pragma HLS STREAM variable=" ++ name ++ " depth=" ++ toString t.depth,
     "#pragma HLS RESOURCE variable=" ++ name ++ " core=FIFO_SRL"]
  | .unpacked =>
    ["#pragma HLS ARRAY_PARTITION variable=" ++ name ++ ".value complete dim=0"]
  | .packed | .memory => []

end StencilType

end StreamSynth
