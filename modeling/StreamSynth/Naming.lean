import StreamSynth.LoweringError
import StreamSynth.Text.Affix

/-!
# Naming conventions

The role of a name in a pipeline is part of its spelling: a prefix marks a producer as a hardware
region, and suffixes mark streams, stencils, update accumulators, metadata of buffers and buffer
descriptors.
-/

namespace StreamSynth

structure Naming where
  /-- A producer whose name starts so is a hardware region. -/
  regionStart : String
  streamSuffix : String
  stencilSuffixes : List String
  updateSuffixes : List String
  /-- Metadata of a buffer, perhaps followed by the number of a dimension. -/
  scalarSuffixes : List String
  descriptorSuffix : String
  deriving DecidableEq

inductive NameClass where
  | stencil
  | scalar
  deriving DecidableEq

namespace Naming

def standard : Naming where
  regionStart := "_hls_target."
  streamSuffix := ".stream"
  stencilSuffixes := [".stream", ".stencil"]
  updateSuffixes := [".stencil_update"]
  scalarSuffixes := [".min", ".extent", ".stride", ".elem_size"]
  descriptorSuffix := ".buffer"

variable (naming : Naming)

def regionTarget? (producer : String) : Option String := afterStart? producer naming.regionStart

def isStream (name : String) : Bool := endsIn name naming.streamSuffix

def isStencil (name : String) : Bool := naming.stencilSuffixes.any (endsIn name)

def isUpdate (name : String) : Bool := naming.updateSuffixes.any (endsIn name)

/-- The object that a metadata name describes. The first listed suffix that fits decides. -/
def scalarSubject? (name : String) : Option String :=
  naming.scalarSuffixes.findSome? (beforeSuffix? (withoutIndex name))

/-- The buffer that a descriptor belongs to: its name up to the descriptor suffix. -/
def bufferOf (descriptor : String) : String := beforeFirst descriptor naming.descriptorSuffix

/-- Classifies a name that is free in a region. Update accumulators never cross the boundary of a
region, and metadata of a stencil can be passed neither as a stencil nor as a scalar. -/
def classify (name region : String) : Except LoweringError NameClass :=
  if naming.isUpdate name then .error (.updateInRegion name region)
  else if (naming.scalarSubject? name).any naming.isStencil then
    .error (.ambiguousName name region)
  else if naming.isStencil name then .ok .stencil
  else .ok .scalar

end Naming

end StreamSynth
