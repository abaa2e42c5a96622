import StreamSynth.Naming

/-!
# Configuration

What a run can vary without a change to the pipeline: names of the generated files and kernels,
naming conventions, queue depths, included headers and interface directives.
-/

namespace StreamSynth

structure Config where
  /-- Kernels are named after this and their target, and the kernel files after this alone. -/
  kernelStem : String
  /-- The queue depth of declared streams. -/
  streamDepth : Nat
  naming : Naming
  /-- Headers that the host code includes, as they stand after the directive. -/
  driverHeaders : List String
  kernelHeaders : List String
  /-- Whether kernels state how their arguments reach the hardware. -/
  interfacePragmas : Bool
  deriving DecidableEq

inductive ConfigFault where
  | zeroDepth
  | emptyStem
  | emptyMarker
  deriving DecidableEq

def ConfigFault.message : ConfigFault → String
  | zeroDepth => "stream_depth must be at least 1"
  | emptyStem => "kernel_prefix must not be empty"
  | emptyMarker => "region_prefix and stream_suffix must not be empty"

namespace Config

def standard : Config where
  kernelStem := "hls_target"
  streamDepth := 1
  naming := .standard
  driverHeaders := ["<assert.h>", "<stdint.h>", "<algorithm>", "<hls_stream.h>", "\"Stencil.h\""]
  kernelHeaders := ["<stdint.h>", "<algorithm>", "<hls_stream.h>", "\"Stencil.h\""]
  interfacePragmas := true

def fault? (c : Config) : Option ConfigFault :=
  if c.streamDepth = 0 then some .zeroDepth
  else if c.kernelStem.isEmpty then some .emptyStem
  else if c.naming.regionStart.isEmpty || c.naming.streamSuffix.isEmpty then some .emptyMarker
  else none

def headerName (c : Config) : String := c.kernelStem ++ ".h"

end Config

end StreamSynth
