/-!
# Spans

A span is a stretch of source text, given by the byte offsets of its start and of its end.
-/

namespace StreamSynth

structure Span where
  start : Nat
  stop : Nat
  deriving DecidableEq

end StreamSynth
