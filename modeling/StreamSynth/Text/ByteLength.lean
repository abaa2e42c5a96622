/-!
# Sizes of texts

Places in source text are counted in bytes of its encoding, of which a character has one to four.
-/

namespace StreamSynth

def byteLength : List Char → Nat
  | [] => 0
  | c :: rest => c.utf8Size + byteLength rest

@[simp] theorem byteLength_append (first second : List Char) :
    byteLength (first ++ second) = byteLength first + byteLength second := by
  induction first with
  | nil => simp [byteLength]
  | cons c rest inductionHypothesis => simp [byteLength, inductionHypothesis, Nat.add_assoc]

theorem byteLength_toList (text : String) : byteLength text.toList = text.utf8ByteSize := by
  induction text using String.push_induction with
  | empty => rfl
  | push text c inductionHypothesis =>
    rw [String.push_eq_append, String.toList_append, byteLength_append, inductionHypothesis,
      String.utf8ByteSize_append, String.utf8ByteSize_singleton, String.toList_singleton]
    rfl

end StreamSynth
