/-!
# Lines of generated code

A writer holds the lines written so far, the current indentation level and the heap arrays that
were allocated and not yet freed. Lines are only ever added at the end.
-/

namespace StreamSynth

structure Line where
  level : Nat
  text : String
  deriving DecidableEq

/-- Two blanks for each level, the text and a line end. -/
def Line.render (line : Line) : String :=
  String.ofList (List.replicate (2 * line.level) ' ') ++ line.text ++ "\n"

structure Writer where
  lines : Array Line
  level : Nat
  /-- The names of live heap arrays, the latest first. -/
  heap : List String

namespace Writer

def empty : Writer := ⟨#[], 0, []⟩

def text (w : Writer) : String := w.lines.foldl (fun text line => text ++ line.render) ""

def line (w : Writer) (text : String) : Writer := { w with lines := w.lines.push ⟨w.level, text⟩ }

def lineAll (w : Writer) (texts : List String) : Writer := texts.foldl line w

def indent (w : Writer) : Writer := { w with level := w.level + 1 }

def dedent (w : Writer) : Writer := { w with level := w.level - 1 }

def allocate (w : Writer) (name : String) : Writer := { w with heap := name :: w.heap }

/-- Writes `text` and forgets the latest heap array called `name`, if there is one. -/
def release (w : Writer) (name text : String) : Writer :=
  if name ∈ w.heap then { w with heap := w.heap.erase name }.line text else w

end Writer

end StreamSynth
