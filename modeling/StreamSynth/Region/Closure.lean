import StreamSynth.Region.Occurrence

/-!
# Closures of regions

The closure of a region is what its body takes from outside: the memory buffers it loads from or
stores to, and the variables it reads. A name that is used as a buffer anywhere is no variable.
-/

namespace StreamSynth

/-- A memory buffer, with the element type of its first use. -/
structure BufferUse where
  name : String
  type : ScalarType
  read : Bool
  write : Bool
  deriving DecidableEq

structure Closure where
  buffers : List BufferUse
  vars : List (String × ScalarType)
  deriving DecidableEq

namespace Closure

def empty : Closure := ⟨[], []⟩

/-- Adds a use to the buffer of that name, or the buffer itself. -/
def addBuffer (use : BufferUse) : List BufferUse → List BufferUse
  | [] => [use]
  | buffer :: rest =>
    if buffer.name = use.name then
      { buffer with read := buffer.read || use.read, write := buffer.write || use.write } :: rest
    else buffer :: addBuffer use rest

def noteBuffer (c : Closure) (use : BufferUse) : Closure :=
  ⟨addBuffer use c.buffers, c.vars.filter (·.1 ≠ use.name)⟩

def noteVariable (c : Closure) (name : String) (type : ScalarType) : Closure :=
  if c.vars.any (·.1 = name) || c.buffers.any (·.name = name) then c
  else { c with vars := c.vars ++ [(name, type)] }

def note (c : Closure) : Occurrence → Closure
  | .var name type => c.noteVariable name type
  | .load name type => c.noteBuffer ⟨name, type, true, false⟩
  | .store name type => c.noteBuffer ⟨name, type, false, true⟩

def capture (body : Stmt) : Closure := (body.occurrences []).foldl note empty

end Closure

end StreamSynth
