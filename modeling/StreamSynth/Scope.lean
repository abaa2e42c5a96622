/-!
# Scopes

A scope is the row of bindings visible at one point, innermost first. Entering a binder pushes a
binding, and a name denotes its innermost one.
-/

namespace StreamSynth

structure Scope (α : Type) where
  bindings : List (String × α)

namespace Scope

variable {α : Type}

def empty : Scope α := ⟨[]⟩

def push (s : Scope α) (name : String) (value : α) : Scope α := ⟨(name, value) :: s.bindings⟩

/-- The scope around the innermost binding. -/
def pop (s : Scope α) : Scope α := ⟨s.bindings.tail⟩

def get? (s : Scope α) (name : String) : Option α := s.bindings.lookup name

def contains (s : Scope α) (name : String) : Bool := (s.get? name).isSome

end Scope

end StreamSynth
