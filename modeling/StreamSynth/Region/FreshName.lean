/-!
# Fresh names

Names handed out one after another, each different from all before. A base that was handed out
already is continued with the least number that makes it new.
-/

namespace StreamSynth

structure FreshNames where
  issued : List String

namespace FreshNames

def empty : FreshNames := ⟨[]⟩

/-- The names tried for a base, in order: the base itself, then numbered ones. -/
def candidate (base : String) (n : Nat) : String :=
  if n = 0 then base else base ++ "_" ++ toString n

/-- The first candidate from number `n` on that is not issued, looking at `tries` of them. The
candidates differ, so as many tries as there are issued names suffice. -/
def search (issued : List String) (base : String) : Nat → Nat → String
  | 0, n => candidate base n
  | tries + 1, n =>
    if candidate base n ∈ issued then search issued base tries (n + 1) else candidate base n

def unique (names : FreshNames) (base : String) : String × FreshNames :=
  let name := search names.issued base names.issued.length 0
  (name, ⟨name :: names.issued⟩)

end FreshNames

end StreamSynth
