import StreamSynth.Stmt

/-!
# Free occurrences

The data names that a statement uses and does not bind itself, in the order of a walk through
it. Definitions, loops, allocations and realizations bind their name in their body only; their
values and bounds stand outside.
-/

namespace StreamSynth

inductive Occurrence where
  | var (name : String) (type : ScalarType)
  | load (name : String) (type : ScalarType)
  | store (name : String) (type : ScalarType)
  deriving DecidableEq

def Occurrence.name : Occurrence → String
  | .var name _ | .load name _ | .store name _ => name

mutual

/-- The free occurrences of an expression in which the names `bound` are bound. An index comes
before the load that uses it. -/
def Expr.occurrences (bound : List String) : Expr → List Occurrence
  | .int _ _ | .float _ _ | .string _ => []
  | .var name type => if name ∈ bound then [] else [.var name type]
  | .cast _ arg => arg.occurrences bound
  | .binary _ left right => left.occurrences bound ++ right.occurrences bound
  | .not arg => arg.occurrences bound
  | .select condition whenTrue whenFalse =>
    condition.occurrences bound ++ whenTrue.occurrences bound ++ whenFalse.occurrences bound
  | .load name type index =>
    index.occurrences bound ++ (if name ∈ bound then [] else [.load name type])
  | .call _ _ args => Expr.occurrencesAll bound args

def Expr.occurrencesAll (bound : List String) : List Expr → List Occurrence
  | [] => []
  | arg :: rest => arg.occurrences bound ++ Expr.occurrencesAll bound rest

end

def Bound.occurrencesAll (bound : List String) (bounds : List Bound) : List Occurrence :=
  bounds.flatMap fun b => b.min.occurrences bound ++ b.extent.occurrences bound

/-- The free occurrences of a statement in which the names `bound` are bound. -/
def Stmt.occurrences (bound : List String) : Stmt → List Occurrence
  | .letIn name value body => value.occurrences bound ++ body.occurrences (name :: bound)
  | .assert condition _ => condition.occurrences bound
  | .produce _ body => body.occurrences bound
  | .consume _ body => body.occurrences bound
  | .loop name min extent body =>
    min.occurrences bound ++ extent.occurrences bound ++ body.occurrences (name :: bound)
  | .store name value index =>
    value.occurrences bound ++ index.occurrences bound ++
      (if name ∈ bound then [] else [.store name value.type])
  | .provide _ value args => value.occurrences bound ++ Expr.occurrencesAll bound args
  | .allocate name _ extents body =>
    Expr.occurrencesAll bound extents ++ body.occurrences (name :: bound)
  | .free _ => []
  | .realize name _ bounds body =>
    Bound.occurrencesAll bound bounds ++ body.occurrences (name :: bound)
  | .block first rest => first.occurrences bound ++ rest.occurrences bound
  | .ifThen condition thenCase => condition.occurrences bound ++ thenCase.occurrences bound
  | .ifThenElse condition thenCase elseCase =>
    condition.occurrences bound ++ thenCase.occurrences bound ++ elseCase.occurrences bound
  | .evaluate value => value.occurrences bound

end StreamSynth
