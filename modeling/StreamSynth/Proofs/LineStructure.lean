import StreamSynth.Proofs.KernelIndependence
import StreamSynth.Proofs.OneLine
import StreamSynth.Proofs.RunLogic

/-!
# The lines of a statement

A statement is written by the same changes to any writer. They add whole lines, leave the blocks
they enter in the order in which these are nested, and never go left of the level they start at. So
the text of a statement is the same at every level but for the blanks before its lines, and an
error on the way takes nothing back.
-/

namespace StreamSynth

section Text

def textLines : List Char → List (List Char)
  | [] => []
  | c :: rest =>
    if c = '\n' then [] :: textLines rest
    else
      match textLines rest with
      | [] => [[c]]
      | line :: more => (c :: line) :: more

theorem textLines_append_lineEnd {line : List Char} (oneLine : '\n' ∉ line) (rest : List Char) :
    textLines (line ++ '\n' :: rest) = line :: textLines rest := by
  induction line with
  | nil => simp [textLines]
  | cons c line inductionHypothesis =>
    rw [List.mem_cons, not_or] at oneLine
    simp [textLines, Ne.symm oneLine.1, inductionHypothesis oneLine.2]

def indentText (levels : Nat) (text : String) : String :=
  String.ofList ((textLines text.toList).flatMap fun line =>
    List.replicate (2 * levels) ' ' ++ line ++ ['\n'])

def Line.deeper (levels : Nat) (line : Line) : Line := { line with level := line.level + levels }

variable {lines : List Line}

theorem textLines_renderAll (oneLine : ∀ line ∈ lines, '\n' ∉ line.text.toList) :
    textLines (renderAll lines).toList = lines.map Line.chars := by
  rw [toList_renderAll]
  induction lines with
  | nil => rfl
  | cons line lines inductionHypothesis =>
    obtain ⟨first, others⟩ := List.forall_mem_cons.mp oneLine
    have noLineEnd : '\n' ∉ line.chars := by simp [Line.chars, first]
    rw [List.flatMap_cons, List.append_assoc, List.singleton_append, List.map_cons,
      ← inductionHypothesis others]
    exact textLines_append_lineEnd noLineEnd _

theorem renderAll_deeper (oneLine : ∀ line ∈ lines, '\n' ∉ line.text.toList) (levels : Nat) :
    renderAll (lines.map (Line.deeper levels)) = indentText levels (renderAll lines) := by
  have deeper_chars (line : Line) :
      (line.deeper levels).chars = List.replicate (2 * levels) ' ' ++ line.chars := by
    rw [Line.chars, Line.chars, Line.deeper, ← List.append_assoc, List.replicate_append_replicate,
      Nat.mul_add, Nat.add_comm]
  rw [← String.toList_inj, toList_renderAll, indentText, String.toList_ofList,
    textLines_renderAll oneLine, List.flatMap_map, List.flatMap_map]
  simp only [deeper_chars]

end Text

section Roles

inductive LineRole where
  | loop
  | condition
  | turn
  | close
  | plain
  deriving DecidableEq

def lineRole (line : List Char) : LineRole :=
  let text := line.dropWhile (· = ' ')
  if text = "\x7d".toList then .close
  else if text = "\x7d else \x7b".toList then .turn
  else if ") \x7b".toList.isSuffixOf text then
    if "for (".toList.isPrefixOf text then .loop
    else if "if (".toList.isPrefixOf text then .condition
    else .plain
  else .plain

/-- The blocks are closed in the order in which they are nested, and a second case belongs to a
condition. -/
inductive Nested : List LineRole → Prop
  | nil : Nested []
  | plain {rest} : Nested rest → Nested (.plain :: rest)
  | loop {inside rest} : Nested inside → Nested rest → Nested (.loop :: inside ++ .close :: rest)
  | ifThen {inside rest} : Nested inside → Nested rest →
      Nested (.condition :: inside ++ .close :: rest)
  | ifThenElse {inThen inElse rest} : Nested inThen → Nested inElse → Nested rest →
      Nested (.condition :: inThen ++ .turn :: inElse ++ .close :: rest)

theorem Nested.append {first rest : List LineRole} (nested : Nested first) (others : Nested rest) :
    Nested (first ++ rest) := by
  induction nested with
  | nil => exact others
  | plain _ inductionHypothesis => exact .plain inductionHypothesis
  | loop inside _ _ inductionHypothesis =>
    simpa using Nested.loop inside inductionHypothesis
  | ifThen inside _ _ inductionHypothesis =>
    simpa using Nested.ifThen inside inductionHypothesis
  | ifThenElse inThen inElse _ _ _ inductionHypothesis =>
    simpa using Nested.ifThenElse inThen inElse inductionHypothesis

/-- Whole blocks stand before, between and behind the marks. -/
inductive Marked : List LineRole → List LineRole → Prop
  | nil {roles} : Nested roles → Marked [] roles
  | cons {inside mark marks rest} : Nested inside → Marked marks rest →
      Marked (mark :: marks) (inside ++ mark :: rest)

namespace Marked

variable {marks more roles others : List LineRole}

theorem append (marked : Marked marks roles) (otherMarked : Marked more others) :
    Marked (marks ++ more) (roles ++ others) := by
  induction marked with
  | nil nested =>
    cases otherMarked with
    | nil otherNested => exact .nil (nested.append otherNested)
    | cons inside rest =>
      rw [← List.append_assoc]
      exact .cons (nested.append inside) rest
  | cons inside _ inductionHypothesis =>
    rw [List.append_assoc, List.cons_append]
    exact .cons inside inductionHypothesis

theorem nested (marked : Marked [] roles) : Nested roles := by
  cases marked with
  | nil nested => exact nested

theorem block {opening : LineRole} (opens : opening = .loop ∨ opening = .condition)
    (marked : Marked [opening, .close] roles) : Marked [] roles := by
  obtain _ | ⟨before, _ | ⟨inside, rest⟩⟩ := marked
  rcases opens with rfl | rfl
  · exact .nil (before.append (.loop inside rest.nested))
  · exact .nil (before.append (.ifThen inside rest.nested))

theorem cases (marked : Marked [.condition, .turn, .close] roles) : Marked [] roles := by
  obtain _ | ⟨before, _ | ⟨inThen, _ | ⟨inElse, rest⟩⟩⟩ := marked
  have both := Nested.ifThenElse inThen inElse rest.nested
  rw [List.cons_append, List.cons_append, List.append_assoc] at both
  exact .nil (before.append both)

end Marked

@[simp] theorem lineRole_blanks (n : Nat) (line : List Char) :
    lineRole (List.replicate n ' ' ++ line) = lineRole line := by
  have dropped : (List.replicate n ' ' ++ line).dropWhile (· = ' ') = line.dropWhile (· = ' ') :=
    List.dropWhile_append_of_pos (by simp)
  rw [lineRole, lineRole, dropped]

/-- A line that ends like a statement is none of a block. -/
theorem lineRole_of_semicolon {line : List Char} (ends : line.getLast? = some ';') :
    lineRole line = .plain := by
  obtain ⟨start, rfl⟩ := List.getLast?_eq_some_iff.mp ends
  obtain ⟨text, isText⟩ : ∃ text, (start ++ [';']).dropWhile (· = ' ') = text ++ [';'] := by
    rw [List.dropWhile_append]
    split
    · exact ⟨[], rfl⟩
    · exact ⟨_, rfl⟩
  have ne_of_last {other : List Char} (ends : other.getLast? ≠ some ';') :
      text ++ [';'] ≠ other := by
    rintro rfl
    exact ends List.getLast?_concat
  have notOpen : ¬ ") \x7b".toList.isSuffixOf (text ++ [';']) = true := by
    rw [List.isSuffixOf_iff_suffix]
    rintro ⟨before, same⟩
    refine ne_of_last ?_ same.symm
    rw [List.getLast?_append]
    exact fun ends => absurd (Option.some.inj ends) (by decide)
  simp only [lineRole, isText]
  rw [if_neg (ne_of_last (by decide)), if_neg (ne_of_last (by decide)), if_neg notOpen]

theorem lineRole_append (text : String) {ending : String}
    (ends : ending.toList.getLast? = some ';') : lineRole (text ++ ending).toList = .plain := by
  refine lineRole_of_semicolon ?_
  rw [String.toList_append, List.getLast?_append, ends, Option.some_or]

theorem lineRole_of_head {line : List Char}
    (isHead : line.head? = some '/' ∨ line.head? = some '#') : lineRole line = .plain := by
  rw [List.head?_eq_some_iff, List.head?_eq_some_iff] at isHead
  rcases isHead with ⟨rest, rfl⟩ | ⟨rest, rfl⟩ <;> simp [lineRole]

theorem lineRole_turn : lineRole "\x7d else \x7b".toList = .turn := by simp [lineRole]

theorem lineRole_of_opening {start : List Char} (inside : List Char)
    (isStart : start = "for (".toList ∨ start = "if (".toList) :
    lineRole (start ++ inside ++ ") \x7b".toList) =
      if start = "for (".toList then .loop else .condition := by
  have ends : ") \x7b".toList.isSuffixOf (start ++ inside ++ ") \x7b".toList) = true :=
    List.isSuffixOf_iff_suffix.mpr (List.suffix_append _ _)
  have noBlank : (start ++ inside ++ ") \x7b".toList).dropWhile (· = ' ') =
      start ++ inside ++ ") \x7b".toList := by
    rcases isStart with rfl | rfl <;> rfl
  simp only [lineRole, noBlank, ends, if_true]
  rcases isStart with rfl | rfl <;> simp

theorem lineRole_loopLine (name min extent : String) :
    lineRole (loopLine name min extent).toList = .loop := by
  let id := (identifier name).toList
  let inside := "int ".toList ++ id ++ " = ".toList ++ min.toList ++ "; ".toList ++ id ++
    " < ".toList ++ min.toList ++ " + ".toList ++ extent.toList ++ "; ".toList ++ id ++ "++".toList
  have asOpening : (loopLine name min extent).toList =
      "for (".toList ++ inside ++ ") \x7b".toList := by
    unfold loopLine
    simp [inside, id]
  rw [asOpening, lineRole_of_opening inside (.inl rfl), if_pos rfl]

theorem lineRole_condition (printed : String) :
    lineRole ("if (" ++ printed ++ ") \x7b").toList = .condition := by
  rw [String.toList_append, String.toList_append, lineRole_of_opening _ (.inr rfl)]
  exact if_neg (by decide)

end Roles

def Line.role (line : Line) : LineRole := lineRole line.text.toList

namespace WriterStep

/-- The level behind the steps, unless they go left of the edge. -/
def levelAfter? (level : Nat) : List WriterStep → Option Nat
  | [] => some level
  | line _ :: steps | .heap _ :: steps => levelAfter? level steps
  | indent :: steps => levelAfter? (level + 1) steps
  | dedent :: steps => if level = 0 then none else levelAfter? (level - 1) steps

theorem levelAfter?_append (level : Nat) (first rest : List WriterStep) :
    levelAfter? level (first ++ rest) =
      (levelAfter? level first).bind fun middle => levelAfter? middle rest := by
  induction first generalizing level with
  | nil => rfl
  | cons step first inductionHypothesis =>
    cases step with
    | line text => exact inductionHypothesis level
    | heap step => exact inductionHypothesis level
    | indent => exact inductionHypothesis (level + 1)
    | dedent =>
      rw [List.cons_append, levelAfter?, levelAfter?]
      split
      · rfl
      · exact inductionHypothesis (level - 1)

theorem exists_lines_append (level : Nat) (heap : List String) (first rest : List WriterStep) :
    ∃ middle live, lines level heap (first ++ rest) =
      lines level heap first ++ lines middle live rest := by
  induction first generalizing level heap with
  | nil => exact ⟨level, heap, rfl⟩
  | cons step first inductionHypothesis =>
    cases step with
    | line text =>
      obtain ⟨middle, live, areLines⟩ := inductionHypothesis level heap
      exact ⟨middle, live, congrArg _ areLines⟩
    | indent => exact inductionHypothesis (level + 1) heap
    | dedent => exact inductionHypothesis (level - 1) heap
    | heap step =>
      obtain ⟨middle, live, areLines⟩ := inductionHypothesis level (step.apply heap)
      exact ⟨middle, live, by simp only [List.cons_append, lines, areLines, List.append_assoc]⟩

/-- Steps that never go left of the edge write the same lines further to the right. -/
theorem lines_deeper {level after : Nat} {steps : List WriterStep}
    (stays : levelAfter? level steps = some after) (levels : Nat) (heap : List String) :
    lines (level + levels) heap steps = (lines level heap steps).map (Line.deeper levels) := by
  induction steps generalizing level heap with
  | nil => rfl
  | cons step steps inductionHypothesis =>
    cases step with
    | line text =>
      rw [lines, lines, List.map_cons, inductionHypothesis stays]
      rfl
    | indent =>
      rw [lines, lines, Nat.add_right_comm]
      exact inductionHypothesis stays heap
    | dedent =>
      -- At the edge the level would stay where it is, while it falls further to the right.
      rw [levelAfter?] at stays
      split at stays
      · cases stays
      · next positive =>
        have outer := inductionHypothesis stays heap
        rwa [← Nat.sub_add_comm (Nat.one_le_iff_ne_zero.mpr positive)] at outer
    | heap step =>
      have own : step.lines (level + levels) heap =
          (step.lines level heap).map (Line.deeper levels) := by
        cases step with
        | allocate name => rfl
        | free name =>
          simp only [HeapStep.lines]
          split <;> rfl
      rw [lines, lines, List.map_append, own, inductionHypothesis stays]

theorem oneLine_lines {steps : List WriterStep}
    (oneLine : ∀ text, line text ∈ steps → '\n' ∉ text.toList) (level : Nat) (heap : List String) :
    ∀ line ∈ lines level heap steps, '\n' ∉ line.text.toList := by
  induction steps generalizing level heap with
  | nil => exact List.forall_mem_nil _
  | cons step steps inductionHypothesis =>
    have later := inductionHypothesis fun text isLine =>
      oneLine text (List.mem_cons_of_mem _ isLine)
    cases step with
    | line text =>
      exact List.forall_mem_cons.mpr ⟨oneLine text List.mem_cons_self, later level heap⟩
    | indent => exact later (level + 1) heap
    | dedent => exact later (level - 1) heap
    | heap step =>
      rw [lines, List.forall_mem_append]
      refine ⟨?_, later level (step.apply heap)⟩
      cases step with
      | allocate name => exact List.forall_mem_nil _
      | free name =>
        simp only [HeapStep.lines]
        split <;> simp

/-- Steps whose lines have no line ends of their own, and that come out to the right of where they
start. -/
structure Tidy (steps : List WriterStep) (rise : Nat) : Prop where
  levelAfter?_eq : ∀ level, levelAfter? level steps = some (level + rise)
  oneLine : ∀ text, line text ∈ steps → '\n' ∉ text.toList

namespace Tidy

variable {steps more : List WriterStep} {rise further : Nat} {text : String}

theorem nil : Tidy [] 0 := ⟨fun _ => rfl, by simp⟩

theorem line (oneLine : '\n' ∉ text.toList) : Tidy [.line text] 0 :=
  ⟨fun _ => rfl, by simpa using oneLine⟩

theorem heap (step : HeapStep) : Tidy [.heap step] 0 := ⟨fun _ => rfl, by simp⟩

theorem append (tidy : Tidy steps rise) (others : Tidy more further) :
    Tidy (steps ++ more) (rise + further) where
  levelAfter?_eq level := by
    rw [levelAfter?_append, tidy.levelAfter?_eq, Option.bind_some, others.levelAfter?_eq,
      Nat.add_assoc]
  oneLine text isLine :=
    (List.mem_append.mp isLine).elim (tidy.oneLine text) (others.oneLine text)

theorem enter (oneLine : '\n' ∉ text.toList) (tidy : Tidy steps rise) :
    Tidy (.line text :: .indent :: steps) (rise + 1) where
  levelAfter?_eq level := by
    rw [levelAfter?, levelAfter?, tidy.levelAfter?_eq, Nat.add_right_comm, Nat.add_assoc]
  oneLine other isLine := by
    rcases List.mem_cons.mp isLine with isFirst | isInside
    · cases isFirst
      exact oneLine
    · exact tidy.oneLine other (by simpa using isInside)

theorem inBlock (oneLine : '\n' ∉ text.toList) (tidy : Tidy steps 0) :
    Tidy (inBlock text steps) 0 where
  levelAfter?_eq level := by
    rw [WriterStep.inBlock, ← List.cons_append, ← List.cons_append, levelAfter?_append,
      (tidy.enter oneLine).levelAfter?_eq]
    rfl
  oneLine other isLine := by
    refine (tidy.enter oneLine).oneLine other ?_
    simpa [WriterStep.inBlock] using isLine

end Tidy

/-- Steps that come back to the level they start at. Their lines form blocks but for the marked
ones. -/
structure Shaped (marks : List LineRole) (steps : List WriterStep) : Prop extends Tidy steps 0 where
  marked : ∀ level heap, Marked marks ((lines level heap steps).map Line.role)

namespace Shaped

variable {marks others : List LineRole} {steps more : List WriterStep} {text : String}

theorem nil : Shaped [] [] := ⟨.nil, fun _ _ => .nil .nil⟩

theorem line (oneLine : '\n' ∉ text.toList) (isPlain : lineRole text.toList = .plain) :
    Shaped [] [.line text] where
  toTidy := .line oneLine
  marked level heap := by
    change Marked [] [lineRole text.toList]
    rw [isPlain]
    exact .nil (.plain .nil)

theorem close : Shaped [.close] [.line "\x7d"] where
  toTidy := .line (by decide)
  marked level heap := by
    have isClose : (lines level heap [.line "\x7d"]).map Line.role = [.close] := by
      simp [lines, Line.role, lineRole]
    rw [isClose]
    exact .cons .nil (.nil .nil)

theorem append (shaped : Shaped marks steps) (otherShaped : Shaped others more) :
    Shaped (marks ++ others) (steps ++ more) where
  toTidy := shaped.toTidy.append otherShaped.toTidy
  marked level heap := by
    obtain ⟨middle, live, areLines⟩ := exists_lines_append level heap steps more
    rw [areLines, List.map_append]
    exact (shaped.marked level heap).append (otherShaped.marked middle live)

theorem plainLines {texts : List String} (oneLine : ∀ text ∈ texts, '\n' ∉ text.toList)
    (arePlain : ∀ text ∈ texts, lineRole text.toList = .plain) : Shaped [] (texts.map .line) := by
  induction texts with
  | nil => exact nil
  | cons text texts inductionHypothesis =>
    obtain ⟨oneFirst, oneLine⟩ := List.forall_mem_cons.mp oneLine
    obtain ⟨plainFirst, arePlain⟩ := List.forall_mem_cons.mp arePlain
    exact (line oneFirst plainFirst).append (inductionHypothesis oneLine arePlain)

theorem heap (step : HeapStep) : Shaped [] [.heap step] where
  toTidy := .heap step
  marked level heap := by
    rw [lines, lines, List.append_nil]
    cases step with
    | allocate name => exact .nil .nil
    | free name =>
      simp only [HeapStep.lines]
      split
      · exact (line (by simp) (lineRole_append _ rfl)).marked level heap
      · exact .nil .nil

/-- A block is marked by its opening until it is closed. -/
theorem inBlock (oneLine : '\n' ∉ text.toList) (inside : Shaped [] steps) :
    Shaped [lineRole text.toList] (inBlock text steps) where
  toTidy := inside.toTidy.inBlock oneLine
  marked level heap := by
    obtain ⟨middle, live, areLines⟩ := exists_lines_append (level + 1) heap steps [.dedent]
    have insideRoles := inside.marked (level + 1) heap
    rw [WriterStep.inBlock, lines, lines, areLines, lines, lines, List.append_nil, List.map_cons]
    exact .cons .nil insideRoles

end Shaped

end WriterStep

def Stmt.stageNames : Stmt → List String
  | .produce name body | .consume name body => name :: body.stageNames
  | .letIn _ _ body | .loop _ _ _ body | .allocate _ _ _ body | .realize _ _ _ body =>
    body.stageNames
  | .block first rest => first.stageNames ++ rest.stageNames
  | .ifThen _ thenCase => thenCase.stageNames
  | .ifThenElse _ thenCase elseCase => thenCase.stageNames ++ elseCase.stageNames
  | .assert _ _ | .store _ _ _ | .provide _ _ _ | .free _ | .evaluate _ => []

namespace Emitter

open Emission WriterStep

variable {σ α : Type} {e : Emitter σ} {writer : σ → Writer}

def withWriter (e : Emitter σ) (w : Writer) (state : σ) : σ := e.onWriter (fun _ => w) state

def Alike (e : Emitter σ) (s t : σ) : Prop := ∀ w, e.withWriter w s = e.withWriter w t

structure PerformBoth (e : Emitter σ) (writer : σ → Writer) (steps : List WriterStep)
    (s t s' t' : σ) : Prop where
  first_eq : writer s' = (writer s).performAll steps
  second_eq : writer t' = (writer t).performAll steps
  alike : e.Alike s' t'

theorem PerformBoth.trans {steps more : List WriterStep} {s t m n s' t' : σ}
    (first : e.PerformBoth writer steps s t m n) (second : e.PerformBoth writer more m n s' t') :
    e.PerformBoth writer (steps ++ more) s t s' t' where
  first_eq := by rw [second.first_eq, first.first_eq, Writer.performAll_append]
  second_eq := by rw [second.second_eq, first.second_eq, Writer.performAll_append]
  alike := second.alike

/-- What a run does to the writer does not depend on what the writer holds. -/
def lineLogic (e : Emitter σ) (writer : σ → Writer) : RunLogic LineRole σ σ where
  starts := e.Alike
  passes marks s t s' t' := ∃ steps, Shaped marks steps ∧ e.PerformBoth writer steps s t s' t'
  stops _ _ s t s' t' := ∃ steps rise, Tidy steps rise ∧ e.PerformBoth writer steps s t s' t'
  isOwn _ := False
  starts_of_passes := by
    rintro _ _ _ _ _ ⟨_, _, both⟩
    exact both.alike
  passes_nil alike := ⟨[], .nil, rfl, rfl, alike⟩
  passes_append := by
    rintro _ _ _ _ _ _ _ _ ⟨_, shaped, first⟩ ⟨_, others, second⟩
    exact ⟨_, shaped.append others, first.trans second⟩
  stops_append stopped _ := stopped
  stops_of_passes := by
    rintro _ _ _ _ _ _ _ _ _ ⟨_, shaped, first⟩ ⟨_, _, tidy, second⟩
    exact ⟨_, _, shaped.toTidy.append tidy, first.trans second⟩
  refuses alike _ _ := ⟨[], 0, .nil, rfl, rfl, alike⟩

abbrev Performs (e : Emitter σ) (writer : σ → Writer) (marks : List LineRole)
    (run : Emission σ α) : Prop :=
  (e.lineLogic writer).Holds marks run run

namespace Performs

theorem halts : (e.lineLogic writer).Halts [] :=
  fun alike _ => ⟨[], 0, .nil, rfl, rfl, alike⟩

theorem whole {marks : List LineRole} {run : Emission σ α} (performs : e.Performs writer marks run)
    (blocks : ∀ {roles}, Marked marks roles → Marked [] roles) : e.Performs writer [] run := by
  refine performs.imp ?_ id
  rintro _ _ _ _ ⟨steps, shaped, both⟩
  exact ⟨steps, ⟨shaped.toTidy, fun level heap => blocks (shaped.marked level heap)⟩, both⟩

end Performs

/-- The emitter changes the writer that is read from the state, and changes in a row are one. -/
structure HasWriter (e : Emitter σ) (writer : σ → Writer) : Prop where
  writer_onWriter : ∀ change state, writer (e.onWriter change state) = change (writer state)
  onWriter_onWriter : ∀ outer inner state,
    e.onWriter outer (e.onWriter inner state) = e.onWriter (fun w => outer (inner w)) state

namespace HasWriter

variable {opening : String} {body elseBody : Emission σ Unit} {steps : List WriterStep}
  {s t : σ} (hasWriter : e.HasWriter writer)

include hasWriter

theorem performBoth (alike : e.Alike s t) (steps : List WriterStep) :
    e.PerformBoth writer steps s t (e.onWriter (·.performAll steps) s)
      (e.onWriter (·.performAll steps) t) where
  first_eq := hasWriter.writer_onWriter _ s
  second_eq := hasWriter.writer_onWriter _ t
  alike w := by
    rw [withWriter, withWriter, hasWriter.onWriter_onWriter, hasWriter.onWriter_onWriter]
    exact alike w

theorem performs_steps {marks : List LineRole} (shaped : Shaped marks steps) :
    e.Performs writer marks (modify (e.onWriter (·.performAll steps))) :=
  .change fun _ _ alike => ⟨steps, shaped, hasWriter.performBoth alike steps⟩

theorem performs_line {text : String} (oneLine : '\n' ∉ text.toList)
    (isPlain : lineRole text.toList = .plain) : e.Performs writer [] (e.line text) :=
  hasWriter.performs_steps (.line oneLine isPlain)

theorem performs_statement {text ending : String} (oneLine : '\n' ∉ (text ++ ending).toList)
    (ends : ending.toList.getLast? = some ';') : e.Performs writer [] (e.line (text ++ ending)) :=
  hasWriter.performs_line oneLine (lineRole_append text ends)

theorem performs_close : e.Performs writer [.close] (e.line "\x7d") :=
  hasWriter.performs_steps .close

theorem performs_indented (oneLine : '\n' ∉ opening.toList) (inside : e.Performs writer [] body) :
    e.Performs writer [lineRole opening.toList] (e.indented opening body) := by
  intro s t alike
  have opened := hasWriter.performBoth alike [.line opening]
  have entered : e.PerformBoth writer [.line opening, .indent] s t (e.enter opening s)
      (e.enter opening t) := opened.trans (hasWriter.performBoth opened.alike [.indent])
  change (e.lineLogic writer).Ends _ s t
    (EStateM.bind body (fun _ => modify (e.onWriter Writer.dedent)) (e.enter opening s))
    (EStateM.bind body (fun _ => modify (e.onWriter Writer.dedent)) (e.enter opening t))
  unfold EStateM.bind
  have ends := inside _ _ entered.alike
  generalize body (e.enter opening s) = result at ends ⊢
  generalize body (e.enter opening t) = other at ends ⊢
  cases ends with
  | own isOwn => cases isOwn
  | error stopped =>
    obtain ⟨_, _, tidy, both⟩ := stopped
    exact .error ⟨_, _, tidy.enter oneLine, entered.trans both⟩
  | ok passed =>
    obtain ⟨_, shaped, both⟩ := passed
    exact .ok ⟨_, shaped.inBlock oneLine,
      entered.trans (both.trans (hasWriter.performBoth both.alike [.dedent]))⟩

theorem performs_block (oneLine : '\n' ∉ opening.toList)
    (opens : lineRole opening.toList = .loop ∨ lineRole opening.toList = .condition)
    (inside : e.Performs writer [] body) :
    e.Performs writer [] (e.indented opening body >>= fun _ => e.line "\x7d") := by
  have both := (hasWriter.performs_indented oneLine inside).bind fun _ => hasWriter.performs_close
  exact Performs.whole both (.block opens)

theorem performs_cases (oneLine : '\n' ∉ opening.toList)
    (isCondition : lineRole opening.toList = .condition) (inThen : e.Performs writer [] body)
    (inElse : e.Performs writer [] elseBody) :
    e.Performs writer [] (e.indented opening body >>= fun _ =>
      e.indented "\x7d else \x7b" elseBody >>= fun _ => e.line "\x7d") := by
  have thenCase := hasWriter.performs_indented oneLine inThen
  have turnOneLine : '\n' ∉ "\x7d else \x7b".toList := by decide
  have elseCase := hasWriter.performs_indented turnOneLine inElse
  rw [isCondition] at thenCase
  rw [lineRole_turn] at elseCase
  have all := thenCase.bind fun _ => elseCase.bind fun _ => hasWriter.performs_close
  exact Performs.whole all .cases

theorem performs_declare (type : StencilType) (name : String) :
    e.Performs writer [] (e.declare type name) := by
  have pragmas : ∀ text ∈ type.pragmas (identifier name),
      '\n' ∉ text.toList ∧ text.toList.head? = some '#' := by
    unfold StencilType.pragmas
    split <;> simp
  have shaped : Shaped [] (declaration type name) := by
    refine .plainLines (List.forall_mem_cons.mpr ⟨by simp, ?_⟩) (List.forall_mem_cons.mpr ⟨?_, ?_⟩)
    · exact fun text isPragma => (pragmas text isPragma).1
    · exact lineRole_append _ rfl
    · exact fun text isPragma => lineRole_of_head (.inr (pragmas text isPragma).2)
  have performs := hasWriter.performs_steps shaped
  simp only [declaration, Writer.performAll_lines] at performs
  exact performs

end HasWriter

structure PerformsBy (e : Emitter σ) (writer : σ → Writer) : Prop extends HasWriter e writer where
  region : ∀ {name body write}, e.region? name body = some write →
    ∀ env, e.Performs writer [] (write env)
  intrinsic : ∀ {value write}, e.intrinsic? value = some write → e.Performs writer [] write

open Performs RunLogic.Holds in
/-- A statement is written by steps, one case for each kind. -/
theorem PerformsBy.emit (performsBy : e.PerformsBy writer) {s : Stmt}
    (oneLine : ∀ name ∈ s.stageNames, '\n' ∉ name.toList) (env : Env) :
    e.Performs writer [] (e.emit s env) := by
  induction s generalizing env with
  | letIn name value body bodyPerforms =>
    refine ofStop_bind halts fun env _ => ofExcept_bind fun printed isPrinted => ?_
    have one := value.oneLine_print printed isPrinted
    refine (performsBy.performs_statement ?_ rfl).bind fun _ => bodyPerforms oneLine env
    split <;> simp [one]
  | assert condition message =>
    refine ofExcept_bind fun printed isPrinted => ?_
    have one := condition.oneLine_print printed isPrinted
    exact performsBy.performs_statement (by simp [one]) rfl
  | produce name body bodyPerforms =>
    obtain ⟨oneName, oneLine⟩ := List.forall_mem_cons.mp oneLine
    rw [Emitter.emit]
    split
    · next write isRegion => exact performsBy.region isRegion env
    · refine (performsBy.performs_line (by simp [oneName]) ?_).bind fun _ =>
        bodyPerforms oneLine env
      exact lineRole_of_head (.inl (by simp))
  | consume name body bodyPerforms =>
    obtain ⟨oneName, oneLine⟩ := List.forall_mem_cons.mp oneLine
    refine (performsBy.performs_line (by simp [oneName]) ?_).bind fun _ => bodyPerforms oneLine env
    exact lineRole_of_head (.inl (by simp))
  | loop name min extent body bodyPerforms =>
    refine ofExcept_bind fun low isLow => ?_
    have oneLow := min.oneLine_print low isLow
    refine ofExcept_bind fun size isSize => ?_
    have oneSize := extent.oneLine_print size isSize
    exact performsBy.performs_block (lineEnd_not_mem_loopLine name oneLow oneSize)
      (.inl (lineRole_loopLine name low size)) (bodyPerforms oneLine env)
  | store name value index =>
    refine ofExcept_bind fun place isPlace => ?_
    have onePlace := index.oneLine_print place isPlace
    refine ofExcept_bind fun printed isPrinted => ?_
    have one := value.oneLine_print printed isPrinted
    exact performsBy.performs_statement (by simp [onePlace, one]) rfl
  | provide name value args =>
    refine ofExcept_bind fun place isPlace => ?_
    have onePlace := (Expr.oneLine_printArgs args) place isPlace
    refine ofExcept_bind fun printed isPrinted => ?_
    have one := value.oneLine_print printed isPrinted
    exact performsBy.performs_statement (by simp [onePlace, one]) rfl
  | allocate name type extents body bodyPerforms =>
    rw [Emitter.emit]
    refine ofStop_bind halts fun env _ => ofFold_bind halts fun size _ => ?_
    split
    · exact (performsBy.performs_statement (by simp) rfl).bind fun _ => bodyPerforms oneLine env
    · refine (performsBy.performs_steps (.heap (.allocate name))).bind fun _ => ?_
      refine ofExcept_bind fun printed isPrinted => ?_
      have one := size.oneLine_print printed isPrinted
      exact (performsBy.performs_statement (by simp [one]) rfl).bind fun _ =>
        bodyPerforms oneLine env
  | free name =>
    rw [Emitter.emit]
    split
    · exact pure ()
    · exact performsBy.performs_steps (.heap (.free name))
  | realize name type bounds body bodyPerforms =>
    rw [Emitter.emit]
    split
    · refine ofStop_bind halts fun _ _ => (performsBy.performs_declare _ _).bind fun _ => ?_
      exact bodyPerforms oneLine _
    split
    · refine ofStop_bind halts fun _ _ => (performsBy.performs_declare _ _).bind fun _ => ?_
      exact bodyPerforms oneLine _
    · refine ofFold_bind halts fun size _ => ?_
      split
      · exact refused _
      · exact (performsBy.performs_statement (by simp) rfl).bind fun _ => bodyPerforms oneLine _
  | block first rest firstPerforms restPerforms =>
    obtain ⟨oneFirst, oneRest⟩ := List.forall_mem_append.mp oneLine
    rw [Emitter.emit]
    -- In either order the steps of one part follow those of the other.
    refine ofExcept_bind fun isDrain _ => ?_
    split
    · refine ofExcept_bind fun isPair _ => ?_
      split
      · exact refused _
      · exact (restPerforms oneRest env).bind fun _ => firstPerforms oneFirst env
    · exact (firstPerforms oneFirst env).bind fun _ => restPerforms oneRest env
  | ifThen condition thenCase thenPerforms =>
    refine ofExcept_bind fun printed isPrinted => ?_
    have one := condition.oneLine_print printed isPrinted
    exact performsBy.performs_block (by simp [one]) (.inr (lineRole_condition printed))
      (thenPerforms oneLine env)
  | ifThenElse condition thenCase elseCase thenPerforms elsePerforms =>
    obtain ⟨oneThen, oneElse⟩ := List.forall_mem_append.mp oneLine
    refine ofExcept_bind fun printed isPrinted => ?_
    have one := condition.oneLine_print printed isPrinted
    exact performsBy.performs_cases (by simp [one]) (lineRole_condition printed)
      (thenPerforms oneThen env) (elsePerforms oneElse env)
  | evaluate value =>
    rw [Emitter.emit]
    split
    · next write isIntrinsic => exact performsBy.intrinsic isIntrinsic
    split
    · exact pure ()
    · refine ofExcept_bind fun printed isPrinted => ?_
      have one := value.oneLine_print printed isPrinted
      exact performsBy.performs_statement (by simp [one]) rfl

theorem performsBy_plain (naming : Naming) (streamDepth : Nat) :
    (plain naming streamDepth).PerformsBy id where
  writer_onWriter _ _ := rfl
  onWriter_onWriter _ _ _ := rfl
  region isRegion := by cases isRegion
  intrinsic isIntrinsic := by cases isIntrinsic

end Emitter

namespace Host

open Emitter Emitter.Performs RunLogic.Holds

variable {config : Config}

theorem hasWriter_emitter (config : Config) : (emitter config).HasWriter writer where
  writer_onWriter _ _ := rfl
  onWriter_onWriter _ _ _ := rfl

theorem alike_iff {s t : Host} : (emitter config).Alike s t ↔
    s.kernels = t.kernels ∧ s.names = t.names ∧ s.regions = t.regions := by
  constructor
  · intro alike
    simpa [withWriter, emitter, onWriter] using alike .empty
  · rintro ⟨kernels_eq, names_eq, regions_eq⟩ w
    simp [withWriter, emitter, onWriter, kernels_eq, names_eq, regions_eq]

theorem performs_freshKernel_bind {target : String} {next : String → Emission Host Unit}
    (rest : ∀ kernel, '\n' ∉ kernel.toList → (emitter config).Performs writer [] (next kernel)) :
    (emitter config).Performs writer [] (freshKernel config target >>= next) := by
  intro s t alike
  obtain ⟨kernels_eq, names_eq, regions_eq⟩ := alike_iff.mp alike
  let named := nextKernel config target s
  have isIdentifier : IsIdentifier named.1.toList :=
    FreshNames.isIdentifier_unique _ _ (isIdentifier_identifier _)
  have isSame : nextKernel config target t = named := by
    rw [nextKernel, ← names_eq]
    rfl
  have renamed : (emitter config).Alike { s with names := named.2 } { t with names := named.2 } :=
    alike_iff.mpr ⟨kernels_eq, rfl, regions_eq⟩
  have ends := rest named.1 isIdentifier.lineEnd_not_mem _ _ renamed
  change ((emitter config).lineLogic writer).Ends [] s t (next named.1 { s with names := named.2 })
    (next (nextKernel config target t).1 { t with names := (nextKernel config target t).2 })
  rw [isSame]
  exact ends.after (s := s) (t := t) ⟨[], .nil, rfl, rfl, renamed⟩

theorem onKernels_of_ok {steps : Emission KernelFiles Unit} {host : Host} {kernels : KernelFiles}
    (written : steps host.kernels = .ok () kernels) :
    onKernels steps host = .ok () { host with kernels } := by
  rw [onKernels, written]

theorem onKernels_of_error {steps : Emission KernelFiles Unit} {host : Host} {stop : Stop}
    {kernels : KernelFiles} (stopped : steps host.kernels = .error stop kernels) :
    onKernels steps host = .error stop { host with kernels } := by
  rw [onKernels, stopped]

theorem performs_onKernels (steps : Emission KernelFiles Unit) :
    (emitter config).Performs writer [] (onKernels steps) := by
  intro s t alike
  obtain ⟨kernels_eq, names_eq, regions_eq⟩ := alike_iff.mp alike
  cases written : steps s.kernels with
  | ok _ kernels =>
    rw [onKernels_of_ok written, onKernels_of_ok (kernels_eq ▸ written)]
    exact .ok ⟨[], .nil, rfl, rfl, alike_iff.mpr ⟨rfl, names_eq, regions_eq⟩⟩
  | error stop kernels =>
    rw [onKernels_of_error written, onKernels_of_error (kernels_eq ▸ written)]
    exact .error ⟨[], 0, .nil, rfl, rfl, alike_iff.mpr ⟨rfl, names_eq, regions_eq⟩⟩

theorem performs_lowerRegion (target : String) (body : Stmt) (env : Env) :
    (emitter config).Performs writer [] (lowerRegion config target body env) := by
  refine ofExcept_bind fun args _ => performs_freshKernel_bind fun kernel oneKernel => ?_
  refine (performs_onKernels _).bind fun _ => ?_
  have names : '\n' ∉ (commaSeparated
      ((args.map (Argument.annotate env.sizes)).map (identifier ·.name))).toList :=
    lineEnd_not_mem_commaSeparated (by simp)
  refine ((hasWriter_emitter config).performs_statement ?_ rfl).bind fun _ => ?_
  · simp [-List.map_map, oneKernel, names]
  · refine .change fun s t alike => ⟨[], .nil, rfl, rfl, ?_⟩
    obtain ⟨kernels_eq, names_eq, regions_eq⟩ := alike_iff.mp alike
    refine alike_iff.mpr ⟨kernels_eq, names_eq, ?_⟩
    rw [regions_eq]

theorem performs_transfer (args : List Expr) :
    (emitter config).Performs writer [] (transfer args) := by
  unfold transfer
  split
  · exact refused _
  refine ofExcept_bind fun direction _ => ?_
  refine ofExcept_bind fun printed isPrinted => ?_
  have one := (Expr.oneLine_printArgs args.tail) printed isPrinted
  refine (hasWriter_emitter config).performs_statement ?_ rfl
  cases direction <;> simp [Direction.function, one]

theorem performs_copyToStencil (args : List Expr) :
    (emitter config).Performs writer [] (copyToStencil args) := by
  unfold copyToStencil
  split
  · exact refused _
  refine ofExcept_bind fun printed isPrinted => ?_
  have one := (Expr.oneLine_printArgs args) printed isPrinted
  exact (hasWriter_emitter config).performs_statement (by simp [bufferToStencil, one]) rfl

theorem performsBy_emitter (config : Config) : (emitter config).PerformsBy writer where
  toHasWriter := hasWriter_emitter config
  region isRegion env := by
    obtain ⟨target, _, rfl⟩ := Option.map_eq_some_iff.mp isRegion
    exact performs_lowerRegion target _ env
  intrinsic {value write} isIntrinsic := by
    change intrinsic? value = some write at isIntrinsic
    unfold intrinsic? at isIntrinsic
    split at isIntrinsic
    · split at isIntrinsic
      · cases isIntrinsic
        exact performs_transfer _
      split at isIntrinsic
      · cases isIntrinsic
        exact performs_copyToStencil _
      · cases isIntrinsic
    · cases isIntrinsic

end Host

namespace Writer

def atLevel (level : Nat) (w : Writer) : Writer := { w with level }

theorem level_performAll {w : Writer} {steps : List WriterStep} {after : Nat}
    (stays : WriterStep.levelAfter? w.level steps = some after) :
    (w.performAll steps).level = after := by
  induction steps generalizing w with
  | nil => exact Option.some.inj stays
  | cons step steps inductionHypothesis =>
    refine @inductionHypothesis (w.perform step) ?_
    cases step with
    | line text => exact stays
    | indent => exact stays
    | dedent =>
      rw [WriterStep.levelAfter?] at stays
      split at stays
      · cases stays
      · exact stays
    | heap step =>
      rw [(perform_heap w step).1]
      exact stays

end Writer

/-- Two texts that grew from one by the same whole lines, the second by as many levels deeper. -/
structure GrownAlike (levels : Nat) (before one other added : String) : Prop where
  one_eq : one = before ++ added
  other_eq : other = before ++ indentText levels added
  whole_lines : indentText 0 added = added

/-- How two runs end that started with the same text, the first at the left edge and the second at
the level. -/
inductive EndAlike {σ : Type} (writer : σ → Writer) (level : Nat) (text : String) :
    EStateM.Result Stop σ Unit → EStateM.Result Stop σ Unit → Prop
  | ok {one other added} :
      GrownAlike level text (writer one).text (writer other).text added →
      (writer one).level = 0 → (writer other).level = level →
      Nested ((textLines added.toList).map lineRole) →
      EndAlike writer level text (.ok () one) (.ok () other)
  | error {stop one other added} :
      GrownAlike level text (writer one).text (writer other).text added →
      EndAlike writer level text (.error stop one) (.error stop other)

section Levels

variable {steps : List WriterStep} {rise : Nat}

theorem WriterStep.Tidy.grownAlike (tidy : Tidy steps rise) (level : Nat) (w : Writer) :
    GrownAlike level w.text ((w.atLevel 0).performAll steps).text
      ((w.atLevel level).performAll steps).text (renderAll (lines 0 w.heap steps)) := by
  have oneLine := oneLine_lines tidy.oneLine 0 w.heap
  have deeper := lines_deeper (tidy.levelAfter?_eq 0) level w.heap
  rw [Nat.zero_add] at deeper
  refine ⟨Writer.text_performAll _ steps, ?_, ?_⟩
  · rw [Writer.text_performAll, ← renderAll_deeper oneLine level, ← deeper]
    rfl
  · rw [← renderAll_deeper oneLine 0]
    exact congrArg renderAll (List.map_id _)

theorem WriterStep.Shaped.nested_text (whole : Shaped [] steps) (heap : List String) :
    Nested ((textLines (renderAll (lines 0 heap steps)).toList).map lineRole) := by
  rw [textLines_renderAll (oneLine_lines whole.oneLine 0 heap), List.map_map]
  have sameRoles : lineRole ∘ Line.chars = Line.role := by
    funext line
    exact lineRole_blanks _ _
  rw [sameRoles]
  exact (whole.marked 0 heap).nested

theorem Emitter.Performs.endAlike {σ : Type} {e : Emitter σ} {writer : σ → Writer}
    {run : Emission σ Unit} (performs : e.Performs writer [] run) (hasWriter : e.HasWriter writer)
    (level : Nat) (state : σ) :
    EndAlike writer level (writer state).text (run (e.onWriter (Writer.atLevel 0) state))
      (run (e.onWriter (Writer.atLevel level) state)) := by
  have alike : e.Alike (e.onWriter (Writer.atLevel 0) state)
      (e.onWriter (Writer.atLevel level) state) := by
    intro w
    rw [withWriter, withWriter, hasWriter.onWriter_onWriter, hasWriter.onWriter_onWriter]
  have ends := performs _ _ alike
  generalize run _ = result at ends ⊢
  generalize run _ = other at ends ⊢
  cases ends with
  | own isOwn => cases isOwn
  | ok passed =>
    obtain ⟨steps, whole, first_eq, second_eq, _⟩ := passed
    rw [hasWriter.writer_onWriter] at first_eq second_eq
    refine .ok ?_ ?_ ?_ (whole.nested_text (writer state).heap)
    · rw [first_eq, second_eq]
      exact whole.grownAlike level (writer state)
    · rw [first_eq]
      exact Writer.level_performAll (whole.levelAfter?_eq 0)
    · rw [second_eq]
      exact Writer.level_performAll (whole.levelAfter?_eq level)
  | error stopped =>
    obtain ⟨steps, rise, tidy, first_eq, second_eq, _⟩ := stopped
    rw [hasWriter.writer_onWriter] at first_eq second_eq
    apply EndAlike.error
    rw [first_eq, second_eq]
    exact tidy.grownAlike level (writer state)

end Levels

/-- Statements are written in whole lines and nested blocks, alike at every level but for the
blanks before the lines, and an error takes nothing back. -/
theorem statement_lines {s : Stmt} (oneLine : ∀ name ∈ s.stageNames, '\n' ∉ name.toList)
    (env : Env) (level : Nat) :
    (∀ naming streamDepth (w : Writer), EndAlike id level w.text
      ((Emitter.plain naming streamDepth).emit s env (w.atLevel 0))
      ((Emitter.plain naming streamDepth).emit s env (w.atLevel level))) ∧
    ∀ config (host : Host), EndAlike Host.writer level host.writer.text
      ((Host.emitter config).emit s env (host.onWriter (Writer.atLevel 0)))
      ((Host.emitter config).emit s env (host.onWriter (Writer.atLevel level))) := by
  constructor
  · intro naming streamDepth w
    have performsBy := Emitter.performsBy_plain naming streamDepth
    exact (performsBy.emit oneLine env).endAlike performsBy.toHasWriter level w
  · intro config host
    have performsBy := Host.performsBy_emitter config
    exact (performsBy.emit oneLine env).endAlike performsBy.toHasWriter level host

def drainInLoop : Stmt :=
  .consume "blur" (.loop "x" (.ofInt 0) (.ofInt 4)
    (.ifThenElse (.binary .lt (.var "x" .default) (.ofInt 2))
      (.store "out" (.ofInt 1) (.var "x" .default))
      (.evaluate (.call streamSubimage .default
        [.string "stream_to_buffer", .var "blur.stream" .handle, .var "out" .handle,
          .var "x" .default, .ofInt 1, .ofInt 4]))))

theorem drainInLoop_oneLine : ∀ name ∈ drainInLoop.stageNames, '\n' ∉ name.toList := by
  simp [drainInLoop, Stmt.stageNames]

theorem statement_lines_drainInLoop :
    (∃ one other,
      (Host.emitter .standard).emit drainInLoop .empty
        ((Host.start .standard).onWriter (Writer.atLevel 0)) = .ok () one ∧
      (Host.emitter .standard).emit drainInLoop .empty
        ((Host.start .standard).onWriter (Writer.atLevel 2)) = .ok () other ∧
      EndAlike Host.writer 2 (Host.start .standard).writer.text (.ok () one) (.ok () other)) ∧
    ∃ stop one other,
      (Emitter.plain .standard 1).emit drainInLoop .empty (Writer.empty.atLevel 0) =
        .error stop one ∧
      (Emitter.plain .standard 1).emit drainInLoop .empty (Writer.empty.atLevel 2) =
        .error stop other ∧
      EndAlike id 2 Writer.empty.text (.error stop one) (.error stop other) := by
  obtain ⟨onPlain, onHost⟩ := statement_lines drainInLoop_oneLine .empty 2
  exact ⟨⟨_, _, rfl, rfl, onHost .standard (.start .standard)⟩,
    _, _, _, rfl, rfl, onPlain .standard 1 .empty⟩

end StreamSynth
