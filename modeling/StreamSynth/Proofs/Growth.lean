import StreamSynth.Proofs.Emission

/-!
# What emission adds

A statement that is written without an error adds lines at the current level or deeper, changes no
line written before and comes back to the level it started from.
-/

namespace StreamSynth

namespace Writer

/-- `after` is `before` with the lines `added`, none of them left of the level. -/
structure Grows (before : Writer) (added : List Line) (after : Writer) : Prop where
  lines_eq : after.lines.toList = before.lines.toList ++ added
  level_eq : after.level = before.level
  indented : ∀ line ∈ added, before.level ≤ line.level

@[simp] theorem lineAll_level (w : Writer) (texts : List String) :
    (w.lineAll texts).level = w.level := by
  induction texts generalizing w with
  | nil => rfl
  | cons text rest inductionHypothesis => exact inductionHypothesis (w.line text)

theorem lineAll_lines (w : Writer) (texts : List String) :
    (w.lineAll texts).lines.toList = w.lines.toList ++ texts.map (⟨w.level, ·⟩) := by
  induction texts generalizing w with
  | nil => simp [lineAll]
  | cons text rest inductionHypothesis =>
    have tail := inductionHypothesis (w.line text)
    simp only [lineAll, List.foldl_cons] at tail ⊢
    rw [tail]
    simp [line]

namespace Grows

variable {before middle after : Writer} {first second : List Line}

theorem refl (w : Writer) : w.Grows [] w := ⟨by simp, rfl, by simp⟩

theorem trans (left : before.Grows first middle) (right : middle.Grows second after) :
    before.Grows (first ++ second) after where
  lines_eq := by rw [right.lines_eq, left.lines_eq, List.append_assoc]
  level_eq := right.level_eq.trans left.level_eq
  indented line membership := by
    rcases List.mem_append.mp membership with inFirst | inSecond
    · exact left.indented line inFirst
    · rw [← left.level_eq]
      exact right.indented line inSecond

theorem lineAll (w : Writer) (texts : List String) :
    w.Grows (texts.map (⟨w.level, ·⟩)) (w.lineAll texts) where
  lines_eq := lineAll_lines w texts
  level_eq := lineAll_level w texts
  indented line membership := by
    obtain ⟨text, _, rfl⟩ := List.mem_map.mp membership
    exact Nat.le_refl _

theorem line (w : Writer) (text : String) : w.Grows [⟨w.level, text⟩] (w.line text) :=
  lineAll w [text]

theorem allocate (w : Writer) (name : String) : w.Grows [] (w.allocate name) :=
  ⟨by simp [Writer.allocate], rfl, by simp⟩

theorem release (w : Writer) (name text : String) :
    ∃ added, w.Grows added (w.release name text) := by
  unfold Writer.release
  split
  · exact ⟨_, (line { w with heap := w.heap.erase name } text).lines_eq, rfl, by simp⟩
  · exact ⟨[], refl w⟩

theorem block {opening : String} {inside : Writer}
    (grows : ((before.line opening).indent).Grows first inside) :
    before.Grows (⟨before.level, opening⟩ :: first) inside.dedent where
  lines_eq := by
    have lines := grows.lines_eq
    simp only [Writer.indent, Writer.line, Array.toList_push, List.append_assoc,
      List.singleton_append] at lines
    exact lines
  level_eq := by
    have level : inside.level = before.level + 1 := grows.level_eq
    rw [Writer.dedent, level, Nat.add_sub_cancel]
  indented line membership := by
    rcases List.mem_cons.mp membership with rfl | deeper
    · exact Nat.le_refl _
    · exact Nat.le_of_succ_le (grows.indented line deeper)

end Grows

end Writer

namespace Emitter

variable {σ : Type} {e : Emitter σ}

/-- How the writer is found in the state of an emitter, where the statements that the emitter
treats in its own way only make it grow. -/
structure WriterView (e : Emitter σ) where
  writer : σ → Writer
  writer_onWriter : ∀ change state, writer (e.onWriter change state) = change (writer state)
  region_grows : ∀ {name body write env before after}, e.region? name body = some write →
    write env before = .ok () after → ∃ added, (writer before).Grows added (writer after)
  intrinsic_grows : ∀ {value write before after}, e.intrinsic? value = some write →
    write before = .ok () after → ∃ added, (writer before).Grows added (writer after)

namespace WriterView

variable (view : WriterView e)

def Extends (before after : σ) : Prop :=
  ∃ added, (view.writer before).Grows added (view.writer after)

variable {view} {before middle after inside : σ}

theorem Extends.refl (state : σ) : view.Extends state state := ⟨[], Writer.Grows.refl _⟩

theorem Extends.trans (left : view.Extends before middle) (right : view.Extends middle after) :
    view.Extends before after := by
  obtain ⟨first, leftGrows⟩ := left
  obtain ⟨second, rightGrows⟩ := right
  exact ⟨first ++ second, leftGrows.trans rightGrows⟩

theorem Extends.put (text : String) (state : σ) : view.Extends state (e.put text state) := by
  rw [Extends, Emitter.put, view.writer_onWriter]
  exact ⟨_, Writer.Grows.line _ text⟩

theorem Extends.declared (type : StencilType) (name : String) (state : σ) :
    view.Extends state (e.declared type name state) := by
  rw [Extends, Emitter.declared, view.writer_onWriter]
  exact ⟨_, Writer.Grows.lineAll _ _⟩

theorem Extends.allocate (name : String) (state : σ) :
    view.Extends state (e.onWriter (·.allocate name) state) := by
  rw [Extends, view.writer_onWriter]
  exact ⟨_, Writer.Grows.allocate _ name⟩

theorem Extends.release (name text : String) (state : σ) :
    view.Extends state (e.onWriter (·.release name text) state) := by
  rw [Extends, view.writer_onWriter]
  exact Writer.Grows.release _ name text

theorem Extends.leave {opening : String} (body : view.Extends (e.enter opening before) inside) :
    view.Extends before (e.leave inside) := by
  obtain ⟨added, grows⟩ := body
  rw [Emitter.enter, Emitter.put, view.writer_onWriter, view.writer_onWriter] at grows
  rw [Extends, Emitter.leave, view.writer_onWriter]
  exact ⟨_, grows.block⟩

end WriterView

open WriterView

theorem Writes.grows (view : WriterView e) {s : Stmt} {env : Env} {before after : σ}
    (writes : e.Writes s env before after) : view.Extends before after := by
  induction writes with
  | letIn _ _ _ body => exact (Extends.put _ _).trans body
  | assert _ => exact Extends.put _ _
  | region isRegion written => exact view.region_grows isRegion written
  | produce _ _ body => exact (Extends.put _ _).trans body
  | consume _ body => exact (Extends.put _ _).trans body
  | loop _ _ _ body => exact body.leave.trans (Extends.put _ _)
  | store _ _ => exact Extends.put _ _
  | provide _ _ => exact Extends.put _ _
  | allocateArray _ _ _ _ body => exact (Extends.put _ _).trans body
  | allocateHeap _ _ _ _ _ body =>
    exact (Extends.allocate _ _).trans ((Extends.put _ _).trans body)
  | freeStream _ => exact Extends.refl _
  | free _ => exact Extends.release _ _ _
  | realizeStream _ _ _ body => exact (Extends.declared _ _ _).trans body
  | realizeStencil _ _ _ _ body => exact (Extends.declared _ _ _).trans body
  | realizeArray _ _ _ _ _ body => exact (Extends.put _ _).trans body
  | block _ _ _ first rest => exact first.trans rest
  | drain _ _ _ _ rest first => exact rest.trans first
  | ifThen _ _ thenCase => exact thenCase.leave.trans (Extends.put _ _)
  | ifThenElse _ _ _ thenCase elseCase =>
    exact thenCase.leave.trans (elseCase.leave.trans (Extends.put _ _))
  | intrinsic isIntrinsic written => exact view.intrinsic_grows isIntrinsic written
  | constant _ _ => exact Extends.refl _
  | evaluate _ _ _ => exact Extends.put _ _

def plainView (naming : Naming) (streamDepth : Nat) : WriterView (plain naming streamDepth) where
  writer state := state
  writer_onWriter _ _ := rfl
  region_grows isRegion := by simp [plain] at isRegion
  intrinsic_grows isIntrinsic := by simp [plain] at isIntrinsic

theorem Writes.plain_grows {naming : Naming} {streamDepth : Nat} {s : Stmt} {env : Env}
    {before after : Writer} (writes : (plain naming streamDepth).Writes s env before after) :
    ∃ added, before.Grows added after := writes.grows (plainView naming streamDepth)

end Emitter

end StreamSynth
