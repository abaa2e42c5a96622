import StreamSynth.CommandLine.Run
import StreamSynth.Proofs.DriverCalls
import StreamSynth.Proofs.ParsedForm

/-!
# The files that a run leaves

A run that succeeds has written its files into one directory, one after another, and each of them
is read back there unless a later one has the same name. The names of the five outputs differ, but
for one case: a pipeline that is called like the kernels loses its driver to the kernel source.
-/

namespace StreamSynth

structure IsFileName (name : String) : Prop where
  no_separator : '/' ∉ name.toList
  no_directory : name ∉ ["", ".", ".."]

section Paths

namespace Route

theorem pieces_ne_nil (cs : List Char) : pieces cs ≠ [] := by
  cases cs with
  | nil => simp [pieces]
  | cons c rest =>
    rw [pieces]
    split
    · simp
    · split <;> simp

theorem pieces_append (before after : List Char) :
    pieces (before ++ '/' :: after) = pieces before ++ pieces after := by
  induction before with
  | nil =>
    obtain ⟨piece, others, isPieces⟩ := List.exists_cons_of_ne_nil (pieces_ne_nil after)
    simp [pieces, isPieces]
  | cons c before inductionHypothesis =>
    obtain ⟨piece, others, isPieces⟩ := List.exists_cons_of_ne_nil (pieces_ne_nil before)
    rw [List.cons_append, pieces, inductionHypothesis, pieces, isPieces]
    dsimp only [List.cons_append]
    split <;> rfl

theorem pieces_eq_singleton {cs : List Char} (noSeparator : '/' ∉ cs) : pieces cs = [cs] := by
  induction cs with
  | nil => rfl
  | cons c cs inductionHypothesis =>
    obtain ⟨notHead, notTail⟩ := not_or.mp (mt List.mem_cons.mpr noSeparator)
    rw [pieces, inductionHypothesis notTail]
    exact if_neg (Ne.symm notHead)

end Route

theorem exists_joinPath_eq (dir : String) : ∃ base : List Char, ∀ name, IsFileName name →
    (joinPath dir name).toList = base ++ '/' :: name.toList := by
  have relative {name : String} (isName : IsFileName name) : name.toList.head? ≠ some '/' :=
    fun isHead => isName.no_separator (List.mem_of_head? isHead)
  by_cases ends : dir.toList.getLast? = some '/'
  · obtain ⟨base, isDir⟩ := List.getLast?_eq_some_iff.mp ends
    refine ⟨base, fun name isName => ?_⟩
    simp [joinPath, relative isName, isDir]
  · refine ⟨dir.toList, fun name isName => ?_⟩
    simp [joinPath, relative isName, ends]

/-- The path of a file in a directory is that of the directory, with the name behind it. -/
theorem exists_ofPath_joinPath (dir : String) : ∃ (fromTop : Bool) (names : List String),
    ∀ name, IsFileName name →
      Route.ofPath (joinPath dir name) = ⟨fromTop, names ++ [name], false⟩ := by
  obtain ⟨base, isPath⟩ := exists_joinPath_eq dir
  refine ⟨(base ++ ['/']).head? = some '/',
    ((Route.pieces base).filter (!·.isEmpty)).map String.ofList, fun name isName => ?_⟩
  have nonempty : name.toList ≠ [] := by
    intro isEmpty
    exact isName.no_directory (by simp [String.toList_eq_nil_iff.mp isEmpty])
  have isHead : (base ++ '/' :: name.toList).head? = (base ++ ['/']).head? := by
    cases base <;> rfl
  have isLast : ('/' :: name.toList).getLast? ≠ some '/' := by
    rw [List.getLast?_cons_of_ne_nil nonempty]
    exact fun isLast => isName.no_separator (List.mem_of_getLast? isLast)
  simp [Route.ofPath, isPath name isName, isHead, isLast, Route.pieces_append,
    Route.pieces_eq_singleton isName.no_separator, nonempty]

end Paths

namespace FileTree

variable {t after : FileTree} {path text : String} {place : Place}

theorem step_eq_ok_iff {p : Place} {name : String} : t.step p name = .ok place ↔
    t.isDir p = true ∧ byteLength name.toList ≤ nameLimit ∧ p.go name = place := by
  unfold step
  split
  · next isDir =>
    split
    · next fits => simp [isDir, fits]
    · next tooLong => simp [isDir, tooLong]
  · next noDir => split <;> simp [noDir]

def pathError? (path : String) : Option FileError :=
  if path.toList.contains (Char.ofNat 0) then some .nullCharacter
  else if path.isEmpty then some .notFound
  else if pathLimit ≤ byteLength path.toList then some .nameTooLong
  else none

theorem locate_eq_ok_iff : t.locate path = .ok place ↔ pathError? path = none ∧
    (Route.ofPath path).names.foldlM t.step (Route.ofPath path).start = .ok place := by
  unfold locate pathError?
  dsimp only
  split
  · simp
  split
  · simp
  split <;> simp

theorem bind_eq_ok_iff {α β : Type} {x : Except FileError α} {f : α → Except FileError β} {b : β} :
    (x >>= f) = .ok b ↔ ∃ a, x = .ok a ∧ f a = .ok b := by
  cases x with
  | error e =>
    constructor
    · intro bound
      cases bound
    · rintro ⟨_, ⟨⟩, _⟩
  | ok a =>
    constructor
    · exact fun bound => ⟨a, rfl, bound⟩
    · rintro ⟨_, ⟨⟩, bound⟩
      exact bound

/-- Where a path leads to depends on the directories only. -/
theorem locate_of_dirs_eq {other : FileTree} (sameDirs : t.dirs = other.dirs)
    (located : t.locate path = .ok place) : other.locate path = .ok place := by
  have sameDir (p : Place) : t.isDir p = other.isDir p := by rw [isDir, isDir, sameDirs]
  have sameStep {p next : Place} {name : String} (stepped : t.step p name = .ok next) :
      other.step p name = .ok next := by
    rw [step_eq_ok_iff] at stepped ⊢
    rwa [← sameDir]
  have sameRoute (names : List String) (start : Place)
      (reached : names.foldlM t.step start = .ok place) :
      names.foldlM other.step start = .ok place := by
    induction names generalizing start with
    | nil => exact reached
    | cons name names inductionHypothesis =>
      rw [List.foldlM_cons, bind_eq_ok_iff] at reached ⊢
      obtain ⟨next, stepped, reached⟩ := reached
      exact ⟨next, sameStep stepped, inductionHypothesis next reached⟩
  rw [locate_eq_ok_iff] at located ⊢
  exact ⟨located.1, sameRoute _ _ located.2⟩

theorem file?_put_self (t : FileTree) (place : Place) (text : String) :
    (t.put place text).file? place = some text := by
  simp [put, file?]

theorem file?_put_of_ne {other : Place} (differs : other ≠ place) (t : FileTree) (text : String) :
    (t.put place text).file? other = t.file? other := by
  have noMatch : (other == place) = false := beq_false_of_ne differs
  rw [put, file?, file?, List.lookup_cons, noMatch]
  induction t.files with
  | nil => rfl
  | cons entry files inductionHypothesis =>
    obtain ⟨p, content⟩ := entry
    by_cases isPlace : p = place
    · rw [List.filter_cons_of_neg (by simp [isPlace]), List.lookup_cons, isPlace, noMatch]
      exact inductionHypothesis
    · rw [List.filter_cons_of_pos (by simp [isPlace]), List.lookup_cons, List.lookup_cons]
      cases other == p
      · exact inductionHypothesis
      · rfl

theorem write_eq_ok_iff : t.write path text = .ok after ↔
    ∃ place, t.locate path = .ok place ∧ t.isDir place = false ∧
      (Route.ofPath path).toDirectory = false ∧ t.put place text = after := by
  rw [write, bind_eq_ok_iff]
  refine exists_congr fun place => and_congr_right fun _ => ?_
  cases t.isDir place <;> cases (Route.ofPath path).toDirectory <;>
    simp [bind, Except.bind, pure, Except.pure, throw, throwThe, MonadExceptOf.throw]

theorem read_eq_ok_iff : t.read path = .ok text ↔
    ∃ place, t.locate path = .ok place ∧ t.isDir place = false ∧
      t.file? place = some text ∧ (Route.ofPath path).toDirectory = false := by
  rw [read, bind_eq_ok_iff]
  refine exists_congr fun place => and_congr_right fun _ => ?_
  cases t.isDir place <;> cases t.file? place <;> cases (Route.ofPath path).toDirectory <;>
    simp [bind, Except.bind, pure, Except.pure, throw, throwThe, MonadExceptOf.throw]

theorem put_dirs (t : FileTree) (place : Place) (text : String) :
    (t.put place text).dirs = t.dirs := rfl

theorem read_of_write (written : t.write path text = .ok after) : after.read path = .ok text := by
  obtain ⟨place, located, noDir, isFile, rfl⟩ := write_eq_ok_iff.mp written
  exact read_eq_ok_iff.mpr ⟨place, locate_of_dirs_eq (t.put_dirs place text).symm located, noDir,
    t.file?_put_self place text, isFile⟩

/-- The files of a directory are in one place, each under its name. -/
theorem exists_folder (t : FileTree) (dir : String) : ∃ folder? : Except FileError Place,
    ∀ {name place}, IsFileName name → t.locate (joinPath dir name) = .ok place →
      ∃ folder, folder? = .ok folder ∧ place = ⟨folder.origin, folder.names ++ [name]⟩ := by
  obtain ⟨fromTop, names, isRoute⟩ := exists_ofPath_joinPath dir
  refine ⟨names.foldlM t.step (Route.start ⟨fromTop, names, false⟩), fun isName located => ?_⟩
  simp only [locate_eq_ok_iff, isRoute _ isName, List.foldlM_append, bind_eq_ok_iff,
    List.foldlM_cons, List.foldlM_nil, step_eq_ok_iff] at located
  obtain ⟨-, folder, reached, _, ⟨-, -, rfl⟩, ⟨⟩⟩ := located
  have noDirectory := isName.no_directory
  simp only [List.mem_cons, List.not_mem_nil, or_false, not_or] at noDirectory
  exact ⟨folder, reached, by rw [Place.go, if_neg noDirectory.2.1, if_neg noDirectory.2.2]⟩

/-- Writing a file leaves the other files of its directory as they are. -/
theorem read_of_write_other {dir name other content : String} (isName : IsFileName name)
    (isOther : IsFileName other) (differ : name ≠ other)
    (written : t.write (joinPath dir name) text = .ok after)
    (isRead : t.read (joinPath dir other) = .ok content) :
    after.read (joinPath dir other) = .ok content := by
  obtain ⟨place, located, -, -, rfl⟩ := write_eq_ok_iff.mp written
  obtain ⟨otherPlace, otherLocated, noDir, isContent, isFile⟩ := read_eq_ok_iff.mp isRead
  obtain ⟨folder?, spec⟩ := exists_folder t dir
  obtain ⟨folder, isFolder, rfl⟩ := spec isName located
  obtain ⟨sameFolder, isSame, rfl⟩ := spec isOther otherLocated
  cases isFolder.symm.trans isSame
  refine read_eq_ok_iff.mpr ⟨_, locate_of_dirs_eq (t.put_dirs _ text).symm otherLocated, noDir, ?_,
    isFile⟩
  rw [file?_put_of_ne _ t text, isContent]
  intro isPlace
  have isLast := congrArg (fun p : Place => p.names.getLast?) isPlace
  simp only [List.getLast?_concat, Option.some.injEq] at isLast
  exact differ isLast.symm

section Operations

variable {α β : Type} {a : α} {b : β}

theorem run_bind_eq_iff {x : StateM FileTree α} {f : α → StateM FileTree β} :
    (x >>= f) t = (b, after) ↔ ∃ a middle, x t = (a, middle) ∧ f a middle = (b, after) := by
  constructor
  · exact fun ran => ⟨(x t).1, (x t).2, rfl, ran⟩
  · rintro ⟨a, middle, first, second⟩
    change f (x t).1 (x t).2 = _
    rw [first, second]

theorem run_pure_eq_iff : (pure a : StateM FileTree α) t = (c, after) ↔ a = c ∧ t = after :=
  Iff.of_eq (Prod.mk.injEq ..)

theorem readFile_eq_iff {result : Except FileError String} :
    system.readFile path t = (result, after) ↔ t.read path = result ∧ t = after :=
  Iff.of_eq (Prod.mk.injEq ..)

theorem writeFile_eq_iff {result : Except FileError Unit} :
    system.writeFile path text t = (result, after) ↔
      t.write path text = .ok after ∧ result = .ok () ∨
        ∃ e, t.write path text = .error e ∧ result = .error e ∧ t = after := by
  simp only [system, change]
  cases t.write path text with
  | ok written =>
    constructor
    · rintro ⟨⟩
      exact .inl ⟨rfl, rfl⟩
    · rintro (⟨⟨⟩, rfl⟩ | ⟨_, ⟨⟩, _⟩)
      rfl
  | error e =>
    constructor
    · rintro ⟨⟩
      exact .inr ⟨e, rfl, rfl, rfl⟩
    · rintro (⟨⟨⟩, _⟩ | ⟨_, ⟨⟩, rfl, rfl⟩)
      rfl

end Operations

end FileTree

inductive WrittenInto (dir : String) : List (String × String) → FileTree → FileTree → Prop
  | nil {t} : WrittenInto dir [] t t
  | cons {file text rest t middle after} : t.write (joinPath dir file) text = .ok middle →
      WrittenInto dir rest middle after → WrittenInto dir ((file, text) :: rest) t after

namespace WrittenInto

variable {dir name text : String} {files : List (String × String)} {t after : FileTree}

theorem of_writeOutputs {verbose : Bool} {r : RunResult}
    (ran : writeOutputs FileTree.system verbose dir files t = (r, after))
    (succeeded : r.exitCode = 0) : WrittenInto dir files t after := by
  induction files generalizing t r with
  | nil =>
    cases ran
    exact .nil
  | cons entry rest inductionHypothesis =>
    obtain ⟨file, content⟩ := entry
    rw [writeOutputs, FileTree.run_bind_eq_iff] at ran
    obtain ⟨result, middle, isWritten, ran⟩ := ran
    rcases FileTree.writeFile_eq_iff.mp isWritten with ⟨first, rfl⟩ | ⟨e, -, rfl, -⟩
    · obtain ⟨later, _, ranLater, isResult⟩ := FileTree.run_bind_eq_iff.mp ran
      obtain ⟨rfl, rfl⟩ := FileTree.run_pure_eq_iff.mp isResult
      exact .cons first (inductionHypothesis ranLater succeeded)
    · obtain ⟨rfl, -⟩ := FileTree.run_pure_eq_iff.mp ran
      cases succeeded

theorem read_of_not_mem (written : WrittenInto dir files t after)
    (areNames : ∀ entry ∈ files, IsFileName entry.1) (isName : IsFileName name)
    (notMem : name ∉ files.map Prod.fst) (isRead : t.read (joinPath dir name) = .ok text) :
    after.read (joinPath dir name) = .ok text := by
  induction written with
  | nil => exact isRead
  | @cons file content rest t middle after first _ inductionHypothesis =>
    obtain ⟨isFile, areNames⟩ := List.forall_mem_cons.mp areNames
    obtain ⟨differs, notMem⟩ := not_or.mp (mt List.mem_cons.mpr notMem)
    exact inductionHypothesis areNames notMem
      (FileTree.read_of_write_other isFile isName (Ne.symm differs) first isRead)

/-- A file holds the last text that was written under its name. -/
theorem read_last (earlier later : List (String × String))
    (written : WrittenInto dir (earlier ++ (name, text) :: later) t after)
    (areNames : ∀ entry ∈ earlier ++ (name, text) :: later, IsFileName entry.1)
    (isLast : name ∉ later.map Prod.fst) : after.read (joinPath dir name) = .ok text := by
  induction earlier generalizing t with
  | nil =>
    cases written with
    | cons first rest =>
      obtain ⟨isName, areNames⟩ := List.forall_mem_cons.mp areNames
      exact rest.read_of_not_mem areNames isName isLast (FileTree.read_of_write first)
  | cons entry earlier inductionHypothesis =>
    cases written with
    | cons first rest => exact inductionHypothesis rest (List.forall_mem_cons.mp areNames).2

end WrittenInto

section Runs

open FileTree

variable {t after : FileTree} {o : Options} {r : RunResult}

theorem eq_of_loadConfig {path : Option String} {result : Except ConfigError Config}
    (ran : loadConfig system path t = (result, after)) : t = after := by
  cases path with
  | none => exact (run_pure_eq_iff.mp ran).2
  | some path =>
    obtain ⟨_, _, isRead, ran⟩ := run_bind_eq_iff.mp ran
    obtain ⟨-, rfl⟩ := readFile_eq_iff.mp isRead
    split at ran <;> exact (run_pure_eq_iff.mp ran).2

theorem eq_of_runConfig {result : Except ConfigError Config}
    (ran : runConfig system o t = (result, after)) : t = after := by
  obtain ⟨_, _, isLoaded, ran⟩ := run_bind_eq_iff.mp ran
  cases eq_of_loadConfig isLoaded
  split at ran
  · exact (run_pure_eq_iff.mp ran).2
  · next config =>
    simp only at ran
    cases faulty : (o.override config).fault? <;> rw [faulty] at ran <;>
      exact (run_pure_eq_iff.mp ran).2

theorem exitCode_compileFailure (verbose : Bool) (failure : CompileFailure) :
    (compileFailure verbose failure).exitCode ≠ 0 := by
  cases failure <;> simp [compileFailure, RunResult.failure, RunResult.overflowExit]

theorem putOut_succeeded {dir : String} {files : List (String × String)}
    (intoDir : o.outDir = some dir) (ran : putOut system o files t = (r, after))
    (succeeded : r.exitCode = 0) : ∃ made, WrittenInto dir files made after := by
  rw [putOut, intoDir] at ran
  obtain ⟨result, made, -, ran⟩ := run_bind_eq_iff.mp ran
  cases result with
  | error e =>
    cases (run_pure_eq_iff.mp ran).1
    cases succeeded
  | ok _ => exact ⟨made, .of_writeOutputs ran succeeded⟩

theorem runSource_succeeded {config : Config} {source dir : String} (intoDir : o.outDir = some dir)
    (ran : runSource system o config source t = (r, after)) (succeeded : r.exitCode = 0) :
    ∃ c made, compile config source = .ok c ∧
      WrittenInto dir (outputs config o.stage c) made after := by
  unfold runSource at ran
  cases isCompiled : compile config source with
  | error failure =>
    rw [isCompiled] at ran
    cases (run_pure_eq_iff.mp ran).1
    exact absurd succeeded (exitCode_compileFailure _ _)
  | ok c =>
    rw [isCompiled] at ran
    obtain ⟨result, _, isOut, ran⟩ := run_bind_eq_iff.mp ran
    obtain ⟨rfl, rfl⟩ := run_pure_eq_iff.mp ran
    obtain ⟨made, written⟩ := putOut_succeeded intoDir isOut succeeded
    exact ⟨c, made, rfl, written⟩

/-- A run into a directory that succeeds has read its configuration and its source, compiled the
source and written the outputs. -/
theorem run_succeeded {args : List String} {dir : String} (isRun : Invocation.ofArgs args = .run o)
    (intoDir : o.outDir = some dir) (ran : run system args t = (r, after))
    (succeeded : r.exitCode = 0) :
    ∃ config source c made, (runConfig system o t).1 = .ok config ∧ t.read o.source = .ok source ∧
      compile config source = .ok c ∧ WrittenInto dir (outputs config o.stage c) made after := by
  rw [run, isRun] at ran
  obtain ⟨result, middle, isConfig, ran⟩ := run_bind_eq_iff.mp ran
  cases eq_of_runConfig isConfig
  cases result with
  | error e =>
    cases (run_pure_eq_iff.mp ran).1
    cases succeeded
  | ok config =>
    obtain ⟨result, middle, isRead, ran⟩ := run_bind_eq_iff.mp ran
    obtain ⟨isSource, rfl⟩ := readFile_eq_iff.mp isRead
    cases result with
    | error e =>
      cases (run_pure_eq_iff.mp ran).1
      cases succeeded
    | ok source =>
      obtain ⟨result, middle, ranSource, ran⟩ := run_bind_eq_iff.mp ran
      obtain ⟨rfl, rfl⟩ := run_pure_eq_iff.mp ran
      obtain ⟨c, made, isCompiled, written⟩ := runSource_succeeded intoDir ranSource succeeded
      exact ⟨config, source, c, made, by rw [isConfig], isSource, isCompiled, written⟩

end Runs

section Texts

variable {config : Config} {p : Pipeline} {g : Generated}

theorem driver_ends (succeeded : generate config p = .ok g) :
    ∃ text, g.driver.toList = text ++ ['\x7d', '\n'] := by
  obtain ⟨inside, _, rfl⟩ := Host.generate_eq_ok_iff.mp succeeded
  obtain ⟨w, isWriter⟩ : ∃ w : Writer, (Host.closed config inside).writer = w.line "\x7d" :=
    ⟨_, rfl⟩
  refine ⟨(renderAll w.lines.toList).toList ++ List.replicate (2 * w.level) ' ', ?_⟩
  rw [Host.generated, Writer.text_eq_renderAll, isWriter, Writer.line, Array.toList_push,
    renderAll_append]
  simp [toList_renderAll, Line.chars]

theorem source_ends (succeeded : generate config p = .ok g) :
    ∃ text, g.source.toList = text ++ ['\n', '\n'] := by
  obtain ⟨inside, written, rfl⟩ := Host.generate_eq_ok_iff.mp succeeded
  obtain ⟨units, -, holds⟩ := Host.exists_holds_closed written
  obtain ⟨lines, last, isLines⟩ : ∃ (lines : List Line) (last : String),
      flush (KernelFiles.sourcePreamble config) ++
        units.flatMap (LoweredRegion.definition config) = lines ++ flush [last, ""] := by
    rcases List.eq_nil_or_concat units with rfl | ⟨earlier, u, rfl⟩
    · exact ⟨[], _, List.append_nil _⟩
    · refine ⟨flush (KernelFiles.sourcePreamble config) ++
        earlier.flatMap (LoweredRegion.definition config) ++ ⟨0, u.record.signature ++ " \x7b"⟩ ::
          ((KernelFiles.directives config u.record.args).map (⟨1, ·⟩) ++ u.body), "\x7d", ?_⟩
      simp [LoweredRegion.definition]
  refine ⟨(renderAll lines).toList ++ last.toList, ?_⟩
  rw [Host.generated, holds.kernels.source_text, isLines, renderAll_append]
  simp [flush, toList_renderAll, Line.chars]

theorem driver_ne_source (succeeded : generate config p = .ok g) : g.driver ≠ g.source := by
  obtain ⟨driver, isDriver⟩ := driver_ends succeeded
  obtain ⟨source, isSource⟩ := source_ends succeeded
  intro isSame
  rw [isSame, isSource] at isDriver
  have ends := (List.append_inj' isDriver rfl).2
  cases ends

end Texts

section Names

theorem getLast?_append (stem : String) {ending : String} {c : Char}
    (isLast : ending.toList.getLast? = some c) : (stem ++ ending).toList.getLast? = some c := by
  rw [String.toList_append, List.getLast?_append, isLast, Option.some_or]

theorem isFileName_append {stem ending : String} (noSeparator : '/' ∉ stem.toList)
    (plainEnding : '/' ∉ ending.toList) {c : Char} (isLast : ending.toList.getLast? = some c)
    (noPoint : c ≠ '.') : IsFileName (stem ++ ending) where
  no_separator := by
    rw [String.toList_append, List.mem_append]
    exact not_or.mpr ⟨noSeparator, plainEnding⟩
  no_directory isDirectory := by
    have ends := getLast?_append stem isLast
    simp only [List.mem_cons, List.not_mem_nil, or_false] at isDirectory
    rcases isDirectory with isEmpty | isPoint | isPoints
    · rw [isEmpty] at ends
      cases ends
    · rw [isPoint] at ends
      exact noPoint (Option.some.inj ends).symm
    · rw [isPoints] at ends
      exact noPoint (Option.some.inj ends).symm

theorem ne_of_getLast? {name other : String} {c d : Char} (isLast : name.toList.getLast? = some c)
    (isOther : other.toList.getLast? = some d) (differ : c ≠ d) : name ≠ other := by
  rintro rfl
  exact differ (Option.some.inj (isLast.symm.trans isOther))

theorem Lexer.IsWord.no_separator {cs : List Char} (isWord : IsWord cs) : '/' ∉ cs := by
  obtain ⟨first, word, parts, rfl, starts, areParts, areOthers⟩ := isWord
  intro isSeparator
  simp only [List.mem_cons, List.mem_append, List.mem_flatMap] at isSeparator
  rcases isSeparator with rfl | inWord | ⟨part, isPart, isPoint | inPart⟩
  · cases starts
  · cases areParts _ inWord
  · exact absurd isPoint (by decide)
  · cases (areOthers part isPart).2 _ inPart

theorem of_compile_eq_ok {config : Config} {source : String} {c : Compilation}
    (isCompiled : compile config source = .ok c) :
    (parse source).pipeline = some c.pipeline ∧ generate config c.pipeline = .ok c.generated := by
  rcases compile_cases config source with
    ⟨_, _, reported⟩ | ⟨p, isParsed, ⟨_, stopped⟩ | ⟨d, rfl, isGenerated, isSame⟩⟩
  · rw [reported] at isCompiled
    cases isCompiled
  · rw [stopped] at isCompiled
    cases isCompiled
  · cases isSame.symm.trans isCompiled
    exact ⟨by rw [isParsed], isGenerated⟩

theorem isFileName_outputs {config : Config} {source : String} {c : Compilation}
    (isCompiled : compile config source = .ok c) (noSeparator : '/' ∉ config.kernelStem.toList) :
    ∀ entry ∈ outputs config .all c, IsFileName entry.1 := by
  have isWord : Lexer.IsWord c.pipeline.name.toList := by
    obtain ⟨isPipeline, -⟩ := Grammar.isPipeline_of_parse (of_compile_eq_ok isCompiled).1
    exact (isPipeline.formed fun t => admissible_lex).name.1
  have header : ".h".toList.getLast? = some 'h' := rfl
  have source : ".cpp".toList.getLast? = some 'p' := rfl
  simp only [outputs, List.forall_mem_cons, List.not_mem_nil, false_implies, implies_true, and_true]
  exact ⟨isFileName_append isWord.no_separator (by decide) source (by decide),
    isFileName_append noSeparator (by decide) header (by decide),
    isFileName_append noSeparator (by decide) source (by decide),
    ⟨by decide, by decide⟩, ⟨by decide, by decide⟩⟩

end Names

/-- Outputs that were written are read back, the driver unless the pipeline is called like the
kernels. -/
theorem WrittenInto.read_outputs {config : Config} {c : Compilation} {dir : String}
    {made after : FileTree} (written : WrittenInto dir (outputs config .all c) made after)
    (areNames : ∀ entry ∈ outputs config .all c, IsFileName entry.1) :
    after.read (joinPath dir config.headerName) = .ok c.generated.header ∧
      after.read (joinPath dir (config.kernelStem ++ ".cpp")) = .ok c.generated.source ∧
      after.read (joinPath dir "closure.json") = .ok c.closureReport ∧
      after.read (joinPath dir "build-info.json") = .ok c.buildReport ∧
      (c.pipeline.name ≠ config.kernelStem →
        after.read (joinPath dir (c.pipeline.name ++ ".cpp")) = .ok c.generated.driver) := by
  have closureLast : "closure.json".toList.getLast? = some 'n' := rfl
  have buildLast : "build-info.json".toList.getLast? = some 'n' := rfl
  have headerLast : config.headerName.toList.getLast? = some 'h' := getLast?_append _ rfl
  have cppLast (stem : String) : (stem ++ ".cpp").toList.getLast? = some 'p' :=
    getLast?_append _ rfl
  simp only [outputs] at written areNames
  refine ⟨written.read_last [_] _ areNames ?_, written.read_last [_, _] _ areNames ?_,
    written.read_last [_, _, _] _ areNames ?_, written.read_last [_, _, _, _] _ areNames ?_,
    fun differ => written.read_last [] _ areNames ?_⟩
  · simp [ne_of_getLast? headerLast (cppLast _), ne_of_getLast? headerLast closureLast,
      ne_of_getLast? headerLast buildLast]
  · simp [ne_of_getLast? (cppLast _) closureLast, ne_of_getLast? (cppLast _) buildLast]
  · simp
  · simp
  · simp [ne_of_getLast? (cppLast _) headerLast, ne_of_getLast? (cppLast _) closureLast,
      ne_of_getLast? (cppLast _) buildLast, differ]

/-- After a run of all stages into a directory that succeeded, the directory holds the kernel
header, the kernel source and the two reports. It holds the driver too, unless the pipeline is
called like the kernels. -/
theorem run_leaves_outputs (t after : FileTree) (args : List String) (o : Options) (dir : String)
    (r : RunResult) (isRun : Invocation.ofArgs args = .run o) (intoDir : o.outDir = some dir)
    (allStages : o.stage = .all) (ran : run FileTree.system args t = (r, after))
    (succeeded : r.exitCode = 0) :
    ∃ config source c, (runConfig FileTree.system o t).1 = .ok config ∧
      t.read o.source = .ok source ∧ compile config source = .ok c ∧
      ('/' ∉ config.kernelStem.toList →
        after.read (joinPath dir config.headerName) = .ok c.generated.header ∧
        after.read (joinPath dir (config.kernelStem ++ ".cpp")) = .ok c.generated.source ∧
        after.read (joinPath dir "closure.json") = .ok c.closureReport ∧
        after.read (joinPath dir "build-info.json") = .ok c.buildReport ∧
        (after.read (joinPath dir (c.pipeline.name ++ ".cpp")) = .ok c.generated.driver ↔
          c.pipeline.name ≠ config.kernelStem)) := by
  obtain ⟨config, source, c, made, isConfig, isSource, isCompiled, written⟩ :=
    run_succeeded isRun intoDir ran succeeded
  refine ⟨config, source, c, isConfig, isSource, isCompiled, fun noSeparator => ?_⟩
  rw [allStages] at written
  obtain ⟨header, holdsSource, closure, build, driver⟩ :=
    written.read_outputs (isFileName_outputs isCompiled noSeparator)
  refine ⟨header, holdsSource, closure, build, fun holdsDriver sameName => ?_, driver⟩
  rw [sameName, holdsSource] at holdsDriver
  exact driver_ne_source (of_compile_eq_ok isCompiled).2 (Except.ok.inj holdsDriver).symm

def sourceOnly (source : String) : FileTree := .ofFiles [("in.hir", source)]

def intoOut : List String := ["in.hir", "--out-dir", "out", "--emit", "all"]

def intoOutOptions : Options := ⟨"in.hir", some "out", .all, none, none, none, false⟩

def leftBy (source : String) : FileTree := (run FileTree.system intoOut (sourceOnly source)).2

def ownNameSource : String := "func f() \x7b \x7d"

theorem run_leaves_outputs_ownName :
    (run FileTree.system intoOut (sourceOnly ownNameSource)).1.exitCode = 0 ∧
      ∃ c, compile .standard ownNameSource = .ok c ∧ c.pipeline.name = "f" ∧
        (leftBy ownNameSource).read (joinPath "out" "f.cpp") = .ok c.generated.driver := by
  have succeeded : (run FileTree.system intoOut (sourceOnly ownNameSource)).1.exitCode = 0 := by
    decide +kernel
  have isRun : Invocation.ofArgs intoOut = .run intoOutOptions := by decide +kernel
  obtain ⟨config, source, c, isConfig, isSource, isCompiled, holds⟩ :=
    run_leaves_outputs (sourceOnly ownNameSource) (leftBy ownNameSource) intoOut intoOutOptions
      "out" _ isRun rfl rfl (Prod.eta _).symm succeeded
  cases isConfig
  have isOwn : ((sourceOnly ownNameSource).read "in.hir").toOption = some ownNameSource := by
    decide +kernel
  rw [show (sourceOnly ownNameSource).read "in.hir" = .ok source from isSource] at isOwn
  cases isOwn
  have isName : ((parse ownNameSource).pipeline.map Pipeline.name) = some "f" := by decide +kernel
  rw [(of_compile_eq_ok isCompiled).1, Option.map_some, Option.some.injEq] at isName
  have holdsDriver := (holds (by decide)).2.2.2.2.mpr (by rw [isName]; decide)
  rw [isName] at holdsDriver
  exact ⟨succeeded, c, isCompiled, isName, holdsDriver⟩

/-- A pipeline that is called like the kernels of the standard configuration. -/
def namesakeSource : String := "func hls_target() \x7b \x7d"

/-- The run succeeds, but the file of the driver does not hold it. -/
theorem run_loses_driver :
    (run FileTree.system intoOut (sourceOnly namesakeSource)).1.exitCode = 0 ∧
      ∃ c, compile .standard namesakeSource = .ok c ∧
        (leftBy namesakeSource).read (joinPath "out" (c.pipeline.name ++ ".cpp")) ≠
          .ok c.generated.driver := by
  refine ⟨by decide +kernel, ?_⟩
  have lost : ((compile .standard namesakeSource).toOption.any fun c =>
      ((leftBy namesakeSource).read (joinPath "out" (c.pipeline.name ++ ".cpp"))).toOption !=
        some c.generated.driver) = true := by decide +kernel
  obtain ⟨c, isCompiled, differs⟩ := (Option.any_eq_true _ _).mp lost
  refine ⟨c, ?_, fun holds => ?_⟩
  · cases result : compile .standard namesakeSource with
    | error e =>
      rw [result] at isCompiled
      cases isCompiled
    | ok d =>
      rw [result] at isCompiled
      cases isCompiled
      rfl
  · rw [holds] at differs
    simp [Except.toOption] at differs

end StreamSynth
