import StreamSynth.Proofs.FreeOccurrence
import StreamSynth.Region.Closure

/-!
# What a closure captures

The closure of a region body is determined by its free occurrences: which names are buffers and
which are variables, how a buffer is accessed, in which order the names stand and which type each
has. All of this is one invariant of noting occurrences one after another. A variable that turns
out to be a buffer later is taken back, so the invariant speaks of all occurrences noted so far
and not only of the latest.
-/

namespace StreamSynth

namespace Occurrence

def type : Occurrence → ScalarType
  | var _ type | load _ type | store _ type => type

def accesses (name : String) : Occurrence → Bool
  | load buffer _ | store buffer _ => buffer = name
  | var _ _ => false

def reads (name : String) : Occurrence → Bool
  | var read _ => read = name
  | load _ _ | store _ _ => false

theorem exists_accesses_iff {occurrences : List Occurrence} {name : String} :
    (∃ o ∈ occurrences, o.accesses name = true) ↔
      (∃ type, .load name type ∈ occurrences) ∨ (∃ type, .store name type ∈ occurrences) := by
  constructor
  · rintro ⟨o, membership, accessed⟩
    cases o with
    | var read type => simp [accesses] at accessed
    | load buffer type =>
      obtain rfl : buffer = name := by simpa [accesses] using accessed
      exact .inl ⟨type, membership⟩
    | store buffer type =>
      obtain rfl : buffer = name := by simpa [accesses] using accessed
      exact .inr ⟨type, membership⟩
  · rintro (⟨type, membership⟩ | ⟨type, membership⟩)
    · exact ⟨_, membership, by simp [accesses]⟩
    · exact ⟨_, membership, by simp [accesses]⟩

theorem exists_reads_iff {occurrences : List Occurrence} {name : String} :
    (∃ o ∈ occurrences, o.reads name = true) ↔ ∃ type, .var name type ∈ occurrences := by
  constructor
  · rintro ⟨o, membership, isRead⟩
    cases o with
    | var read type =>
      obtain rfl : read = name := by simpa [reads] using isRead
      exact ⟨type, membership⟩
    | load buffer type => simp [reads] at isRead
    | store buffer type => simp [reads] at isRead
  · rintro ⟨type, membership⟩
    exact ⟨_, membership, by simp [reads]⟩

end Occurrence

/-- The entries stand in the order in which `uses` first holds of their names in `seen`, and each
has the type that was seen there. -/
structure FirstSeen (uses : String → Occurrence → Bool) (seen : List Occurrence)
    (entries : List (String × ScalarType)) : Prop where
  ordered : entries.Pairwise fun a b => seen.findIdx (uses a.1) < seen.findIdx (uses b.1)
  typed : ∀ entry ∈ entries, (seen.find? (uses entry.1)).map Occurrence.type = some entry.2

namespace FirstSeen

variable {uses : String → Occurrence → Bool} {seen : List Occurrence}
  {entries : List (String × ScalarType)}

theorem nil : FirstSeen uses seen [] := ⟨List.Pairwise.nil, by simp⟩

theorem exists_use (firstSeen : FirstSeen uses seen entries) {entry : String × ScalarType}
    (membership : entry ∈ entries) : ∃ o ∈ seen, uses entry.1 o = true := by
  have typed := firstSeen.typed entry membership
  obtain ⟨o, found, _⟩ := Option.map_eq_some_iff.mp typed
  exact ⟨o, List.mem_of_find?_eq_some found, List.find?_some found⟩

theorem findIdx_lt (firstSeen : FirstSeen uses seen entries) {entry : String × ScalarType}
    (membership : entry ∈ entries) : seen.findIdx (uses entry.1) < seen.length :=
  List.findIdx_lt_length.mpr (firstSeen.exists_use membership)

theorem nodup (firstSeen : FirstSeen uses seen entries) : (entries.map Prod.fst).Nodup := by
  apply List.pairwise_map.mpr
  exact firstSeen.ordered.imp fun {a b} earlier equal => by simp [equal] at earlier

theorem sublist (firstSeen : FirstSeen uses seen entries) {kept : List (String × ScalarType)}
    (included : kept.Sublist entries) : FirstSeen uses seen kept where
  ordered := firstSeen.ordered.sublist included
  typed entry membership := firstSeen.typed entry (included.subset membership)

theorem append (firstSeen : FirstSeen uses seen entries) (later : List Occurrence) :
    FirstSeen uses (seen ++ later) entries where
  ordered := by
    apply firstSeen.ordered.imp_of_mem
    intro a b aMember bMember earlier
    simpa [List.findIdx_append, firstSeen.findIdx_lt aMember, firstSeen.findIdx_lt bMember]
      using earlier
  typed entry membership := by
    have typed := firstSeen.typed entry membership
    obtain ⟨o, found, _⟩ := Option.map_eq_some_iff.mp typed
    rw [List.find?_append, found]
    simpa [found] using typed

/-- A name that is used for the first time goes to the end. -/
theorem push (firstSeen : FirstSeen uses seen entries) {name : String} {o : Occurrence}
    (fresh : ∀ earlier ∈ seen, uses name earlier = false) (used : uses name o = true) :
    FirstSeen uses (seen ++ [o]) (entries ++ [(name, o.type)]) where
  ordered := by
    have notBefore : ¬ seen.findIdx (uses name) < seen.length := by
      simpa [List.findIdx_lt_length] using fresh
    apply List.pairwise_append.mpr
    refine ⟨(firstSeen.append [o]).ordered, List.pairwise_singleton _ _, ?_⟩
    intro entry membership last lastMember
    obtain rfl := List.mem_singleton.mp lastMember
    have before := firstSeen.findIdx_lt membership
    simp only [List.findIdx_append, before, notBefore, if_true, if_false]
    omega
  typed entry membership := by
    rcases List.mem_append.mp membership with old | new
    · exact (firstSeen.append [o]).typed entry old
    · obtain rfl := List.mem_singleton.mp new
      have absent : seen.find? (uses name) = none := by
        simpa [List.find?_eq_none] using fresh
      simp [List.find?_append, absent, used]

end FirstSeen

def BufferUse.entry (use : BufferUse) : String × ScalarType := (use.name, use.type)

namespace Closure

section AddBuffer

variable (use : BufferUse) (buffers : List BufferUse)

/-- Names and types change only when the buffer is new. -/
theorem entries_addBuffer :
    (addBuffer use buffers).map BufferUse.entry =
      if use.name ∈ buffers.map BufferUse.name then buffers.map BufferUse.entry
      else buffers.map BufferUse.entry ++ [use.entry] := by
  induction buffers with
  | nil => rfl
  | cons buffer rest inductionHypothesis =>
    by_cases same : buffer.name = use.name
    · simp [addBuffer, same, BufferUse.entry]
    · have different : ¬ use.name = buffer.name := fun equal => same equal.symm
      simp only [addBuffer, same, if_false, List.map_cons, inductionHypothesis, List.mem_cons,
        different, false_or]
      split <;> simp

variable {use buffers}

/-- What holds of all buffers after a use was added, when names are distinct. -/
theorem forall_mem_addBuffer {holds : BufferUse → Prop}
    (nodup : (buffers.map BufferUse.name).Nodup)
    (other : ∀ buffer ∈ buffers, buffer.name ≠ use.name → holds buffer)
    (merged : ∀ buffer ∈ buffers, buffer.name = use.name →
      holds { buffer with
        read := buffer.read || use.read, write := buffer.write || use.write })
    (new : use.name ∉ buffers.map BufferUse.name → holds use) :
    ∀ buffer ∈ addBuffer use buffers, holds buffer := by
  induction buffers with
  | nil => simpa [addBuffer] using new
  | cons first rest inductionHypothesis =>
    obtain ⟨firstFresh, restNodup⟩ := List.nodup_cons.mp nodup
    by_cases same : first.name = use.name
    · rw [addBuffer, if_pos same]
      refine List.forall_mem_cons.mpr ⟨merged first (by simp) same, ?_⟩
      intro buffer membership
      apply other buffer (List.mem_cons_of_mem _ membership)
      intro equal
      apply firstFresh
      rw [same, ← equal]
      exact List.mem_map_of_mem membership
    · rw [addBuffer, if_neg same]
      refine List.forall_mem_cons.mpr
        ⟨other first (by simp) same, inductionHypothesis restNodup ?_ ?_ ?_⟩
      · exact fun buffer membership => other buffer (List.mem_cons_of_mem _ membership)
      · exact fun buffer membership => merged buffer (List.mem_cons_of_mem _ membership)
      · intro absent
        apply new
        simpa using ⟨fun equal => same equal.symm, by simpa using absent⟩

end AddBuffer

/-- The invariant of noting occurrences: `c` is the closure of the occurrences `seen`. -/
structure Noted (seen : List Occurrence) (c : Closure) : Prop where
  mem_buffers : ∀ name, name ∈ c.buffers.map BufferUse.name ↔
    ∃ o ∈ seen, o.accesses name = true
  flags : ∀ buffer ∈ c.buffers,
    (buffer.read = true ↔ ∃ type, .load buffer.name type ∈ seen) ∧
      (buffer.write = true ↔ ∃ type, .store buffer.name type ∈ seen)
  mem_vars : ∀ name, name ∈ c.vars.map Prod.fst ↔
    (∃ o ∈ seen, o.reads name = true) ∧ ¬ ∃ o ∈ seen, o.accesses name = true
  buffers_firstSeen : FirstSeen Occurrence.accesses seen (c.buffers.map BufferUse.entry)
  vars_firstSeen : FirstSeen Occurrence.reads seen c.vars

namespace Noted

variable {seen : List Occurrence} {c : Closure}

theorem empty : Noted [] Closure.empty where
  mem_buffers := by simp [Closure.empty]
  flags := by simp [Closure.empty]
  mem_vars := by simp [Closure.empty]
  buffers_firstSeen := FirstSeen.nil
  vars_firstSeen := FirstSeen.nil

theorem buffers_nodup (noted : Noted seen c) : (c.buffers.map BufferUse.name).Nodup := by
  simpa [Function.comp_def, BufferUse.entry] using noted.buffers_firstSeen.nodup

/-- Noting an access. Load and store differ only in the flag that the use sets. -/
theorem noteBuffer (noted : Noted seen c) {use : BufferUse} {o : Occurrence}
    (accesses_iff : ∀ name, o.accesses name = true ↔ name = use.name)
    (reads_none : ∀ name, o.reads name = false)
    (type_eq : o.type = use.type)
    (load_iff : ∀ name, (∃ type, .load name type = o) ↔ use.read = true ∧ name = use.name)
    (store_iff : ∀ name, (∃ type, .store name type = o) ↔ use.write = true ∧ name = use.name) :
    Noted (seen ++ [o]) (c.noteBuffer use) := by
  have accessed (name : String) : (∃ x ∈ seen ++ [o], x.accesses name = true) ↔
      (∃ x ∈ seen, x.accesses name = true) ∨ name = use.name := by
    simp [or_and_right, exists_or, accesses_iff]
  have notRead (name : String) : (∃ x ∈ seen ++ [o], x.reads name = true) ↔
      ∃ x ∈ seen, x.reads name = true := by
    simp [or_and_right, exists_or, reads_none]
  have loaded (name : String) : (∃ type, .load name type ∈ seen ++ [o]) ↔
      (∃ type, .load name type ∈ seen) ∨ use.read = true ∧ name = use.name := by
    simp only [List.mem_append, List.mem_singleton, exists_or, load_iff]
  have stored (name : String) : (∃ type, .store name type ∈ seen ++ [o]) ↔
      (∃ type, .store name type ∈ seen) ∨ use.write = true ∧ name = use.name := by
    simp only [List.mem_append, List.mem_singleton, exists_or, store_iff]
  refine ⟨?_, ?_, ?_, ?_, ?_⟩
  · intro name
    have names : (addBuffer use c.buffers).map BufferUse.name =
        ((addBuffer use c.buffers).map BufferUse.entry).map Prod.fst := by
      simp [Function.comp_def, BufferUse.entry]
    have before := noted.mem_buffers name
    rw [accessed, ← before, Closure.noteBuffer, names, entries_addBuffer]
    split
    · next known =>
      simp only [List.map_map, Function.comp_def, BufferUse.entry]
      exact ⟨.inl, fun known' => known'.elim id fun equal => equal ▸ known⟩
    · simp [Function.comp_def, BufferUse.entry]
  · refine forall_mem_addBuffer noted.buffers_nodup ?_ ?_ ?_
    · intro buffer membership different
      have flags := noted.flags buffer membership
      simpa only [loaded, stored, different, and_false, or_false] using flags
    · intro buffer membership same
      have flags := noted.flags buffer membership
      simp only [loaded, stored, Bool.or_eq_true, flags, same, and_true]
    · intro absent
      have unaccessed : ¬ ((∃ type, .load use.name type ∈ seen) ∨
          (∃ type, .store use.name type ∈ seen)) := by
        rw [← Occurrence.exists_accesses_iff, ← noted.mem_buffers]
        exact absent
      obtain ⟨unloaded, unstored⟩ := not_or.mp unaccessed
      simp only [loaded, stored, unloaded, unstored, and_true, false_or]
  · intro name
    have before := noted.mem_vars name
    simp only [List.mem_map] at before
    simp only [Closure.noteBuffer, List.mem_map, List.mem_filter, decide_eq_true_eq,
      accessed, notRead, not_or]
    rw [← and_assoc, ← before]
    constructor
    · rintro ⟨entry, ⟨membership, different⟩, rfl⟩
      exact ⟨⟨entry, membership, rfl⟩, different⟩
    · rintro ⟨⟨entry, membership, rfl⟩, different⟩
      exact ⟨entry, ⟨membership, different⟩, rfl⟩
  · rw [Closure.noteBuffer, entries_addBuffer]
    split
    · exact noted.buffers_firstSeen.append [o]
    · next new =>
      rw [BufferUse.entry, ← type_eq]
      apply noted.buffers_firstSeen.push
      · intro earlier membership
        apply Bool.eq_false_iff.mpr
        intro accessedBefore
        exact new ((noted.mem_buffers use.name).mpr ⟨earlier, membership, accessedBefore⟩)
      · exact (accesses_iff use.name).mpr rfl
  · exact (noted.vars_firstSeen.append [o]).sublist List.filter_sublist

theorem noteVariable (noted : Noted seen c) (name : String) (type : ScalarType) :
    Noted (seen ++ [.var name type]) (c.noteVariable name type) := by
  have accessed (other : String) :
      (∃ x ∈ seen ++ [Occurrence.var name type], x.accesses other = true) ↔
        ∃ x ∈ seen, x.accesses other = true := by
    simp [or_and_right, exists_or, Occurrence.accesses]
  have read (other : String) : (∃ x ∈ seen ++ [Occurrence.var name type], x.reads other = true) ↔
      (∃ x ∈ seen, x.reads other = true) ∨ other = name := by
    simp [or_and_right, exists_or, Occurrence.reads, @eq_comm _ name]
  have buffers_eq : (c.noteVariable name type).buffers = c.buffers := by
    rw [Closure.noteVariable]
    split <;> rfl
  have known_iff : (c.vars.any (·.1 = name) || c.buffers.any (·.name = name)) = true ↔
      (∃ x ∈ seen, x.reads name = true) ∨ ∃ x ∈ seen, x.accesses name = true := by
    have inVars := noted.mem_vars name
    have inBuffers := noted.mem_buffers name
    simp only [List.mem_map] at inVars inBuffers
    simp only [Bool.or_eq_true, List.any_eq_true, decide_eq_true_eq, inVars, inBuffers]
    by_cases isAccessed : ∃ x ∈ seen, x.accesses name = true <;> simp [isAccessed]
  refine ⟨?_, ?_, ?_, ?_, ?_⟩
  · intro other
    rw [buffers_eq, accessed]
    exact noted.mem_buffers other
  · rw [buffers_eq]
    intro buffer membership
    simpa using noted.flags buffer membership
  · intro other
    have before := noted.mem_vars other
    rw [accessed, read, Closure.noteVariable]
    split
    · next known =>
      have seenBefore := known_iff.mp known
      rw [before]
      constructor
      · rintro ⟨readBefore, unaccessed⟩
        exact ⟨.inl readBefore, unaccessed⟩
      · rintro ⟨readBefore | rfl, unaccessed⟩
        · exact ⟨readBefore, unaccessed⟩
        · exact ⟨seenBefore.resolve_right unaccessed, unaccessed⟩
    · next new =>
      obtain ⟨_, unaccessed⟩ := not_or.mp (fun seenBefore => new (known_iff.mpr seenBefore))
      simp only [List.map_append, List.map_cons, List.map_nil, List.mem_append,
        List.mem_singleton, before, or_and_right]
      constructor
      · exact Or.imp_right fun equal => ⟨equal, equal ▸ unaccessed⟩
      · exact Or.imp_right And.left
  · rw [buffers_eq]
    exact noted.buffers_firstSeen.append _
  · rw [Closure.noteVariable]
    split
    · exact noted.vars_firstSeen.append _
    · next new =>
      obtain ⟨unread, _⟩ := not_or.mp (fun seenBefore => new (known_iff.mpr seenBefore))
      apply noted.vars_firstSeen.push
      · intro earlier membership
        exact Bool.eq_false_iff.mpr fun readBefore => unread ⟨earlier, membership, readBefore⟩
      · simp [Occurrence.reads]

theorem note (noted : Noted seen c) (o : Occurrence) : Noted (seen ++ [o]) (c.note o) := by
  cases o with
  | var name type => exact noted.noteVariable name type
  | load name type =>
    apply noted.noteBuffer <;> simp [Occurrence.accesses, Occurrence.reads, Occurrence.type,
      @eq_comm _ name]
  | store name type =>
    apply noted.noteBuffer <;> simp [Occurrence.accesses, Occurrence.reads, Occurrence.type,
      @eq_comm _ name]

theorem foldl_note (noted : Noted seen c) (later : List Occurrence) :
    Noted (seen ++ later) (later.foldl Closure.note c) := by
  induction later generalizing seen c with
  | nil => simpa using noted
  | cons o rest inductionHypothesis => simpa using inductionHypothesis (noted.note o)

end Noted

structure Exact (free : List Occurrence) (c : Closure) : Prop where
  buffers_nodup : (c.buffers.map BufferUse.name).Nodup
  vars_nodup : (c.vars.map Prod.fst).Nodup
  disjoint : ∀ name ∈ c.buffers.map BufferUse.name, name ∉ c.vars.map Prod.fst
  /-- Buffers are the names that are loaded from or stored to. -/
  mem_buffers : ∀ name, name ∈ c.buffers.map BufferUse.name ↔
    (∃ type, .load name type ∈ free) ∨ (∃ type, .store name type ∈ free)
  read_iff : ∀ buffer ∈ c.buffers, buffer.read = true ↔ ∃ type, .load buffer.name type ∈ free
  write_iff : ∀ buffer ∈ c.buffers, buffer.write = true ↔ ∃ type, .store buffer.name type ∈ free
  /-- Variables are the names that are read and never accessed as buffers. -/
  mem_vars : ∀ name, name ∈ c.vars.map Prod.fst ↔
    (∃ type, .var name type ∈ free) ∧
      ¬ ((∃ type, .load name type ∈ free) ∨ (∃ type, .store name type ∈ free))
  /-- Buffers stand in the order of their first access, with the type of that access. -/
  buffers_firstSeen : FirstSeen Occurrence.accesses free (c.buffers.map BufferUse.entry)
  /-- Variables stand in the order of their first reading, with the type of that reading. -/
  vars_firstSeen : FirstSeen Occurrence.reads free c.vars

theorem Noted.exact {seen : List Occurrence} {c : Closure} (noted : Noted seen c) :
    Exact seen c where
  buffers_nodup := noted.buffers_nodup
  vars_nodup := noted.vars_firstSeen.nodup
  disjoint name inBuffers inVars :=
    ((noted.mem_vars name).mp inVars).2 ((noted.mem_buffers name).mp inBuffers)
  mem_buffers name := by rw [noted.mem_buffers, Occurrence.exists_accesses_iff]
  read_iff buffer membership := (noted.flags buffer membership).1
  write_iff buffer membership := (noted.flags buffer membership).2
  mem_vars name := by
    rw [noted.mem_vars, Occurrence.exists_reads_iff, Occurrence.exists_accesses_iff]
  buffers_firstSeen := noted.buffers_firstSeen
  vars_firstSeen := noted.vars_firstSeen

/-- The closure of a region body is exact for the free occurrences of the body. -/
theorem capture_exact (body : Stmt) : Exact body.freeOccurrences (capture body) := by
  have noted := Noted.empty.foldl_note (body.occurrences [])
  rw [← Stmt.occurrences_eq_freeOccurrences]
  exact noted.exact

end Closure

end StreamSynth
