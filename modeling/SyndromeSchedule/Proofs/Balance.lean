import SyndromeSchedule.Proofs.Endings
import SyndromeSchedule.Proofs.Letters

/-!
Detectors are balanced. What the outcomes of a detector measure multiplies to the identity, or,
where outcomes before the first round are cut off, to letters in which the initial state is
prepared.
-/

namespace SyndromeSchedule

open List

namespace Record

/-- Letter on a qubit of what was measured under a handle. -/
def letter (r : Record) (q : Qubit) (handle : Nat) : Pauli :=
  r.entry? handle |>.map (fun e => e.1.product.letter q) |>.getD .I

/-- Product of the letters on a qubit of everything measured under some handles. -/
def letters (r : Record) (handles : List Nat) (q : Qubit) : Pauli :=
  Pauli.prod (handles.map (r.letter q))

/-- Handles of the outcomes of some keys. -/
def Lists (r : Record) (keys : List Key) (handles : List Nat) : Prop :=
  Forall₂ (fun key h => ∃ t, r.entry? h = some (key, t)) keys handles

variable {r later : Record}

lemma letter_of_entry {handle t : Nat} {key : Key} (entry : r.entry? handle = some (key, t))
    (q : Qubit) : r.letter q handle = key.product.letter q := by
  rw [letter, entry]
  rfl

lemma Lists.mono {keys : List Key} {handles : List Nat} (h : r.Lists keys handles)
    (within : r.Within later) : later.Lists keys handles :=
  h.imp fun _ _ ⟨t, entry⟩ => ⟨t, within entry⟩

lemma Lists.letters_eq {keys : List Key} {handles : List Nat} (h : r.Lists keys handles)
    (q : Qubit) :
    r.letters handles q = Pauli.prod (keys.map fun key => key.product.letter q) := by
  have same : handles.map (r.letter q) = keys.map fun key => key.product.letter q := by
    induction h with
    | nil => rfl
    | cons first _ ih =>
      obtain ⟨t, entry⟩ := first
      rw [map_cons, map_cons, ih, letter_of_entry entry]
  rw [letters, same]

end Record

lemma Progress.ClosesOn.letters_eq {r : Record} {c : Check} {handles : List Nat}
    (h : ClosesOn r c handles) (q : Qubit) : r.letters handles q = .I := by
  obtain ⟨handle, round, t, others, entry, reads, rfl⟩ := h
  have finals : others.map (r.letter q) =
      c.members.map fun m => if q = m.qubit then m.operator.letter else .I := by
    generalize c.members = members at reads
    induction reads with
    | nil => rfl
    | cons first _ ih =>
      obtain ⟨single, k, t, reads, entry⟩ := first
      rw [map_cons, map_cons, ih, Record.letter_of_entry entry, Key.letter_of, reads.letter]
  rw [Record.letters, Pauli.prod_map_oddItems, map_cons, Pauli.prod_cons, finals,
    c.prod_members, Record.letter_of_entry entry, Key.letter_of, Pauli.times_self]

namespace Session

lemma Complete.detector_of_mem {task : Task} {s : Session} (complete : s.Complete task) {t : Nat}
    {handles : List Nat} (note : Note.detector handles ∈ (s.store.tickAt t).notes) :
    ∃ round < s.rounds, ∃ d ∈ task.code.detectorsIn round,
      ({ initial := task.request.initial } : Resolver).discards
        (d.isCut (Word.signed round)) (d.keys (Word.signed round)) = false ∧
      s.store.record.Lists (d.keys (Word.signed round)) handles := by
  obtain ⟨keys, written, log, writes, adds⟩ := complete.safe.account
  have noted : (t, Note.detector handles) ∈ Store.detectors log := by
    have here : (s.store.unmarked.tickAt t).notes = (s.store.tickAt t).notes := rfl
    rw [← here, writes.notes_eq] at note
    simp only [Store.tickAt, mem_append, mem_map, mem_filter] at note
    rcases note with old | ⟨⟨tick, n⟩, ⟨mem, same⟩, rfl⟩
    · simp at old
    · obtain rfl : tick = t := by simpa using same
      exact mem_filter.mpr ⟨mem, rfl⟩
  obtain ⟨k, listed, handles', same, lists, _⟩ := exists_left_of_forall₂ adds.detectors noted
  cases same
  rw [complete.written] at written
  obtain ⟨i, planned, rfl⟩ := mem_map.mp (written.mem_iff.mp listed)
  obtain ⟨round, below, opened⟩ := mem_flatMap.mp planned
  obtain ⟨⟨d, index⟩, scheduled, opened⟩ := mem_flatMap.mp opened
  simp only [Resolver.opened] at opened
  split_ifs at opened with dropped
  · simp at opened
  · obtain rfl := mem_singleton.mp opened
    have mem : d ∈ task.code.detectorsIn round :=
      mem_of_getElem? (mem_zipIdx_iff_getElem?.mp scheduled)
    exact ⟨round, mem_range.mp below, d, mem, by simpa using dropped, lists⟩

lemma Complete.detector_cases {task : Task} {s next : Session} {placed : Nat}
    (complete : s.Complete task) (h : s.measureFinals task = .ok (next, placed)) {t : Nat}
    {handles : List Nat} (note : Note.detector handles ∈ (next.store.tickAt t).notes) :
    next.rounds = s.rounds ∧ s.store.record.Within next.store.record ∧
      (Note.detector handles ∈ (s.store.tickAt t).notes ∨
        ∃ c ∈ task.code.distinctChecks, Progress.ClosesOn next.store.record c handles) := by
  obtain ⟨_, mid, finals, closed, ended, measures, closes, ends, rfl⟩ := measureFinals_eq_ok h
  have measured := measured_finals complete.safe.toStable measures
  obtain ⟨whole, closing, _, each, detectors⟩ := measured.detectors closes ends
  have record : ({ mid with progress := ended } : Session).store.record = mid.store.record := whole
  rw [record]
  refine ⟨measured.rounds, measured.within, ?_⟩
  have mem : Note.detector handles ∈ (ended.store.tickAt t).notes.filter Note.isDetector :=
    mem_filter.mpr ⟨note, rfl⟩
  rw [detectors, mem_append] at mem
  rcases mem with old | new
  · exact .inl (mem_of_mem_filter old)
  · obtain ⟨f, mem, same⟩ := mem_map.mp new
    cases same
    have found := each f (mem_of_mem_filter mem)
    exact .inr ⟨f.check, found.listed, found.closesOn measured.reads⟩

end Session

/-- Every detector is balanced. It belongs to the schedule or closes on final measurements. What its
outcomes measure multiplies to the identity on every qubit, except that a detector of the schedule
from which outcomes before the first round were cut off may leave the letter in which the qubit is
prepared. -/
theorem Compiler.detectors_balanced {c : Compiler} {code : Code} {request : Request}
    {result : Compilation} (compiled : c.compile code request = .ok result) {t : Nat}
    {handles : List Nat} (note : Note.detector handles ∈ (result.store.tickAt t).notes) :
    (∃ round < result.report.rounds, ∃ d ∈ code.detectorsIn round,
        result.store.record.Lists (d.keys (Word.signed round)) handles ∧
        ∀ q, result.store.record.letters handles q = .I ∨
          d.isCut (Word.signed round) = true ∧
            result.store.record.letters handles q = (request.initialState q).basis) ∨
      ∃ check ∈ code.distinctChecks, Progress.ClosesOn result.store.record check handles ∧
        ∀ q, result.store.record.letters handles q = .I := by
  obtain ⟨prepared, layered, ended, runs⟩ := compile_eq_ok compiled
  have complete := runs.complete.2.complete
  rw [runs.store] at note ⊢
  obtain ⟨rounds, within, scheduled | ⟨check, listed, closes⟩⟩ :=
    complete.detector_cases runs.measures note
  · left
    obtain ⟨round, below, d, member, kept, lists⟩ := complete.detector_of_mem scheduled
    have lists := lists.mono within
    have placed : result.report.rounds = layered.rounds := by
      rw [runs.report, rounds]
    refine ⟨round, placed ▸ below, d, member, lists, fun q => ?_⟩
    rw [lists.letters_eq]
    cases cut : d.isCut (Word.signed round) with
    | false => exact .inl (Detector.prod_keys_of_not_isCut cut q)
    | true =>
      rw [cut] at kept
      rcases Resolver.letter_of_not_discards kept q with none | basis
      · exact .inl none
      · exact .inr ⟨rfl, basis⟩
  · exact .inr ⟨check, listed, closes, closes.letters_eq⟩

/-- A detector that is cut off, a whole one, and one that closes on final measurements. -/
theorem PairCode.detectors_balanced_five :
    ∃ result, (compiler {}).compile code { layers := 5 } = .ok result ∧
      ∀ e ∈ [(4, [0]), (9, [0, 1]), (15, [2, 3, 4])],
        Note.detector e.2 ∈ (result.store.tickAt e.1).notes ∧
        ((∃ round < result.report.rounds, ∃ d ∈ code.detectorsIn round,
            result.store.record.Lists (d.keys (Word.signed round)) e.2 ∧
            ∀ q, result.store.record.letters e.2 q = .I ∨
              d.isCut (Word.signed round) = true ∧ result.store.record.letters e.2 q =
                (({ layers := 5 } : Request).initialState q).basis) ∨
          ∃ check ∈ code.distinctChecks, Progress.ClosesOn result.store.record check e.2 ∧
            ∀ q, result.store.record.letters e.2 q = .I) := by
  have noted : ((compiler {}).compile code { layers := 5 }).toOption.any (fun result =>
      [(4, [0]), (9, [0, 1]), (15, [2, 3, 4])].all fun e =>
        Note.detector e.2 ∈ (result.store.tickAt e.1).notes) = true := by
    decide +kernel
  obtain ⟨result, found, all⟩ := (Option.any_eq_true ..).mp noted
  have compiled := Outcome.eq_ok_of_toOption found
  refine ⟨result, compiled, fun e listed => ?_⟩
  have note : Note.detector e.2 ∈ (result.store.tickAt e.1).notes := by
    simpa using List.all_eq_true.mp all e listed
  exact ⟨note, Compiler.detectors_balanced compiled note⟩

end SyndromeSchedule
