import SyndromeSchedule.Proofs.Runs

/-!
How a compilation ends. Final measurements lead to the outcomes of checks of one qubit, whether they
were made anew or used again; detectors close on the last outcome of a check and the final
measurements of its qubits; observables are annotated with what they toggled last.
-/

namespace SyndromeSchedule

open List Outcome

namespace Session

variable {finals : Table (Pauli × Nat)} {made : List (Check × Nat)}

/-- Every final measurement leads to the outcome of its qubit. -/
def ReadsFinals (r : Record) (finals : Table (Pauli × Nat)) : Prop :=
  ∀ (q : Qubit) (basis : Pauli) (handle : Nat), finals.get? q = some (basis, handle) →
    ∃ c round t, c.Reads q basis ∧ r.entry? handle = some (Key.of c round, t)

lemma ReadsFinals.insert {r later : Record} {q : Qubit} {basis : Pauli} {handle t : Nat}
    {c : Check} {round : Int} (h : ReadsFinals r finals) (within : r.Within later)
    (reads : c.Reads q basis) (entry : later.entry? handle = some (Key.of c round, t)) :
    ReadsFinals later (finals.insert q (basis, handle)) := by
  intro p letter other found
  rw [Table.get?_insert] at found
  split_ifs at found with here
  · cases found
    subst here
    exact ⟨c, round, t, reads, entry⟩
  · obtain ⟨c, round, t, reads, entry⟩ := h p letter other found
    exact ⟨c, round, t, reads, within entry⟩

/-- The final measurements of a session with an account. -/
structure Measured (s next : Session) (finals : Table (Pauli × Nat)) : Prop where
  reads : ReadsFinals next.store.record finals
  within : s.store.record.Within next.store.record
  notes : ∀ t, (next.store.tickAt t).notes = (s.store.tickAt t).notes
  direct : next.direct = s.direct
  resolver : next.progress.resolver = s.progress.resolver
  rounds : next.rounds = s.rounds

lemma Measured.step {task : Task} {s mid next : Session}
    {last tick : Nat} {after : Table (Pauli × Nat)} {q : Qubit} {basis : Pauli}
    (stable : s.Stable made) (h : s.Measured mid finals)
    (measures : measureFinal task last tick (mid, finals) (q, basis) = .ok (next, after)) :
    s.Measured next after := by
  rcases measureFinal_eq_ok measures with
    ⟨d, found, _, rfl, _, rfl, rfl⟩ | ⟨c, gate, reads, _, made, direct, rfl⟩
  · rw [h.direct] at found
    obtain ⟨c, _, reads, entry⟩ := stable.direct found
    exact ⟨h.reads.insert id reads (h.within entry), h.within, h.notes, h.direct, h.resolver,
      h.rounds⟩
  · have record := made.record rfl
    obtain ⟨u, effect, _⟩ := made.effect
    refine ⟨?_, ?_, ?_, direct.trans h.direct, made.resolver.trans h.resolver,
      effect.rounds.trans h.rounds⟩
    · have entry : Record.entry? next.store.record mid.store.record.size =
          some (Key.of c (Word.signed mid.rounds), tick) := by
        rw [record, Record.entry?_push, if_pos rfl]
      exact h.reads.insert effect.within reads entry
    · exact fun entry => effect.within (h.within entry)
    · intro t
      rw [effect.writes.notes_eq, ← h.notes t]
      exact append_nil _

lemma measured_finals {task : Task} {s next : Session}
    {last tick : Nat} {items : List (Qubit × Pauli)} (stable : s.Stable made)
    (h : items.foldlM (measureFinal task last tick) (s, .empty) = .ok (next, finals)) :
    s.Measured next finals := by
  apply foldlM_keeps (fun state : Session × Table (Pauli × Nat) =>
    s.Measured state.1 state.2) ?_ h
  · refine ⟨?_, id, fun _ => rfl, rfl, rfl, rfl⟩
    intro q basis handle found
    simp at found
  · rintro f - ⟨mid, before⟩ ⟨next, after⟩ held measures
    exact held.step stable measures

end Session

/-- Handles of a check's last outcome and of the final measurements of its qubits, less those that
occur twice. -/
def Progress.ClosesOn (r : Record) (c : Check) (handles : List Nat) : Prop :=
  ∃ handle round t others, r.entry? handle = some (Key.of c round, t) ∧
    Forall₂ (fun (m : Member) h => ∃ c' round t, c'.Reads m.qubit m.operator.letter ∧
      r.entry? h = some (Key.of c' round, t)) c.members others ∧
    handles = oddItems (handle :: others)

namespace FinalDetector

lemma Closes.closesOn {code : Code} {last : Nat} {finals : Table (Pauli × Nat)} {r : Record}
    {f : FinalDetector} (h : f.Closes code last finals r) (reads : Session.ReadsFinals r finals) :
    Progress.ClosesOn r f.check f.handles := by
  obtain ⟨t, entry⟩ := Record.entry?_of_handle? h.made
  refine ⟨f.handle, _, t, f.others, entry, ?_, rfl⟩
  exact (Progress.finalHandles_eq_ok h.finals h.covered).imp fun m h found => reads _ _ _ found

lemma filter_notes (closing : List FinalDetector) (t : Nat) :
    (((closing.map note).filter (·.1 = t)).map (·.2)).filter Note.isDetector =
      (closing.filter (·.tick = t)).map (.detector ·.handles) := by
  have placed : (closing.map note).filter (·.1 = t) = (closing.filter (·.tick = t)).map note :=
    filter_map
  rw [placed, map_map]
  refine filter_eq_self.mpr fun n mem => ?_
  obtain ⟨f, _, rfl⟩ := mem_map.mp mem
  rfl

end FinalDetector


namespace Session

variable {task : Task} {s next : Session}

/-- Detectors after the final measurements: those there were, and those that close on them. -/
lemma Measured.detectors {mid : Session} {finals : Table (Pauli × Nat)} {code : Code}
    {last placed rounds : Nat} {closed ended : Progress} {u : Unit} (h : s.Measured mid finals)
    (closes : (mid.progress.finalDetectors code last finals).commit = .ok (closed, placed))
    (ends : (closed.finalObservables rounds finals).commit = .ok (ended, u)) :
    ended.store.record = mid.store.record ∧ ∃ closing : List FinalDetector,
      closing.length = placed ∧ (∀ f ∈ closing, f.Closes code last finals mid.store.record) ∧
      ∀ t, (ended.store.tickAt t).notes.filter Note.isDetector =
        (s.store.tickAt t).notes.filter Note.isDetector ++
          (closing.filter (·.tick = t)).map (.detector ·.handles) := by
  obtain ⟨closing, detected, length, each⟩ := Progress.finalDetectors_closes closes
  obtain ⟨items, _, noted⟩ := Progress.finalObservables_eq_ok ends
  rw [noted, detected]
  refine ⟨?_, closing, length, each, fun t => ?_⟩
  · rw [Store.record_withNotes]
    exact Store.record_withNotes ..
  have observing : (((Tracker.allNoted items).filter (·.1 = t)).map (·.2)).filter Note.isDetector =
      [] := by
    refine filter_eq_nil_iff.mpr fun n member => ?_
    obtain ⟨e, inside, rfl⟩ := mem_map.mp member
    obtain ⟨_, _, _, rfl⟩ := Tracker.mem_allNoted (mem_of_mem_filter inside)
    exact Bool.false_ne_true
  have first : (mid.progress.store.tickAt t).notes = (s.store.tickAt t).notes := h.notes t
  rw [Store.notes_withNotes, Store.notes_withNotes, filter_append, filter_append, observing,
    append_nil, FinalDetector.filter_notes, first]

lemma measureFinals_does {placed : Nat} (run : s.measureFinals task = .ok (next, placed)) :
    ∃ moves, s.DoesMoves moves next ∧ ∀ m ∈ moves, m.tick = s.barrier := by
  obtain ⟨_, mid, finals, closed, ended, measures, closes, ends, rfl⟩ := measureFinals_eq_ok run
  obtain ⟨moves, does, late⟩ :
      ∃ moves, s.DoesMoves moves mid ∧ ∀ m ∈ moves, m.tick = s.barrier := by
    apply foldlM_keeps (fun r : Session × Table (Pauli × Nat) =>
      ∃ moves, s.DoesMoves moves r.1 ∧ ∀ m ∈ moves, m.tick = s.barrier) ?_ measures
      ⟨[], .refl s, forall_mem_nil _⟩
    rintro ⟨q, basis⟩ _ ⟨before, table⟩ ⟨after, table'⟩ ⟨moves, does, late⟩ step
    rcases measureFinal_eq_ok step with ⟨_, _, _, _, _, rfl, _⟩ | ⟨_, gate, _, _, measured, _⟩
    · exact ⟨moves, does, late⟩
    · refine ⟨_, does.trans measured.does, forall_mem_append.mpr ⟨late, ?_⟩⟩
      exact forall_mem_singleton.mpr rfl
  obtain ⟨items, made, _⟩ := (Progress.finalDetectors_marks closes).notes
  obtain ⟨lasts, _, made'⟩ := Progress.finalObservables_eq_ok ends
  rw [made, ← Store.withNotes_append] at made'
  have all := does.trans (does_notes made')
  rw [append_nil] at all
  exact ⟨moves, all, late⟩

end Session

end SyndromeSchedule
