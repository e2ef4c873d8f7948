import SyndromeSchedule.Proofs.Undisturbed

/-!
Detectors refer to the right outcomes. Rounds never overlap on a qubit, so the outcomes on one qubit
come in the order of their rounds, and it is known of every outcome which check it stands for in
which round. The detectors of a program with its blocks written out are those of the schedule that
the initial state does not rule out, and each of them refers to its own outcomes.
-/

namespace SyndromeSchedule

open List

namespace Session

variable {task : Task} {prepared layered : Session} {stages : List (Session × Session)}

/-- An outcome of a round is made by the stage of that round. -/
lemma Stages.exists_yields (extractable : task.Extractable)
    (placed : Stages task prepared stages layered)
    (fresh : ∀ handle, prepared.store.record.entry? handle = none)
    (words : layered.rounds < Word.half) {e : Check × Nat}
    (scheduled : e ∈ task.code.measured layered.rounds) {handle t : Nat}
    (entry : layered.store.record.entry? handle = some (Key.of e.1 (Word.signed e.2), t)) :
    ∃ stage ∈ stages, stage.1.rounds = e.2 ∧ stage.1.Yields stage.2 e.1 t := by
  obtain ⟨below, listed⟩ := Code.mem_measured.mp scheduled
  rcases placed.entry_cases extractable entry with none | ⟨stage, mem, d, known, same, yields⟩
  · rw [fresh] at none
    cases none
  · have inside := placed.rounds_lt mem
    obtain ⟨round, content⟩ := Key.mk.inj same
    rw [Word.signed_of_lt (by omega), Word.signed_of_lt (by omega)] at round
    have round := Int.ofNat.inj round
    rw [← round] at known
    obtain rfl := task.code.eq_of_content listed known content
    exact ⟨stage, mem, round.symm, yields⟩

end Session

namespace Task.Runs

variable {task : Task} {result : Compilation} {prepared layered ended : Session} {placed : Nat}
  {anew : List (Qubit × Pauli)} {more : List (Check × Nat)} {keys closing : List (List Key)}
  (runs : task.Runs result prepared layered ended)

section

variable (words : layered.rounds < Word.half)
  (ledger : layered.Ledger task ended placed anew more keys closing)
include runs words ledger

/-- On every qubit the outcomes of a run come in the order of their rounds. -/
theorem chronological : ended.store.Chronological (task.code.measured layered.rounds ++ more) := by
  obtain ⟨_, _, read, _, _, _, account⟩ := ledger
  have extractable := runs.extractable
  have finished := runs.finished.2
  have complete := runs.complete.2.complete
  obtain ⟨stages, placed⟩ := Session.placed_stages runs.placed
  -- an outcome of a round comes from a stage, and all others are made at the end
  have made : ∀ {h t key e}, ended.store.record.entry? h = some (key, t) →
      (task.code.measured layered.rounds ++ more)[h]? = some e →
      (e.2 < layered.rounds ∧ t < layered.store.size ∧
        ∃ stage ∈ stages, stage.1.rounds = e.2 ∧ stage.1.Yields stage.2 e.1 t) ∨
      (layered.rounds ≤ e.2 ∧ t = layered.store.size) := by
    intro h t key e entry found
    have cut := task.code.lt_length_measured_iff le_rfl read.round found
    rw [← complete.size_record] at cut
    rcases finished.entry_cases entry with old | ⟨none, last⟩
    · have below := cut.mp (Record.lt_size old)
      obtain ⟨e', found', rfl⟩ := account.made_of_entry entry
      obtain rfl := Option.some.inj (found.symm.trans found')
      rw [getElem?_append_left ((task.code.lt_length_measured_iff le_rfl read.round found).mpr
        below)] at found
      exact .inl ⟨below, complete.safe.sound.tick_lt_size old, placed.exists_yields extractable
        (Session.initialise_fresh runs.prepares) words (mem_of_getElem? found) old⟩
    · have new := Record.size_le none
      exact .inr ⟨by omega, last⟩
  intro h h' t t' key key' e e' entry entry' found found' earlier q here there
  rcases made entry found with ⟨_, inside, a, mem, round, yields⟩ | ⟨late, _⟩
  · rcases made entry' found' with ⟨_, _, b, mem', round', yields'⟩ | ⟨_, last⟩
    · obtain ⟨g, added, acted⟩ := yields.measured
      obtain ⟨g', added', acted'⟩ := yields'.measured
      exact placed.precedes extractable mem mem' (by omega) added (acted ▸ here) added'
        (acted' ▸ there)
    · rwa [last]
  · have final : e'.2 ≤ layered.rounds := by
      rcases made entry' found' with ⟨below, _⟩ | ⟨_, _⟩
      · exact below.le
      · rcases mem_append.mp (mem_of_getElem? found') with old | new
        · exact (Code.mem_measured.mp old).1.le
        · exact (read.round e' new).le
    omega

/-- Outcomes of a run are labelled by the checks and rounds they stand for. -/
theorem accounts :
    task.request.Accounts task.code ended.store (layered.labels task ended more) := by
  have perm := runs.labels_perm words ledger
  have chronological : ended.store.Chronological (task.code.measured layered.rounds ++ more) :=
    runs.chronological words ledger
  have shape := runs.shape words ledger
  have rounds_le := runs.rounds_le words ledger
  obtain ⟨part, rest, read, _, _, _, account⟩ := ledger
  have small := read.lt_half task.code words
  have later := read.later (task.request.layers * task.code.period - layered.rounds)
  rw [Nat.add_sub_of_le rounds_le] at later
  rw [Session.labels] at perm ⊢
  rcases shape with ⟨_, region, all⟩ | ⟨_, start, stop, n, layers, three, folded⟩
  · rw [all] at rest
    refine Request.accounts_of_perm runs.fault perm later part rest ?_ ?_
    · have whole := (ended.store.orderBelow_append (Nat.zero_le ended.store.size)).symm
      rw [Store.labels_flat region, Store.outcomeKeys, region, account.keysIn_eq small]
      exact congrArg _ (congrArg _ whole).symm
    · rw [Store.labels_flat region]
      exact account.labels_ordered chronological _
  · refine Request.accounts_of_perm runs.fault perm later part (fun f mem missing => ?_) ?_ ?_
    · rw [layers]
      rw [three] at rest
      exact (rest f mem missing).later (by omega) n
    · rw [three] at account small ⊢
      exact folded.recorded account small
    · rw [three] at account chronological read ⊢
      exact folded.labels_ordered account read.round chronological

end

include runs

/-- The outcomes of a compilation can be told apart, and its detectors read the right ones. -/
theorem faithful (words : result.report.rounds < Word.half) :
    ∃ labels, task.request.Accounts task.code result.store labels ∧
      Forall₂ (fun e outcome => e.1.MeasuredAs result.store.qubits outcome) labels
        (Instruction.outcomesOf result.program.unrolled) ∧
      task.request.Detects task.code labels
        ((Instruction.readings 0 result.program.unrolled).filter (· ≠ []))
        result.report.finalDetectors := by
  obtain ⟨_, _, _, _, ledger⟩ := runs.finished.2.account
  obtain ⟨outcomes, readings⟩ := ended.store.program_unrolled task.compiler.options.layout
  rw [runs.rounds_eq] at words
  rw [runs.store, runs.program_eq, outcomes, readings]
  exact ⟨_, runs.accounts words ledger, runs.reading words ledger⟩

end Task.Runs

end SyndromeSchedule
