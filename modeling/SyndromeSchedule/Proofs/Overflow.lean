import SyndromeSchedule.Proofs.Inclusions
import SyndromeSchedule.Proofs.TwinLayers

/-!
Running out of ticks. There is no room for a layer that would start past the last tick, and it is
refused for that reason alone: its gates do not fit, and the rounds before the first of them can
only fail in the same way. Observables are followed through these as they were one layer before.
-/

namespace SyndromeSchedule

open List Outcome

/-! Gates past the last tick. -/

namespace Store

variable {tick : Nat}
variable (s : Store)

variable (past : maxTicks ≤ tick)
include past

lemma claim_past (target : GateTarget) : s.claim tick target = ⟨s, .overflow⟩ := by
  unfold claim ensure
  rw [if_pos past]
  rfl

lemma addGate_past (gate : Gate) (qubits : List Qubit) :
    (s.addGate tick gate qubits).commit = .overflow := by
  simp only [addGate, claim_past _ past]
  rfl

lemma addMeasurement_past (gate : Gate) (q : Qubit) (flip : Option Double) (key : Key) :
    (s.addMeasurement tick gate q flip key).commit = .overflow := by
  simp only [addMeasurement, addOutcome, claim_past _ past]
  rfl

lemma addProduct_past (factors : List (Qubit × Pauli)) (flip : Option Double) (key : Key) :
    (s.addProduct tick factors flip key).commit = .overflow := by
  simp only [addProduct, addOutcome, claim_past _ past]
  rfl

end Store

namespace Session

variable {task : Task} {s next : Session}

lemma reset_past {tick : Nat} (past : Store.maxTicks ≤ tick) (q : Qubit) :
    s.reset task tick q = .overflow := by
  unfold reset apply
  rw [s.store.addGate_past past]
  rfl

variable (past : Store.maxTicks ≤ s.layerStart)
include past

lemma prepareAncilla_past (e : Extracted) : s.prepareAncilla task e = .overflow := by
  have late := s.occupancy.le_earliestFree
    (max s.layerStart ((s.ancillaFloor.get? e.ancilla).getD 0)) [e.ancilla]
  simp only [prepareAncilla]
  rw [reset_past (by omega)]
  rfl

lemma scheduleExtracted_past {es : List Extracted} (some : es ≠ []) (round : Nat) :
    s.scheduleExtracted task es round = .overflow := by
  cases es with
  | nil => contradiction
  | cons e rest =>
    unfold scheduleExtracted prepareAncillas
    rw [foldlM_cons, prepareAncilla_past past]
    rfl

lemma scheduleDirect_past (c : Check) (round : Nat) :
    scheduleDirect task round s c = .overflow := by
  have late : Store.maxTicks ≤ s.directTick c := past.trans (s.layerStart_le_directTick c)
  have measures : s.measureDirect task c (s.directTick c) round
      (Key.of c (Word.signed round)) = .overflow := by
    simp only [measureDirect]
    split
    · next m single =>
        obtain ⟨gate, found⟩ := exists_measuring (c.letter_ne_I (m := m) (by simp [single]))
        rw [found]
        change (s.store.addMeasurement (s.directTick c) gate m.qubit task.compiler.noise.flip?
          (Key.of c (Word.signed round))).commit >>= _ = _
        rw [s.store.addMeasurement_past late]
        rfl
    · rw [s.store.addProduct_past late]
      rfl
  unfold directTick at measures
  simp only [scheduleDirect, measures]
  rfl

end Session

/-! Observables that move on. -/

namespace Tracker

variable {t next : Tracker} {code : Code} {round : Nat} {record : Record}

lemma absorbed {items : List Check} {u : Unit}
    (h : (Attempt.forEach (absorb record round) t items).commit = .ok (next, u)) :
    next.current = items.foldl (fun p c => p.mul c.product) t.current := by
  obtain ⟨_, _, _, current⟩ := forEach_toggles (fun p (c : Check) => p.mul c.product)
    (fun _ _ _ _ => absorb_eq_ok) h
  exact current

lemma Valid.advance_bounded (valid : t.Valid record)
    (made : ∀ c ∈ code.checksIn round, record.contains (.of c (Word.signed round)) = true)
    (follows : t.current = t.logical.before round) (moves : t.logical.moves code round = true) :
    (t.advance code round record).Bounded fun t _ => t.Valid record := by
  unfold Logical.moves Logical.touched at moves
  rw [← follows] at moves
  simp only [advance]
  split_ifs with large same
  · exact within_overflow id
  · exact meets_ok valid
  · refine (valid.absorbAll_meets made _).andThen fun mid _ absorbs after => ?_
    rw [if_neg same, ← absorbed absorbs] at moves
    rw [if_pos moves]
    exact meets_ok after

end Tracker

namespace Session

variable {task : Task} {s next : Session}

lemma Follows.compileRound_bounded (follows : s.Follows task) (complete : s.Complete task)
    (extractable : task.Extractable) (moves : task.Moves s.rounds) :
    (s.compileRound task).Bounded fun next =>
      next.Complete task ∧ s.Later next ∧ next.rounds = s.rounds + 1 := by
  rw [compileRound_split]
  refine (complete.placeRound_meets extractable).bind_of_ok fun third run fulfils => ?_
  refine fulfils.endRound_meets complete fun t mem => ?_
  have valid := fulfils.safe.trackers t mem
  obtain ⟨begun, begins, steps⟩ := (Spares.stepwise s).placeRound run
  rw [(steps (.startRound begins)).trackers] at mem
  exact valid.advance_bounded fulfils.contains (follows.current t mem)
    (moves t.logical (follows.mem_observables mem))

lemma checks_past (past : Store.maxTicks ≤ s.layerStart) {round : Nat}
    {es : List Extracted} (extracts : task.extractRound round = .ok es)
    (some : task.code.checksIn round ≠ []) {f : Session → Outcome Session} :
    (s.scheduleExtracted task es round >>= fun first =>
      ((task.code.checksIn round).filter (·.ancilla.isNone)).foldlM (scheduleDirect task round)
        first >>= f) = .overflow := by
  have checks := (Task.extractRound_eq_ok extracts).1
  cases es with
  | cons e rest =>
    rw [scheduleExtracted_past past (cons_ne_nil e rest)]
    rfl
  | nil =>
    have bare : (task.code.checksIn round).filter (·.ancilla.isNone) =
        task.code.checksIn round := by
      apply filter_eq_self.mpr
      intro c mem
      have kept := filter_eq_nil_iff.mp checks.symm c mem
      simpa using kept
    obtain ⟨c, rest, split⟩ := exists_cons_of_ne_nil some
    change ((task.code.checksIn round).filter (·.ancilla.isNone)).foldlM
      (scheduleDirect task round) s >>= f = .overflow
    rw [bare, split, foldlM_cons, scheduleDirect_past past]
    rfl

lemma compileRound_past (complete : s.Complete task) (extractable : task.Extractable)
    (past : Store.maxTicks ≤ s.layerStart) (follows : s.Follows task)
    (moves : task.Moves s.rounds) :
    (s.compileRound task).Bounded fun next => task.code.checksIn s.rounds = [] ∧
      next.Complete task ∧ next.Follows task ∧ next.layerStart = s.layerStart ∧
      next.rounds = s.rounds + 1 := by
  by_cases none : task.code.checksIn s.rounds = []
  · refine (follows.compileRound_bounded complete extractable moves).strengthen ?_
    rintro next found ⟨done, later, rounds⟩
    exact ⟨none, done, follows.step found, later.layerStart, rounds⟩
  · obtain ⟨es, extracts, _⟩ := extractable s.rounds
    have stuck : (s.placeRound task).Bounded fun _ => False := by
      simp only [placeRound, gateRound, extracts, bind_assoc]
      refine (complete.safe.consistent.beginRound_within False.elim False.elim).commit.bind ?_
      intro begun _
      have started : Store.maxTicks ≤
          (startRound task.code { s with progress := begun.1 }).layerStart := past
      change (scheduleExtracted _ _ _ _ >>= fun first => _).Bounded _
      rw [checks_past started extracts none]
      exact within_overflow id
    rw [compileRound_split]
    exact stuck.bind fun _ impossible => impossible.elim

lemma compileRounds_past (extractable : task.Extractable) (n : Nat) (complete : s.Complete task)
    (past : Store.maxTicks ≤ s.layerStart) (follows : s.Follows task)
    (moves : ∀ round, task.Moves round)
    (busy : ∃ r, s.rounds ≤ r ∧ r < s.rounds + n ∧ task.code.checksIn r ≠ []) :
    s.compileRounds task n = .overflow := by
  induction n generalizing s with
  | zero =>
    obtain ⟨r, from_le, before, _⟩ := busy
    omega
  | succ n ih =>
    unfold compileRounds
    rcases (compileRound_past complete extractable past follows (moves s.rounds)).cases with
      stuck | ⟨next, found, none, done, followed, start, rounds⟩
    · rw [stuck]
      rfl
    · rw [found]
      apply ih done (by omega) followed
      obtain ⟨r, from_le, before, some⟩ := busy
      have other : r ≠ s.rounds := fun same => some (same ▸ none)
      exact ⟨r, by omega, by omega, some⟩

lemma compileLayer_past (extractable : task.Extractable) (complete : s.Complete task)
    (past : Store.maxTicks ≤ s.nextStart) (follows : s.Follows task)
    (moves : ∀ round, task.Moves round) (busy : ∃ round, task.code.checksIn round ≠ []) :
    s.compileLayer task = .overflow := by
  obtain ⟨round, some⟩ := busy
  obtain ⟨r, from_le, before, same⟩ := task.code.exists_round round s.rounds
  have stuck : compileRounds task task.code.period { s with layerStart := s.nextStart } =
      .overflow := by
    apply compileRounds_past extractable _ (complete.setLayerStart s.nextStart) past
      ⟨follows.observed, follows.current⟩ moves
    exact ⟨r, from_le, before, same ▸ some⟩
  rw [compileLayer_eq, stuck]
  rfl

end Session

end SyndromeSchedule
