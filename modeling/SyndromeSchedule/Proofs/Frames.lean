import SyndromeSchedule.Proofs.Boundaries
import SyndromeSchedule.Proofs.Copies

/-!
What stays as it is. A layer, and the measurements at the end, look back one layer at most: they
refer to outcomes of the layer before and write where these stand. Compared with itself, a session
therefore does not touch what is older.
-/

namespace SyndromeSchedule

open List

/-- Compares two sessions between layers that may refer to all before them. -/
def Comparison.lead (task : Task) (s s' : Session) : Comparison :=
  .across task s s' 0 0 (Nat.zero_le _)

namespace Session

variable {task : Task} {s next : Session} {n low oldest start stop : Nat}

/-- A session whose outcomes from a round on were measured from a tick on. -/
structure After (low oldest : Nat) (s : Session) : Prop where
  inside : low ≤ s.store.size
  recent : ∀ {h t : Nat} {key : Key}, s.store.record.entry? h = some (key, t) →
    (oldest : Int) ≤ key.round → low ≤ t

lemma After.mark (h : s.After low oldest) (start stop repetitions : Nat) :
    (s.mark start stop repetitions).After low oldest :=
  { h with }

section

variable (after : s.After low oldest) (h : s.RestsAfter task n)
include after h

/-- A layer leaves ticks alone that are older than what it refers to. -/
lemma After.layer_kept (extractable : task.Extractable)
    (fault : task.request.fault? task.code = none) (pos : 0 < n) (started : 0 < s.store.size)
    (old : oldest + task.code.period ≤ s.rounds) (words : s.rounds + task.code.period ≤ Word.half)
    (run : s.compileLayer task = .ok (next, start, stop)) :
    ∀ t < low, (next.store.tickAt t).Like (s.store.tickAt t) := by
  have atRest :
      next.TwinAtRest (.across task s s low oldest after.inside) task task.compiler next :=
    h.compileLayer_atRest (d := 0) h extractable fault pos started words le_rfl rfl after.recent
      (by omega) run run
  exact atRest.twin.progress.store.kept

omit h in
/-- Outcomes of the last rounds and of the final measurements are recent. -/
lemma After.late (old : oldest + task.code.period = s.rounds) (words : s.rounds < Word.half)
    {made : List (Check × Nat)} {last : Nat} {done : List (Qubit × Pauli)}
    {state : Session × Table (Pauli × Nat)} (held : s.Finals made s.barrier last done state)
    {handles : List Nat} {tick : Nat} (latest : state.1.store.record.Latest handles tick)
    (some_handle : handles ≠ []) (each : ∀ h ∈ handles, ∃ key t,
      state.1.store.record.entry? h = some (key, t) ∧ IsLast task.code.period s.rounds key) :
    low ≤ tick := by
  obtain ⟨handle, mem⟩ := exists_mem_of_ne_nil _ some_handle
  obtain ⟨key, t, entry, round, recent, le, here⟩ := each handle mem
  refine Nat.le_trans ?_ (latest.le_of_entry mem entry)
  cases known : s.store.record.entry? handle with
  | none =>
    rw [held.ends.placed entry known]
    exact after.inside.trans (le_max_right ..)
  | some e =>
    have same := held.ends.within known
    rw [entry] at same
    cases same
    refine after.recent known ?_
    rw [here, Word.signed_of_lt (by omega)]
    omega

/-- Final measurements write no tick that is older than the last layer. -/
lemma After.finals_kept (fault : task.request.fault? task.code = none)
    (old : oldest + task.code.period = s.rounds) (words : s.rounds < Word.half) {placed : Nat}
    (run : s.measureFinals task = .ok (next, placed)) :
    ∀ t < low, next.store.tickAt t = s.store.tickAt t := by
  obtain ⟨pos, mid, finals, closed, ended, measures, closes, ends, rfl⟩ := measureFinals_eq_ok run
  obtain ⟨_, distinct, letters⟩ := Request.fault?_eq_none fault
  have held := (h.complete.safe.measureAll_meets (s.rounds - 1) distinct letters).of_ok measures
  have marks := Progress.finalDetectors_marks closes
  obtain ⟨closing, detected, _, found⟩ := Progress.finalDetectors_closes closes
  obtain ⟨lasts, read, noted⟩ := Progress.finalObservables_eq_ok ends
  rw [detected, ← Store.withNotes_append] at noted
  have late : ∀ e ∈ closing.map FinalDetector.note ++ Tracker.allNoted lasts, low ≤ e.1 := by
    refine forall_mem_append.mpr ⟨forall_mem_map.mpr fun f mem => ?_, fun e mem => ?_⟩
    · have closes := found f mem
      exact after.late old words held closes.latest closes.some_handle (held.isLast pos closes)
    · obtain ⟨i, inside, some_handle, rfl⟩ := Tracker.mem_allNoted mem
      obtain ⟨t, tracked, close, latest⟩ := exists_left_of_forall₂ read inside
      obtain ⟨handles, answers, toggles⟩ := Tracker.close_eq_ok close
      rw [marks.record] at latest
      refine after.late old words held latest some_handle fun handle pending => ?_
      rcases toggles.only handle pending with before | answer
      · rw [marks.trackers, held.ends.resolver] at tracked
        rw [h.spent t tracked] at before
        cases before
      · obtain ⟨f, _, answer⟩ := exists_left_of_forall₂ answers answer
        exact held.isLast_final pos answer
  intro t below
  change ended.store.tickAt t = _
  have none : (closing.map FinalDetector.note ++ Tracker.allNoted lasts).filter (·.1 = t) = [] := by
    refine filter_eq_nil_iff.mpr fun e mem here => ?_
    exact absurd (late e mem) (not_le_of_gt (of_decide_eq_true here ▸ below))
  rw [noted, Store.tickAt_withNotes, none, map_nil, append_nil]
  exact held.ends.ticks t ((below.trans_le after.inside).trans_le (le_max_right ..))

end

/-- After a layer, the outcomes of its rounds stand in its ticks. -/
lemma RestsAfter.after (h : s.RestsAfter task n) (extractable : task.Extractable) (pos : 0 < n)
    (words : (n + 1) * task.code.period ≤ Word.half)
    (run : s.compileLayer task = .ok (next, start, stop)) :
    next.After s.store.size s.rounds := by
  have layer := h.complete.layer extractable run
  have period := h.period_le pos
  have length := task.code.period_pos
  have short : s.rounds + task.code.period ≤ Word.half := by
    rwa [h.rounds, ← Nat.succ_mul]
  have begins : start = s.store.size := layer.start_eq_size (by omega)
  refine ⟨layer.size_le, ?_⟩
  intro handle t key entry recent
  cases known : s.store.record.entry? handle with
  | none => exact begins ▸ (layer.placed entry known).1
  | some e =>
    have same := layer.within known
    rw [entry] at same
    cases same
    obtain ⟨keys, _, account⟩ := h.complete.safe.account
    obtain ⟨made, found, rfl⟩ := account.made_of_entry known
    have before := (Code.mem_measured.mp (mem_of_getElem? found)).1
    change (s.rounds : Int) ≤ Word.signed made.2 at recent
    rw [Word.signed_of_lt (by omega)] at recent
    omega

end Session

end SyndromeSchedule
