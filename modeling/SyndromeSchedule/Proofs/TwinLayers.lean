import SyndromeSchedule.Proofs.Faithful
import SyndromeSchedule.Proofs.TwinRounds

/-!
Layers and final measurements in two runs that are compared. A layer starts after everything before
it; both runs agree on where that is, since every layer has a measurement after its first tick.
-/

namespace SyndromeSchedule

open List Outcome

lemma Store.Twin.setTop {k : Comparison} {top : Nat} {s s' : Store} (h : s.Twin k top s')
    (sizes : s'.size = s.size + k.ticks) (top' : Nat) : s.Twin k top' s' :=
  { h with size := by omega }

lemma Progress.Twin.setTop {k : Comparison} {top : Nat} {p p' : Progress} (h : p.Twin k top p')
    (sizes : p'.store.size = p.store.size + k.ticks) (top' : Nat) : p.Twin k top' p' :=
  { h with store := h.store.setTop sizes top' }

namespace Session

variable {k : Comparison} {task : Task} {other : Compiler} {s s' : Session} {code : Code}

lemma Twin.setTop {top : Nat} (h : s.Twin k top code s')
    (sizes : s'.store.size = s.store.size + k.ticks) (top' : Nat) : s.Twin k top' code s' :=
  { h with progress := h.progress.setTop sizes top' }

lemma Twin.setLayer {top : Nat} (h : s.Twin k top code s') {start : Nat} (late : k.base ≤ start) :
    ({ s with layerStart := start } : Session).Twin k top code
      { s' with layerStart := start + k.ticks } :=
  { h with
    layerStart := rfl
    base_le := late }

lemma Twin.sizes (h : s.Twin k 0 code s') : s'.store.size = s.store.size + k.ticks := by
  by_cases strict : k.strict
  · have size := h.progress.store.size
    have still := k.still strict
    change max (0 + k.ticks) s'.store.size = max 0 s.store.size + k.ticks at size
    omega
  · exact h.progress.store.length strict

lemma Twin.sizes_of_lt (h : s.Twin k (s.layerStart + 1) code s')
    (started : k.strict → s.layerStart < s.store.size)
    (started' : k.strict → s'.layerStart < s'.store.size) :
    s'.store.size = s.store.size + k.ticks := by
  by_cases strict : k.strict
  · have size := h.progress.store.size
    change max (s.layerStart + 1 + k.ticks) s'.store.size =
      max (s.layerStart + 1) s.store.size + k.ticks at size
    have here := started strict
    have there := started' strict
    rw [h.layerStart] at there
    omega
  · exact h.progress.store.length strict

lemma compileRounds_along (alike : task.Comparable k other) (extractable : task.Extractable)
    (n : Nat) (h : s.Twin k (s.layerStart + 1) task.code s') (complete : s.Complete task)
    (room : k.strict → s.layerStart < Store.maxTicks)
    (reads : ∀ r, s.rounds ≤ r → r < s.rounds + n → k.Reads task.code r) :
    (s.compileRounds task n).Along k.strict
      (fun next next' => next.Twin k (next.layerStart + 1) task.code next')
      (s'.compileRounds (task.over other) n) := by
  induction n generalizing s s' with
  | zero => exact along_ok h
  | succ n ih =>
    have first := (compileRound_along h alike extractable room
      (reads s.rounds le_rfl (by omega))).strengthen
      (S := fun next next' => next.Twin k (next.layerStart + 1) task.code next' ∧
        next.Complete task ∧ s.Later next ∧ next.rounds = s.rounds + 1)
      fun next next' found _ twin =>
        ⟨twin, (complete.compileRound_meets extractable).of_ok found⟩
    refine first.bind ?_
    rintro next next' ⟨twin, complete, later, rounds⟩
    apply ih twin complete
    · rwa [later.layerStart]
    · intro r from_le before
      exact reads r (by omega) (by omega)

end Session

lemma Code.exists_round (code : Code) (round start : Nat) :
    ∃ r, start ≤ r ∧ r < start + code.period ∧ code.checksIn r = code.checksIn round := by
  have inside := Nat.mod_lt round code.period_pos
  have here := Nat.div_add_mod start code.period
  have below := Nat.mod_lt start code.period_pos
  have same : ∀ n, code.checksIn (round % code.period + n * code.period) = code.checksIn round :=
    fun n => (code.checksIn_add_mul _ n).trans (code.checksIn_mod round)
  rw [Nat.mul_comm] at here
  rcases Nat.lt_or_ge (round % code.period) (start % code.period) with before | after
  · refine ⟨round % code.period + (start / code.period + 1) * code.period, ?_, ?_, same _⟩
    · rw [Nat.succ_mul]
      omega
    · rw [Nat.succ_mul]
      omega
  · exact ⟨round % code.period + start / code.period * code.period, by omega, by omega, same _⟩

namespace Session

variable {k : Comparison} {task : Task} {other : Compiler} {s s' : Session}

lemma Complete.started {next : Session} (complete : s.Complete task)
    (extractable : task.Extractable) (busy : ∃ round, task.code.checksIn round ≠ [])
    (run : s.compileRounds task task.code.period = .ok next) :
    s.layerStart < next.store.size := by
  obtain ⟨complete', later, rounds⟩ := (complete.compileRounds_meets extractable _).of_ok run
  obtain ⟨round, scheduled⟩ := busy
  obtain ⟨c, mem⟩ := exists_mem_of_ne_nil _ scheduled
  obtain ⟨r, from_le, before, same⟩ := task.code.exists_round round s.rounds
  rw [← same] at mem
  have split := task.code.measured_split (Nat.le_add_right s.rounds task.code.period)
  generalize (range' s.rounds (s.rounds + task.code.period - s.rounds)).flatMap
    task.code.measuredIn = rest at split
  have made : (c, r) ∈ rest := by
    have all : (c, r) ∈ task.code.measured (s.rounds + task.code.period) :=
      Code.mem_measured.mpr ⟨before, mem⟩
    rw [split] at all
    rcases mem_append.mp all with old | new
    · have early := (Code.mem_measured.mp old).1
      omega
    · exact new
  have longer : s.store.record.size < next.store.record.size := by
    rw [complete.size_record, complete'.size_record, rounds, split, length_append]
    have some := length_pos_of_mem made
    omega
  obtain ⟨key, t, entry⟩ := Record.exists_entry longer
  have late := later.late entry (Record.entry?_eq_none le_rfl)
  have inside := complete'.safe.sound.tick_lt_size entry
  omega

/-- Two runs between layers. -/
structure TwinAtRest (k : Comparison) (task : Task) (other : Compiler) (s s' : Session) : Prop where
  twin : s.Twin k 0 task.code s'
  complete : s.Complete task
  complete' : s'.Complete (task.over other)

/-- Tick in which the next layer starts. -/
def nextStart (s : Session) : Nat := if s.rounds = 0 then 0 else s.barrier

variable (h : s.TwinAtRest k task other s')
include h

lemma TwinAtRest.barrier : s'.barrier = s.barrier + k.ticks := by
  rw [h.complete.safe.enclosed.barrier_eq, h.complete'.safe.enclosed.barrier_eq]
  exact h.twin.sizes

lemma TwinAtRest.nextStart (begun : ¬ k.strict → s.rounds ≠ 0) :
    s'.nextStart = s.nextStart + k.ticks ∧ k.base ≤ s.nextStart := by
  have rounds := h.twin.rounds
  unfold Session.nextStart
  by_cases strict : k.strict
  · have still := k.still strict
    rw [h.barrier, rounds, still.1, still.2.1]
    exact ⟨rfl, by omega⟩
  · have some := begun strict
    rw [if_neg some, if_neg (by omega), h.barrier, h.complete.safe.enclosed.barrier_eq]
    exact ⟨rfl, h.twin.progress.store.base_le⟩

omit h in
lemma compileLayer_eq (task : Task) (s : Session) : s.compileLayer task =
      compileRounds task task.code.period { s with layerStart := s.nextStart } >>= fun mid =>
        if s.nextStart < mid.barrier then
          mid.progress.flush (mid.barrier - 1) >>= fun progress =>
            .ok ({ mid with progress }, s.nextStart, mid.barrier)
        else .ok (mid, s.nextStart, mid.barrier) := rfl

variable (alike : task.Comparable k other) (extractable : task.Extractable)
  (busy : k.strict → ∃ round, task.code.checksIn round ≠ []) (begun : ¬ k.strict → s.rounds ≠ 0)
  (room : k.strict → s.nextStart < Store.maxTicks)
  (reads : ∀ r, s.rounds ≤ r → r < s.rounds + task.code.period → k.Reads task.code r)
include alike extractable busy begun room reads

lemma layerRounds_along :
    (compileRounds task task.code.period { s with layerStart := s.nextStart }).Along k.strict
      (TwinAtRest k task other)
      (compileRounds (task.over other) task.code.period
        { s' with layerStart := s'.nextStart }) := by
  obtain ⟨starts, late⟩ := h.nextStart begun
  have complete := h.complete.setLayerStart s.nextStart
  have complete' := h.complete'.setLayerStart s'.nextStart
  have extractable' := extractable.over alike.extractor
  rw [starts] at complete' ⊢
  have started := (h.twin.setLayer late).setTop h.twin.sizes (s.nextStart + 1)
  refine (compileRounds_along alike extractable _ started complete room reads).strengthen ?_
  intro mid mid' run run' twin
  obtain ⟨done, later, _⟩ := (complete.compileRounds_meets extractable _).of_ok run
  obtain ⟨done', later', _⟩ := (complete'.compileRounds_meets extractable' _).of_ok run'
  refine ⟨twin.setTop (twin.sizes_of_lt ?_ ?_) 0, done, done'⟩
  · rw [later.layerStart]
    exact fun strict => complete.started extractable (busy strict) run
  · rw [later'.layerStart]
    exact fun strict => complete'.started extractable' (busy strict) run'

/-- Layers keep sessions in step. -/
lemma compileLayer_along :
    (s.compileLayer task).Along k.strict
      (fun r r' => r.1.TwinAtRest k task other r'.1 ∧ r'.2.1 = r.2.1 + k.ticks ∧
        r'.2.2 = r.2.2 + k.ticks)
      (s'.compileLayer (task.over other)) := by
  have starts := (h.nextStart begun).1
  have twins : (s.compileLayer task).Along k.strict
      (fun r r' => r.1.Twin k 0 task.code r'.1 ∧ r'.2.1 = r.2.1 + k.ticks ∧
        r'.2.2 = r.2.2 + k.ticks)
      (s'.compileLayer (task.over other)) := by
    rw [compileLayer_eq, compileLayer_eq]
    refine (layerRounds_along h alike extractable busy begun room reads).bind ?_
    intro mid mid' atRest
    rw [atRest.barrier, starts]
    by_cases nonempty : s.nextStart < mid.barrier
    · have late : k.base ≤ mid.barrier - 1 := by
        have base := (h.nextStart begun).2
        omega
      have last : mid.barrier + k.ticks - 1 = mid.barrier - 1 + k.ticks := by omega
      rw [if_pos nonempty, if_pos (by omega), last]
      refine (Progress.flush_along atRest.twin.progress late).bind ?_
      rintro flushed flushed' ⟨progress, grows⟩
      exact ⟨atRest.twin.setProgress progress grows, rfl, rfl⟩
    · rw [if_neg nonempty, if_neg (by omega)]
      exact ⟨atRest.twin, rfl, rfl⟩
  have both := twins.meets (h.complete.compileLayer_meets extractable)
    (h.complete'.compileLayer_meets (extractable.over alike.extractor))
  refine both.imp ?_
  rintro r r' ⟨⟨twin, start, stop⟩, layer, layer'⟩
  exact ⟨⟨twin, layer.complete, layer'.complete⟩, start, stop⟩

end Session

/-! Final measurements. -/

namespace Request

lemma isData_of_finalFault? {code : Code} {seen : List Qubit} {finals : List (Qubit × Pauli)}
    (h : finalFault? code seen finals = none) : ∀ f ∈ finals, code.isData f.1 = true := by
  induction finals generalizing seen with
  | nil => exact fun _ none => (nomatch none)
  | cons first rest ih =>
    simp only [finalFault?] at h
    split_ifs at h with stray
    intro f mem
    rcases mem_cons.mp mem with rfl | mem
    · simpa using stray
    · exact ih h f mem

lemma isData_of_mem_finals {r : Request} {code : Code} (h : r.fault? code = none)
    {f : Qubit × Pauli} (mem : f ∈ r.resolvedFinals code) : code.isData f.1 = true := by
  simp only [fault?] at h
  split_ifs at h
  rw [Option.or_eq_none_iff, Option.or_eq_none_iff, Option.map_eq_none_iff,
    Option.map_eq_none_iff] at h
  unfold resolvedFinals at mem
  split_ifs at mem
  · obtain ⟨q, data, rfl⟩ := mem_map.mp mem
    exact (code.mem_dataQubits q).mp data
  · exact isData_of_finalFault? h.2.1 f mem

end Request

namespace Session

variable {k : Comparison} {task : Task} {other : Compiler} {s s' : Session} {last top : Nat}

/-- The direct measurement of the last round that stands for a final one. -/
def reusable? (s : Session) (last : Nat) (q : Qubit) (basis : Pauli) : Option DirectOutcome :=
  (s.direct.get? q).filter fun d =>
    d.round = last && d.basis = basis && s.lastUse.get? q = some d.tick

lemma reusable?_eq (s : Session) {first : Nat} (le : first ≤ last) (q : Qubit) (basis : Pauli) :
    s.reusable? last q basis = (s.directSince first q).filter fun d =>
      d.round = last && d.basis = basis && s.lastUse.get? q = some d.tick := by
  unfold reusable? directSince
  cases s.direct.get? q with
  | none => rfl
  | some d =>
    simp only [Option.filter_some]
    by_cases recent : first ≤ d.round
    · simp only [decide_eq_true recent, if_true, Option.filter_some]
    · have other : d.round ≠ last := by omega
      simp [recent, other]

lemma reusable?_later {code : Code} (h : s.Twin k top code s')
    (since : k.since ≤ last) {q : Qubit} (data : code.isData q = true) (basis : Pauli) :
    s'.reusable? (last + k.rounds) q basis =
      (s.reusable? last q basis).map (DirectOutcome.later k) := by
  rw [reusable?_eq s' (Nat.add_le_add_right since k.rounds), reusable?_eq s since, h.direct]
  cases found : s.directSince k.since q with
  | none => rfl
  | some d =>
    have late := (h.filed found).1
    have same : (s'.lastUse.get? q = some (d.tick + k.ticks)) ↔
        (s.lastUse.get? q = some d.tick) := by
      have both := h.lastUse data
      generalize s.lastUse.get? q = before, s'.lastUse.get? q = before' at both ⊢
      cases both with
      | none => simp
      | some both =>
        unfold Comparison.Late at both
        simp only [Option.some.injEq]
        omega
    simp only [Option.map_some, Option.filter_some, DirectOutcome.later, same,
      Nat.add_right_cancel_iff]
    split_ifs <;> rfl

/-- What holds after some final measurements in both runs. -/
structure Ended (k : Comparison) (top : Nat) (code : Code) (rounds : Nat)
    (r r' : Session × Table (Pauli × Nat)) : Prop where
  twin : r.1.Twin k top code r'.1
  finals : Progress.TwinFinals k r.1.store.record r.2 r'.2
  rounds : r.1.rounds = rounds

lemma Ended.insert {code : Code} {finals finals' : Table (Pauli × Nat)}
    (twin : s.Twin k top code s') (h : Progress.TwinFinals k s.store.record finals finals')
    {rounds : Nat} (count : s.rounds = rounds) (q : Qubit) (basis : Pauli) {handle : Nat}
    (reached : Progress.Reached k s.store.record handle) :
    Ended k top code rounds (s, finals.insert q (basis, handle))
      (s', finals'.insert q (basis, handle + k.handles)) := by
  refine ⟨twin, ⟨fun p => ?_, fun p e found => ?_⟩, count⟩
  · rw [Table.get?_insert, Table.get?_insert]
    split_ifs
    · rfl
    · exact h.get p
  · rw [Table.get?_insert] at found
    split_ifs at found
    · obtain rfl := Option.some.inj found
      exact reached
    · exact h.reaches p e found

lemma store_touch (code : Code) (tick : Nat) (s : Session) (q : Qubit) :
    (s.touch code tick q).store = s.store := by
  rw [touch_eq]
  rfl

lemma measureFinal_eq (task : Task) (last tick : Nat) (s : Session)
    (finals : Table (Pauli × Nat)) (q : Qubit) (basis : Pauli) :
    measureFinal task last tick (s, finals) (q, basis) =
      match s.reusable? last q basis with
      | some d => .ok (s, finals.insert q (basis, d.handle))
      | none => Check.ofLetters [(q, basis)] none >>= fun check =>
        Outcome.ofExcept .request (Gate.measuring basis) >>= fun gate =>
          (s.store.addMeasurement tick gate q task.compiler.noise.flip?
            (Key.of check (Word.signed s.rounds))).commit >>= fun r =>
              .ok ((((s.setStore r.1).occupy tick [q]).setLive tick q false).touch task.code
                tick q, finals.insert q (basis, r.2)) := rfl

/-- A final measurement is reused in both runs or in neither. -/
lemma measureFinal_along {rounds tick : Nat}
    {r r' : Session × Table (Pauli × Nat)} (h : Ended k top task.code rounds r r')
    (alike : task.Comparable k other) (late : k.base ≤ tick) (since : k.since ≤ last)
    (signed : Word.signed (rounds + k.rounds) = Word.signed rounds + k.rounds)
    {f : Qubit × Pauli} (data : task.code.isData f.1 = true) :
    (measureFinal task last tick r f).Along k.strict (Ended k top task.code rounds)
      (measureFinal (task.over other) (last + k.rounds) (tick + k.ticks) r' f) := by
  obtain ⟨s, finals⟩ := r
  obtain ⟨s', finals'⟩ := r'
  obtain ⟨q, basis⟩ := f
  obtain ⟨twin, measured, count⟩ := h
  simp only at twin measured count
  subst count
  rw [measureFinal_eq, measureFinal_eq, reusable?_later twin since data, twin.rounds, signed]
  cases found : s.reusable? last q basis with
  | some d =>
    rw [reusable?_eq s since] at found
    exact Ended.insert twin measured rfl q basis
      (twin.filed (Option.filter_eq_some_iff.mp found).1).2
  | none =>
    simp only [Option.map_none]
    cases Check.ofLetters [(q, basis)] none with
    | error halt => exact along_error fun _ => rfl
    | ok check =>
      cases Outcome.ofExcept Error.request (Gate.measuring basis) with
      | error halt => exact along_error fun _ => rfl
      | ok gate =>
        have gated := twin.progress.store.addMeasurement late gate (alike.data data)
          (Key.of check (Word.signed s.rounds))
        rw [alike.flip, alike.flip'] at gated
        refine gated.bind fun x x' filed => ?_
        have stored := twin.setStore filed.twin filed.grows
        have silent : (((s.setStore x.1).occupy tick [q]).setLive tick q false).Twin k top
            task.code (((s'.setStore x'.1).occupy (tick + k.ticks) [q]).setLive
              (tick + k.ticks) q false) :=
          (stored.occupy tick [q]).setLive late fun alive => (nomatch alive)
        have reached : Progress.Reached k x.1.record x.2 :=
          ⟨_, tick, filed.entry, k.low_le.trans late⟩
        have touched := silent.touch late filed.inside q
        rw [filed.handle]
        refine Ended.insert touched ?_ ?_ q basis ?_
        · rw [store_touch]
          exact measured.mono filed.grows.within
        · rw [touch_eq]
          rfl
        · rwa [store_touch]

/-- Both runs end alike. -/
lemma measureFinals_along (h : s.TwinAtRest k task other s') (alike : task.Comparable k other)
    (fault : task.request.fault? task.code = none) (pos : 0 < s.rounds)
    (since : k.since < s.rounds) (enough : k.strict ∨ task.code.period ≤ s.rounds)
    (counts : ∀ r ≤ s.rounds, s.rounds ≤ r + task.code.period → k.Counts r) :
    (s.measureFinals task).Along k.strict (fun r r' => r.1.Twin k 0 task.code r'.1 ∧ r'.2 = r.2)
      (s'.measureFinals (task.over other)) := by
  obtain ⟨last, here⟩ : ∃ last, s.rounds = last + 1 := ⟨s.rounds - 1, by omega⟩
  have there : s'.rounds = last + k.rounds + 1 := by
    rw [h.twin.rounds, here]
    omega
  have late : k.base ≤ s.barrier := by
    rw [h.complete.safe.enclosed.barrier_eq]
    exact h.twin.progress.store.base_le
  have all : ((task.request.resolvedFinals task.code).foldlM
      (measureFinal task last s.barrier) (s, .empty)).Along k.strict
      (Ended k 0 task.code s.rounds) (((task.over other).request.resolvedFinals
        (task.over other).code).foldlM (measureFinal (task.over other) (last + k.rounds)
          (s.barrier + k.ticks)) (s', .empty)) := by
    have start : Ended k 0 task.code s.rounds (s, .empty) (s', .empty) :=
      ⟨h.twin, ⟨fun _ => rfl, fun _ _ none => (nomatch none)⟩, rfl⟩
    refine Outcome.Along.foldlM_same (fun f mem r r' before => ?_) start
    exact measureFinal_along before alike late (by omega) (counts s.rounds le_rfl (by omega)).signed
      (Request.isData_of_mem_finals fault mem)
  unfold measureFinals
  rw [here, there, h.barrier]
  refine all.bind ?_
  rintro ⟨mid, finals⟩ ⟨mid', finals'⟩ ⟨twin, measured, rounds⟩
  have closing : ∀ r ≤ last, last < r + task.code.period → k.Counts r := by
    intro r le near
    exact counts r (by omega) (by omega)
  refine (Progress.finalDetectors_along twin.progress measured alike.divides
    (enough.imp_right fun le => by omega) closing).bind ?_
  rintro ⟨closed, placed⟩ ⟨closed', placed'⟩ ⟨progress, grows, same⟩
  have reads := measured.mono grows.within
  have final := Progress.finalObservables_along progress reads mid.rounds
  have count : mid'.rounds = mid.rounds + k.rounds := twin.rounds
  rw [← count] at final
  refine final.bind fun ended ended' steps => ?_
  exact ⟨twin.setProgress steps.1 (grows.trans steps.2), same⟩

end Session

end SyndromeSchedule
