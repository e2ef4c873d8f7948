import SyndromeSchedule.Proofs.Overflow
import SyndromeSchedule.Proofs.Settled

/-!
Sessions between layers. Once a layer is placed, all qubits have their numbers, no detector waits
for an outcome and no observable has outcomes left to write. What is left of the past is how far it
reaches, so that two sessions some layers apart can be compared and go on in the same way.
-/

namespace SyndromeSchedule

open List

namespace Code

variable (code : Code)

/-- Qubits of a code: data qubits and the ancillas of its checks. -/
def Knows (q : Qubit) : Prop :=
  code.isData q = true ∨ ∃ round, ∃ c ∈ code.checksIn round, c.ancilla = some q

lemma measured_add_mul (n d : Nat) :
    code.measured ((n + d) * code.period) = code.measured (d * code.period) ++
      (code.measured (n * code.period)).map (postpone (d * code.period)) := by
  rw [Nat.add_comm n d, code.measured_mul (d + n), code.measured_mul d, code.measured_mul n,
    range_add, flatMap_append, flatMap_map, map_flatMap]
  congr 1
  apply flatMap_congr
  intro j _
  rw [map_map]
  apply map_congr_left
  intro e _
  rw [Function.comp_apply, postpone_postpone, ← Nat.add_mul, Nat.add_comm d j]

end Code

namespace Task

lemma length_planned_mono (task : Task) {rounds more : Nat} (le : rounds ≤ more) :
    (task.planned rounds).length ≤ (task.planned more).length := by
  obtain ⟨d, rfl⟩ := Nat.exists_eq_add_of_le le
  rw [planned, planned, range_add, flatMap_append, length_append]
  exact Nat.le_add_right ..

end Task

namespace Session

variable {task : Task} {s s' next : Session} {n d start stop : Nat}

/-- A session after some layers. -/
structure RestsAfter (task : Task) (layers : Nat) (s : Session) : Prop where
  complete : s.Complete task
  follows : s.Follows task
  spent : s.Spent
  settled : s.Settled (task.code.isData · = true)
  rounds : s.rounds = layers * task.code.period

lemma restsAfter_initialise (run : task.session.initialise task = .ok s) : s.RestsAfter task 0 := by
  obtain ⟨complete, rounds, _⟩ := (initialise_meets task).of_ok run
  obtain ⟨follows, spent, _⟩ := follows_initialise run rounds
  exact ⟨complete, follows, spent, settled_initialise run, by rw [rounds, Nat.zero_mul]⟩

section

variable (h : s.RestsAfter task n)

include h

lemma RestsAfter.layer (extractable : task.Extractable)
    (words : (n + 1) * task.code.period ≤ Word.half)
    (run : s.compileLayer task = .ok (next, start, stop)) : next.RestsAfter task (n + 1) := by
  have layer := h.complete.layer extractable run
  have rounds : next.rounds = (n + 1) * task.code.period := by
    rw [layer.rounds, h.rounds, Nat.succ_mul]
  obtain ⟨follows, spent, _⟩ := Follows.compileLayer extractable h.complete h.follows h.spent
    (by rwa [h.rounds, ← Nat.succ_mul]) run
  exact ⟨layer.complete, follows, spent, h.settled.compileLayer run, rounds⟩

lemma RestsAfter.mark (ordered : start ≤ stop) (inside : stop ≤ s.store.size)
    (repetitions : Nat) : (s.mark start stop repetitions).RestsAfter task n :=
  ⟨h.complete.mark ordered inside repetitions, { h.follows with }, h.spent,
    { h.settled with }, h.rounds⟩

lemma RestsAfter.period_le (pos : 0 < n) : task.code.period ≤ s.rounds := by
  rw [h.rounds]
  exact Nat.le_mul_of_pos_left _ pos

lemma RestsAfter.made (pos : 0 < n) {round : Nat} {c : Check}
    (scheduled : c ∈ task.code.checksIn round) :
    (c, round % task.code.period) ∈ task.code.measured s.rounds := by
  rw [Code.mem_measured]
  exact ⟨(Nat.mod_lt _ task.code.period_pos).trans_le (h.period_le pos),
    (task.code.checksIn_mod round).symm ▸ scheduled⟩

lemma RestsAfter.numbered (pos : 0 < n) {q : Qubit}
    (known : task.code.Knows q) : q ∈ s.store.qubits := by
  rcases known with data | ⟨round, c, scheduled, ancilla⟩
  · exact h.settled.living (h.settled.live data 0)
  · obtain ⟨keys, _, log, writes, adds⟩ := h.complete.safe.account
    obtain ⟨u, filed, files⟩ := exists_right_of_forall₂ adds.made (h.made pos scheduled)
    have by_gate := files.2
    rw [Check.MeasuredBy, ancilla] at by_gate
    have named := writes.named (.gate u) (Store.mem_uses.mp (mem_filter.mp filed).1)
    have used : q ∈ u.qubits := by
      rw [show u.qubits = [q] from by_gate.1]
      exact mem_singleton_self q
    obtain ⟨index, _, found⟩ := exists_left_of_forall₂ named used
    exact mem_of_getElem? found

lemma RestsAfter.waiting (key : Key) : s.progress.resolver.waiting key = [] := by
  rw [h.complete.safe.consistent.listed, filter_eq_nil_iff]
  intro id _ waits
  rw [Progress.waitsFor, Bool.and_eq_true, Bool.not_eq_true', Option.any_eq_true] at waits
  obtain ⟨absent, i, found, inside⟩ := waits
  have planned : (i.entry, i.round, i.constituents) ∈ task.planned s.rounds := by
    have mem : i ∈ s.progress.resolver.instances.toList :=
      mem_of_getElem? (i := id) (by rw [Array.getElem?_toList, found])
    rw [← h.complete.plan]
    exact mem_map_of_mem mem
  have made := h.complete.contains (provides_of_mem_planned planned (of_decide_eq_true inside))
  exact Bool.false_ne_true (absent.symm.trans made)

lemma RestsAfter.size_instances :
    s.progress.resolver.instances.size = (task.planned s.rounds).length := by
  rw [← h.complete.plan, Progress.plan, length_map, Array.length_toList]

lemma RestsAfter.direct_round {q : Qubit} {o : DirectOutcome}
    (found : s.direct.get? q = some o) : o.round < s.rounds := by
  obtain ⟨c, made, _⟩ := h.complete.safe.direct found
  exact (Code.mem_measured.mp made).1

lemma RestsAfter.directSince (q : Qubit) : s.directSince s.rounds q = none := by
  rw [Session.directSince, Option.filter_eq_none_iff]
  intro o found
  have before := h.direct_round found
  simpa using before

lemma RestsAfter.keys (words : s.rounds ≤ Word.half) :
    s.store.record.entries.map (·.1) =
      ((task.code.measured s.rounds).map fun e => Key.of e.1 (e.2 : Int)).reverse := by
  obtain ⟨keys, _, account⟩ := h.complete.safe.account
  have filed := account.record
  rw [map_reverse] at filed
  rw [← reverse_inj, filed, reverse_reverse]
  apply map_congr_left
  intro e mem
  have before := (Code.mem_measured.mp mem).1
  rw [Word.signed_of_lt (by omega)]

lemma RestsAfter.tick_lt {e : Key × Nat} (mem : e ∈ s.store.record.entries) :
    e.2 < s.store.size := by
  obtain ⟨handle, found⟩ := getElem?_of_mem (mem_reverse.mpr mem)
  rw [← Record.entry_eq_reverse] at found
  exact h.complete.safe.sound.tick_lt_size (found : _ = some (e.1, e.2))

end

end Session

/-- Compares sessions between layers, from the end of the first one on. -/
def Comparison.across (task : Task) (s s' : Session) (low : Nat) (oldest : Int)
    (le : low ≤ s.store.size) : Comparison where
  strict := False
  ticks := s'.store.size - s.store.size
  rounds := s'.rounds - s.rounds
  handles := s'.store.record.size - s.store.record.size
  ids := s'.progress.resolver.instances.size - s.progress.resolver.instances.size
  base := s.store.size
  first := s.progress.resolver.instances.size
  since := s.rounds
  oldest
  low
  origin := s.store
  known := task.code.Knows
  flip := task.compiler.noise.flip?
  flip' := task.compiler.noise.flip?
  still := False.elim
  low_le := le
  flip_eq := fun _ => rfl

namespace Session

section Across

variable {task : Task} {s s' : Session} {n d low : Nat} {oldest : Int}
  {le : low ≤ s.store.size} (h : s.RestsAfter task n) (h' : s'.RestsAfter task (n + d))
include h h'

lemma RestsAfter.later_rounds : s'.rounds = s.rounds + d * task.code.period := by
  rw [h'.rounds, h.rounds, Nat.add_mul]

lemma RestsAfter.comparable (pos : 0 < s.store.size) :
    task.Comparable (.across task s s' low oldest le) task.compiler where
  extractor := rfl
  flip := rfl
  flip' := rfl
  noise := fun _ => rfl
  divides := by
    have rounds := h.later_rounds h'
    change task.code.period ∣ s'.rounds - s.rounds
    rw [rounds, Nat.add_sub_cancel_left]
    exact Nat.dvd_mul_left ..
  data := .inl
  ancilla := fun scheduled ancilla => .inr ⟨_, _, scheduled, ancilla⟩
  positive := fun _ => pos

/-- The longer run has measured the same checks, layer by layer. -/
lemma RestsAfter.record_twin (words : s'.rounds ≤ Word.half)
    (sizes : s.store.size ≤ s'.store.size) :
    s.store.record.Twin (.across task s s' low oldest le) s'.store.record := by
  have rounds := h.later_rounds h'
  have keys := h.keys (by omega)
  have keys' := h'.keys words
  have split := task.code.measured_add_mul n d
  rw [← h'.rounds, ← h.rounds] at split
  rw [split, map_append, reverse_append, map_map] at keys'
  have moved : ((task.code.measured s.rounds).map ((fun e => Key.of e.1 (e.2 : Int)) ∘
      postpone (d * task.code.period))).reverse =
        (s.store.record.entries.map (·.1)).map (Key.later (d * task.code.period)) := by
    rw [keys, map_reverse, map_map]
    apply congrArg reverse
    apply map_congr_left
    intro e _
    exact (Key.later_of e.1 e.2 _).symm
  rw [moved] at keys'
  obtain ⟨late, old, parts, newer, older⟩ := map_eq_append_iff.mp keys'
  have lead : s'.rounds - s.rounds = d * task.code.period := by omega
  have lengths : late.length = s.store.record.entries.length := by
    simpa using congrArg length newer
  refine ⟨late, old, parts, ?_, ?_, ?_⟩
  · have pairs : Forall₂ (fun e e' : Key × Nat => e'.1 = e.1.later (d * task.code.period))
        s.store.record.entries late := by
      rw [map_map, maps_eq_iff] at newer
      exact newer.flip
    apply forall₂_of_mem pairs
    intro e mem e' member' key
    refine ⟨by rw [key]; exact congrArg (Key.later · e.1) lead.symm, .inr ⟨h.tick_lt mem, ?_⟩⟩
    have inside := h'.tick_lt (parts ▸ mem_append_left _ member')
    change e'.2 < s.store.size + (s'.store.size - s.store.size)
    omega
  · change old.length = s'.store.record.entries.length - s.store.record.entries.length
    rw [parts, length_append, lengths, Nat.add_sub_cancel_left]
  · intro e mem
    have key : e.1 ∈ ((task.code.measured (d * task.code.period)).map
        fun e => Key.of e.1 (e.2 : Int)).reverse := older ▸ mem_map_of_mem mem
    obtain ⟨m, made, same⟩ := mem_map.mp (mem_reverse.mp key)
    have before := (Code.mem_measured.mp made).1
    change e.1.round < ((s'.rounds - s.rounds : Nat) : Int)
    rw [lead, ← same]
    exact Int.ofNat_lt.mpr before

lemma RestsAfter.store_twin (words : s'.rounds ≤ Word.half) (sizes : s.store.size ≤ s'.store.size)
    (same : s'.store.qubits = s.store.qubits)
    (recent : ∀ {h t : Nat} {key : Key}, s.store.record.entry? h = some (key, t) →
      oldest ≤ key.round → low ≤ t) :
    s.store.Twin (.across task s s' low oldest le) 0 s'.store where
  qubits := same
  ticks := by
    intro t late
    change s.store.size ≤ t at late
    change Tick.Twin _ _ (s'.store.tickAt (t + (s'.store.size - s.store.size)))
    rw [Store.tickAt_of_size_le late, Store.tickAt_of_size_le (by omega)]
    exact Tick.twin_empty _
  record := h.record_twin h' words sizes
  recent := recent
  region := False.elim
  kept := fun _ _ => Tick.Like.refl _
  size := by
    change max (0 + (s'.store.size - s.store.size)) s'.store.size =
      max 0 s.store.size + (s'.store.size - s.store.size)
    omega
  length := fun _ => by
    change s'.store.size = s.store.size + (s'.store.size - s.store.size)
    omega
  base_le := le_rfl
  room := False.elim
  numbered := fun _ => rfl

lemma RestsAfter.trackers_later (fault : task.request.fault? task.code = none) (handles : Nat) :
    s'.progress.resolver.trackers = s.progress.resolver.trackers.map (Tracker.later handles) := by
  have observed := h'.follows.observed.trans h.follows.observed.symm
  rw [maps_eq_iff] at observed
  rw [← forall₂_eq_eq_eq, forall₂_map_right_iff]
  apply forall₂_of_mem observed
  intro t' member' t mem same
  obtain ⟨logical, index⟩ := Prod.mk.inj same
  have current : t'.current = t.current := by
    have divides := Request.period_dvd fault (h.follows.mem_observables mem)
    rw [h'.follows.current t' member', h.follows.current t mem, logical,
      h.later_rounds h', t.logical.before_add_mul divides]
  obtain ⟨i, l, c, p⟩ := t
  obtain ⟨i', l', c', p'⟩ := t'
  have none : p = [] := h.spent _ mem
  have none' : p' = [] := h'.spent _ member'
  simp only at logical index current
  rw [logical, index, current, none, none']
  rfl

/-- No detector waits between layers, so resolvers correspond. -/
lemma RestsAfter.resolver_twin (fault : task.request.fault? task.code = none) :
    s.progress.resolver.Twin (.across task s s' low oldest le) s'.progress.resolver := by
  have rounds := h.later_rounds h'
  have more : s.progress.resolver.instances.size ≤ s'.progress.resolver.instances.size := by
    rw [h.size_instances, h'.size_instances]
    exact task.length_planned_mono (by omega)
  have sum : s'.progress.resolver.instances.size = s.progress.resolver.instances.size +
      (s'.progress.resolver.instances.size - s.progress.resolver.instances.size) := by
    omega
  have past : ∀ {id : Nat}, s.progress.resolver.instances.size ≤ id →
      s.progress.resolver.instances[id]? = none := Array.getElem?_eq_none
  refine ⟨sum, le_rfl, ?_, ?_, ?_, ?_, ?_, h.trackers_later h' fault _, ?_, False.elim⟩
  · intro id late
    change s.progress.resolver.instances.size ≤ id at late
    change s'.progress.resolver.instances[id + (s'.progress.resolver.instances.size -
      s.progress.resolver.instances.size)]? = _
    rw [past late, Array.getElem?_eq_none (by omega)]
    rfl
  · intro id i late found
    rw [past late] at found
    cases found
  · intro key
    rw [h.waiting, h'.waiting, map_nil]
  · intro key id listed
    rw [h.waiting] at listed
    cases listed
  · rw [h.complete.initial, h'.complete.initial]
  · intro t mem
    have divides := Request.period_dvd fault (h.follows.mem_observables mem)
    change t.logical.period ∣ s'.rounds - s.rounds
    rw [rounds, Nat.add_sub_cancel_left]
    exact Nat.dvd_trans divides (Nat.dvd_mul_left ..)

lemma RestsAfter.free_later (sizes : s.store.size ≤ s'.store.size) {t : Nat}
    (late : s.store.size ≤ t) (q : Qubit) :
    s'.occupancy.isFree (t + (s'.store.size - s.store.size)) q = s.occupancy.isFree t q := by
  rw [Occupancy.isFree_of_size_le (h.complete.safe.enclosed.size.trans late)]
  apply Occupancy.isFree_of_size_le
  have sizes' := h'.complete.safe.enclosed.size
  omega

lemma RestsAfter.floor_later (sizes : s.store.size ≤ s'.store.size) (q : Qubit) :
    max (s.store.size + (s'.store.size - s.store.size)) ((s'.ancillaFloor.get? q).getD 0) =
      max s.store.size ((s.ancillaFloor.get? q).getD 0) + (s'.store.size - s.store.size) := by
  have floor := h.settled.floor q
  have floor' := h'.settled.floor q
  change (s.ancillaFloor.get? q).getD 0 ≤ s.store.size at floor
  change (s'.ancillaFloor.get? q).getD 0 ≤ s'.store.size at floor'
  omega

/-- Two sessions of one task between layers are in step. -/
lemma RestsAfter.atRest (fault : task.request.fault? task.code = none)
    (words : s'.rounds ≤ Word.half) (sizes : s.store.size ≤ s'.store.size)
    (same : s'.store.qubits = s.store.qubits)
    (recent : ∀ {h t : Nat} {key : Key}, s.store.record.entry? h = some (key, t) →
      oldest ≤ key.round → low ≤ t) :
    ({ s with layerStart := s.store.size } : Session).TwinAtRest
      (.across task s s' low oldest le) task task.compiler
      { s' with layerStart := s'.store.size } := by
  have rounds := h.later_rounds h'
  have ahead : s'.store.size = s.store.size + (s'.store.size - s.store.size) := by omega
  refine ⟨?_, h.complete.setLayerStart _, h'.complete.setLayerStart _⟩
  refine
    { progress := ⟨h.store_twin h' words sizes same recent, h.resolver_twin h' fault, ?_, ?_⟩
      occupancy := ⟨?_, ?_⟩
      lastUse := ?_
      ancillaFloor := ?_
      direct := ?_
      filed := ?_
      layerStart := ahead
      base_le := le_rfl
      rounds := ?_
      used := h.settled.inside
      living := h.settled.living }
  · intro t mem handle pending
    rw [h.spent t mem] at pending
    cases pending
  · exact fun _ more => absurd more (lt_irrefl _)
  · exact fun q late => h.free_later h' sizes late q
  · intro q t t' data _
    exact (h'.settled.live data t').trans (h.settled.live data t).symm
  · intro q data
    obtain ⟨t, found⟩ := h.settled.used data
    obtain ⟨t', found'⟩ := h'.settled.used data
    change Option.Rel _ (s.lastUse.get? q) (s'.lastUse.get? q)
    rw [found, found']
    refine .some (.inr ⟨h.settled.inside found, ?_⟩)
    have inside := h'.settled.inside found'
    exact ahead ▸ inside
  · exact fun q => h.floor_later h' sizes q
  · intro q
    have here := h.directSince q
    have there := h'.directSince q
    change s'.directSince (s.rounds + (s'.rounds - s.rounds)) q =
      (s.directSince s.rounds q).map _
    rw [here, show s.rounds + (s'.rounds - s.rounds) = s'.rounds by omega, there]
    rfl
  · intro q o found
    have here := h.directSince q
    change s.directSince s.rounds q = some o at found
    rw [here] at found
    cases found
  · change s'.rounds = s.rounds + (s'.rounds - s.rounds)
    omega

lemma RestsAfter.counts {round : Nat} (old : oldest ≤ round)
    (words : round + d * task.code.period < Word.half) :
    (Comparison.across task s s' low oldest le).Counts round := by
  have rounds := h.later_rounds h'
  have lead : s'.rounds - s.rounds = d * task.code.period := by omega
  constructor
  · change Word.signed (round + (s'.rounds - s.rounds)) =
      Word.signed round + ((s'.rounds - s.rounds : Nat) : Int)
    rw [lead, Word.signed_of_lt words, Word.signed_of_lt (by omega)]
    exact Int.natCast_add ..
  · rw [Word.signed_of_lt (by omega)]
    exact .inr ⟨Int.natCast_nonneg round, old⟩

lemma RestsAfter.reads (pos : 0 < n) {round : Nat} (since : s.rounds ≤ round)
    (old : oldest + task.code.period ≤ s.rounds)
    (words : round + d * task.code.period < Word.half) :
    (Comparison.across task s s' low oldest le).Reads task.code round := by
  have period := h.period_le pos
  refine ⟨h.counts h' (by omega) words, .inr ?_, since⟩
  rw [Word.signed_of_lt (by omega)]
  exact ⟨by omega, by change oldest + _ ≤ _; omega⟩

lemma RestsAfter.compileLayer_atRest (extractable : task.Extractable)
    (fault : task.request.fault? task.code = none) (pos : 0 < n) (started : 0 < s.store.size)
    (words : s'.rounds + task.code.period ≤ Word.half)
    (sizes : s.store.size ≤ s'.store.size) (same : s'.store.qubits = s.store.qubits)
    (recent : ∀ {h t : Nat} {key : Key}, s.store.record.entry? h = some (key, t) →
      oldest ≤ key.round → low ≤ t) (old : oldest + task.code.period ≤ s.rounds)
    {next next' : Session} {start stop start' stop' : Nat}
    (run : s.compileLayer task = .ok (next, start, stop))
    (run' : s'.compileLayer task = .ok (next', start', stop')) :
    next.TwinAtRest (.across task s s' low oldest le) task task.compiler next' := by
  have rounds := h.later_rounds h'
  have busy : s.rounds ≠ 0 := by
    rw [h.rounds]
    exact Nat.ne_of_gt (Nat.mul_pos pos task.code.period_pos)
  have atRest : ({ s with layerStart := s.store.size } : Session).TwinAtRest
      (.across task s s' low oldest le) task task.compiler
      { s' with layerStart := s'.store.size } :=
    h.atRest h' fault (by omega) sizes same recent
  have along := compileLayer_along atRest (h.comparable h' started) extractable False.elim
    (fun _ => busy) False.elim
    fun r since before => h.reads h' pos since old (by
      change s.rounds ≤ r at since
      change r < s.rounds + task.code.period at before
      omega)
  rw [compileLayer_eq] at run run'
  rw [compileLayer_eq, compileLayer_eq] at along
  exact (along.of_ok run run').1

end Across

end Session

end SyndromeSchedule
