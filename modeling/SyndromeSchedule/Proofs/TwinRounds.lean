import SyndromeSchedule.Proofs.TwinSession

/-!
Rounds, layers and final measurements in two runs that are compared. All checks of a round are
placed alike, since the grid starts where it first fits and direct measurements go where their
qubits are free; noise goes to the first use of a qubit in the round, or to the end of what is
placed.
-/

namespace SyndromeSchedule

open List Outcome

variable {task : Task} {other : Compiler}

lemma Task.Comparable.late_zero {k : Comparison} (alike : task.Comparable k other) :
    k.Late 0 0 := by
  unfold Comparison.Late
  by_cases strict : k.strict
  · have still := k.still strict
    omega
  · have pos := alike.positive strict
    omega

namespace Session

variable {k : Comparison} {task : Task} {other : Compiler} {s s' : Session} {round : Nat}
variable {e : Extracted} {code : Code} {tick start : Nat} {c : Check} {q : Qubit}

/-! Checks with an ancilla. -/

/-- What holds after ancillas are prepared in both runs. -/
structure Prepared (k : Comparison) (code : Code) (r r' : Session × Nat) : Prop where
  inStep : r.1.InStep k code r'.1
  ready : r'.2 = r.2 + k.ticks
  late : k.base ≤ r.2

lemma prepareAncilla_along (h : s.InStep k task.code s') (alike : task.Comparable k other)
    (known : k.known e.ancilla) :
    (s.prepareAncilla task e).Along k.strict (Prepared k task.code)
      (s'.prepareAncilla (task.over other) e) := by
  have floor : max s'.layerStart ((s'.ancillaFloor.get? e.ancilla).getD 0) =
      max s.layerStart ((s.ancillaFloor.get? e.ancilla).getD 0) + k.ticks := by
    rw [h.layerStart]
    exact (h.ancillaFloor e.ancilla).max_of_le h.base_le
  have late : k.base ≤ max s.layerStart ((s.ancillaFloor.get? e.ancilla).getD 0) :=
    h.base_le.trans (le_max_left ..)
  unfold prepareAncilla
  simp only [floor]
  generalize max s.layerStart ((s.ancillaFloor.get? e.ancilla).getD 0) = floor at late ⊢
  have later := late.trans (Occupancy.le_earliestFree s.occupancy floor [e.ancilla])
  rw [h.occupancy.earliestFree late [e.ancilla]]
  generalize s.occupancy.earliestFree floor [e.ancilla] = tick at later ⊢
  refine (reset_along h alike later known).bind fun mid mid' first => ?_
  cases preparation e.plan.ancillaState with
  | none => exact ⟨first, Nat.add_right_comm .., by omega⟩
  | some gate =>
    have next : k.base ≤ tick + 1 := by omega
    have after := Occupancy.le_earliestFree mid.occupancy (tick + 1) [e.ancilla]
    simp only
    rw [Nat.add_right_comm, first.occupancy.earliestFree next [e.ancilla]]
    generalize mid.occupancy.earliestFree (tick + 1) [e.ancilla] = free at after ⊢
    have here : k.base ≤ free := by omega
    refine (single_along first alike here gate known).bind fun last last' second => ?_
    exact ⟨second, Nat.add_right_comm .., by omega⟩

lemma prepareAncillas_along (h : s.InStep k task.code s') (alike : task.Comparable k other)
    {es : List Extracted} (known : ∀ e ∈ es, k.known e.ancilla) :
    (s.prepareAncillas task es).Along k.strict (Prepared k task.code)
      (s'.prepareAncillas (task.over other) es) := by
  have start : Prepared k task.code (s, s.layerStart) (s', s'.layerStart) :=
    ⟨h, h.layerStart, h.base_le⟩
  refine Outcome.Along.foldlM_same (fun e mem r r' before => ?_) start
  refine (prepareAncilla_along before.inStep alike (known e mem)).bind fun x x' done => ?_
  refine ⟨done.inStep, ?_, before.late.trans (le_max_left ..)⟩
  simp only [before.ready, done.ready]
  omega

lemma notify_along (h : s.InStep k code s') (key : Key) :
    (s.notify key).Along k.strict (InStep k code) (s'.notify (key.later k.rounds)) := by
  unfold Session.notify
  refine (Progress.notify_along h.progress key).bind fun r r' steps => ?_
  exact h.setProgress steps.1 steps.2

lemma InStep.setFloor (h : s.InStep k code s') (late : k.base ≤ tick) (q : Qubit) :
    ({ s with ancillaFloor := s.ancillaFloor.insert q (tick + 1) } : Session).InStep k code
      { s' with ancillaFloor := s'.ancillaFloor.insert q (tick + k.ticks + 1) } :=
  { h with
    ancillaFloor := by
      intro p
      simp only [Table.get?_insert]
      split_ifs
      · exact (k.late_of_le late).agree
      · exact h.ancillaFloor p }

/-- An ancilla is measured in ticks that correspond, and its outcome reported. -/
theorem measureAncilla_along (h : s.InStep k task.code s') (alike : task.Comparable k other)
    (known : k.known e.ancilla) (late : k.base ≤ start) (counts : k.Counts round) :
    (s.measureAncilla task e start round).Along k.strict (InStep k task.code)
      (s'.measureAncilla (task.over other) e (start + k.ticks) (round + k.rounds)) := by
  have later := late.trans (Occupancy.le_earliestFree s.occupancy start [e.ancilla])
  unfold measureAncilla
  rw [h.occupancy.earliestFree late [e.ancilla], counts.key]
  generalize s.occupancy.earliestFree start [e.ancilla] = tick at later ⊢
  generalize Key.of e.check (Word.signed round) = key
  cases Outcome.ofExcept Error.request (Gate.measuring e.plan.basis) with
  | error halt => exact along_error fun _ => rfl
  | ok gate =>
    have measured := h.progress.store.addMeasurement later gate known key
    rw [alike.flip, alike.flip'] at measured
    refine measured.bind fun r r' filed => ?_
    have silent : (((s.setStore r.1).occupy tick [e.ancilla]).setLive tick e.ancilla
        false).InStep k task.code (((s'.setStore r'.1).occupy (tick + k.ticks)
          [e.ancilla]).setLive (tick + k.ticks) e.ancilla false) := by
      apply ((h.setStore filed.twin filed.grows).occupy tick [e.ancilla]).setLive later
      exact fun alive => (nomatch alive)
    have touched := silent.touch later filed.inside
      (filed.numbered e.ancilla (mem_singleton_self _))
    exact notify_along (touched.setFloor later e.ancilla) key

lemma runExtracted_along (h : s.InStep k task.code s') (alike : task.Comparable k other)
    (known : k.known e.ancilla) (data : ∀ step ∈ e.interactions, k.known step.2.data) (stride : Nat)
    (late : k.base < start) (counts : k.Counts round) :
    (runExtracted task stride start round s e).Along k.strict (InStep k task.code)
      (runExtracted (task.over other) stride (start + k.ticks) (round + k.rounds) s' e) := by
  have steps : (e.interactions.foldlM (fun (s : Session) step =>
        s.interact task e.ancilla (start + step.1 * stride) step.2) s).Along k.strict
      (InStep k task.code) (e.interactions.foldlM (fun (s : Session) step =>
        s.interact (task.over other) e.ancilla (start + k.ticks + step.1 * stride) step.2) s') := by
    refine Outcome.Along.foldlM_same (fun step mem t t' before => ?_) h
    rw [Nat.add_right_comm]
    exact interact_along before alike (by omega) known (data step mem)
  refine steps.bind fun mid mid' done => ?_
  have here : k.base ≤ (if e.plan.steps.isEmpty then start
      else start + (e.plan.steps.length - 1) * stride + 1) := by
    split_ifs <;> omega
  have next : (if e.plan.steps.isEmpty then start + k.ticks
      else start + k.ticks + (e.plan.steps.length - 1) * stride + 1) =
      (if e.plan.steps.isEmpty then start
        else start + (e.plan.steps.length - 1) * stride + 1) + k.ticks := by
    split_ifs <;> omega
  simp only
  rw [next]
  exact measureAncilla_along done alike known here counts

lemma startFor_later (h : s.InStep k code s') {i : Interaction} (data : code.isData i.data = true)
    (stride slot : Nat) (late : k.base < start) :
    max (start + k.ticks) (s'.startFor stride slot i) =
      max start (s.startFor stride slot i) + k.ticks := by
  have agree := h.dataFloor data
  unfold Comparison.Agree at agree
  unfold startFor
  generalize slot * stride = room
  simp only
  split_ifs <;> omega

lemma needed_later (h : s.InStep k code s') (stride : Nat) {steps : List (Nat × Interaction)}
    (data : ∀ step ∈ steps, code.isData step.2.data = true) (late : k.base < start) :
    steps.foldl (fun t step => max t (s'.startFor stride step.1 step.2)) (start + k.ticks) =
      steps.foldl (fun t step => max t (s.startFor stride step.1 step.2)) start + k.ticks := by
  induction steps generalizing start with
  | nil => rfl
  | cons step rest ih =>
    rw [foldl_cons, foldl_cons, startFor_later h (data step (.head _)) stride step.1 late]
    apply ih fun other mem => data other (.tail _ mem)
    exact late.trans_le (le_max_left ..)

/-- Checks with ancillas take the same places. -/
lemma scheduleExtracted_along (h : s.InStep k task.code s') (alike : task.Comparable k other)
    {es : List Extracted} (compatible : Extracted.Compatible task.code es)
    (known : ∀ e ∈ es, k.known e.ancilla) (counts : k.Counts round) :
    (s.scheduleExtracted task es round).Along k.strict (InStep k task.code)
      (s'.scheduleExtracted (task.over other) es (round + k.rounds)) := by
  unfold scheduleExtracted
  split_ifs with empty
  · exact along_ok h
  · have nonempty : es ≠ [] := fun none => empty (by rw [none]; rfl)
    have prepared := (prepareAncillas_along h alike known).strengthen
      (S := fun r r' => Prepared k task.code r r' ∧ k.base < r.2) fun r r' made _ done => by
        obtain ⟨_, openings, opened, _, opens, _⟩ := prepareAll_opens made
        exact ⟨done, h.base_le.trans_lt (layerStart_lt_of_opens opened nonempty opens)⟩
    refine prepared.bind ?_
    rintro ⟨mid, ready⟩ ⟨mid', ready'⟩ ⟨⟨first, same, _⟩, after⟩
    obtain rfl : ready' = ready + k.ticks := same
    have data : ∀ step ∈ es.flatMap (·.interactions), task.code.isData step.2.data = true := by
      intro step mem
      obtain ⟨e, inside, mem⟩ := mem_flatMap.mp mem
      exact compatible.data e inside step mem
    have late : k.base < (es.flatMap (·.interactions)).foldl (fun t step =>
        max t (mid.startFor (Extracted.stride es) step.1 step.2)) ready :=
      after.trans_le (le_foldl_max _ _ _)
    obtain ⟨start, run, le, run'⟩ := gridStart_later first.occupancy es (Extracted.stride es) late
    simp only [needed_later first (Extracted.stride es) data after]
    rw [run, run']
    refine Outcome.Along.foldlM_same (fun e mem t t' before => ?_) first
    exact runExtracted_along before alike (known e mem)
      (fun step inside => alike.data (compatible.data e mem step inside)) _
      (late.trans_le le) counts

/-! Checks without an ancilla. -/

lemma InStep.insertDirect (h : s.InStep k code s') (q : Qubit) {d : DirectOutcome}
    (since : k.since ≤ d.round) (late : k.base ≤ d.tick)
    (reached : Progress.Reached k s.store.record d.handle) :
    ({ s with direct := s.direct.insert q d } : Session).InStep k code
      { s' with direct := s'.direct.insert q (d.later k) } := by
  have new : (some d).filter (fun d => decide (k.since ≤ d.round)) = some d :=
    Option.filter_some_pos (decide_eq_true since)
  have new' : (some (d.later k)).filter (fun d => decide (k.since + k.rounds ≤ d.round)) =
      some (d.later k) :=
    Option.filter_some_pos (decide_eq_true (Nat.add_le_add_right since k.rounds))
  refine { h with direct := ?_, filed := ?_ }
  · intro p
    unfold directSince
    rw [Table.get?_insert, Table.get?_insert]
    split_ifs
    · rw [new, new']
      rfl
    · exact h.direct p
  · intro p e found
    unfold directSince at found
    rw [Table.get?_insert] at found
    split_ifs at found
    · rw [new] at found
      obtain rfl := Option.some.inj found
      exact ⟨late, reached⟩
    · exact h.filed found

/-- What holds after a direct measurement in both runs. -/
structure Directs (k : Comparison) (code : Code) (tick : Nat) (qubits : List Qubit)
    (next next' : Session) : Prop where
  inStep : next.InStep k code next'
  inside : tick < next.store.size
  numbered : ∀ q ∈ qubits, q ∈ next.store.qubits

/-- Checks without ancillas are measured by the same gates. -/
lemma measureDirect_along (h : s.InStep k task.code s') (alike : task.Comparable k other)
    (known : ∀ q ∈ c.qubits, k.known q) (late : k.base ≤ tick) (since : k.since ≤ round)
    (key : Key) :
    (s.measureDirect task c tick round key).Along k.strict (Directs k task.code tick c.qubits)
      (s'.measureDirect (task.over other) c (tick + k.ticks) (round + k.rounds)
        (key.later k.rounds)) := by
  have products : ∀ members : List Member, (∀ m ∈ members, k.known m.qubit) →
      ((s.store.addProduct tick (members.map fun m => (m.qubit, m.operator.letter))
        task.compiler.noise.flip? key).commit >>= fun r => pure (s.setStore r.1)).Along k.strict
        (Directs k task.code tick (members.map (·.qubit)))
        ((s'.store.addProduct (tick + k.ticks)
          (members.map fun m => (m.qubit, m.operator.letter)) other.noise.flip?
          (key.later k.rounds)).commit >>= fun r => pure (s'.setStore r.1)) := by
    intro members listed
    have factors : ∀ f ∈ members.map (fun m => (m.qubit, m.operator.letter)), k.known f.1 := by
      exact forall_mem_map.mpr listed
    have measured := h.progress.store.addProduct late factors key
    rw [alike.flip, alike.flip'] at measured
    refine measured.bind fun r r' filed => ?_
    have numbered := filed.numbered
    rw [map_map] at numbered
    exact ⟨h.setStore filed.twin filed.grows, filed.inside, numbered⟩
  have all : ∀ m ∈ c.members, k.known m.qubit := fun m mem => known m.qubit (mem_map_of_mem mem)
  unfold measureDirect Check.qubits
  match c.members, all with
  | [], all => exact products [] all
  | [m], all =>
    simp only
    cases Outcome.ofExcept Error.request (Gate.measuring m.operator.letter) with
    | error halt => exact along_error fun _ => rfl
    | ok gate =>
      have measured := h.progress.store.addMeasurement late gate (all m (mem_singleton_self m)) key
      rw [alike.flip, alike.flip'] at measured
      refine measured.bind fun r r' filed => ?_
      have stored := h.setStore filed.twin filed.grows
      have reached : Progress.Reached k (s.setStore r.1).store.record r.2 :=
        ⟨key, tick, filed.entry, k.low_le.trans late⟩
      have noted := stored.insertDirect m.qubit
        (d := ⟨m.operator.letter, r.2, round, tick⟩) since late reached
      rw [filed.handle]
      exact ⟨noted, filed.inside, filed.numbered⟩
  | m :: n :: rest, all => exact products (m :: n :: rest) all

lemma floors_later (h : s.InStep k code s') {qubits : List Qubit}
    (data : ∀ q ∈ qubits, code.isData q = true) (late : k.base ≤ start) :
    (qubits.map fun q => (s'.dataFloor.get? q).getD 0).foldl max (start + k.ticks) =
      (qubits.map fun q => (s.dataFloor.get? q).getD 0).foldl max start + k.ticks := by
  induction qubits generalizing start with
  | nil => rfl
  | cons q rest ih =>
    rw [map_cons, map_cons, foldl_cons, foldl_cons, (h.dataFloor (data q (.head _))).max_of_le late]
    apply ih fun p mem => data p (.tail _ mem)
    exact late.trans (le_max_left ..)

lemma directTick_later (h : s.InStep k code s') (data : ∀ q ∈ c.qubits, code.isData q = true) :
    s'.directTick c = s.directTick c + k.ticks := by
  unfold directTick
  rw [h.layerStart, floors_later h data h.base_le]
  exact h.occupancy.earliestFree (h.base_le.trans (foldl_max_spec _ _).1) c.qubits

lemma scheduleDirect_along (h : s.InStep k task.code s') (alike : task.Comparable k other)
    (scheduled : c ∈ task.code.checksIn round) (since : k.since ≤ round) (counts : k.Counts round) :
    (scheduleDirect task round s c).Along k.strict (InStep k task.code)
      (scheduleDirect (task.over other) (round + k.rounds) s' c) := by
  have data : ∀ q ∈ c.qubits, task.code.isData q = true :=
    fun q acted => task.code.isData_of_mem scheduled acted
  have late := h.base_le.trans (s.layerStart_le_directTick c)
  change (s.measureDirect task c (s.directTick c) round (Key.of c (Word.signed round)) >>=
    fun mid => (fileDirect task (s.directTick c) c mid).notify _).Along k.strict _
    (s'.measureDirect (task.over other) c (s'.directTick c) (round + k.rounds)
      (Key.of c (Word.signed (round + k.rounds))) >>=
    fun mid => (fileDirect (task.over other) (s'.directTick c) c mid).notify _)
  rw [directTick_later h data, counts.key]
  have known : ∀ q ∈ c.qubits, k.known q := fun q acted => alike.data (data q acted)
  refine (measureDirect_along h alike known late since _).bind fun mid mid' done => ?_
  exact notify_along
    ((done.inStep.occupy (s.directTick c) c.qubits).touchAll late done.inside done.numbered) _

/-! Noise, rounds and layers. -/

lemma disturb_inStep (h : s.InStep k code s') {d d' : Option Disturbance}
    (same : ¬ k.strict → d' = d) (late : k.base ≤ tick)
    (inside : tick < max (s.layerStart + 1) s.store.size) (placement : Placement)
    (known : k.known q) (numbered : q ∈ s.store.qubits) :
    (disturb s.store d tick placement [q]).Along k.strict
      (fun store store' => (s.setStore store).InStep k code (s'.setStore store') ∧
        s.store.Grows store)
      (disturb s'.store d' (tick + k.ticks) placement [q]) := by
  have room : k.strict → tick < Store.maxTicks := by
    intro strict
    have start := h.room strict
    have size := h.progress.store.room strict
    change s.store.size ≤ Store.maxTicks at size
    omega
  have one : ∀ p ∈ [q], k.known p := forall_mem_singleton.mpr known
  have listed : ∀ p ∈ [q], p ∈ s.store.qubits := forall_mem_singleton.mpr numbered
  refine (h.progress.store.disturb same late placement one (fun _ => inside) room
    fun _ => listed).imp ?_
  rintro store store' ⟨twin, grows⟩
  exact ⟨h.setStore twin grows, grows⟩

lemma idleNoise_along (h : s.InStep k task.code s') (alike : task.Comparable k other)
    (late : k.base ≤ tick) (inside : tick < max (s.layerStart + 1) s.store.size)
    (placement : Placement) (known : k.known q) (numbered : q ∈ s.store.qubits) :
    (disturb s.store task.compiler.noise.idling tick placement [q] >>= fun store =>
      disturb store task.compiler.noise.roundStart tick placement [q] >>= fun store =>
        pure (s.setStore store)).Along k.strict (InStep k task.code)
      (disturb s'.store other.noise.idling (tick + k.ticks) placement [q] >>= fun store =>
        disturb store other.noise.roundStart (tick + k.ticks) placement [q] >>= fun store =>
          pure (s'.setStore store)) := by
  have idles : ¬ k.strict → other.noise.idling = task.compiler.noise.idling :=
    fun loose => congrArg NoiseModel.idling (alike.noise loose)
  have starts : ¬ k.strict → other.noise.roundStart = task.compiler.noise.roundStart :=
    fun loose => congrArg NoiseModel.roundStart (alike.noise loose)
  refine (disturb_inStep h idles late inside placement known numbered).bind ?_
  rintro store store' ⟨first, grows⟩
  have still : tick < max (s.layerStart + 1) store.size := by
    have size := grows.size_le
    omega
  refine (disturb_inStep first starts late still placement known (grows.qubits q numbered)).bind ?_
  rintro last last' ⟨second, _⟩
  exact along_pure second

lemma lastUse_late (h : s.InStep k task.code s') (alike : task.Comparable k other)
    (data : task.code.isData q = true) :
    k.Late ((s.lastUse.get? q).getD 0) ((s'.lastUse.get? q).getD 0) := by
  have both := h.lastUse data
  generalize s.lastUse.get? q = before, s'.lastUse.get? q = before' at both ⊢
  cases both with
  | none => exact alike.late_zero
  | some both => exact both

lemma lastUse_lt {top : Nat} (h : s.Twin k top code s') (q : Qubit) :
    (s.lastUse.get? q).getD 0 < max (s.layerStart + 1) s.store.size := by
  cases found : s.lastUse.get? q with
  | none =>
    rw [Option.getD_none]
    omega
  | some t =>
    have used := h.used found
    rw [Option.getD_some]
    omega

lemma roundNoise_along (h : s.InStep k task.code s') (alike : task.Comparable k other)
    (data : task.code.isData q = true) :
    (s.roundNoise task q).Along k.strict (InStep k task.code)
      (s'.roundNoise (task.over other) q) := by
  have known := alike.data data
  unfold roundNoise
  rw [h.firstUse q]
  cases first : s.firstUse.get? q with
  | some tick =>
    have starts : ¬ k.strict → other.noise.roundStart = task.compiler.noise.roundStart :=
      fun loose => congrArg NoiseModel.roundStart (alike.noise loose)
    obtain ⟨late, inside, numbered⟩ := h.begun first
    refine (disturb_inStep h starts late (by omega) .before known numbered).bind ?_
    rintro store store' ⟨twin, _⟩
    exact along_pure twin
  | none =>
    have last := lastUse_late h alike data
    have inside := lastUse_lt h.toTwin q
    simp only [Option.map_none]
    generalize (s.lastUse.get? q).getD 0 = t, (s'.lastUse.get? q).getD 0 = t'
      at last inside ⊢
    rw [h.occupancy.live data last]
    by_cases alive : s.occupancy.isLive t q = true
    · have numbered := h.living alive
      have base := h.base_le
      rw [if_pos alive, if_pos alive, h.layerStart]
      unfold Comparison.Late at last
      by_cases start : s.layerStart ≤ t
      · obtain rfl : t' = t + k.ticks := by omega
        rw [if_pos start, if_pos (Nat.add_le_add_right start _)]
        exact idleNoise_along h alike (by omega) inside .after known numbered
      · rw [if_neg start, if_neg (by omega)]
        exact idleNoise_along h alike base (by omega) .before known numbered
    · rw [if_neg alive, if_neg alive]
      exact along_pure h

end Session

/-- Rounds whose detectors and direct measurements are compared. -/
structure Comparison.Reads (k : Comparison) (code : Code) (round : Nat) : Prop where
  counts : k.Counts round
  whole : k.strict ∨ ((code.period : Int) ≤ Word.signed round ∧
    k.oldest + code.period ≤ Word.signed round)
  since : k.since ≤ round

lemma Table.get?_foldl_insert {α : Type} (f : Qubit → α) (qubits : List Qubit) (t : Table α)
    (p : Qubit) :
    (qubits.foldl (fun t q => t.insert q (f q)) t).get? p =
      if p ∈ qubits then some (f p) else t.get? p := by
  induction qubits generalizing t with
  | nil => rfl
  | cons q rest ih =>
    rw [foldl_cons, ih, Table.get?_insert]
    by_cases here : p = q
    · subst here
      simp
    · simp [here]

lemma Code.mem_dataQubits (code : Code) (q : Qubit) :
    q ∈ code.dataQubits ↔ code.isData q = true :=
  (code.data.mem_keys q).trans (code.data.contains_iff q).symm

lemma Task.extractRound_over (same : other.extractor = task.compiler.extractor) (round : Nat) :
    (task.over other).extractRound round = task.extractRound round := by
  unfold Task.extractRound
  simp only [Task.over, same]

lemma Task.extractRound_later {k : Comparison} (alike : task.Comparable k other) (round : Nat) :
    (task.over other).extractRound (round + k.rounds) = task.extractRound round := by
  obtain ⟨m, same⟩ := alike.divides
  have checks : task.code.checksIn (round + k.rounds) = task.code.checksIn round := by
    rw [same, Nat.mul_comm]
    exact task.code.checksIn_add_mul round m
  rw [Task.extractRound_over alike.extractor]
  unfold Task.extractRound
  rw [checks]

lemma Task.Extractable.over (h : task.Extractable)
    (same : other.extractor = task.compiler.extractor) : (task.over other).Extractable := by
  intro round
  rw [Task.extractRound_over same]
  exact h round

namespace Session

variable {k : Comparison} {task : Task} {other : Compiler} {s s' : Session}

lemma Twin.startRound {code : Code} {top : Nat} (h : s.Twin k top code s')
    (here : top = s.layerStart + 1) (room : k.strict → s.layerStart < Store.maxTicks) :
    (Session.startRound code s).InStep k code (Session.startRound code s') := by
  subst here
  have floor : ∀ {q : Qubit}, code.isData q = true →
      k.Agree (((Session.startRound code s).dataFloor.get? q).getD 0)
        (((Session.startRound code s').dataFloor.get? q).getD 0) := by
    intro q data
    unfold Session.startRound
    rw [Table.get?_foldl_insert, Table.get?_foldl_insert, if_pos ((code.mem_dataQubits q).mpr data),
      if_pos ((code.mem_dataQubits q).mpr data), Option.getD_some, Option.getD_some]
    have both := h.lastUse data
    generalize s.lastUse.get? q = before, s'.lastUse.get? q = before' at both ⊢
    cases both with
    | none => exact k.agree_zero
    | some both => exact both.agree
  exact { h with
      dataFloor := floor
      firstUse := fun _ => rfl
      begun := fun found => (nomatch found)
      room := room }

lemma compileRound_eq (task : Task) {round : Nat} (h : s.rounds = round) :
    s.compileRound task = (s.progress.beginRound task.code round).commit >>= fun begun =>
      task.extractRound round >>= fun es =>
        (Session.startRound task.code { s with progress := begun.1 }).scheduleExtracted task
          es round >>= fun first =>
        ((task.code.checksIn round).filter (·.ancilla.isNone)).foldlM (scheduleDirect task round)
          first >>= fun second =>
        task.code.dataQubits.foldlM (roundNoise task) second >>= fun third =>
        (third.progress.endRound task.code round).commit >>= fun ended =>
          .ok { third with progress := ended.1, rounds := round + 1 } := by
  subst h
  rfl

lemma compileRound_along (h : s.Twin k (s.layerStart + 1) task.code s')
    (alike : task.Comparable k other)
    (extractable : task.Extractable) (room : k.strict → s.layerStart < Store.maxTicks)
    (reads : k.Reads task.code s.rounds) :
    (s.compileRound task).Along k.strict
      (fun next next' => next.Twin k (next.layerStart + 1) task.code next')
      (s'.compileRound (task.over other)) := by
  have held : ¬ k.strict → task.code.detectorsIn s.rounds ≠ [] → 0 < s.store.size := by
    intro loose _
    exact (alike.positive loose).trans_le h.progress.store.base_le
  obtain ⟨es, extracts, conflict⟩ := extractable s.rounds
  have compatible := task.compatible extracts conflict
  have each := (Task.extractRound_eq_ok extracts).2
  rw [compileRound_eq task rfl, compileRound_eq (task.over other) h.rounds,
    Task.extractRound_later alike, extracts]
  refine (Progress.beginRound_along h.progress alike.divides reads.counts reads.whole held).bind
    fun begun begun' steps => ?_
  have started := (h.setProgress steps.1 steps.2).startRound rfl room
  have known : ∀ e ∈ es, k.known e.ancilla :=
    fun e mem => alike.ancilla (each e mem).scheduled (each e mem).ancilla
  refine (scheduleExtracted_along started alike compatible known reads.counts).bind
    fun first first' placed => ?_
  have direct : (((task.code.checksIn s.rounds).filter (·.ancilla.isNone)).foldlM
      (scheduleDirect task s.rounds) first).Along k.strict (InStep k task.code)
      ((((task.over other).code.checksIn (s.rounds + k.rounds)).filter (·.ancilla.isNone)).foldlM
        (scheduleDirect (task.over other) (s.rounds + k.rounds)) first') := by
    obtain ⟨m, same⟩ := alike.divides
    have checks : (task.over other).code.checksIn (s.rounds + k.rounds) =
        task.code.checksIn s.rounds := by
      rw [same, Nat.mul_comm]
      exact task.code.checksIn_add_mul s.rounds m
    rw [checks]
    refine Outcome.Along.foldlM_same (fun c mem t t' before => ?_) placed
    exact scheduleDirect_along before alike (mem_of_mem_filter mem) reads.since reads.counts
  refine direct.bind fun second second' measured => ?_
  have noise : (task.code.dataQubits.foldlM (roundNoise task) second).Along k.strict
      (InStep k task.code)
      (task.code.dataQubits.foldlM (roundNoise (task.over other)) second') := by
    refine Outcome.Along.foldlM_same (fun q mem t t' before => ?_) measured
    exact roundNoise_along before alike ((task.code.mem_dataQubits q).mp mem)
  refine noise.bind fun third third' disturbed => ?_
  refine (Progress.endRound_along disturbed.progress alike.divides reads.counts).bind
    fun ended ended' steps => ?_
  have twin := disturbed.toTwin.setProgress steps.1 steps.2
  exact { twin with rounds := Nat.add_right_comm .. }

end Session

end SyndromeSchedule
