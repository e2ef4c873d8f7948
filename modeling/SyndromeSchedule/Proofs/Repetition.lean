import SyndromeSchedule.Proofs.Frames
import SyndromeSchedule.Proofs.LayerCount
import SyndromeSchedule.Proofs.Succession

/-!
A repeated layer is only an abbreviation. From the second layer on, each layer is the one before
with everything moved by the length of a layer, and nothing is added to it later than one layer
after; so three layers with the second one repeated stand for any number of them.
-/

namespace SyndromeSchedule

open List Outcome

variable {made : List (Check × Nat)} {order : List Nat}

lemma Code.length_measured_mul (code : Code) (n : Nat) :
    (code.measured (n * code.period)).length = n * (code.measured code.period).length := by
  induction n with
  | zero => rw [Nat.zero_mul, Nat.zero_mul]; rfl
  | succ n ih =>
    rw [code.measured_add_mul n 1, length_append, length_map, ih, one_mul, Nat.succ_mul, add_comm]

lemma Code.detectorsIn_eq_nil {code : Code} {round : Nat} (none : code.checksIn round = []) :
    code.detectorsIn round = [] := by
  apply eq_nil_iff_forall_not_mem.mpr
  intro d mem
  exact code.checksIn_ne_nil mem none

lemma Progress.size_flush {p next : Progress} {tick : Nat} (inside : tick < p.store.size)
    (run : p.flush tick = .ok next) : next.store.size = p.store.size := by
  obtain rfl := (flush_meets ..).of_ok run
  refine Store.size_withNotes _ _ fun e mem => ?_
  obtain ⟨i, listed, _, rfl⟩ := Tracker.mem_allNoted mem
  obtain ⟨t, _, rfl⟩ := mem_map.mp listed
  exact inside

lemma Store.map_idxOf_labelsOf (distinct : made.Nodup) (inside : ∀ h ∈ order, h < made.length) :
    (labelsOf made order).map made.idxOf = order := by
  induction order with
  | nil => rfl
  | cons h rest ih =>
    have here := inside h (.head _)
    have others := ih fun h mem => inside h (.tail _ mem)
    unfold labelsOf at others ⊢
    rw [filterMap_cons, getElem?_eq_getElem here, map_cons, others, distinct.idxOf_getElem h here]

lemma Store.labelsOf_append_left (more : List (Check × Nat))
    (inside : ∀ h ∈ order, h < made.length) : labelsOf (made ++ more) order = labelsOf made order :=
  filterMap_congr fun h mem => getElem?_append_left (inside h mem)

lemma Code.measured_twice (code : Code) :
    code.measured (2 * code.period) = code.measured code.period ++
      (code.measured code.period).map (postpone code.period) := by
  have split := code.measured_add_mul 1 1
  rwa [one_mul] at split

lemma Store.labelsOf_later {code : Code}
    (inside : ∀ h ∈ order, h < (code.measured code.period).length) :
    labelsOf (code.measured (2 * code.period))
        (order.map (· + (code.measured code.period).length)) =
      (labelsOf (code.measured (2 * code.period)) order).map (postpone code.period) := by
  rw [labelsOf, labelsOf, filterMap_map, map_filterMap]
  apply filterMap_congr
  intro h mem
  rw [Function.comp_apply, code.measured_twice, getElem?_append_right (Nat.le_add_left ..),
    Nat.add_sub_cancel, getElem?_map, getElem?_append_left (inside h mem)]

lemma Store.unrolled_program {s : Store} (plain : s.region = none) (layout : Layout) :
    (s.program layout).unrolled = (s.program layout).instructions := by
  have body : s.bodyInstructions = s.stretch 0 s.size := by
    unfold bodyInstructions
    rw [plain]
  have whole : ∀ i ∈ (if layout.coords then s.emitCoords else []) ++ s.bodyInstructions,
      i.isPlain = true := by
    intro i mem
    rcases mem_append.mp mem with place | inside
    · split_ifs at place
      · obtain ⟨e, _, rfl⟩ := mem_map.mp place
        rfl
      · cases place
    · rw [body] at inside
      exact isPlain_ticksInstructions i inside
  apply Instruction.unrollAll_of_plain
  intro i mem
  simp only [Store.program] at mem
  generalize (if layout.coords then s.emitCoords else []) ++ s.bodyInstructions = all
    at whole mem
  split_ifs at mem
  · exact whole i mem
  · rcases dropLastTick_eq all with same | ends
    · rw [same] at mem
      exact whole i mem
    · apply whole
      rw [ends]
      exact mem_append_left _ mem

namespace Session

variable {task : Task} {s s' next next' last last' : Session}
  {n d j k start stop start' stop' placed placed' : Nat}

lemma TwinAtRest.mark {k : Comparison} {other : Compiler} (atRest : s.TwinAtRest k task other s')
    (loose : ¬ k.strict) (ordered : start ≤ stop) (inside : stop ≤ s.store.size)
    (repetitions : Nat) : (s.mark start stop repetitions).TwinAtRest k task other s' := by
  have store : (s.mark start stop repetitions).store.Twin k 0 s'.store :=
    { atRest.twin.progress.store with region := fun strict => absurd strict loose }
  exact ⟨{ atRest.twin with
      progress := ⟨store, atRest.twin.progress.resolver, atRest.twin.progress.pending,
        atRest.twin.progress.held⟩ },
    atRest.complete.mark ordered inside repetitions, atRest.complete'⟩

/-- A session after the first layer, and one after some more layers. -/
structure LayersApart (task : Task) (s : Session) (j : Nat) (s' : Session) : Prop where
  first : s.RestsAfter task 1
  second : s'.RestsAfter task (1 + j)
  size_le : s.store.size ≤ s'.store.size
  qubits : s'.store.qubits = s.store.qubits

lemma RestsAfter.apart (h : s.RestsAfter task 1) (extractable : task.Extractable)
    (fault : task.request.fault? task.code = none) (started : 0 < s.store.size)
    (words : (1 + j) * task.code.period ≤ Word.half)
    (run : s.compileLayers task j = .ok s') : s.LayersApart task j s' := by
  have onward := h.layers extractable fault Nat.one_pos words run
  exact ⟨h, onward.rests, onward.size_le, onward.qubits started⟩

lemma LayersApart.handles (h : s.LayersApart task j s') :
    (Comparison.lead task s s').handles = j * (task.code.measured task.code.period).length := by
  change s'.store.record.size - s.store.record.size = _
  rw [h.first.complete.size_record, h.second.complete.size_record, h.first.rounds,
    h.second.rounds, Code.length_measured_mul, Code.length_measured_mul, Nat.add_mul,
    Nat.add_sub_cancel_left]

lemma LayersApart.atRest (h : s.LayersApart task j s') (extractable : task.Extractable)
    (fault : task.request.fault? task.code = none) (started : 0 < s.store.size)
    (words : (j + 2) * task.code.period ≤ Word.half)
    (run : s.compileLayer task = .ok (next, start, stop))
    (run' : s'.compileLayer task = .ok (next', start', stop')) :
    next.TwinAtRest (.lead task s s') task task.compiler next' := by
  have rounds := h.first.rounds
  have length : s'.rounds + task.code.period = (j + 2) * task.code.period := by
    rw [h.second.rounds, ← Nat.succ_mul]
    congr 1
    omega
  exact h.first.compileLayer_atRest h.second extractable fault Nat.one_pos started (by omega)
    h.size_le h.qubits (fun _ _ => Nat.zero_le _) (by omega) run run'

lemma RestsAfter.size_layers (h : s.RestsAfter task 1) (extractable : task.Extractable)
    (fault : task.request.fault? task.code = none) (started : 0 < s.store.size)
    (words : (j + 1) * task.code.period ≤ Word.half)
    (first : s.compileLayer task = .ok (next, start, stop))
    (run : s.compileLayers task j = .ok s') :
    s'.store.size = s.store.size + j * (next.store.size - s.store.size) := by
  have longer := (h.complete.layer extractable first).size_le
  induction j generalizing s' with
  | zero =>
    cases run
    rw [Nat.zero_mul, Nat.add_zero]
  | succ j ih =>
    obtain ⟨mid, before, after⟩ := compileLayers_add run
    obtain ⟨_, start', stop', placed, done⟩ := compileLayers_succ_eq_ok.mp after
    cases done
    have short : (j + 1) * task.code.period ≤ Word.half :=
      (Nat.mul_le_mul_right _ (by omega)).trans words
    have apart := h.apart extractable fault started (by rwa [add_comm]) before
    have atRest := apart.atRest extractable fault started words first placed
    have size : s'.store.size = next.store.size + (mid.store.size - s.store.size) :=
      atRest.twin.progress.store.length not_false
    have earlier := ih short before
    change next.store.size ≥ s.store.size at longer
    rw [Nat.succ_mul]
    omega

lemma LayersApart.atRest_next (h : s.LayersApart task j s') (extractable : task.Extractable)
    (started : 0 < s.store.size) (words : (j + 3) * task.code.period ≤ Word.half)
    (atRest : next.TwinAtRest (.lead task s s') task task.compiler next')
    (rounds : next.rounds = s.rounds + task.code.period)
    (run : next.compileLayer task = .ok (last, start, stop))
    (run' : next'.compileLayer task = .ok (last', start', stop')) :
    last.TwinAtRest (.lead task s s') task task.compiler last' := by
  have period := task.code.period_pos
  have first := h.first.rounds
  have length : next.rounds + task.code.period + j * task.code.period =
      (j + 3) * task.code.period := by
    rw [rounds, first, ← Nat.succ_mul, ← Nat.succ_mul, ← Nat.add_mul]
    congr 1
    omega
  have along := compileLayer_along atRest (h.first.comparable h.second started) extractable
    False.elim (fun _ => by omega) False.elim
    fun r since before => h.first.reads h.second Nat.one_pos (by omega) (by omega) (by omega)
  exact (along.of_ok run run').1

lemma LayersApart.finals (h : s.LayersApart task j s')
    (fault : task.request.fault? task.code = none)
    (started : 0 < s.store.size) (words : (j + 3) * task.code.period < Word.half)
    (atRest : last.TwinAtRest (.lead task s s') task task.compiler last')
    (rounds : last.rounds = 3 * task.code.period)
    (ends : last.measureFinals task = .ok (next, placed))
    (ends' : last'.measureFinals task = .ok (next', placed')) :
    next.Twin (.lead task s s') 0 task.code next' := by
  have period := task.code.period_pos
  have first := h.first.rounds
  have length : (j + 3) * task.code.period = j * task.code.period + 3 * task.code.period :=
    Nat.add_mul ..
  have since : (Comparison.lead task s s').since < last.rounds := by
    change s.rounds < last.rounds
    omega
  have along := measureFinals_along atRest (h.first.comparable h.second started) fault
    (by omega) since (.inr (by omega))
    fun r le _ => h.first.counts h.second (Int.natCast_nonneg r) (by omega)
  exact (along.of_ok ends ends').1

/-- Once the next layer is compiled, nothing that follows changes the ticks before it. -/
lemma RestsAfter.kept (h : s.RestsAfter task n) (extractable : task.Extractable)
    (fault : task.request.fault? task.code = none) (pos : 0 < n)
    (started : 0 < s.store.size) (words : (n + 1 + k) * task.code.period < Word.half)
    (first : s.compileLayer task = .ok (next, start, stop))
    (run : next.compileLayers task k = .ok last)
    (ends : last.measureFinals task = .ok (last', placed)) :
    ∀ t < s.store.size, (last'.store.tickAt t).Like (next.store.tickAt t) := by
  have short : (n + 1) * task.code.period ≤ Word.half :=
    (Nat.mul_le_mul_right _ (by omega)).trans (words.le)
  have after := h.after extractable pos short first
  have rests := h.layer extractable short first
  have rounds : s.rounds + task.code.period = next.rounds := by
    rw [rests.rounds, h.rounds, Nat.succ_mul]
  -- the layer after the next leaves these ticks alone, and so do all that follow it
  induction k generalizing s n next start stop with
  | zero =>
    cases run
    intro t below
    rw [after.finals_kept rests fault rounds (by rwa [rests.rounds]) ends t below]
    exact Tick.Like.refl _
  | succ k ih =>
    obtain ⟨mid, start', stop', second, rest⟩ := compileLayers_succ_eq_ok.mp run
    have longer := (h.complete.layer extractable first).size_le
    change s.store.size ≤ next.store.size at longer
    have room : (n + 1 + 1) * task.code.period ≤ Word.half :=
      (Nat.mul_le_mul_right _ (by omega)).trans (words.le)
    have begun : 0 < next.store.size := started.trans_le longer
    have final := ih rests (Nat.succ_pos n) begun
      (by rwa [add_assoc (n + 1), add_comm 1]) second rest
      room (rests.after extractable (Nat.succ_pos n) room second)
      (rests.layer extractable room second)
      (by rw [(rests.layer extractable room second).rounds, rests.rounds, ← Nat.succ_mul])
    have here := after.layer_kept rests extractable fault (Nat.succ_pos n) begun (le_of_eq rounds)
      (by rwa [rests.rounds, ← Nat.succ_mul]) second
    intro t below
    exact (final t (by omega)).trans (here t below)

/-! Codes without qubits. -/

lemma store_compileRound_vacant (none : ∀ r, task.code.checksIn r = [])
    (data : task.code.dataQubits = []) (run : s.compileRound task = .ok next) :
    next.store = s.store := by
  obtain ⟨begun, es, first, second, third, ended, begins, extracts, places, measures,
    disturbs, ends, rfl⟩ := compileRound_eq_ok run
  have same : begun = s.progress := by
    unfold Progress.beginRound at begins
    rw [Code.detectorsIn_eq_nil (none s.rounds)] at begins
    cases begins
    rfl
  have nothing : es = [] := by
    have listed := (Task.extractRound_eq_ok extracts).1
    rw [none s.rounds] at listed
    exact map_eq_nil_iff.mp listed
  subst same nothing
  cases places
  rw [none s.rounds] at measures
  cases measures
  rw [data] at disturbs
  cases disturbs
  obtain ⟨trackers, rfl⟩ := Progress.endRound_eq_ok ends
  rfl

lemma store_compileRounds_vacant (none : ∀ r, task.code.checksIn r = [])
    (data : task.code.dataQubits = []) (run : s.compileRounds task k = .ok next) :
    next.store = s.store := by
  induction k generalizing s with
  | zero =>
    cases run
    rfl
  | succ k ih =>
    obtain ⟨mid, first, rest⟩ := of_bind run
    rw [ih rest, store_compileRound_vacant none data first]

lemma RestsAfter.started (h : s.RestsAfter task n) (extractable : task.Extractable)
    (pos : 0 < n) (run : s.compileLayer task = .ok (next, start, stop))
    (nonempty : start < stop) : 0 < s.store.size := by
  apply Nat.pos_of_ne_zero
  intro none
  have data : task.code.dataQubits = [] := by
    apply eq_nil_iff_forall_not_mem.mpr
    intro q mem
    exact (h.vacant pos none).1 q ((task.code.mem_dataQubits q).mp mem)
  obtain ⟨_, mid, rounds, stops, _⟩ := compileLayer_eq_ok run
  have store : mid.store = s.store :=
    store_compileRounds_vacant (s := { s with layerStart := start })
      (h.checksIn_eq_nil pos none) data rounds
  have complete := (Complete.compileRounds_meets extractable task.code.period
    (h.complete.setLayerStart start)).of_ok rounds
  rw [complete.1.safe.enclosed.barrier_eq, store, none] at stops
  omega

lemma Complete.stop_eq (complete : s.Complete task) (extractable : task.Extractable)
    (run : s.compileLayer task = .ok (next, start, stop)) (nonempty : start < stop) :
    stop = next.store.size := by
  obtain ⟨_, mid, rounds, stops, ending⟩ := compileLayer_eq_ok run
  have placed := (Complete.compileRounds_meets extractable task.code.period
    (complete.setLayerStart start)).of_ok rounds
  rw [placed.1.safe.enclosed.barrier_eq] at stops
  rw [if_pos nonempty] at ending
  obtain ⟨flushed, flushes, rfl⟩ := ending
  rw [stops]
  exact (Progress.size_flush (by rw [stops]; change _ < mid.store.size; omega) flushes).symm

/-- The marked layer has the order of outcomes of the first, shifted by their number. -/
lemma Folds.orders {s₀ s₁ s₂ s₃ : Session} {start₁ stop₁ start₂ stop₂ start₃ stop₃ : Nat}
    (folds : Folds task s₀ s₁ s₂ s₃ next start₁ stop₁ start₂ stop₂ start₃ stop₃ k placed)
    (same : (s₂.store.keysIn start₁ stop₁).map (Key.since 0) =
      (s₂.store.keysIn start₂ stop₂).map (Key.since task.code.period))
    (words : s₃.rounds < Word.half) :
    next.store.orderIn start₂ stop₂ =
        (next.store.orderBelow start₂).map (· + (task.code.measured task.code.period).length) ∧
      ∀ h ∈ next.store.orderBelow start₂, h < (task.code.measured task.code.period).length := by
  obtain ⟨anew, more, keys, closing, _, _, _, _, _, _, account⟩ := folds.finished.account
  have labels := folds.labels_eq same account words
  have three : s₃.rounds = (1 + 2) * task.code.period := folds.rounds_third
  rw [three, task.code.measured_add_mul 1 2, append_assoc] at labels
  have few : ∀ h ∈ next.store.orderBelow start₂,
      h < (task.code.measured task.code.period).length := by
    intro h mem
    obtain ⟨key, t, entry, below⟩ := account.sound.mem_orderBelow.mp mem
    exact (folds.cuts entry).1.mpr below
  have both : ∀ h ∈ next.store.orderIn start₂ stop₂,
      h < (task.code.measured (2 * task.code.period)).length := by
    intro h mem
    obtain ⟨key, t, entry, _, below⟩ := account.sound.entry?_of_mem_orderIn mem
    exact (folds.cuts entry).2.1.mpr below
  have twice := congrArg length task.code.measured_twice
  rw [length_append, length_map] at twice
  rw [Store.labelsOf_append_left _ both, Store.labelsOf_append_left _ fun h mem => by
    have := few h mem
    omega, ← Store.labelsOf_later few] at labels
  have distinct := (task.code.measured_keys_nodup (2 * task.code.period)).of_map
  refine ⟨?_, few⟩
  have order := congrArg
    (map fun e => (task.code.measured (2 * task.code.period)).idxOf e) labels
  rw [Store.map_idxOf_labelsOf distinct both, Store.map_idxOf_labelsOf distinct] at order
  · exact order
  · intro h mem
    obtain ⟨h', listed, rfl⟩ := mem_map.mp mem
    have := few h' listed
    omega

/-- Two ways to go on after the first layer: with a layer that stands for several, and with all of
them. -/
structure Unrolling (task : Task) (count : Nat) (s₀ s₁ s₂ s₃ ended flat ended' : Session)
    (start stop : Nat) : Prop where
  extractable : task.Extractable
  fault : task.request.fault? task.code = none
  words : (count + 3) * task.code.period < Word.half
  prepared : s₀.RestsAfter task 0
  plain : s₀.store.region = none
  first : ∃ start₁ stop₁, s₀.compileLayer task = .ok (s₁, start₁, stop₁) ∧
    s₂.sameMeasurements task (start₁, stop₁) (start, stop) = .ok true
  second : s₁.compileLayer task = .ok (s₂, start, stop)
  nonempty : start < stop
  third : ∃ start₃ stop₃,
    (s₂.mark start stop (count + 1)).compileLayer task = .ok (s₃, start₃, stop₃)
  ends : ∃ placed, s₃.measureFinals task = .ok (ended, placed)
  layers : s₁.compileLayers task (count + 2) = .ok flat
  ends' : ∃ placed, flat.measureFinals task = .ok (ended', placed)

namespace Unrolling

variable {count i : Nat} {s₀ s₁ s₂ s₃ ended flat ended' : Session}
  (h : Unrolling task count s₀ s₁ s₂ s₃ ended flat ended' start stop)

include h

lemma fits {m : Nat} (le : m ≤ count + 3) : m * task.code.period < Word.half :=
  (Nat.mul_le_mul_right _ le).trans_lt h.words

lemma room {m : Nat} (le : m ≤ count + 3) : m * task.code.period ≤ Word.half := (h.fits le).le

lemma rests_first : s₁.RestsAfter task 1 := by
  obtain ⟨_, _, first, _⟩ := h.first
  exact h.prepared.layer h.extractable (h.room (by omega)) first

lemma started : 0 < s₁.store.size :=
  h.rests_first.started h.extractable Nat.one_pos h.second h.nonempty

lemma layer : s₁.Layer task s₂ start stop :=
  h.rests_first.complete.layer h.extractable h.second

lemma start_eq : start = s₁.store.size := by
  apply h.layer.start_eq_size
  rw [h.rests_first.rounds, one_mul]
  exact task.code.period_pos

lemma stop_eq : stop = s₂.store.size :=
  h.rests_first.complete.stop_eq h.extractable h.second h.nonempty

lemma rests : s₂.RestsAfter task 2 := h.rests_first.layer h.extractable (h.room (by omega)) h.second

lemma marked : (s₂.mark start stop (count + 1)).RestsAfter task 2 :=
  h.rests.mark h.layer.ordered h.layer.stop_le _

lemma kept {t : Nat} (below : t < stop) : (ended.store.tickAt t).Like (s₃.store.tickAt t) := by
  obtain ⟨start₃, stop₃, third⟩ := h.third
  obtain ⟨placed, ends⟩ := h.ends
  have some : 0 < s₂.store.size := h.started.trans_le h.layer.size_le
  refine h.marked.kept (k := 0) h.extractable h.fault (by decide) some (h.fits (by omega)) third
    rfl ends t ?_
  rwa [h.stop_eq] at below

/-- A run without a block after some more layers, in step with the run that has it. -/
lemma apart (le : i ≤ count) :
    ∃ a d : Session, s₁.LayersApart task i a ∧ a.store.size = start + i * (stop - start) ∧
      s₃.TwinAtRest (.lead task s₁ a) task task.compiler d ∧
      d.compileLayers task (count - i) = .ok flat ∧
      ∀ t < stop + i * (stop - start), (ended'.store.tickAt t).Like (d.store.tickAt t) := by
  -- the run without a block after i, i + 1 and i + 2 more layers
  have layers := h.layers
  rw [show count + 2 = i + (count - i + 1 + 1) by omega] at layers
  obtain ⟨a, before, layers⟩ := compileLayers_add layers
  obtain ⟨b, start_b, stop_b, next, layers⟩ := compileLayers_succ_eq_ok.mp layers
  obtain ⟨d, start_d, stop_d, last, layers⟩ := compileLayers_succ_eq_ok.mp layers
  obtain ⟨start₃, stop₃, third⟩ := h.third
  obtain ⟨placed, ends⟩ := h.ends'
  have apart := h.rests_first.apart h.extractable h.fault h.started (h.room (by omega)) before
  have atRest := apart.atRest h.extractable h.fault h.started (h.room (by omega)) h.second next
  have size := h.rests_first.size_layers h.extractable h.fault h.started (h.room (by omega))
    h.second before
  have size_next := h.rests_first.size_layers h.extractable h.fault h.started (h.room (by omega))
    h.second (compileLayers_concat before next)
  rw [← h.start_eq, ← h.stop_eq] at size size_next
  rw [Nat.succ_mul] at size_next
  have rests := apart.second.layer h.extractable (h.room (by omega)) next
  have grown := (apart.second.complete.layer h.extractable next).size_le
  have some : 0 < b.store.size := h.started.trans_le (apart.size_le.trans grown)
  refine ⟨a, d, apart, size, ?_, layers, ?_⟩
  · exact apart.atRest_next h.extractable h.started (h.room (by omega))
      (atRest.mark not_false h.layer.ordered h.layer.stop_le _) h.layer.rounds third last
  · intro t below
    exact rests.kept h.extractable h.fault (by omega) some (h.fits (by omega)) last layers ends t
      (by omega)

lemma ticks_apart {a : Session} (size : a.store.size = start + i * (stop - start)) :
    (Comparison.lead task s₁ a).ticks = i * (stop - start) := by
  change a.store.size - s₁.store.size = _
  rw [size, h.start_eq, Nat.add_sub_cancel_left]

lemma middle (le : i ≤ count) :
    Store.CopiesIn (i * (task.code.measured task.code.period).length) (i * (stop - start))
      start stop ended.store ended'.store := by
  intro t after below
  obtain ⟨a, d, apart, size, atRest, _, kept⟩ := h.apart le
  have twin := atRest.twin.progress.store.ticks t (by rwa [h.start_eq] at after)
  have copies := twin.copies not_false
  rw [apart.handles, h.ticks_apart size] at copies
  have first := (h.kept below).copies.trans copies
  have last := first.trans (kept (t + i * (stop - start)) (by omega)).symm.copies
  rwa [zero_add, add_zero] at last

lemma ending : ended'.store.size = ended.store.size + count * (stop - start) ∧
      ended'.store.qubits = ended.store.qubits ∧
      Store.CopiesIn (count * (task.code.measured task.code.period).length)
        (count * (stop - start)) stop ended.store.size ended.store ended'.store := by
  obtain ⟨a, d, apart, size, atRest, rest, _⟩ := h.apart (le_refl count)
  rw [Nat.sub_self] at rest
  cases rest
  obtain ⟨placed, ends⟩ := h.ends
  obtain ⟨placed', ends'⟩ := h.ends'
  obtain ⟨start₃, stop₃, third⟩ := h.third
  have rests := h.marked.layer h.extractable (h.room (by omega)) third
  have twin := apart.finals h.fault h.started h.words atRest rests.rounds ends ends'
  have store : ended.store.Twin (.lead task s₁ a) 0 ended'.store := twin.progress.store
  refine ⟨?_, store.qubits, ?_⟩
  · rw [← h.ticks_apart size]
    exact store.length not_false
  · intro t after _
    have copies := (store.ticks t (by
      have := h.start_eq
      have := h.nonempty
      change s₁.store.size ≤ t
      omega)).copies not_false
    rwa [apart.handles, h.ticks_apart size] at copies

lemma before : Store.CopiesIn 0 0 0 start ended.store ended'.store := by
  intro t _ below
  have nonempty := h.nonempty
  obtain ⟨start₃, stop₃, third⟩ := h.third
  obtain ⟨placed, ends⟩ := h.ends'
  obtain ⟨mid, start', stop', second, layers⟩ := compileLayers_succ_eq_ok.mp h.layers
  rw [h.second] at second
  cases second
  have early : t < s₁.store.size := by rwa [h.start_eq] at below
  have after := (h.rests_first.after h.extractable Nat.one_pos (h.room (by omega)) h.second).mark
    start stop (count + 1)
  have one := h.rests_first.kept h.extractable h.fault Nat.one_pos h.started (h.fits (by omega))
    h.second layers ends t early
  have begun : 0 < s₂.store.size := h.started.trans_le h.layer.size_le
  have two := after.layer_kept h.marked h.extractable h.fault Nat.two_pos begun
    (le_of_eq h.layer.rounds.symm) (by
      rw [h.marked.rounds, ← Nat.succ_mul]
      exact h.room (by omega)) third t early
  exact (((h.kept (by omega)).trans two).trans one.symm).copies

lemma more : stop < ended.store.size := by
  obtain ⟨start₃, stop₃, third⟩ := h.third
  obtain ⟨placed, ends⟩ := h.ends
  have qubits : s₂.store.qubits = s₁.store.qubits :=
    h.rests_first.qubits_eq h.extractable h.fault Nat.one_pos h.started (h.room (by omega)) h.second
  have apart : s₁.LayersApart task 1 (s₂.mark start stop (count + 1)) :=
    ⟨h.rests_first, h.marked, h.layer.size_le, qubits⟩
  have atRest := apart.atRest h.extractable h.fault h.started (h.room (by omega)) h.second third
  have size : s₃.store.size = s₂.store.size + (s₂.store.size - s₁.store.size) :=
    atRest.twin.progress.store.length not_false
  obtain ⟨moves, ⟨log, effect, _⟩, _⟩ := measureFinals_does ends
  have grown : s₃.store.size ≤ ended.store.size := effect.writes.size_le
  have nonempty := h.nonempty
  rw [h.start_eq, h.stop_eq] at nonempty
  rw [h.stop_eq]
  omega

lemma finished : ∃ placed, s₃.Finished task ended placed := by
  obtain ⟨start₃, stop₃, third⟩ := h.third
  obtain ⟨placed, ends⟩ := h.ends
  have rests := h.marked.layer h.extractable (h.room (by omega)) third
  have pos : 0 < s₃.rounds := by
    rw [rests.rounds]
    exact Nat.mul_pos (Nat.succ_pos _) task.code.period_pos
  exact ⟨placed, (rests.complete.measureFinals_meets pos h.fault).of_ok ends⟩

lemma orders : ended.store.orderIn start stop = (ended.store.orderBelow start).map
        (· + (task.code.measured task.code.period).length) ∧
      ∀ h ∈ ended.store.orderBelow start, h < (task.code.measured task.code.period).length := by
  obtain ⟨start₁, stop₁, first, same⟩ := h.first
  obtain ⟨start₃, stop₃, third⟩ := h.third
  obtain ⟨placed, finished⟩ := h.finished
  have complete := h.prepared.complete
  have rests := h.marked.layer h.extractable (h.room (by omega)) third
  have keys := keysIn_of_sameMeasurements h.extractable complete first h.second same
  have folds := complete.folds h.extractable (by rw [h.prepared.rounds, Nat.zero_mul]) first
    h.second third finished
  exact folds.orders keys (by rw [rests.rounds]; exact h.fits (by omega))

lemma unfolds :
    Store.Unfolds start stop count (task.code.measured task.code.period).length ended.store
      ended'.store where
  ordered := h.nonempty.le
  first := h.before
  middle := fun _ => h.middle
  last := h.ending.2.2
  size := h.ending.1
  inside := h.more.le
  same := h.orders.1
  few := h.orders.2

lemma region : ended.store.region = some ⟨start, stop, count + 1⟩ := by
  obtain ⟨start₃, stop₃, third⟩ := h.third
  obtain ⟨placed, finished⟩ := h.finished
  have layer := h.marked.complete.layer h.extractable third
  exact finished.region.trans layer.region

lemma region_flat : ended'.store.region = none := by
  obtain ⟨start₁, stop₁, first, _⟩ := h.first
  obtain ⟨placed, ends⟩ := h.ends'
  obtain ⟨complete, rounds, region⟩ := (Complete.compileLayers_meets h.extractable (count + 3)
    h.prepared.complete).of_ok (compileLayers_succ_eq_ok.mpr ⟨s₁, start₁, stop₁, first, h.layers⟩)
  have pos : 0 < flat.rounds := by
    rw [rounds]
    exact Nat.lt_of_lt_of_le (Nat.mul_pos (Nat.succ_pos _) task.code.period_pos)
      (Nat.le_add_left ..)
  have finished := (complete.measureFinals_meets pos h.fault).of_ok ends
  exact finished.region.trans (region.trans h.plain)

lemma program (layout : Layout) : Instruction.spoken (ended.store.program layout).unrolled =
      Instruction.spoken (ended'.store.program layout).instructions :=
  h.unfolds.program h.region h.region_flat h.ending.2.1 h.more layout

end Unrolling

end Session

/-- The same compiler, which does or does not write equal layers as a block. -/
def Compiler.withRepeat (c : Compiler) (repeats : Bool) : Compiler :=
  { c with options := { c.options with repeatMiddle := repeats } }

lemma Task.compileLayers_of_placeLayers {task : Task} {s next : Session} {repeated : Bool}
    (off : task.compiler.options.repeatMiddle = false) (pos : 0 < task.request.layers)
    (h : task.placeLayers s = .ok (next, repeated)) :
    s.compileLayers task task.request.layers = .ok next := by
  cases placeLayers_eq_ok pos h with
  | flat run => exact run
  | folded enough =>
    have several : 2 ≤ task.request.layers := by omega
    obtain ⟨⟨s₁, start₁, stop₁⟩, first, h⟩ := of_bind h
    simp only [enough, several, if_true] at h
    obtain ⟨⟨mid, marked⟩, middle, h⟩ := of_bind h
    obtain ⟨_, _, h⟩ := of_bind h
    cases h
    obtain ⟨_, _, middle⟩ := of_bind middle
    obtain ⟨_, _, middle⟩ := of_bind middle
    simp only [off, Bool.and_false, Bool.false_eq_true, if_false] at middle
    obtain ⟨_, _, middle⟩ := of_bind middle
    cases middle

/-- A program with its block written out says what the run without a block does. -/
lemma Task.Runs.spoken_eq {task : Task} {result : Compilation}
    {prepared layered ended flat ended' : Session} {placed : Nat}
    (h : task.Runs result prepared layered ended)
    (words : task.request.layers * task.code.period < Word.half)
    (layers : prepared.compileLayers task task.request.layers = .ok flat)
    (ends : flat.measureFinals task = .ok (ended', placed)) :
    Instruction.spoken result.program.unrolled =
      Instruction.spoken (ended'.store.program task.compiler.options.layout).instructions := by
  have extractable := h.extractable
  obtain ⟨⟨complete, _, plain, _⟩, _⟩ := h.complete
  have finished := h.finished.2
  have measures := h.measures
  have run := h.placed
  rw [h.program_eq]
  generalize result.report.repeated = repeated at run
  cases run with
  | flat run =>
    obtain ⟨_, _, region⟩ :=
      (Session.Complete.compileLayers_meets extractable _ complete).of_ok run
    obtain rfl : flat = layered := Except.ok.inj (layers.symm.trans run)
    rw [measures] at ends
    cases ends
    rw [Store.unrolled_program (finished.region.trans (region.trans plain))]
  | @folded s₁ s₂ _ start₁ stop₁ start₂ stop₂ start₃ stop₃ enough first second nonempty same _
      third =>
      obtain ⟨count, three⟩ : ∃ count, task.request.layers = count + 3 :=
        ⟨_, (Nat.sub_add_cancel enough).symm⟩
      rw [three] at words layers third
      obtain ⟨_, _, _, first', layers⟩ := Session.compileLayers_succ_eq_ok.mp layers
      rw [first] at first'
      cases first'
      have unrolling : Session.Unrolling task count prepared s₁ s₂ layered ended flat ended'
          start₂ stop₂ :=
        { extractable, words, plain, second, nonempty, layers
          fault := h.fault
          prepared := Session.restsAfter_initialise h.prepares
          first := ⟨_, _, first, same⟩
          third := ⟨_, _, third⟩
          ends := ⟨_, measures⟩
          ends' := ⟨_, ends⟩ }
      exact unrolling.program _

namespace Compiler

/-- A block is only an abbreviation: written out, a program with a block for equal layers is the
program without one, apart from detectors that compare nothing. Words have to be large enough to
count all rounds. -/
theorem repeat_abbreviates (c : Compiler) (code : Code) (request : Request)
    {folded flat : Compilation} (words : request.layers * code.period < Word.half)
    (h : (c.withRepeat true).compile code request = .ok folded)
    (h' : (c.withRepeat false).compile code request = .ok flat) :
    Instruction.spoken folded.program.unrolled = Instruction.spoken flat.program.instructions := by
  obtain ⟨prepared, layered, ended, runs⟩ := compile_eq_ok h
  obtain ⟨prepared', layered', ended', runs'⟩ := compile_eq_ok h'
  obtain rfl : prepared' = prepared := Except.ok.inj (runs'.prepares.symm.trans runs.prepares)
  have layers := Task.compileLayers_of_placeLayers rfl
    (Request.fault?_eq_none runs'.fault).1 runs'.places
  -- only the choice between a block and all layers reads the option
  have alike : prepared'.compileLayers ⟨c.withRepeat true, code, request⟩ request.layers =
      prepared'.compileLayers ⟨c.withRepeat false, code, request⟩ request.layers := by
    apply Session.compileLayers_congr
    · rfl
    · exact fun _ => rfl
  rw [runs'.program_eq]
  exact runs.spoken_eq words (alike.trans layers) runs'.measures

end Compiler

namespace PairCode

/-- Three layers as a block. -/
def block : Instruction :=
  .loop 3 [.gate .R [2], .tick, .gate .H [2], .tick, .gate .CZ [2, 0], .tick, .gate .CZ [2, 1],
    .tick, .measure .MX none [.qubit 2], .detector [-2, -1], .tick]

/-- Five layers, the middle three of them as a block. -/
theorem repeat_abbreviates_five :
    ∃ folded flat, ((compiler {}).withRepeat true).compile code { layers := 5 } = .ok folded ∧
      ((compiler {}).withRepeat false).compile code { layers := 5 } = .ok flat ∧
      folded.report.repeated = true ∧ folded.program.instructions[14]?.any block.same = true ∧
      folded.program.instructions.length = 28 ∧ flat.program.instructions.length = 60 ∧
      Instruction.spoken folded.program.unrolled =
        Instruction.spoken flat.program.instructions := by
  have first : (((compiler {}).withRepeat true).compile code { layers := 5 }).toOption.map
      (fun r => (r.report.repeated, r.program.instructions[14]?.any block.same,
        r.program.instructions.length)) = some (true, true, 28) := by
    decide +kernel
  have second : (((compiler {}).withRepeat false).compile code { layers := 5 }).toOption.map
      (·.program.instructions.length) = some 60 := by
    decide +kernel
  obtain ⟨folded, compiled, same⟩ := Outcome.exists_ok_of_map first
  obtain ⟨repeated, same⟩ := Prod.mk.inj same
  obtain ⟨holds, length⟩ := Prod.mk.inj same
  obtain ⟨flat, compiled', length'⟩ := Outcome.exists_ok_of_map second
  exact ⟨folded, flat, compiled, compiled', repeated, holds, length, length',
    Compiler.repeat_abbreviates (compiler {}) code { layers := 5 } (by decide) compiled compiled'⟩

end PairCode

end SyndromeSchedule
