import SyndromeSchedule.Compile.Report
import SyndromeSchedule.Proofs.Rounds

/-!
Layers, final measurements and whole compilations. A layer is made of rounds, so it fails only if
one of them does; what is known of outcomes by round is turned into what is known of them by layer.
-/

namespace SyndromeSchedule

open List Outcome

/-- A log that only writes what observables toggled, each into a tick after its outcomes. -/
lemma Store.Adds.observes {r : Record} {items : List (Nat × Tracker)}
    (after : ∀ e ∈ items, ∀ h ∈ e.2.pending, ∃ key t, r.entry? h = some (key, t) ∧ t ≤ e.1) :
    Store.Adds [] [] (Store.noteLog (Tracker.allNoted items)) r := by
  refine ⟨by simp, by simp [Store.outcomes], ?_, fun e mem => ?_⟩
  · have none : (Tracker.allNoted items).filter (·.2.isDetector) = [] := by
      rw [filter_eq_nil_iff]
      intro e mem
      obtain ⟨i, _, _, rfl⟩ := Tracker.mem_allNoted mem
      exact Bool.false_ne_true
    rw [Store.detectors, Store.notes_noteLog, none]
    exact .nil
  · rw [Store.notes_noteLog] at mem
    obtain ⟨i, inside, _, rfl⟩ := Tracker.mem_allNoted mem
    exact after i inside

lemma FinalDetector.Closes.refers {code : Code} {last : Nat} {finals : Table (Pauli × Nat)}
    {r : Record} {f : FinalDetector} (h : f.Closes code last finals r) {P : Key → Prop}
    (led : ∀ h ∈ f.handles, ∃ key t, r.entry? h = some (key, t) ∧ P key) :
    ∃ keys, r.Refers keys f.note ∧ keys ≠ [] ∧ ∀ key ∈ keys, P key := by
  obtain ⟨keys, handles, same, entries, latest⟩ := h.latest.refers
  cases same
  refine ⟨keys, ⟨_, rfl, entries, latest⟩, ?_, fun key inside => ?_⟩
  · rintro rfl
    exact h.some_handle (forall₂_nil_left_iff.mp entries)
  · obtain ⟨h, listed, t, entry⟩ := exists_right_of_forall₂ entries inside
    obtain ⟨key', t', entry', kind⟩ := led h listed
    rw [entry] at entry'
    cases entry'
    exact kind

/-- A log that only writes detectors of final measurements, with the keys they refer to. -/
lemma Store.Adds.closes {P : Key → Prop} {r : Record} {closing : List FinalDetector}
    (refer : ∀ f ∈ closing, ∃ keys, r.Refers keys f.note ∧ keys ≠ [] ∧ ∀ key ∈ keys, P key) :
    ∃ keys, Store.Adds [] keys (Store.noteLog (closing.map FinalDetector.note)) r ∧
      keys.length = closing.length ∧ ∀ k ∈ keys, k ≠ [] ∧ ∀ key ∈ k, P key := by
  obtain ⟨keys, all⟩ := exists_forall₂ refer
  refine ⟨keys, .refer ?_, all.length_eq, fun k mem => ?_⟩
  · rw [forall₂_map_right_iff]
    exact all.imp fun _ _ h => h.1
  · obtain ⟨f, _, _, kinds⟩ := exists_right_of_forall₂ all mem
    exact kinds

namespace Session

variable {task : Task} {s : Session} {made : List (Check × Nat)}

lemma Complete.compileRounds_meets (extractable : task.Extractable) (n : Nat)
    (complete : s.Complete task) :
    (s.compileRounds task n).Meets Halt.IsExpected fun next =>
      next.Complete task ∧ s.Later next ∧ next.rounds = s.rounds + n := by
  induction n generalizing s with
  | zero => exact meets_ok ⟨complete, .refl s, rfl⟩
  | succ n ih =>
    refine (complete.compileRound_meets extractable).bind ?_
    rintro mid ⟨complete', later, rounds⟩
    refine (ih complete').imp ?_
    rintro next ⟨complete'', later', rounds'⟩
    exact ⟨complete'', later.trans later', by omega⟩

lemma Stable.sound (h : s.Stable made) : s.store.Sound := by
  obtain ⟨keys, _, account⟩ := h.account
  exact account.sound

lemma Safe.flush_meets (safe : s.Safe made) (tick : Nat) (last : s.store.size ≤ tick + 1) :
    (s.progress.flush tick).Bounded fun p => ({ s with progress := p } : Session).Safe made ∧
      s.Leads { s with progress := p } ∧ p.store.record = s.store.record := by
  refine (s.progress.flush_meets tick).imp ?_
  rintro p flushed
  have made := congrArg Progress.store flushed
  have record : p.store.record = s.store.record := by
    rw [made]
    exact Store.record_withNotes ..
  have effect := effect_notes made
  have adds : Store.Adds [] [] (Store.noteLog (Tracker.allNoted
      (s.progress.resolver.trackers.map (tick, ·)))) p.store.record := by
    refine .observes fun e mem h inside => ?_
    obtain ⟨t, listed, rfl⟩ := mem_map.mp mem
    obtain ⟨key, t', entry⟩ := Record.exists_entry (safe.trackers t listed h inside)
    have below := safe.sound.tick_lt_size entry
    exact ⟨key, t', record ▸ entry, by simp only; omega⟩
  have stable := safe.grow effect adds ?_ .inl fun t mem => .inr ?_
  · rw [append_nil] at stable
    have consistent : (⟨s.progress.resolver, p.store⟩ : Progress).Consistent :=
      safe.consistent.congr rfl record
    subst flushed
    exact ⟨⟨stable, { consistent with }⟩, ⟨effect.later (by simp [Store.moves]) rfl, rfl, rfl⟩,
      record⟩
  · rw [append_nil, flushed]
    exact .refl _
  · subst flushed
    obtain ⟨t', _, rfl⟩ := mem_map.mp mem
    rfl

/-- One layer after another session, between two ticks. -/
structure Layer (task : Task) (s next : Session) (start stop : Nat) : Prop where
  complete : next.Complete task
  rounds : next.rounds = s.rounds + task.code.period
  within : s.store.record.Within next.store.record
  start_eq : start = if s.rounds = 0 then 0 else s.store.size
  ordered : start ≤ stop
  stop_le : stop ≤ next.store.size
  size_le : s.store.size ≤ next.store.size
  placed : ∀ {h t : Nat} {key : Key}, next.store.record.entry? h = some (key, t) →
    s.store.record.entry? h = none → start ≤ t ∧ t < stop
  gates : ∀ t < start, (next.store.tickAt t).gates = (s.store.tickAt t).gates
  region : next.store.region = s.store.region

lemma Complete.setLayerStart (h : s.Complete task) (start : Nat) :
    ({ s with layerStart := start } : Session).Complete task :=
  ⟨⟨{ h.safe with enclosed := { h.safe.enclosed with } }, h.safe.consistent⟩, h.plan, h.initial⟩

lemma Complete.congr {next : Session} (h : s.Complete task)
    (safe : next.Safe (task.code.measured s.rounds)) (leads : s.Leads next) :
    next.Complete task where
  safe := by
    rwa [leads.rounds]
  plan := by rw [leads.plan, leads.rounds, h.plan]
  initial := by rw [leads.initial, h.initial]

/-- A layer fails only as expected, and ends with nothing left to resolve. -/
lemma Complete.compileLayer_meets (complete : s.Complete task) (extractable : task.Extractable) :
    (s.compileLayer task).Meets Halt.IsExpected fun r => s.Layer task r.1 r.2.1 r.2.2 := by
  have barrier := complete.safe.enclosed.barrier_eq
  simp only [compileLayer]
  rw [barrier]
  generalize begin : (if s.rounds = 0 then 0 else s.store.size) = start
  have start_le : start ≤ s.store.size := by
    rw [← begin]
    split_ifs <;> omega
  refine (Complete.compileRounds_meets extractable task.code.period
    (complete.setLayerStart start)).bind ?_
  rintro next ⟨complete', later, rounds⟩
  have barrier' := complete'.safe.enclosed.barrier_eq
  have grown : s.store.size ≤ next.store.size := later.size
  rw [barrier']
  have placed : ∀ {h t : Nat} {key : Key}, next.store.record.entry? h = some (key, t) →
      s.store.record.entry? h = none → start ≤ t ∧ t < next.store.size := by
    intro h t key entry none
    exact ⟨later.late entry none, complete'.safe.sound.tick_lt_size entry⟩
  have ordered : start ≤ next.store.size := start_le.trans grown
  split_ifs with nonempty
  · refine (complete'.safe.flush_meets (next.store.size - 1) (by omega)).expected.bind ?_
    rintro p ⟨safe, leads, record⟩
    refine meets_ok ⟨complete'.congr safe leads, leads.rounds.trans rounds, ?_, begin.symm,
      ordered, leads.size, grown.trans leads.size, ?_, ?_, leads.region.trans later.region⟩
    · exact fun entry => leads.within (later.within entry)
    · intro h t key entry none
      have entry : p.store.record.entry? h = some (key, t) := entry
      rw [record] at entry
      exact placed entry none
    · intro t below
      have layerStart : next.layerStart = start := later.layerStart
      rw [leads.gates t (by rw [layerStart]; exact below)]
      exact later.gates t below
  · exact meets_ok ⟨complete', rounds, later.within, begin.symm, ordered,
      le_rfl, grown, placed, later.gates, later.region⟩

lemma Complete.layer (complete : s.Complete task) (extractable : task.Extractable) {next : Session}
    {start stop : Nat} (run : s.compileLayer task = .ok (next, start, stop)) :
    s.Layer task next start stop :=
  (complete.compileLayer_meets extractable).of_ok run

end Session

namespace Store

lemma order_eq (s : Store) {start stop : Nat} (ordered : start ≤ stop)
    (inside : stop ≤ s.size) : s.order start stop = .ok (s.orderIn start stop) := by
  have low : min start s.size = start := min_eq_left (ordered.trans inside)
  have high : min stop s.size = stop := min_eq_left inside
  have ticks : (s.ticks.extract start stop).toList = s.between start stop := by
    rw [← s.between_eq inside, Array.toList_extract, extract_eq_take_drop, drop_take]
  simp only [order, low, high, ordered, if_true, ticks]
  rfl

/-- Keys of the outcomes of some ticks, in the order of the program. -/
def keysIn (s : Store) (start stop : Nat) : List Key :=
  (s.orderIn start stop).filterMap fun h => s.record.entry? h |>.map (·.1)

lemma Sound.entry?_of_mem_orderIn {s : Store} (sound : s.Sound) {start stop h : Nat}
    (mem : h ∈ s.orderIn start stop) :
    ∃ key t, s.record.entry? h = some (key, t) ∧ start ≤ t ∧ t < stop := by
  obtain ⟨_, ticked, here⟩ := mem_flatMap.mp mem
  obtain ⟨t, inside, rfl⟩ := mem_map.mp ticked
  obtain ⟨key, entry⟩ := sound.mem_handlesIn.mp here
  rw [mem_range'_1] at inside
  exact ⟨key, t, entry, by omega, by omega⟩

end Store

def Key.since (base : Int) (key : Key) : Key := { key with round := key.round - base }

namespace Session

variable {s : Session} {start stop : Nat} {task : Task}

lemma measuredFrom_eq (sound : s.store.Sound) (ordered : start ≤ stop)
    (inside : stop ≤ s.store.size) (base : Int) :
    s.measuredFrom start stop base = .ok ((s.store.keysIn start stop).map (Key.since base)) := by
  simp only [measuredFrom, s.store.order_eq ordered inside]
  change (mapM _ _ : Outcome (List Key)) = _
  rw [mapM_eq_ok, Store.keysIn]
  have known : ∀ h ∈ s.store.orderIn start stop,
      ∃ key t, s.store.record.entry? h = some (key, t) := by
    intro h mem
    obtain ⟨key, t, entry, _⟩ := sound.entry?_of_mem_orderIn mem
    exact ⟨key, t, entry⟩
  generalize s.store.orderIn start stop = handles at known
  induction handles with
  | nil => exact .nil
  | cons h rest ih =>
    obtain ⟨key, t, entry⟩ := known h (.head _)
    simp only [filterMap_cons, entry, Option.map_some, map_cons]
    refine .cons ?_ (ih fun h mem => known h (.tail _ mem))
    rw [entry]
    rfl

lemma sameMeasurements_eq (sound : s.store.Sound) {start' stop' : Nat} (ordered : start ≤ stop)
    (inside : stop ≤ s.store.size) (ordered' : start' ≤ stop') (inside' : stop' ≤ s.store.size) :
    s.sameMeasurements task (start, stop) (start', stop') = .ok (decide
      ((s.store.keysIn start stop).map (Key.since 0) =
        (s.store.keysIn start' stop').map (Key.since task.code.period))) := by
  simp only [sameMeasurements, measuredFrom_eq sound ordered inside,
    measuredFrom_eq sound ordered' inside']
  rfl

/-- The session with some ticks repeated. -/
def mark (s : Session) (start stop repetitions : Nat) : Session :=
  s.setStore { s.store with region := some ⟨start, stop, repetitions⟩ }

lemma Complete.mark (complete : s.Complete task) (ordered : start ≤ stop)
    (inside : stop ≤ s.store.size) (repetitions : Nat) :
    (s.mark start stop repetitions).Complete task := by
  obtain ⟨keys, written, log, writes, adds⟩ := complete.safe.account
  refine ⟨⟨⟨⟨keys, written, log, writes, adds⟩, complete.safe.covered,
    { complete.safe.enclosed with }, complete.safe.direct, complete.safe.trackers, ?_⟩, ?_⟩,
    complete.plan, complete.initial⟩
  · intro region here
    cases here
    exact ⟨ordered, inside⟩
  · exact complete.safe.consistent.congr rfl rfl

/-- Layers of a request: all of them one by one, or three of at least three, the second of which
stands for all in the middle. -/
inductive Layered (task : Task) (s₀ : Session) : Session → Bool → Prop where
  | flat {s : Session} (complete : s.Complete task)
      (rounds : s.rounds = s₀.rounds + task.request.layers * task.code.period)
      (region : s.store.region = s₀.store.region) : Layered task s₀ s false
  | folded {s₁ s₂ s₃ : Session} {start₁ stop₁ start₂ stop₂ start₃ stop₃ : Nat}
      (enough : 3 ≤ task.request.layers) (first : s₀.Layer task s₁ start₁ stop₁)
      (second : s₁.Layer task s₂ start₂ stop₂) (nonempty : start₂ < stop₂)
      (same : (s₂.store.keysIn start₁ stop₁).map (Key.since 0) =
        (s₂.store.keysIn start₂ stop₂).map (Key.since task.code.period))
      (third : (s₂.mark start₂ stop₂ (task.request.layers - 2)).Layer task s₃ start₃ stop₃) :
      Layered task s₀ s₃ true

/-- What layers one after the other keep, and for which reasons they may fail. -/
structure Layerwise (task : Task) (reasons : Halt → Prop) (held : Session → Prop) : Prop where
  layer : ∀ {s}, held s → (s.compileLayer task).Meets reasons fun r =>
    held r.1 ∧ s.Layer task r.1 r.2.1 r.2.2
  mark : ∀ {s : Session} {start stop : Nat} (repetitions : Nat), held s → start ≤ stop →
    stop ≤ s.store.size → held (s.mark start stop repetitions)

lemma Complete.layerwise (extractable : task.Extractable) :
    Layerwise task Halt.IsExpected (Complete task) where
  layer := fun complete => (complete.compileLayer_meets extractable).imp
    fun _ layer => ⟨layer.complete, layer⟩
  mark := fun repetitions complete ordered inside => complete.mark ordered inside repetitions

section Layerwise

variable {reasons : Halt → Prop} {held : Session → Prop} (layerwise : Layerwise task reasons held)
include layerwise

lemma Layerwise.compileLayers_meets (n : Nat) (start : held s) :
    (s.compileLayers task n).Meets reasons fun next => held next ∧
      next.rounds = s.rounds + n * task.code.period ∧ next.store.region = s.store.region := by
  induction n generalizing s with
  | zero => exact meets_ok ⟨start, by simp, rfl⟩
  | succ n ih =>
    refine (layerwise.layer start).bind ?_
    rintro ⟨mid, start, stop⟩ ⟨mid_held, layer⟩
    refine (ih mid_held).imp ?_
    rintro next ⟨kept, rounds, region⟩
    refine ⟨kept, ?_, region.trans layer.region⟩
    rw [rounds, layer.rounds, Nat.add_mul]
    omega

/-- The layers after the first, in a row or as one that is marked. -/
lemma Layerwise.compileMiddle_meets {s₀ s₁ : Session} {start₁ stop₁ : Nat} (start : held s₁)
    (first : s₀.Layer task s₁ start₁ stop₁) (enough : 3 ≤ task.request.layers)
    {post : Session × Bool → Prop} (flat : ∀ s, held s →
      s.rounds = s₁.rounds + (task.request.layers - 2) * task.code.period →
      s.store.region = s₁.store.region → post (s, false))
    (folded : ∀ s₂ start₂ stop₂, held s₂ → s₁.Layer task s₂ start₂ stop₂ → start₂ < stop₂ →
      (s₂.store.keysIn start₁ stop₁).map (Key.since 0) =
        (s₂.store.keysIn start₂ stop₂).map (Key.since task.code.period) →
      post (s₂.mark start₂ stop₂ (task.request.layers - 2), true)) :
    (s₁.compileMiddle task (start₁, stop₁)).Meets reasons post := by
  simp only [compileMiddle]
  refine (layerwise.layer start).bind ?_
  rintro ⟨s₂, start₂, stop₂⟩ ⟨kept, (second : s₁.Layer task s₂ start₂ stop₂)⟩
  have inside : stop₁ ≤ s₂.store.size := first.stop_le.trans second.size_le
  simp only [sameMeasurements_eq second.complete.safe.sound first.ordered inside second.ordered
    second.stop_le]
  refine Outcome.Meets.bind (meets_ok rfl) ?_
  rintro _ rfl
  split_ifs with repeats
  · simp only [Bool.and_eq_true, decide_eq_true_eq] at repeats
    have marks : s₂.store.markRepeat start₂ stop₂ (task.request.layers - 2) =
        .ok { s₂.store with region := some ⟨start₂, stop₂, task.request.layers - 2⟩ } := by
      simp [Store.markRepeat, repeats.1.1, second.stop_le]
    rw [marks]
    exact folded s₂ start₂ stop₂ kept second repeats.1.1 repeats.1.2
  · refine (layerwise.compileLayers_meets _ kept).bind ?_
    rintro s ⟨last, rounds, region⟩
    refine meets_ok (flat s last ?_ (region.trans second.region))
    have count : task.request.layers - 2 = task.request.layers - 3 + 1 := by omega
    rw [rounds, second.rounds, count, Nat.add_mul, Nat.one_mul]
    omega

/-- All layers of a task, from what holds of one. -/
lemma Layerwise.placeLayers_meets (start : held s) (pos : 0 < task.request.layers) :
    (task.placeLayers s).Meets reasons fun r => held r.1 ∧ s.Layered task r.1 r.2 := by
  simp only [Task.placeLayers]
  refine (layerwise.layer start).bind ?_
  rintro ⟨s₁, start₁, stop₁⟩ ⟨kept, first⟩
  by_cases enough : 3 ≤ task.request.layers
  · have several : 2 ≤ task.request.layers := by omega
    simp only [enough, several, if_true]
    have middle : (s₁.compileMiddle task (start₁, stop₁)).Meets reasons fun r =>
        (r.1.compileLayer task).Meets reasons fun l => held l.1 ∧ s.Layered task l.1 r.2 := by
      refine layerwise.compileMiddle_meets kept first enough ?_ ?_
      · intro s' before rounds region
        refine (layerwise.layer before).imp ?_
        rintro ⟨s₃, start, stop⟩ ⟨last, layer⟩
        refine ⟨last, .flat layer.complete ?_ (layer.region.trans (region.trans first.region))⟩
        have count : task.request.layers = task.request.layers - 2 + 1 + 1 := by omega
        rw [layer.rounds, rounds, first.rounds]
        conv_rhs => rw [count]
        rw [Nat.add_mul, Nat.add_mul, Nat.one_mul]
        omega
      · intro s₂ start₂ stop₂ before second nonempty same
        refine (layerwise.layer (layerwise.mark _ before second.ordered second.stop_le)).imp ?_
        rintro ⟨s₃, start, stop⟩ ⟨last, third⟩
        exact ⟨last, .folded enough first second nonempty same third⟩
    refine middle.bind ?_
    rintro ⟨mid, repeated⟩ rest
    exact Outcome.Meets.bind rest fun r layered => meets_ok layered
  · simp only [enough, if_false]
    refine Outcome.Meets.bind (meets_ok rfl) ?_
    rintro _ rfl
    split_ifs with two
    · refine (layerwise.layer kept).bind ?_
      rintro ⟨s₂, start, stop⟩ ⟨last, second⟩
      have count : task.request.layers = 2 := by omega
      refine meets_ok ⟨last, .flat second.complete ?_ (second.region.trans first.region)⟩
      rw [second.rounds, first.rounds, count]
      omega
    · have count : task.request.layers = 1 := by omega
      refine meets_ok ⟨kept, .flat first.complete ?_ first.region⟩
      rw [first.rounds, count, Nat.one_mul]

end Layerwise

lemma Complete.compileLayers_meets (extractable : task.Extractable) (n : Nat)
    (complete : s.Complete task) :
    (s.compileLayers task n).Meets Halt.IsExpected fun next => next.Complete task ∧
      next.rounds = s.rounds + n * task.code.period ∧ next.store.region = s.store.region :=
  (Complete.layerwise extractable).compileLayers_meets n complete

end Session

lemma Task.placeLayers_meets {task : Task} (extractable : task.Extractable) {s : Session}
    (complete : s.Complete task) (pos : 0 < task.request.layers) :
    (task.placeLayers s).Meets Halt.IsExpected fun r => s.Layered task r.1 r.2 :=
  ((Session.Complete.layerwise extractable).placeLayers_meets complete pos).imp
    fun _ placed => placed.2

end SyndromeSchedule
