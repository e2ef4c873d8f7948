import SyndromeSchedule.Proofs.Overflow
import SyndromeSchedule.Proofs.TwinEmission

/-!
Noise does not change the experiment. Two compilers that differ in their noise place the same gates
in the same ticks, number qubits alike and file outcomes in the same order, so that their programs
are the same up to noise, and fail for the same reasons. Noise is never the first thing written on a
qubit nor the last thing written in a layer that measures something.
-/

namespace SyndromeSchedule

open List Outcome

variable {is : List Instruction}

namespace Instruction

mutual
/-- An instruction without noise: noise is left out, and so are the flips of measurements. -/
def silence : Instruction → List Instruction
  | noise _ _ _ => []
  | measure g _ ts => [measure g none ts]
  | loop n body => [loop n (silenceList body)]
  | coords q vs => [coords q vs]
  | gate g ts => [gate g ts]
  | detector os => [detector os]
  | observable i os => [observable i os]
  | tick => [tick]
termination_by structural i => i

def silenceList : List Instruction → List Instruction
  | [] => []
  | i :: rest => silence i ++ silenceList rest
termination_by structural is => is
end

lemma silenceList_append (is js : List Instruction) :
    silenceList (is ++ js) = silenceList is ++ silenceList js := by
  induction is with
  | nil => rfl
  | cons i rest ih => rw [cons_append, silenceList, silenceList, ih, append_assoc]

lemma silenceList_singleton (i : Instruction) : silenceList [i] = silence i := append_nil _

/-- Instructions that do not end with noise. -/
def EndsQuiet (is : List Instruction) : Prop :=
  ∀ channel parameters targets, is.getLast? ≠ some (.noise channel parameters targets)

lemma EndsQuiet.append {js : List Instruction} (h : js = [] → EndsQuiet is) (h' : EndsQuiet js) :
    EndsQuiet (is ++ js) := by
  intro channel parameters targets
  rw [getLast?_append]
  cases last : js.getLast? with
  | none => exact h (getLast?_eq_none_iff.mp last) channel parameters targets
  | some i =>
    intro noise
    exact h' channel parameters targets (last.trans noise)

lemma EndsQuiet.cons {i : Instruction}
    (quiet : ∀ channel parameters targets, i ≠ .noise channel parameters targets)
    (h : EndsQuiet is) : EndsQuiet (i :: is) := by
  have one : EndsQuiet [i] := by
    intro channel parameters targets last
    exact quiet channel parameters targets (Option.some.inj last)
  exact .append (fun _ => one) h

lemma endsQuiet_nil : EndsQuiet [] := by
  intro channel parameters targets last
  cases last

lemma silenceList_dropLastTick (quiet : EndsQuiet is) :
    silenceList (Store.dropLastTick is) = Store.dropLastTick (silenceList is) := by
  rcases eq_nil_or_concat is with rfl | ⟨rest, i, rfl⟩
  · rfl
  · rw [concat_eq_append] at quiet ⊢
    have tail : ∀ j : Instruction, silence i = [j] →
        silenceList (rest ++ [i]) = silenceList rest ++ [j] := by
      intro j only
      rw [silenceList_append, silenceList_singleton, only]
    cases i with
    | tick =>
      rw [tail .tick rfl]
      simp [Store.dropLastTick]
    | noise channel parameters targets =>
      exact absurd getLast?_concat (quiet channel parameters targets)
    | _ =>
      rw [tail _ rfl]
      simp [Store.dropLastTick, tail _ rfl]

end Instruction

/-- A program without noise. -/
def Program.silenced (p : Program) : Program := ⟨Instruction.silenceList p.instructions⟩

namespace Store

open Instruction

variable {k : Comparison} {top : Nat} {s s' : Store}

lemma silenceList_emitNoise (noise : List NoiseOp) : silenceList (emitNoise noise) = [] := by
  unfold emitNoise
  induction noiseGroups noise with
  | nil => rfl
  | cons ops rest ih =>
    cases ops <;> exact ih

lemma silenceList_groups {gs gs' : List (List GateOp)}
    (h : Forall₂ (Forall₂ (TwinGates k)) gs gs') :
    silenceList (gs'.flatMap groupInstructions) = silenceList (gs.flatMap groupInstructions) := by
  induction h with
  | nil => rfl
  | @cons g g' rest rest' group _ ih =>
    rw [flatMap_cons, flatMap_cons, silenceList_append, silenceList_append, ih]
    congr 1
    have targets := targetsOf_twin group
    have indices := indices_twin group
    cases group with
    | nil => rfl
    | cons first _ =>
      rw [groupInstructions, groupInstructions, targets, indices, first.2.gate]
      split_ifs <;> rfl

lemma silenceList_tick {t t' : Tick} (h : t.Twin k t') (strict : k.strict)
    (regular : ∀ op ∈ t.gates, Regular op) (order : List Nat) :
    silenceList (tickInstructions order t') = silenceList (tickInstructions order t) := by
  unfold tickInstructions
  simp only [silenceList_append, silenceList_emitNoise, h.notes strict,
    silenceList_groups (twin_gateGroups h regular)]

lemma silenceList_ticks {ts ts' : List Tick} (h : Forall₂ (Tick.Twin k) ts ts')
    (strict : k.strict) (regular : ∀ t ∈ ts, ∀ op ∈ t.gates, Regular op) (order : List Nat) :
    silenceList (ticksInstructions order ts') = silenceList (ticksInstructions order ts) := by
  induction h generalizing order with
  | nil => rfl
  | @cons t t' rest rest' first _ ih =>
    have here := regular t (.head _)
    have handles : handlesIn t' = handlesIn t := by
      rw [handlesIn_twin first here, (k.still strict).2.2.1]
      exact map_id _
    rw [ticksInstructions, ticksInstructions, handles, silenceList_append, silenceList_append,
      silenceList_tick first strict here, silenceList, silenceList,
      ih fun u mem => regular u (mem_cons_of_mem _ mem)]

lemma endsQuiet_ticks (order : List Nat) (ts : List Tick) :
    EndsQuiet (ticksInstructions order ts) := by
  induction ts generalizing order with
  | nil => exact endsQuiet_nil
  | cons t rest ih =>
    apply EndsQuiet.append (fun none => absurd none (cons_ne_nil _ _))
    exact (ih _).cons fun _ _ _ same => Instruction.noConfusion same

lemma endsQuiet_coords (s : Store) : EndsQuiet s.emitCoords := by
  unfold emitCoords
  induction s.qubits.zipIdx with
  | nil => exact endsQuiet_nil
  | cons e rest ih => exact ih.cons fun _ _ _ => nofun

lemma endsQuiet_body (s : Store) : EndsQuiet s.bodyInstructions := by
  unfold bodyInstructions stretch
  cases s.region with
  | none => exact endsQuiet_ticks _ _
  | some region =>
    apply EndsQuiet.append fun _ => endsQuiet_ticks _ _
    exact (endsQuiet_ticks _ _).cons fun _ _ _ => nofun

lemma silenceList_stretch (h : s.Twin k top s') (strict : k.strict) (sound : s.Sound)
    (start stop : Nat) :
    silenceList (s'.stretch start stop) = silenceList (s.stretch start stop) := by
  obtain ⟨ticks, _, handles, _, base, _⟩ := k.still strict
  have each : ∀ t, (s.tickAt t).Twin k (s'.tickAt t) := by
    intro t
    have twin := h.ticks t (by omega)
    rwa [ticks] at twin
  have order : s'.orderBelow start = s.orderBelow start := by
    unfold orderBelow
    congr 1
    funext t
    rw [handlesIn_twin (each t) fun op mem => sound.regular mem, handles]
    exact map_id _
  have between : Forall₂ (Tick.Twin k) (s.between start stop) (s'.between start stop) := by
    unfold Store.between
    rw [forall₂_map_left_iff, forall₂_map_right_iff, forall₂_same]
    exact fun t _ => each t
  unfold stretch
  rw [order]
  exact silenceList_ticks between strict (sound.regular_between start stop) _

lemma silenced_program (h : s.Twin k top s') (strict : k.strict) (sound : s.Sound)
    (sizes : s'.size = s.size) (layout : Layout) :
    (s'.program layout).silenced = (s.program layout).silenced := by
  have stretches := silenceList_stretch h strict sound
  have body : silenceList s'.bodyInstructions = silenceList s.bodyInstructions := by
    unfold bodyInstructions
    rw [h.region strict, sizes]
    cases s.region with
    | none => exact stretches 0 s.size
    | some region =>
      simp only [silenceList_append, silenceList, silence, stretches]
  have coords : s'.emitCoords = s.emitCoords := by
    unfold emitCoords
    rw [h.qubits]
  have quiet : ∀ s : Store,
      EndsQuiet ((if layout.coords then s.emitCoords else []) ++ s.bodyInstructions) := by
    intro s
    split_ifs
    · exact .append (fun _ => s.endsQuiet_coords) s.endsQuiet_body
    · exact s.endsQuiet_body
  have all : silenceList ((if layout.coords then s'.emitCoords else []) ++ s'.bodyInstructions) =
      silenceList ((if layout.coords then s.emitCoords else []) ++ s.bodyInstructions) := by
    rw [silenceList_append, silenceList_append, body, coords]
  unfold program Program.silenced
  simp only
  by_cases trailing : layout.trailingTick = true
  · rw [if_pos trailing, if_pos trailing, all]
  · rw [if_neg trailing, if_neg trailing, silenceList_dropLastTick (quiet s'),
      silenceList_dropLastTick (quiet s), all]

end Store

/-- Two runs from the start that may differ in their noise. -/
def Comparison.ofNoise (noise noise' : NoiseModel) : Comparison where
  strict := True
  ticks := 0
  rounds := 0
  handles := 0
  ids := 0
  base := 0
  first := 0
  since := 0
  oldest := 0
  low := 0
  origin := {}
  known := fun _ => True
  flip := noise.flip?
  flip' := noise'.flip?
  still := fun _ => ⟨rfl, rfl, rfl, rfl, rfl, Int.le_refl 0⟩
  low_le := Nat.le_refl 0
  flip_eq := fun loose => absurd trivial loose

lemma Comparison.reads_ofNoise (noise noise' : NoiseModel) (code : Code) (round : Nat) :
    (ofNoise noise noise').Reads code round :=
  ⟨⟨(Int.add_zero _).symm, .inl trivial⟩, .inl trivial, Nat.zero_le round⟩

namespace Task

variable {task : Task} {other : Compiler}

lemma comparable_ofNoise (same : other.extractor = task.compiler.extractor) :
    task.Comparable (.ofNoise task.compiler.noise other.noise) other where
  extractor := same
  flip := rfl
  flip' := rfl
  noise := fun loose => absurd trivial loose
  divides := Nat.dvd_zero _
  data := fun _ => trivial
  ancilla := fun _ _ => trivial
  positive := fun loose => absurd trivial loose

lemma checkExtraction_over (same : other.extractor = task.compiler.extractor) :
    (task.over other).checkExtraction = task.checkExtraction := by
  unfold checkExtraction
  simp only [extractRound_over same]
  rfl

/-- Before the first gate, sessions with different noise are in step. -/
lemma inStep_session (task : Task) (noise noise' : NoiseModel) :
    task.session.InStep (.ofNoise noise noise') task.code task.session := by
  let k := Comparison.ofNoise noise noise'
  have store : Store.Twin k 1 {} {} := by
    refine ⟨rfl, fun t _ => Tick.twin_empty _, ?_, ?_, fun _ => rfl, ?_, rfl, ?_, le_refl 0,
      fun _ => Nat.zero_le _, fun _ => rfl⟩
    · exact ⟨[], [], rfl, .nil, rfl, fun _ none => (nomatch none)⟩
    · exact fun entry => (nomatch entry)
    · exact fun t below => (nomatch below)
    · exact fun loose => absurd trivial loose
  have started : ∀ t ∈ Tracker.startAll task.request.observables, t.pending = [] := by
    intro t mem
    obtain ⟨e, _, rfl⟩ := mem_map.mp mem
    rfl
  have trackers : (Tracker.startAll task.request.observables).map (Tracker.later 0) =
      Tracker.startAll task.request.observables := by
    rw [map_congr_left fun t _ => t.later_zero, map_id']
  have progress : task.session.progress.Twin k 1 task.session.progress := by
    refine ⟨store, ?_, ?_, fun loose => absurd trivial loose⟩
    · exact ⟨rfl, le_refl 0, fun _ _ => rfl, fun _ found => (nomatch found), fun _ => rfl,
        fun _ _ none => (nomatch none), rfl, trackers.symm, fun _ _ => Nat.dvd_zero _,
        fun _ => rfl⟩
    · intro t mem n inside
      rw [started t mem] at inside
      cases inside
  have occupancy : task.session.occupancy.Twin k task.code task.session.occupancy := by
    refine ⟨fun _ _ => rfl, ?_⟩
    intro q t t' _ late
    rfl
  exact
    { progress
      occupancy
      lastUse := fun _ => .none
      ancillaFloor := fun _ => Comparison.agree_zero
      direct := fun _ => rfl
      filed := fun found => (nomatch found)
      layerStart := rfl
      base_le := le_refl 0
      rounds := rfl
      used := fun found => (nomatch found)
      living := fun alive => (nomatch alive)
      dataFloor := fun _ => Comparison.agree_zero
      firstUse := fun _ => rfl
      begun := fun found => (nomatch found)
      room := fun _ => Nat.zero_lt_of_lt (by decide : 0 < Store.maxTicks) }

end Task

/-! Runs with two kinds of noise, step by step. -/

/-- Another compiler that may have other noise, for a task that measures something. -/
structure Task.Rivals (task : Task) (other : Compiler) : Prop where
  extractor : other.extractor = task.compiler.extractor
  options : other.options = task.compiler.options
  fault : task.request.fault? task.code = none
  extractable : task.Extractable
  busy : ∃ round, task.code.checksIn round ≠ []

lemma Session.size_pos_of_initialise {task : Task} {s : Session}
    (busy : ∃ round, task.code.checksIn round ≠ [])
    (h : task.session.initialise task = .ok s) : 0 < s.store.size := by
  obtain ⟨round, scheduled⟩ := busy
  obtain ⟨c, mem⟩ := exists_mem_of_ne_nil _ scheduled
  obtain ⟨m, first⟩ := exists_mem_of_ne_nil _ c.members_ne_nil
  have data := task.code.isData_of_mem mem (mem_map_of_mem first)
  have moved : (⟨0, .R, [m.qubit], [], none⟩ : Move) ∈ initialMoves task := by
    apply mem_append_left
    apply mem_flatMap.mpr
    exact ⟨m.qubit, (task.code.mem_dataQubits _).mpr data, mem_singleton_self _⟩
  exact ((initialise_places task task.session).result h).does.tick_lt moved

namespace Session

/-- Two runs with different noise between layers. -/
structure Paired (task : Task) (other : Compiler) (s s' : Session) : Prop where
  atRest : s.TwinAtRest (.ofNoise task.compiler.noise other.noise) task other s'
  follows : s.Follows task
  moves : s.rounds ≠ 0 → ∀ round, task.Moves round

variable {task : Task} {other : Compiler} {s s' : Session}

lemma Paired.follows' (h : s.Paired task other s') : s'.Follows (task.over other) := by
  have trackers := h.atRest.twin.progress.resolver.trackers
  have same : (s.progress.resolver.trackers.map (Tracker.later 0)) =
      s.progress.resolver.trackers := by
    rw [map_congr_left fun t _ => t.later_zero, map_id']
  have rounds : s'.rounds = s.rounds := h.atRest.twin.rounds
  change s'.progress.resolver.trackers = s.progress.resolver.trackers.map (Tracker.later 0)
    at trackers
  rw [same] at trackers
  constructor
  · rw [trackers]
    exact h.follows.observed
  · rw [trackers, rounds]
    exact h.follows.current

lemma initialise_inStep (same : other.extractor = task.compiler.extractor) :
    (task.session.initialise task).Along True
      (InStep (.ofNoise task.compiler.noise other.noise) task.code)
      (task.session.initialise (task.over other)) := by
  have alike := Task.comparable_ofNoise same
  have started := Task.inStep_session task task.compiler.noise other.noise
  have resets : (task.code.dataQubits.foldlM (fun (s : Session) q => s.reset task 0 q)
      task.session).Along True (InStep (.ofNoise task.compiler.noise other.noise) task.code)
      (task.code.dataQubits.foldlM (fun (s : Session) q => s.reset (task.over other) 0 q)
        task.session) := by
    refine Outcome.Along.foldlM_same (fun q _ s s' before => ?_) started
    exact reset_along before alike (Nat.zero_le 0) trivial
  unfold initialise
  refine resets.bind fun mid mid' before => ?_
  refine Outcome.Along.foldlM_same (fun q _ s s' before => ?_) before
  exact singleIf_along before alike (Nat.zero_le 1) _ trivial

lemma initialise_paired (same : other.extractor = task.compiler.extractor)
    (busy : ∃ round, task.code.checksIn round ≠ []) :
    (task.session.initialise task).Along True (Paired task other)
      (task.session.initialise (task.over other)) := by
  refine (initialise_inStep same).strengthen fun s s' run run' twin => ?_
  obtain ⟨complete, rounds, _, start⟩ := (initialise_meets task).of_ok run
  obtain ⟨complete', _, _, start'⟩ := (initialise_meets (task.over other)).of_ok run'
  have busy' : ∃ round, (task.over other).code.checksIn round ≠ [] := busy
  have sizes := twin.sizes_of_lt (fun _ => start ▸ size_pos_of_initialise busy run)
    fun _ => start' ▸ size_pos_of_initialise busy' run'
  exact ⟨⟨twin.toTwin.setTop sizes 0, complete, complete'⟩, (follows_initialise run rounds).1,
    fun some => absurd rounds some⟩

variable (h : s.Paired task other s')
include h

/-- A layer starts in the same tick with any noise. If there is no room for it, both runs fail. -/
theorem Paired.compileLayer (rivals : task.Rivals other) :
    (s.compileLayer task).Along True
      (fun r r' => r.1.Paired task other r'.1 ∧ r'.2 = r.2 ∧ s.Layer task r.1 r.2.1 r.2.2)
      (s'.compileLayer (task.over other)) := by
  obtain ⟨same, _, fault, extractable, busy⟩ := rivals
  have alike := Task.comparable_ofNoise same
  have starts := (h.atRest.nextStart fun loose => absurd trivial loose).1
  rcases lt_or_ge s.nextStart Store.maxTicks with room | past
  · refine (compileLayer_along h.atRest alike extractable (fun _ => busy)
      (fun loose => absurd trivial loose) (fun _ => room)
      fun r _ _ => Comparison.reads_ofNoise _ _ _ r).strengthen ?_
    rintro ⟨next, start, stop⟩ ⟨next', start', stop'⟩ run run' ⟨atRest, same_start, same_stop⟩
    have followed := h.follows.layer run
    obtain ⟨stages, placed, _⟩ := compileLayer_stages run
    have moved := h.follows.moves_of_stages placed
    have layer := h.atRest.complete.layer extractable run
    refine ⟨⟨atRest, followed, fun _ round => ?_⟩, Prod.ext same_start same_stop, layer⟩
    by_cases first : s.rounds = 0
    · rw [layer.rounds, first, Nat.zero_add] at moved
      exact Task.moves_of_period fault (fun r before => moved r (Nat.zero_le r) before) round
    · exact h.moves first round
  · have begun : s.rounds ≠ 0 := by
      intro none
      unfold Session.nextStart at past
      rw [if_pos none] at past
      exact absurd past (by decide)
    have past' : Store.maxTicks ≤ s'.nextStart := by
      rwa [starts]
    rw [compileLayer_past extractable h.atRest.complete past h.follows (h.moves begun) busy,
      compileLayer_past (extractable.over same) h.atRest.complete' past' h.follows'
        (h.moves begun) busy]
    exact along_error fun _ => rfl

omit h in
lemma Paired.compileLayers (n : Nat) (h : s.Paired task other s') (rivals : task.Rivals other) :
    (s.compileLayers task n).Along True (Paired task other)
      (s'.compileLayers (task.over other) n) := by
  induction n generalizing s s' with
  | zero => exact along_ok h
  | succ n ih =>
    refine (h.compileLayer rivals).bind ?_
    rintro ⟨next, _⟩ ⟨next', _⟩ ⟨paired, _⟩
    exact ih paired

lemma Paired.size_eq : s'.store.size = s.store.size :=
  h.atRest.twin.sizes

lemma Paired.mark {start stop : Nat} (ordered : start ≤ stop) (inside : stop ≤ s.store.size)
    (repetitions : Nat) :
    (s.mark start stop repetitions).Paired task other (s'.mark start stop repetitions) := by
  have inside' : stop ≤ s'.store.size := h.size_eq ▸ inside
  refine ⟨⟨?_, h.atRest.complete.mark ordered inside repetitions,
    h.atRest.complete'.mark ordered inside' repetitions⟩,
    { h.follows with }, h.moves⟩
  apply h.atRest.twin.setStore
  · exact { h.atRest.twin.progress.store with region := fun _ => rfl }
  · exact ⟨le_rfl, fun _ mem => mem, fun entry => entry⟩

lemma Paired.sameMeasurements {first second : Nat × Nat} (ordered : first.1 ≤ first.2)
    (inside : first.2 ≤ s.store.size) (ordered' : second.1 ≤ second.2)
    (inside' : second.2 ≤ s.store.size) :
    ∃ same, s.sameMeasurements task first second = .ok same ∧
      s'.sameMeasurements (task.over other) first second = .ok same := by
  have sound := h.atRest.complete.safe.sound
  have keys : ∀ start stop, s'.store.keysIn start stop = s.store.keysIn start stop := by
    intro start stop
    have twin := Store.keysIn_twin h.atRest.twin.progress.store sound (Nat.zero_le start) stop
    exact twin.trans ((congrArg (map · _) Key.later_zero).trans (map_id _))
  have here : s.sameMeasurements task first second = _ :=
    sameMeasurements_eq sound ordered inside ordered' inside'
  have there : s'.sameMeasurements (task.over other) first second = _ :=
    sameMeasurements_eq h.atRest.complete'.safe.sound ordered (h.size_eq ▸ inside) ordered'
      (h.size_eq ▸ inside')
  rw [keys, keys] at there
  exact ⟨_, here, there⟩

/-- Noise has no part in whether a layer is marked. -/
lemma Paired.compileMiddle (rivals : task.Rivals other) {first : Nat × Nat}
    (ordered : first.1 ≤ first.2) (inside : first.2 ≤ s.store.size) :
    (s.compileMiddle task first).Along True (fun r r' => r.1.Paired task other r'.1 ∧ r'.2 = r.2)
      (s'.compileMiddle (task.over other) first) := by
  unfold Session.compileMiddle
  refine (h.compileLayer rivals).bind ?_
  rintro ⟨next, start, stop⟩ ⟨next', _⟩ ⟨paired, rfl, layer⟩
  obtain ⟨same, here, there⟩ := paired.sameMeasurements ordered
    (inside.trans layer.size_le) layer.ordered layer.stop_le
  have options : (task.over other).compiler.options = task.compiler.options := rivals.options
  simp only [here, there, options]
  by_cases folds : (start < stop && same && task.compiler.options.repeatMiddle) = true
  · have nonempty : start < stop := by
      simp only [Bool.and_eq_true, decide_eq_true_eq] at folds
      exact folds.1.1
    have marks : ∀ store : Store, store.size = next.store.size →
        store.markRepeat start stop (task.request.layers - 2) =
          .ok { store with region := some ⟨start, stop, task.request.layers - 2⟩ } := by
      intro store size
      unfold Store.markRepeat
      rw [size, if_pos (by simpa using ⟨nonempty, layer.stop_le⟩)]
    change Outcome.Along True _ (if _ then _ else _) (if _ then _ else _)
    have there : next'.store.markRepeat start stop ((task.over other).request.layers - 2) = _ :=
      marks next'.store paired.size_eq
    rw [if_pos folds, if_pos folds, marks _ rfl, there]
    exact ⟨paired.mark layer.ordered layer.stop_le _, rfl⟩
  · change Outcome.Along True _ (if _ then _ else _) (if _ then _ else _)
    rw [if_neg folds, if_neg folds]
    refine (paired.compileLayers _ rivals).bind fun last last' done => ?_
    exact ⟨done, rfl⟩

lemma Paired.placeLayers (rivals : task.Rivals other) :
    (task.placeLayers s).Along True (fun r r' => r.1.Paired task other r'.1 ∧ r'.2 = r.2)
      ((task.over other).placeLayers s') := by
  unfold Task.placeLayers
  refine (h.compileLayer rivals).bind ?_
  rintro ⟨one, start, stop⟩ ⟨one', _⟩ ⟨paired, rfl, layer⟩
  have last : ∀ {two two' : Session} (repeated : Bool), two.Paired task other two' →
      (if 2 ≤ task.request.layers then two.compileLayer task >>= fun r => pure (r.1, repeated)
        else pure (two, repeated) : Outcome (Session × Bool)).Along True
        (fun r r' => r.1.Paired task other r'.1 ∧ r'.2 = r.2)
        (if 2 ≤ task.request.layers then
          two'.compileLayer (task.over other) >>= fun r => pure (r.1, repeated)
        else pure (two', repeated)) := by
    intro two two' repeated paired
    split_ifs
    · refine (paired.compileLayer rivals).bind ?_
      rintro ⟨three, _⟩ ⟨three', _⟩ ⟨paired, _⟩
      exact ⟨paired, rfl⟩
    · exact ⟨paired, rfl⟩
  have layers : (task.over other).request.layers = task.request.layers := rfl
  simp only [layers]
  by_cases enough : 3 ≤ task.request.layers
  · rw [if_pos enough, if_pos enough]
    refine (paired.compileMiddle rivals layer.ordered layer.stop_le).bind ?_
    rintro ⟨two, repeated⟩ ⟨two', _⟩ ⟨paired, rfl⟩
    exact last _ paired
  · rw [if_neg enough, if_neg enough]
    exact last false paired

end Session

namespace Session

variable {task : Task} {other : Compiler} {s s' : Session}

lemma barrier_measureFinals {next : Session} {placed : Nat}
    (run : s.measureFinals task = .ok (next, placed)) (enclosed : s.Enclosed) :
    next.barrier = next.store.size := by
  obtain ⟨moves, does, _⟩ := measureFinals_does run
  exact (does.enclosed enclosed).barrier_eq

end Session

lemma Resolver.instances_ofNoise {noise noise' : NoiseModel} {r r' : Resolver}
    (h : r.Twin (.ofNoise noise noise') r') : r'.instances = r.instances := by
  apply Array.ext_getElem?
  intro id
  have same := h.instances id (Nat.zero_le id)
  change r'.instances[id]? = r.instances[id]?.map (Instance.later 0) at same
  rw [same]
  cases r.instances[id]? with
  | none => rfl
  | some i => exact congrArg some i.later_zero

/-- Tasks that differ in their noise alone are scheduled alike. -/
lemma Task.schedule_paired {task : Task} {other : Compiler}
    (extractor : other.extractor = task.compiler.extractor)
    (options : other.options = task.compiler.options)
    (fault : task.request.fault? task.code = none)
    (busy : ∃ round, task.code.checksIn round ≠ []) :
    task.schedule.Along True
      (fun r r' => r.1.Twin (.ofNoise task.compiler.noise other.noise) 0 r'.1 ∧
        r'.1.size = r.1.size ∧ r'.2 = r.2)
      (task.over other).schedule := by
  unfold schedule
  rw [checkExtraction_over extractor]
  cases extraction : task.checkExtraction with
  | error halt => exact along_error fun _ => rfl
  | ok done =>
    have extractable := (checkExtraction_meets task).of_ok extraction
    have rivals : task.Rivals other := ⟨extractor, options, fault, extractable, busy⟩
    have pos := (Request.fault?_eq_none fault).1
    refine (Session.initialise_paired extractor busy).bind fun s s' paired => ?_
    refine ((paired.placeLayers rivals).meets
      (placeLayers_meets extractable paired.atRest.complete pos)
      (placeLayers_meets (extractable.over extractor) paired.atRest.complete' pos)).bind ?_
    rintro ⟨s, repeated⟩ ⟨s', _⟩ ⟨⟨paired, rfl⟩, layered, layered'⟩
    have rounds := layered.rounds_pos pos
    have enclosed := paired.atRest.complete.safe.enclosed
    have enclosed' := paired.atRest.complete'.safe.enclosed
    have ends := Session.measureFinals_along paired.atRest (comparable_ofNoise extractor) fault
      rounds rounds (.inl trivial) fun r _ _ => (Comparison.reads_ofNoise _ _ task.code r).counts
    refine (ends.strengthen
      (S := fun r r' => r.1.Twin (.ofNoise task.compiler.noise other.noise) 0 task.code r'.1 ∧
        r'.2 = r.2 ∧ r.1.barrier = r.1.store.size ∧ r'.1.barrier = r'.1.store.size) ?_).bind ?_
    · rintro ⟨next, placed⟩ ⟨next', placed'⟩ run run' ⟨twin, same⟩
      exact ⟨twin, same, Session.barrier_measureFinals run enclosed,
        Session.barrier_measureFinals run' enclosed'⟩
    · rintro ⟨next, placed⟩ ⟨next', _⟩ ⟨twin, rfl, barrier, barrier'⟩
      have resolver := twin.progress.resolver
      have instances := Resolver.instances_ofNoise resolver
      have finishes : next'.progress.resolver.finish = next.progress.resolver.finish := by
        unfold Resolver.finish Resolver.unresolved?
        rw [instances]
      have reports : next'.progress.resolver.report = next.progress.resolver.report := by
        unfold Resolver.report
        rw [instances]
      have stores : next'.store.size = next.store.size := twin.sizes
      have ticks : next'.barrier = next.barrier := by rw [barrier, barrier', stores]
      have counted : next'.rounds = next.rounds := twin.rounds
      have measured : next'.store.record.size = next.store.record.size :=
        twin.progress.store.record.size
      have discarded : next'.progress.resolver.discarded = next.progress.resolver.discarded :=
        resolver.discarded trivial
      simp only [finishes, reports, ticks, counted, measured, discarded]
      refine (along_of_eq (S := fun _ _ => True) (fun _ => rfl)
        fun _ _ _ _ => trivial).bind fun _ _ _ => ?_
      exact ⟨twin.progress.store, stores, rfl⟩

/-- A program without its noise, and the report on it. -/
def Compilation.experiment (r : Compilation) : Program × Report := (r.program.silenced, r.report)


lemma Compiler.compile_over (c other : Compiler) (extractor : other.extractor = c.extractor)
    (options : other.options = c.options) {code : Code}
    (busy : ∃ round, code.checksIn round ≠ []) (request : Request) :
    (c.compile code request).Along True (fun r r' => r'.experiment = r.experiment)
      (other.compile code request) := by
  unfold compile
  cases fault : request.fault? code with
  | some cause => exact along_error fun _ => rfl
  | none =>
    let task : Task := ⟨c, code, request⟩
    have paired : task.schedule.Along True _ (task.over other).schedule :=
      (Task.schedule_paired extractor options fault busy).meets
        (Task.schedule_meets fault) (Task.schedule_meets fault)
    refine paired.bind ?_
    rintro ⟨store, report⟩ ⟨store', _⟩ ⟨⟨twin, sizes, rfl⟩, emissible, emissible'⟩
    have emits := emissible.emit_eq c.options.layout
    have emits' := emissible'.emit_eq c.options.layout
    simp only at emits emits'
    simp only [options, emits, emits']
    exact Prod.ext (Store.silenced_program twin trivial emissible.sound sizes _) rfl

/-- Noise does not change the experiment. For a code that measures something, two compilers that
differ in their noise alone both fail, and for the same reason, or both succeed, with the same
report and with programs that are the same once noise and flips of outcomes are left out. -/
theorem Compiler.compile_noise_irrelevant (extractor : Extractor) (options : Options)
    (noise noise' : NoiseModel) (sound : noise.fault? = none) (sound' : noise'.fault? = none)
    (code : Code) (busy : ∃ round, code.checksIn round ≠ []) (request : Request) :
    ((⟨noise, extractor, options, sound⟩ : Compiler).compile code request).map
        Compilation.experiment =
      ((⟨noise', extractor, options, sound'⟩ : Compiler).compile code request).map
        Compilation.experiment := by
  let c : Compiler := ⟨noise, extractor, options, sound⟩
  let c' : Compiler := ⟨noise', extractor, options, sound'⟩
  have along := compile_over c c' rfl rfl busy request
  change (c.compile code request).map _ = (c'.compile code request).map _
  generalize c.compile code request = x, c'.compile code request = x' at along
  cases x with
  | ok r =>
    cases x' with
    | ok r' => exact congrArg Except.ok along.symm
    | error halt => exact absurd trivial along
  | error halt =>
    cases x' with
    | ok r' => exact absurd trivial along
    | error halt' => exact congrArg Except.error (along trivial)

/-- Depolarizing noise everywhere, against none. -/
theorem PairCode.compile_noise_irrelevant_depolarizing :
    (NoiseModel.standardDepolarizing .one).fault? = none ∧
      (NoiseModel.standardDepolarizing .one).flip? = some .one ∧
      (∃ round, code.checksIn round ≠ []) ∧
      ((compiler {}).compile code { layers := 4 }).map Compilation.experiment =
        ((⟨.standardDepolarizing .one, {}, {}, by decide⟩ : Compiler).compile code
          { layers := 4 }).map Compilation.experiment :=
  ⟨by decide, by decide, ⟨0, by decide⟩,
    Compiler.compile_noise_irrelevant {} {} .noiseless (.standardDepolarizing .one)
      NoiseModel.noiseless_sound (by decide) code ⟨0, by decide⟩ { layers := 4 }⟩

end SyndromeSchedule
