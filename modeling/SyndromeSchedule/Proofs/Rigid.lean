import Mathlib.Order.Bounds.Basic
import SyndromeSchedule.Proofs.Succession

/-!
The grid of a round is rigid and as early as it can be. Earlier rounds leave nothing on a qubit from
its floor on, so no search for a free tick has to go past the tick it starts from: ancillas are
reset and prepared at once, the grid starts in the first tick that its data qubits and ancillas
allow, and every ancilla is measured right after its last slot.
-/

namespace SyndromeSchedule

open List Outcome

/-- A gate of a store acts on a qubit in a tick. -/
def Store.ActsOn (s : Store) (t : Nat) (q : Qubit) : Prop :=
  ∃ g ∈ ({} : Store).addedIn s t, q ∈ g.2

/-- A qubit is measured by itself in a tick. -/
def Store.MeasuresAlone (s : Store) (t : Nat) (q : Qubit) : Prop :=
  ∃ g ∈ ({} : Store).addedIn s t, g.1.isMeasurement = true ∧ g.2 = [q]

/-- One past the last measurement of a qubit to which nothing was done since, or zero if nothing was
done to it at all. -/
def Store.ReopensAt (s : Store) (q : Qubit) (n : Nat) : Prop :=
  (∀ t, s.ActsOn t q → t < n) ∧ (n = 0 ∨ ∃ t, n = t + 1 ∧ s.MeasuresAlone t q)

namespace Session

open Extracted

variable {o : Occupancy} {i : Interaction} {es : List Extracted} {start t ready n : Nat}
  {q : Qubit} {e : Extracted}

lemma freeBefore_eq_true {tick : Nat} (pos : 0 < tick)
    (free : i.before.isSome = true → o.isFree (tick - 1) i.data = true) :
    freeBefore o tick i = .ok true := by
  unfold freeBefore
  split
  · rfl
  · next gate found =>
      obtain ⟨n, rfl⟩ := Nat.exists_eq_add_of_lt pos
      have here := free (by rw [found]; rfl)
      simp only [Nat.zero_add, Nat.add_sub_cancel] at here ⊢
      simp only [Outcome.pred, bind, Except.bind, here]
      rfl

lemma fits_of_free {ancilla : Qubit} {tick : Nat} (pos : 0 < tick)
    (met : o.isFree tick ancilla = true)
    (free : ∀ t, tick - (if i.before.isSome then 1 else 0) ≤ t → o.isFree t i.data = true) :
    fits o ancilla tick i = .ok true := by
  have here := free tick (Nat.sub_le ..)
  have after := free (tick + 1) (by omega)
  have before := freeBefore_eq_true (o := o) pos fun turns => free (tick - 1) (by simp [turns])
  simp only [fits, met, here, Bool.and_self, if_true, before, after, bind, Except.bind,
    Bool.or_true]
  rfl

lemma gridStart_eq_self {stride : Nat} (fitting : gridFits o es stride start = .ok true) :
    gridStart o es stride start = .ok start := by
  unfold gridStart
  cases o.size + 1 - start with
  | zero => rfl
  | succ steps =>
    simp only [searchStart, fitting, bind, Except.bind]
    rfl

variable {task : Task} {s mid next last : Session} {moves : List Move} {tick round : Nat}

/-! What a round places, exactly. -/

lemma readyTick_le :
    s.readyTick e ≤ n ↔ ∀ m ∈ openingMoves e (s.resetTick e, s.resetTick e + 1), m.tick < n := by
  unfold readyTick openingMoves rotationMoves
  cases preparation e.plan.ancillaState with
  | none =>
    simp only [Option.isSome_none, Bool.false_eq_true, if_false, Option.toList_none,
      map_nil, forall_mem_cons, not_mem_nil, false_implies, implies_true, and_true]
    omega
  | some g =>
    -- The preparation is the later one of the two.
    simp only [Option.isSome_some, if_true, Option.toList_some, map_cons, map_nil,
      forall_mem_cons, not_mem_nil, false_implies, implies_true, and_true]
    omega

/-- An ancilla is measured in the tick after the last slot of its check. -/
structure Finishes (round stride start : Nat) (e : Extracted) (m : Move) : Prop where
  gate : Gate.measuring e.plan.basis = .ok m.gate
  move : m = ⟨start + (e.plan.steps.length - 1) * stride + 1, m.gate, [e.ancilla], [],
    some (Key.of e.check (Word.signed round))⟩

section Grid

variable {es : List Extracted} (compatible : Compatible task.code es)
include compatible

/-- An ancilla is measured right after the last slot of its check. -/
theorem runExtracted_exact (mem : e ∈ es) (free : s.FreeFrom start e.ancilla)
    (run : runExtracted task (stride es) start round s e = .ok next) :
    ∃ m, Finishes round (stride es) start e m ∧
      s.DoesMoves (gridMoves (stride es) start e ++ [m]) next := by
  obtain ⟨mid, meets, measures⟩ := of_bind run
  have met := gridMoves_does meets
  have some_step : e.plan.steps.isEmpty = false := by
    simpa using compatible.steps e mem
  simp only [some_step, Bool.false_eq_true, if_false] at measures
  obtain ⟨gate, measuring, does, _⟩ := measureAncilla_does measures
  have at_once : mid.measureTick e (start + (e.plan.steps.length - 1) * stride es + 1) =
      start + (e.plan.steps.length - 1) * stride es + 1 := by
    have later : s.FreeFrom (start + (e.plan.steps.length - 1) * stride es + 1) e.ancilla :=
      fun t late => free t (by omega)
    refine Occupancy.earliestFree_eq_self (met.freeFrom later ?_ _ le_rfl)
    intro m inside late acted
    have slots := filter_gridMoves_ancilla compatible mem (stride es) start
    have slot : m ∈ e.interactions.map (slotMove (stride es) start e) := by
      rw [← slots]
      exact mem_filter.mpr ⟨inside, by simpa using acted⟩
    obtain ⟨step, used, rfl⟩ := mem_map.mp slot
    have bound : step.1 < e.plan.steps.length :=
      (lt_of_getElem? (mem_interactions.mp used))
    have reach : step.1 * stride es ≤ (e.plan.steps.length - 1) * stride es :=
      Nat.mul_le_mul_right _ (by omega)
    simp only [slotMove] at late
    omega
  refine ⟨_, ⟨measuring, ?_⟩, met.trans does⟩
  rw [measureMove, at_once]

lemma runAll_exact {items : List Extracted} (known : ∀ e ∈ items, e ∈ es)
    (apart : items.Pairwise fun e f => e.ancilla ≠ f.ancilla)
    (free : ∀ e ∈ items, s.FreeFrom start e.ancilla)
    (run : items.foldlM (runExtracted task (stride es) start round) s = .ok next) :
    ∃ closings : List (Extracted × Move), closings.map (·.1) = items ∧
      (∀ c ∈ closings, Finishes round (stride es) start c.1 c.2) ∧
      s.DoesMoves (closings.flatMap fun c => gridMoves (stride es) start c.1 ++ [c.2]) next := by
  induction items generalizing s with
  | nil =>
    cases run
    exact ⟨[], rfl, forall_mem_nil _, .refl _⟩
  | cons e rest ih =>
    obtain ⟨mid, first, others⟩ := foldlM_cons_eq_ok.mp run
    obtain ⟨different, apart⟩ := pairwise_cons.mp apart
    have here := known e (.head _)
    obtain ⟨m, finishes, does⟩ := runExtracted_exact compatible here (free e (.head _)) first
    have free' : ∀ f ∈ rest, mid.FreeFrom start f.ancilla := by
      intro f inside
      have there := known f (mem_cons_of_mem e inside)
      refine does.freeFrom (free f (mem_cons_of_mem e inside)) fun n placed _ acted => ?_
      rcases mem_append.mp placed with grid | ending
      · exact ancilla_not_mem_gridMoves compatible there here (different f inside).symm grid acted
      · rw [mem_singleton.mp ending, finishes.move] at acted
        exact different f inside (mem_singleton.mp acted).symm
    obtain ⟨closings, listed, each, more⟩ := ih
      (fun f inside => known f (mem_cons_of_mem e inside)) apart free' others
    refine ⟨(e, m) :: closings, by rw [map_cons, listed], ?_, does.trans more⟩
    exact forall_mem_cons.mpr ⟨finishes, each⟩

end Grid

/-- First start that ancillas and data qubits allow a grid. -/
def firstStart (s : Session) (extracted : List Extracted) : Nat :=
  (extracted.flatMap (·.interactions)).foldl
    (fun n step => max n (s.startFor (stride extracted) step.1 step.2))
    (extracted.foldl (fun n e => max n (s.readyTick e)) s.layerStart)

lemma firstStart_le (some_check : es ≠ []) : s.firstStart es ≤ n ↔ (∀ e ∈ es, s.readyTick e ≤ n) ∧
      ∀ e ∈ es, ∀ step ∈ e.interactions,
        (s.dataFloor.get? step.2.data).getD 0 + (if step.2.before.isSome then 1 else 0) ≤
          n + step.1 * stride es := by
  have begun : (∀ e ∈ es, s.readyTick e ≤ n) → s.layerStart ≤ n := by
    intro ready
    obtain ⟨e, mem⟩ := exists_mem_of_ne_nil _ some_check
    have here := ready e mem
    unfold readyTick resetTick at here
    omega
  have moved : ∀ step : Nat × Interaction, s.startFor (stride es) step.1 step.2 ≤ n ↔
      (s.dataFloor.get? step.2.data).getD 0 + (if step.2.before.isSome then 1 else 0) ≤
        n + step.1 * stride es := by
    intro step
    simp only [startFor]
    omega
  rw [firstStart, foldl_max_le_iff, foldl_max_le_iff]
  simp only [moved, mem_flatMap]
  constructor
  · rintro ⟨⟨_, ready⟩, data⟩
    exact ⟨ready, fun e mem step inside => data step ⟨e, mem, inside⟩⟩
  · rintro ⟨ready, data⟩
    refine ⟨⟨begun ready, ready⟩, fun step listed => ?_⟩
    obtain ⟨e, mem, inside⟩ := listed
    exact data e mem step inside

lemma mem_openingsOf {m : Move}
    (mem : m ∈ (s.openingsOf es).flatMap fun o => openingMoves o.1 o.2) :
    ∃ e ∈ es, m.qubits = [e.ancilla] ∧ m.tick < s.readyTick e := by
  obtain ⟨o, listed, inside⟩ := mem_flatMap.mp mem
  obtain ⟨e, known, rfl⟩ := mem_map.mp listed
  exact ⟨e, known, (mem_openingMoves inside).1, readyTick_le.mp le_rfl m inside⟩

/-- Where earlier gates leave qubits free from their floors on, the grid starts in the first tick
that is allowed. -/
theorem scheduleExtracted_exact (compatible : Compatible task.code es) (some_check : es ≠ [])
    (ancillas : ∀ e ∈ es, s.FreeFrom (s.resetTick e) e.ancilla)
    (data : ∀ e ∈ es, ∀ step ∈ e.interactions,
      s.FreeFrom ((s.dataFloor.get? step.2.data).getD 0) step.2.data)
    (run : s.scheduleExtracted task es round = .ok next) :
    ∃ mid ready closings, s.prepareAncillas task es = .ok (mid, ready) ∧
      gridStart mid.occupancy es (stride es) (s.firstStart es) = .ok (s.firstStart es) ∧
      closings.map (·.1) = es ∧
      (∀ c ∈ closings, Finishes round (stride es) (s.firstStart es) c.1 c.2) ∧
      s.DoesMoves (roundMoves es (s.firstStart es) (s.openingsOf es) closings []) next := by
  have apart : es.Pairwise fun e f => e.ancilla ≠ f.ancilla :=
    compatible.apart.imp fun both => both.1
  unfold scheduleExtracted at run
  rw [if_neg (by simpa using some_check)] at run
  obtain ⟨⟨mid, ready⟩, prepares, run⟩ := of_bind run
  obtain ⟨start, found, run⟩ := of_bind run
  obtain ⟨_, openings, _, quiet, _, at_once⟩ := prepareAll_opens prepares
  have does := quiet.does
  obtain ⟨rfl, rfl⟩ := at_once apart ancillas
  have needed : (es.flatMap (·.interactions)).foldl
      (fun n step => max n (mid.startFor (stride es) step.1 step.2))
      (es.foldl (fun n e => max n (s.readyTick e)) s.layerStart) = s.firstStart es := by
    simp only [startFor, does.dataFloor]
    rfl
  simp only [needed] at found
  obtain ⟨ready, room⟩ := (firstStart_le some_check).mp (le_refl (s.firstStart es))
  have met : ∀ e ∈ es, mid.FreeFrom (s.firstStart es) e.ancilla := by
    intro e mem
    have past := ready e mem
    refine does.freeFrom (fun t late => ancillas e mem t ?_) fun m placed here _ => ?_
    · unfold readyTick at past
      omega
    · obtain ⟨f, known, _, early⟩ := mem_openingsOf placed
      have before := ready f known
      omega
  have fitting : gridFits mid.occupancy es (stride es) (s.firstStart es) = .ok true := by
    refine allM_eq_ok.mpr fun use listed => ?_
    obtain ⟨e, mem, listed⟩ := mem_flatMap.mp listed
    obtain ⟨step, inside, rfl⟩ := mem_map.mp listed
    have enough := room e mem step inside
    have past := ready e mem
    refine fits_of_free ?_ (met e mem _ (Nat.le_add_right ..)) fun t late => ?_
    · unfold readyTick at past
      split_ifs at past <;> omega
    · simp only at late
      refine does.freeFrom (data e mem step inside) (fun m placed _ acted => ?_) t (by omega)
      obtain ⟨f, known, qubits, _⟩ := mem_openingsOf placed
      rw [qubits] at acted
      have bare := compatible.ancilla f known
      rw [← mem_singleton.mp acted, compatible.data e mem step inside] at bare
      cases bare
  have stays := gridStart_eq_self fitting
  rw [stays] at found
  cases found
  obtain ⟨closings, listed, each, more⟩ := runAll_exact compatible (fun _ mem => mem) apart met run
  refine ⟨mid, _, closings, prepares, stays, listed, each, ?_⟩
  simpa [roundMoves] using does.trans more

/-! Sessions between rounds. -/

/-- What is known of the qubits of a session between two rounds. -/
structure Charted (task : Task) (s : Session) : Prop where
  lays : ∃ moves, task.session.LaysMoves moves s
  free : ∀ q t, s.floor task.code q ≤ t → s.occupancy.isFree t q = true
  used : ∀ {q : Qubit} {t : Nat}, s.horizon q = t + 1 → s.occupancy.isFree t q = false
  measured : ∀ q, task.code.isData q = false → (s.ancillaFloor.get? q).getD 0 = 0 ∨
    ∃ t, (s.ancillaFloor.get? q).getD 0 = t + 1 ∧ s.store.MeasuresAlone t q

lemma LaysMoves.acts_iff (h : task.session.LaysMoves moves s) :
    s.store.ActsOn t q ↔ s.occupancy.isFree t q = false := by
  have added : ({} : Store).addedIn s.store t =
      (moves.filter (·.tick = t)).map Move.application := h.addedIn_eq t
  have fresh : task.session.occupancy.isFree t q = true := rfl
  rw [h.free, fresh, Store.ActsOn, added]
  simp only [Bool.true_and, Bool.not_eq_false', any_eq_true, Move.takes, Bool.and_eq_true,
    decide_eq_true_eq, mem_map, mem_filter]
  constructor
  · rintro ⟨g, ⟨m, ⟨mem, here⟩, rfl⟩, acted⟩
    exact ⟨m, mem, here, acted⟩
  · rintro ⟨m, mem, here, acted⟩
    exact ⟨m.application, ⟨m, ⟨mem, here⟩, rfl⟩, acted⟩

lemma LaysMoves.mem_addedIn_mono {later : List Move} (h : task.session.LaysMoves moves s)
    (h' : s.LaysMoves later next) {g : Gate × List Qubit}
    (mem : g ∈ ({} : Store).addedIn s.store t) :
    g ∈ ({} : Store).addedIn next.store t := by
  have all : ({} : Store).addedIn next.store t =
      ({} : Store).addedIn s.store t ++ s.store.addedIn next.store t := h.addedIn_append h' t
  rw [all]
  exact mem_append_left _ mem

lemma LaysMoves.taken_mono (h : s.LaysMoves moves next) (taken : s.occupancy.isFree t q = false) :
    next.occupancy.isFree t q = false := by
  rw [h.free, taken]
  rfl

lemma Charted.initial (run : task.session.initialise task = .ok next) : next.Charted task := by
  have does := initialise_does run
  have lays : task.session.LaysMoves (initialMoves task) next := does.lays
  refine ⟨⟨_, lays⟩, fun q t late => ?_, fun {q t} reached => ?_, fun q _ => .inl ?_⟩
  · by_contra taken
    obtain ⟨g, added, acted⟩ := lays.acts_iff.mpr (Bool.eq_false_of_not_eq_true taken)
    have below := does.initial_lt_floor added acted
    omega
  · rcases does.attained q with same | ⟨m, mem, acted, here⟩
    · rw [same] at reached
      cases reached
    · obtain rfl := Nat.succ.inj (here.symm.trans reached)
      exact lays.taken mem acted
  · rw [does.ancillaFloor fun m mem _ => key_of_mem_initialMoves mem]
    rfl

variable (charted : s.Charted task)
include charted

lemma Charted.between (pause : s.Between next) : next.Charted task := by
  obtain ⟨⟨moves, lays⟩, free, used, measured⟩ := charted
  have quiet := pause.lays
  have same : ∀ t q, next.occupancy.isFree t q = s.occupancy.isFree t q := by
    intro t q
    rw [quiet.free]
    simp
  refine ⟨⟨_, lays.trans quiet⟩, fun q t late => ?_, fun {q t} reached => ?_, fun q bare => ?_⟩
  · rw [pause.floor_eq] at late
    rw [same]
    exact free q t late
  · rw [same]
    apply used
    cases pause <;> exact reached
  · have floors : next.ancillaFloor = s.ancillaFloor := by cases pause <;> rfl
    rw [floors]
    refine (measured q bare).imp id ?_
    rintro ⟨t, floor, g, mem, measures⟩
    exact ⟨t, floor, g, lays.mem_addedIn_mono quiet mem, measures⟩

omit charted in
/-- A round keeps what is known of qubits. -/
lemma Charted.compileRound (extractable : task.Extractable) (charted : s.Charted task)
    (run : s.compileRound task = .ok next) : next.Charted task := by
  obtain ⟨⟨moves, lays⟩, free, used, measured⟩ := charted
  have raises := compileRound_raises extractable run
  obtain ⟨es, start, openings, closings, reads, performs⟩ := compileRound_performs extractable run
  refine ⟨⟨_, lays.trans performs.lays⟩, fun q t late => ?_, fun {q t} reached => ?_,
    fun q bare => ?_⟩
  · -- Gates of the round lie below the floors it leaves, and earlier ones below those it found.
    by_contra taken
    obtain ⟨g, added, acted⟩ :=
      (lays.trans performs.lays).acts_iff.mpr (Bool.eq_false_of_not_eq_true taken)
    have all : ({} : Store).addedIn next.store t =
        ({} : Store).addedIn s.store t ++ s.store.addedIn next.store t :=
      lays.addedIn_append performs.lays t
    rw [all] at added
    rcases mem_append.mp added with old | new
    · have busy := lays.acts_iff.mp ⟨g, old, acted⟩
      rw [free q t ((raises.grows q).trans late)] at busy
      cases busy
    · have below := raises.below new acted
      omega
  · rcases performs.attained q with same | ⟨m, mem, acted, here⟩
    · exact performs.lays.taken_mono (used (same.symm.trans reached))
    · obtain rfl := Nat.succ.inj (here.symm.trans reached)
      exact performs.lays.taken mem acted
  · by_cases used : ∃ m ∈ roundMoves es start openings closings reads, q ∈ m.qubits
    · obtain ⟨m, mem, acted⟩ := used
      obtain ⟨e, known, rfl⟩ := performs.fills.exists_ancilla performs.compatible mem acted bare
      obtain ⟨times, last, _, there, _⟩ := performs.fills.life performs.compatible known
      have closes := performs.fills.closes _ there
      refine .inr ⟨last.tick, by rw [performs.raised _ there]; rfl, last.application, ?_, ?_, ?_⟩
      · have all : ({} : Store).addedIn next.store last.tick =
            ({} : Store).addedIn s.store last.tick
            ++ s.store.addedIn next.store last.tick := lays.addedIn_append performs.lays last.tick
        rw [all, performs.lays.addedIn_eq]
        apply mem_append_right
        refine mem_map.mpr ⟨last, mem_filter.mpr ⟨?_, by simp⟩, rfl⟩
        exact mem_roundMoves.mpr (.inr (.inl ⟨_, there, .inr rfl⟩))
      · exact measuring_eq_ok closes.gate
      · exact closes.qubits
    · rw [performs.idle q fun m mem acted => used ⟨m, mem, acted⟩]
      refine (measured q bare).imp id ?_
      rintro ⟨t, floor, g, mem, measures⟩
      exact ⟨t, floor, g, lays.mem_addedIn_mono performs.lays mem, measures⟩

/-! The grid of a round. -/

/-- A start of the grid is past the reset and the preparation of every ancilla, and every
interaction, with the rotation before it, is past all that was done to its data qubit before. -/
def Admits (s : Session) (extracted : List Extracted) (n : Nat) : Prop :=
  (∀ e ∈ extracted, ∀ m ∈ openingMoves e (s.resetTick e, s.resetTick e + 1), m.tick < n) ∧
  ∀ e ∈ extracted, ∀ step ∈ e.interactions, ∀ t, s.store.ActsOn t step.2.data →
    t + (if step.2.before.isSome then 1 else 0) < n + step.1 * stride extracted

lemma Charted.acts_lt_horizon (data : task.code.isData q = true) (acts : s.store.ActsOn t q) :
    t < s.horizon q := by
  obtain ⟨moves, lays⟩ := charted.lays
  by_contra late
  have free := charted.free q t (by rw [floor, if_pos data]; omega)
  rw [lays.acts_iff.mp acts] at free
  cases free

lemma Charted.acts_before_horizon (last : s.horizon q = t + 1) : s.store.ActsOn t q := by
  obtain ⟨moves, lays⟩ := charted.lays
  exact lays.acts_iff.mpr (charted.used last)

lemma Charted.admits_iff (compatible : Compatible task.code es) (some_check : es ≠ []) :
    s.Admits es n ↔ (startRound task.code s).firstStart es ≤ n := by
  have ready : ∀ e, (startRound task.code s).readyTick e ≤ n ↔
      ∀ m ∈ openingMoves e (s.resetTick e, s.resetTick e + 1), m.tick < n :=
    fun e => readyTick_le (s := startRound task.code s)
  rw [firstStart_le some_check, Admits]
  simp only [ready]
  refine and_congr_right fun past => forall₂_congr fun e mem => forall₂_congr fun step inside => ?_
  have data := compatible.data e mem step inside
  have pos : 0 < n := Nat.lt_of_le_of_lt (Nat.zero_le _) (past e mem _ (.head _))
  rw [dataFloor_startRound data, Option.getD_some]
  constructor
  · intro all
    cases last : s.horizon step.2.data with
    | zero => split_ifs <;> omega
    | succ t =>
      have here := all t (charted.acts_before_horizon last)
      omega
  · intro enough t acts
    have before := charted.acts_lt_horizon data acts
    omega

/-- The grid of a round with ancillas. Resets, preparations, slots with their rotations and
measurements of ancillas are in ticks that the start alone determines, and the start is the first
possible one, so that the search for it does not move. -/
structure Rigid (task : Task) (s next : Session) (extracted : List Extracted) (start : Nat) :
    Prop where
  stride_eq : stride extracted =
    1 + (if (extracted.flatMap interactions).any (·.2.before.isSome) then 1 else 0) +
      (if (extracted.flatMap interactions).any (·.2.after.isSome) then 1 else 0)
  gates : ∃ (closings : List (Extracted × Move)) (reads : List Move),
    closings.map (·.1) = extracted ∧
    (∀ c ∈ closings, Finishes s.rounds (stride extracted) start c.1 c.2) ∧
    (∀ m ∈ reads, ∃ c ∈ task.code.checksIn s.rounds, c.ancilla = none ∧ Directly c m) ∧
    ∀ t, s.store.addedIn next.store t =
      ((roundMoves extracted start (s.openingsOf extracted) closings reads).filter
        (·.tick = t)).map Move.application
  resets : ∀ e ∈ extracted, ∃ n, s.resetTick e = max s.layerStart n ∧
    s.store.ReopensAt e.ancilla n
  least : IsLeast {n | s.Admits extracted n} start
  stays : ∃ begun mid ready,
    (startRound task.code { s with progress := begun }).prepareAncillas task extracted =
      .ok (mid, ready) ∧
    gridStart mid.occupancy extracted (stride extracted) start = .ok start

lemma Charted.reopens (bare : task.code.isData q = false) :
    s.store.ReopensAt q ((s.ancillaFloor.get? q).getD 0) := by
  obtain ⟨moves, lays⟩ := charted.lays
  refine ⟨fun t acts => ?_, charted.measured q bare⟩
  by_contra late
  have free := charted.free q t (by rw [floor, if_neg (by simp [bare])]; omega)
  rw [lays.acts_iff.mp acts] at free
  cases free

/-- The grid of every round is rigid. -/
lemma Charted.rigid (extractable : task.Extractable) (run : s.compileRound task = .ok next) :
    ∃ es, task.extractRound s.rounds = .ok es ∧
      (es ≠ [] → ∃ start, s.Rigid task next es start) := by
  obtain ⟨begun, es, first, second, third, ended, begins, extracts, places, measures,
    disturbs, ends, rfl⟩ := compileRound_eq_ok run
  obtain ⟨_, found, conflict⟩ := extractable s.rounds
  obtain rfl := Except.ok.inj (extracts.symm.trans found)
  have compatible := Task.compatible extracts conflict
  refine ⟨es, extracts, fun some_check =>
    ⟨(startRound task.code s).firstStart es, ?_⟩⟩
  let started := startRound task.code { s with progress := begun }
  have ancillas : ∀ e ∈ es, started.FreeFrom (started.resetTick e) e.ancilla := by
    intro e mem t late
    apply charted.free
    rw [floor, if_neg (by simp [compatible.ancilla e mem])]
    exact le_trans (le_max_right ..) late
  have data : ∀ e ∈ es, ∀ step ∈ e.interactions,
      started.FreeFrom ((started.dataFloor.get? step.2.data).getD 0) step.2.data := by
    intro e mem step inside t late
    have known := compatible.data e mem step inside
    rw [dataFloor_startRound known, Option.getD_some] at late
    apply charted.free
    rwa [floor, if_pos known]
  obtain ⟨mid, ready, closings, prepares, stays, closed, finishes, does⟩ :=
    scheduleExtracted_exact compatible some_check ancillas data places
  obtain ⟨reads, more, each⟩ := scheduleDirects_does measures
  have noise := roundNoises_does disturbs
  refine ⟨rfl, ⟨closings, reads, closed, finishes, ?_, ?_⟩, ?_, ?_, ⟨begun, mid, ready, prepares,
    stays⟩⟩
  · intro m mem
    obtain ⟨_, c, known, directly, _⟩ := each m mem
    obtain ⟨scheduled, bare⟩ := mem_filter.mp known
    exact ⟨c, scheduled, Option.isNone_iff_eq_none.mp bare, directly⟩
  · intro t
    have all : started.DoesMoves (roundMoves es (started.firstStart es)
        (started.openingsOf es) closings reads) third := by
      have placed := (does.trans more).trans noise
      simpa [roundMoves] using placed
    obtain ⟨trackers, rfl⟩ := Progress.endRound_eq_ok ends
    exact ((startRound_lays begins).trans all.lays).addedIn_eq t
  · intro e mem
    exact ⟨_, rfl, charted.reopens (compatible.ancilla e mem)⟩
  · constructor
    · exact (charted.admits_iff compatible some_check).mpr le_rfl
    · intro n admitted
      exact (charted.admits_iff compatible some_check).mp admitted

end Session

open Session in
/-- Every round with ancillas stands on a rigid grid that starts as early as possible. What was done
to a data qubit before a round is what earlier rounds did to it, or its preparation. -/
theorem Compiler.grid_rigid {c : Compiler} {code : Code} {request : Request}
    {result : Compilation} (run : c.compile code request = .ok result) :
    ∃ (prepared layered ended : Session) (layers : List (List (Session × Session))),
      (⟨c, code, request⟩ : Task).Runs result prepared layered ended ∧
      Stages ⟨c, code, request⟩ prepared layers.flatten layered ∧
      layers.flatten.map (·.1.rounds) = List.range result.report.rounds ∧
      (∀ layer ∈ layers, LayerOf code.period layer) ∧
      ∀ stage ∈ layers.flatten, ∃ extracted,
        (⟨c, code, request⟩ : Task).extractRound stage.1.rounds = .ok extracted ∧
        extracted.map (·.check) = (code.checksIn stage.1.rounds).filter (·.ancilla.isSome) ∧
        (extracted ≠ [] → ∃ start, Rigid ⟨c, code, request⟩ stage.1 stage.2 extracted start) := by
  obtain ⟨prepared, layered, ended, runs⟩ := compile_eq_ok run
  have extractable := runs.extractable
  obtain ⟨layers, placed, known⟩ := placed_layers runs.placed
  refine ⟨prepared, layered, ended, layers, runs, placed, runs.listed placed, known,
    fun stage member => ?_⟩
  obtain ⟨charted, round⟩ := placed.each (P := fun s => s.Charted ⟨c, code, request⟩)
    (fun run known => known.compileRound extractable run) (fun pause known => known.between pause)
    (.initial runs.prepares) stage member
  obtain ⟨extracted, extracts, grid⟩ := charted.rigid extractable round
  exact ⟨extracted, extracts, (Task.extractRound_eq_ok extracts).1, grid⟩

namespace PairCode

/-- One of its letters takes rotations, the other does not. -/
def turning : Check :=
  ⟨[⟨⟨[-1]⟩, left, .positive .X⟩, ⟨⟨[1]⟩, right, .positive .Z⟩], some ⟨[1]⟩, some ⟨[1]⟩, by decide⟩

def turned : Code := ⟨.ofList [left, right], [[check], [turning]], [[], []], [], by decide⟩

/-- A compiler that rotates data qubits around its gates. -/
def rotating : Compiler :=
  ⟨.noiseless, ⟨.rotatedCnot, .declared⟩, {}, NoiseModel.noiseless_sound⟩

open Session in
/-- Two layers of two rounds that share their ancilla. -/
theorem grid_rigid_turned :
    ∃ result, rotating.compile turned { layers := 2 } = .ok result ∧
      ∃ (prepared layered : Session) (layers : List (List (Session × Session))),
        Stages ⟨rotating, turned, { layers := 2 }⟩ prepared layers.flatten layered ∧
        layers.flatten.map (·.1.rounds) = [0, 1, 2, 3] ∧
        (∀ layer ∈ layers, LayerOf 2 layer) ∧
        ∀ stage ∈ layers.flatten, ∃ extracted start,
          extracted.map (·.check) = turned.checksIn stage.1.rounds ∧
          Rigid ⟨rotating, turned, { layers := 2 }⟩ stage.1 stage.2 extracted start := by
  have report : (rotating.compile turned { layers := 2 }).toOption.map (·.report.rounds) =
      some 4 := by
    decide +kernel
  obtain ⟨result, compiled, rounds⟩ := Outcome.exists_ok_of_map report
  obtain ⟨prepared, layered, _, layers, _, placed, listed, known, each⟩ :=
    Compiler.grid_rigid compiled
  rw [rounds] at listed
  refine ⟨result, compiled, prepared, layered, layers, placed, listed, known, ?_⟩
  intro stage member
  have early : stage.1.rounds ∈ List.range 4 :=
    listed ▸ List.mem_map.mpr ⟨stage, member, rfl⟩
  have ancillas : ∀ r ∈ List.range 4, turned.checksIn r ≠ [] ∧
      (turned.checksIn r).filter (·.ancilla.isSome) = turned.checksIn r := by
    decide
  obtain ⟨some_check, all⟩ := ancillas _ early
  obtain ⟨extracted, _, checks, grid⟩ := each stage member
  rw [all] at checks
  obtain ⟨start, rigid⟩ := grid fun none => some_check (by rw [← checks, none]; rfl)
  exact ⟨extracted, start, checks, rigid⟩

end PairCode

end SyndromeSchedule
