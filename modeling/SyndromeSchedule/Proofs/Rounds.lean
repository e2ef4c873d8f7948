import SyndromeSchedule.Proofs.Account
import SyndromeSchedule.Proofs.Detectors
import SyndromeSchedule.Proofs.Grid

/-!
What the rounds of a session keep. Gates and record have an account, the table of occupied qubits
covers the store, detectors agree with the record, and every handle that is kept for later is on
record. Under these conditions nothing that a round does can fail, but for reasons that lie in the
request.
-/

namespace SyndromeSchedule

open List Outcome

namespace Session

variable {s next mid : Session} {log : List Write} {made : List (Check × Nat)} {m : Move}
  {c : Check} {round : Nat} {p : Progress} {new : List (Entry × Int × List Key)}

/-- A session in which the given checks are measured, though the latest outcome may still have to be
reported. -/
structure Stable (made : List (Check × Nat)) (s : Session) : Prop where
  account : ∃ keys, keys.Perm s.progress.written ∧ s.store.Account made keys
  covered : s.Covered
  enclosed : s.Enclosed
  direct : ∀ {q : Qubit} {d : DirectOutcome}, s.direct.get? q = some d →
    ∃ c, (c, d.round) ∈ made ∧ c.Reads q d.basis ∧
      s.store.record.entry? d.handle = some (Key.of c (Word.signed d.round), d.tick)
  trackers : ∀ t ∈ s.progress.resolver.trackers, t.Valid s.store.record
  marked : ∀ region, s.store.region = some region →
    region.start ≤ region.stop ∧ region.stop ≤ s.store.size

/-- A session in which the given checks are measured and reported. -/
structure Safe (made : List (Check × Nat)) (s : Session) : Prop extends s.Stable made where
  consistent : s.progress.Consistent

/-- Gates and outcomes are added, none before the layer starts. -/
structure Later (s next : Session) : Prop where
  within : s.store.record.Within next.store.record
  late : ∀ {h t : Nat} {key : Key}, next.store.record.entry? h = some (key, t) →
    s.store.record.entry? h = none → s.layerStart ≤ t
  gates : ∀ t < s.layerStart, (next.store.tickAt t).gates = (s.store.tickAt t).gates
  layerStart : next.layerStart = s.layerStart
  size : s.store.size ≤ next.store.size
  region : next.store.region = s.store.region
  initial : next.progress.resolver.initial = s.progress.resolver.initial

lemma Later.refl (s : Session) : s.Later s where
  within := id
  late := by
    intro h t key entry none
    rw [entry] at none
    contradiction
  gates := fun _ _ => rfl
  layerStart := rfl
  size := le_rfl
  region := rfl
  initial := rfl

lemma Later.trans {last : Session} (h : s.Later next) (h' : next.Later last) : s.Later last where
  within := fun entry => h'.within (h.within entry)
  late := by
    intro handle t key entry none
    rcases Option.eq_none_or_eq_some <| next.store.record.entry? handle with fresh | ⟨e, old⟩
    · rw [← h.layerStart]
      exact h'.late entry fresh
    · have same := h'.within old
      rw [entry] at same
      obtain rfl := Option.some.inj same
      exact h.late old none
  gates := by
    intro t below
    rw [h'.gates t (by rw [h.layerStart]; exact below), h.gates t below]
  layerStart := h'.layerStart.trans h.layerStart
  size := h.size.trans h'.size
  region := h'.region.trans h.region
  initial := h'.initial.trans h.initial

/-- A part of a round: neither the count of rounds nor the list of detectors changes. -/
structure Leads (s next : Session) : Prop extends s.Later next where
  rounds : next.rounds = s.rounds
  plan : next.progress.plan = s.progress.plan

lemma Leads.refl (s : Session) : s.Leads s := ⟨.refl s, rfl, rfl⟩

lemma Leads.trans {last : Session} (h : s.Leads next) (h' : next.Leads last) : s.Leads last :=
  ⟨h.toLater.trans h'.toLater, h'.rounds.trans h.rounds, h'.plan.trans h.plan⟩

lemma Effect.within (h : s.Effect log next) :
    s.store.record.Within next.store.record := h.writes.within

lemma outcomes_of_plain (plain : ∀ m ∈ Store.moves log, m.Plain) : Store.outcomes log = [] := by
  rw [Store.outcomes, filter_eq_nil_iff]
  intro u used filed
  have key : u.key = none := (plain u.move (mem_map_of_mem used)).1
  rw [key] at filed
  contradiction

lemma DoesMoves.record (h : s.DoesMoves [] next) : next.store.record = s.store.record := by
  obtain ⟨log, effect, none⟩ := h
  exact effect.writes.record_of_outcomes (outcomes_of_plain (none ▸ forall_mem_nil _))

lemma adds_plain {r : Record} (plain : ∀ m ∈ Store.moves log, m.Plain)
    (notes : Store.notes log = []) : Store.Adds [] [] log r where
  lawful := by
    intro u used
    obtain ⟨key, gate⟩ := plain u.move (mem_map_of_mem used)
    have key : u.key = none := key
    have gate : u.gate.isMeasurement = false := gate
    simp [Use.Lawful, key, gate]
  made := by
    rw [outcomes_of_plain plain]
    exact .nil
  detectors := by
    rw [Store.detectors_of_notes notes]
    exact .nil
  dated := by simp [notes]

lemma Effect.later (h : s.Effect log next) (late : ∀ m ∈ Store.moves log, s.layerStart ≤ m.tick)
    (initial : next.progress.resolver.initial = s.progress.resolver.initial) : s.Later next := by
  have after : ∀ u ∈ Store.uses log, s.layerStart ≤ u.tick := fun u used =>
    late u.move (mem_map_of_mem used)
  refine ⟨h.within, ?_, ?_, h.layerStart, h.writes.size_le, h.writes.region, initial⟩
  · intro handle t key entry none
    obtain ⟨u, used, rfl⟩ := h.writes.use_of_fresh entry none
    exact after u used
  · intro t below
    refine h.writes.gates_of_untouched fun u used => ?_
    have placed := after u used
    omega

lemma Quiet.leads {moves : List Move} (h : s.Quiet moves next)
    (late : ∀ m ∈ moves, s.layerStart ≤ m.tick) :
    s.Leads next := by
  obtain ⟨log, effect, rfl, _⟩ := h.effect
  refine ⟨effect.later late ?_, effect.rounds, ?_⟩
  · rw [h.resolver]
  · simp only [Progress.plan, h.resolver]

lemma Stable.grow {new : List (Check × Nat)} {keys : List (List Key)} (stable : s.Stable made)
    (effect : s.Effect log next) (adds : Store.Adds new keys log next.store.record)
    (written : next.progress.written.Perm (s.progress.written ++ keys))
    (direct : ∀ {q d}, next.direct.get? q = some d → s.direct.get? q = some d ∨
      ∃ c, (c, d.round) ∈ new ∧ c.Reads q d.basis ∧
        next.store.record.entry? d.handle = some (Key.of c (Word.signed d.round), d.tick))
    (trackers : ∀ t ∈ next.progress.resolver.trackers,
      t ∈ s.progress.resolver.trackers ∨ t.pending = []) :
    next.Stable (made ++ new) := by
  obtain ⟨old, before, account⟩ := stable.account
  refine ⟨⟨old ++ keys, (before.append_right keys).trans written.symm,
    account.extend effect.writes adds⟩, stable.covered.effect effect,
    effect.enclosed stable.enclosed, ?_, ?_, ?_⟩
  · intro q d found
    rcases direct found with old | ⟨c, inside, rest⟩
    · obtain ⟨c, inside, reads, entry⟩ := stable.direct old
      exact ⟨c, mem_append_left _ inside, reads, effect.within entry⟩
    · exact ⟨c, mem_append_right _ inside, rest⟩
  · intro t mem
    rcases trackers t mem with old | spent
    · exact (stable.trackers t old).mono effect.within
    · simp [Tracker.Valid, spent]
  · intro region here
    rw [effect.writes.region] at here
    obtain ⟨ordered, inside⟩ := stable.marked region here
    exact ⟨ordered, inside.trans effect.writes.size_le⟩

lemma Safe.quiet {moves : List Move} (safe : s.Safe made) (h : s.Quiet moves next)
    (plain : ∀ m ∈ moves, m.Plain) :
    next.Safe made := by
  obtain ⟨log, effect, rfl, notes⟩ := h.effect
  have stable : next.Stable (made ++ []) := by
    refine safe.grow effect (adds_plain plain notes) ?_ (fun found => .inl ?_) fun t mem => .inl ?_
    · simp [Progress.written, h.resolver]
    · rwa [h.direct] at found
    · rwa [h.resolver] at mem
  rw [append_nil] at stable
  exact ⟨stable, safe.consistent.congr h.resolver
    (effect.writes.record_of_outcomes (outcomes_of_plain plain))⟩

lemma Measures.adds (h : s.Measures m next) (key : m.key = some (Key.of c (Word.signed round)))
    (by_gate : c.MeasuredBy m) (measures : m.gate.isMeasurement = true) :
    ∃ log, s.Effect log next ∧ Store.Adds [(c, round)] [] log next.store.record := by
  obtain ⟨u, effect, rfl⟩ := h.effect
  have filed : u.key = some (Key.of c (Word.signed round)) := key
  have measuring : u.gate.isMeasurement = true := measures
  have used : Store.uses [.gate u] = [u] := rfl
  refine ⟨_, effect, ?_, ?_, .nil, forall_mem_nil _⟩
  · rw [used, forall_mem_singleton]
    exact ⟨by simp [filed, measuring], effect.targeted u (mem_singleton_self u)⟩
  · simp only [Store.outcomes, used, filed, filter_cons, Option.isSome_some, if_true, filter_nil]
    exact .cons ⟨filed, by_gate⟩ .nil

lemma Extends.adds {next : Progress} (h : p.Extends new next) :
    ∃ items keys, next.store = p.store.withNotes items ∧
      Store.Adds [] keys (Store.noteLog items) next.store.record ∧
      next.written.Perm (p.written ++ keys) := by
  obtain ⟨items, keys, made, notes, written⟩ := h.notes
  refine ⟨items, keys, made, .refer ?_, written⟩
  rw [h.record]
  exact notes.imp fun _ _ noted => Record.refers_of_notes noted

lemma Stable.extends (safe : s.Stable made)
    (consistent : p.Consistent) (h : s.progress.Extends new p) :
    ({ s with progress := p } : Session).Safe made ∧ s.Later { s with progress := p } := by
  obtain ⟨items, keys, made, adds, written⟩ := Extends.adds h
  have effect := effect_notes made
  have stable := safe.grow effect adds written .inl fun t mem => .inl ?_
  · rw [append_nil] at stable
    exact ⟨⟨stable, consistent⟩, effect.later (by simp [Store.moves]) h.initial⟩
  · rwa [h.trackers] at mem

lemma Measures.leads (h : s.Measures m mid) (late : s.layerStart ≤ m.tick) : s.Leads mid := by
  obtain ⟨u, effect, rfl⟩ := h.effect
  refine ⟨effect.later (forall_mem_singleton.mpr late) ?_, effect.rounds, ?_⟩
  · rw [h.resolver]
  · simp only [Progress.plan, h.resolver]

lemma Stable.measure (stable : s.Stable made) (h : s.Measures m mid)
    (key : m.key = some (Key.of c (Word.signed round))) (by_gate : c.MeasuredBy m)
    (measures : m.gate.isMeasurement = true)
    (direct : ∀ q d, mid.direct.get? q = some d → s.direct.get? q = some d ∨
      (d.handle = s.store.record.size ∧ d.tick = m.tick ∧ d.round = round ∧ c.Reads q d.basis)) :
    mid.Stable (made ++ [(c, round)]) := by
  obtain ⟨log, effect, adds⟩ := h.adds key by_gate measures
  refine stable.grow effect adds ?_ (fun {q d} found => (direct q d found).imp_right ?_)
    fun t mem => .inl ?_
  · simp [Progress.written, h.resolver]
  · rintro ⟨handle, tick, same, reads⟩
    refine ⟨c, by simp [same], reads, ?_⟩
    rw [h.record key, Record.entry?_push, if_pos handle, tick, same]
  · rwa [h.resolver] at mem

lemma Safe.measure_meets (safe : s.Safe made) (h : s.Measures m mid)
    (key : m.key = some (Key.of c (Word.signed round))) (by_gate : c.MeasuredBy m)
    (measures : m.gate.isMeasurement = true) (late : s.layerStart ≤ m.tick)
    (direct : ∀ q d, mid.direct.get? q = some d → s.direct.get? q = some d ∨
      (d.handle = s.store.record.size ∧ d.tick = m.tick ∧ d.round = round ∧ c.Reads q d.basis)) :
    (mid.notify (Key.of c (Word.signed round))).Bounded fun next =>
      next.Safe (made ++ [(c, round)]) ∧ s.Leads next := by
  have stable := safe.measure h key by_gate measures direct
  have leads := h.leads late
  have filed : mid.progress.Filed (Key.of c (Word.signed round)) := by
    have progress : mid.progress = ⟨s.progress.resolver, mid.store⟩ := by
      rw [← h.resolver]
      rfl
    rw [progress]
    exact safe.consistent.file (h.record key)
  refine (Progress.notify_within filed False.elim).commit.bind ?_
  rintro ⟨p, u⟩ ⟨consistent, extends_by⟩
  obtain ⟨safe', later⟩ := stable.extends consistent extends_by
  refine meets_ok ⟨safe', leads.trans ⟨later, rfl, ?_⟩⟩
  simpa using extends_by.plan

end Session

/-! Checks with an ancilla. -/

namespace Task

variable {task : Task} {round : Nat}

/-- A check of a round with its ancilla and its plan. -/
structure Extracts (task : Task) (round : Nat) (e : Extracted) : Prop where
  scheduled : e.check ∈ task.code.checksIn round
  ancilla : e.check.ancilla = some e.ancilla
  plan : task.compiler.extractor.plan e.check = .ok e.plan

/-- The checks of a round that have ancillas, each with its plan. -/
lemma extractRound_eq_ok {es : List Extracted} (h : task.extractRound round = .ok es) :
    es.map (·.check) = (task.code.checksIn round).filter (·.ancilla.isSome) ∧
      ∀ e ∈ es, task.Extracts round e := by
  have related := mapM_eq_ok.mp h
  have each : Forall₂ (fun (c : Check × Qubit) (e : Extracted) =>
      e.check = c.1 ∧ e.ancilla = c.2 ∧ task.compiler.extractor.plan c.1 = .ok e.plan)
      ((task.code.checksIn round).filterMap fun c => c.ancilla.map fun a => (c, a)) es := by
    refine related.imp ?_
    rintro ⟨c, a⟩ e made
    obtain ⟨plan, found, made⟩ := of_bind made
    cases made
    exact ⟨rfl, rfl, found⟩
  refine ⟨?_, ?_⟩
  · have checks : es.map (·.check) =
        ((task.code.checksIn round).filterMap fun c => c.ancilla.map fun a => (c, a)).map
          (·.1) := by
      rw [maps_eq_iff]
      exact each.flip.imp fun _ _ same => same.1
    rw [checks, map_filterMap]
    generalize task.code.checksIn round = checks
    induction checks with
    | nil => rfl
    | cons c rest ih =>
      cases has : c.ancilla with
      | none | some a => simpa [filterMap_cons, filter_cons, has] using ih
  · intro e mem
    obtain ⟨⟨c, a⟩, listed, rfl, rfl, plan⟩ := exists_left_of_forall₂ each mem
    obtain ⟨c', scheduled, same⟩ := mem_filterMap.mp listed
    obtain ⟨a', has, same⟩ := Option.map_eq_some_iff.mp same
    cases same
    exact ⟨scheduled, has, plan⟩

lemma Extracts.follows {e : Extracted} (h : task.Extracts round e) :
    Extractor.Follows e.plan e.check := by
  obtain ⟨slots, _, follows⟩ := ((task.compiler.extractor.plan_meets e.check).of_ok h.plan).1
  exact ⟨slots, follows⟩

lemma compatible {es : List Extracted} (h : task.extractRound round = .ok es)
    (conflict : Extracted.conflict? es = none) :
    Extracted.Compatible task.code es := by
  have extracts := (extractRound_eq_ok h).2
  have joins : ∀ e ∈ es, ∀ step ∈ e.interactions,
      ∃ m ∈ e.check.members, Extractor.Joins e.plan m step.2 := by
    intro e mem step inside
    have found : e.plan.steps[step.1]? = some (some step.2) := Extracted.mem_interactions.mp inside
    exact (extracts e mem).follows.joins (mem_of_getElem? found)
  refine ⟨?_, ?_, ?_, ?_, ?_, conflict⟩
  · intro e mem
    exact task.code.isData_ancilla (extracts e mem).scheduled (extracts e mem).ancilla
  · intro e mem step inside
    obtain ⟨m, acted, joined⟩ := joins e mem step inside
    rw [joined.data]
    exact task.code.isData_of_mem (extracts e mem).scheduled (mem_map_of_mem acted)
  · intro e mem step inside
    obtain ⟨m, _, joined⟩ := joins e mem step inside
    exact joined.unitary
  · exact fun e mem => (extracts e mem).follows.steps_ne_nil
  · intro e mem
    have plan := ((task.compiler.extractor.plan_meets e.check).of_ok (extracts e mem).plan).2
    rcases plan with ⟨_, basis⟩ | ⟨_, basis⟩
    · simp [basis]
    · simp [basis]

end Task

namespace Session

variable {s next : Session} {m : Move} {e : Extracted} {stride start : Nat}
  {made : List (Check × Nat)}

lemma notify_eq_ok {key : Key} (h : s.notify key = .ok next) :
    ∃ progress, next = { s with progress } := by
  obtain ⟨⟨progress, u⟩, _, h⟩ := of_bind h
  exact ⟨progress, (pure_eq_ok.mp h).symm⟩

lemma Fits.frame {moves : List Move} (h : s.Fits moves) (same : ∀ m ∈ moves, ∀ q ∈ m.qubits,
      next.occupancy.isFree m.tick q = s.occupancy.isFree m.tick q) : next.Fits moves :=
  ⟨fun m mem q acted => (same m mem q acted).trans (h.free m mem q acted), h.apart⟩

lemma Directly.isMeasurement {c : Check} (h : Directly c m) : m.gate.isMeasurement = true := by
  obtain ⟨_, how⟩ := h
  split at how
  · exact measuring_eq_ok how.1
  · rw [how.1]
    rfl

lemma Measures.does (h : s.Measures m next) : s.DoesMoves [m] next := by
  obtain ⟨u, effect, rfl⟩ := h.effect
  exact ⟨_, effect, rfl⟩

lemma le_tick_of_mem_gridMoves (mem : m ∈ gridMoves stride start e) : start ≤ m.tick + 1 := by
  obtain ⟨step, _, mem⟩ := mem_flatMap.mp mem
  rcases mem_meetingMoves mem with ⟨here, _⟩ | ⟨_, here, _⟩ | ⟨_, here, _⟩
  · omega
  · omega
  · omega

lemma runSteps_places (task : Task) (s : Session) (e : Extracted) (stride : Nat)
    (pos : 0 < start) :
    s.Places (gridMoves stride start e) (e.interactions.foldlM
      (fun s step => s.interact task e.ancilla (start + step.1 * stride) step.2) s) := by
  refine Places.foldlM (fun s step _ => ?_) s
  exact interact_places task s e.ancilla fun _ => by omega

/-- One check on its grid: the gates fit, and its outcome is filed and reported. -/
lemma Safe.runExtracted_meets {task : Task} {round : Nat}
    {others : List Move} (safe : s.Safe made) (ancilla : e.check.ancilla = some e.ancilla)
    (letter : e.plan.basis ≠ .I) (unitary : ∀ step ∈ e.interactions, step.2.Unitary)
    (pos : 0 < start) (late : s.layerStart < start)
    (fits : s.Fits (gridMoves stride start e ++ others))
    (elsewhere : ∀ m ∈ others, e.ancilla ∉ m.qubits) :
    (runExtracted task stride start round s e).Bounded fun next =>
      (next.Safe (made ++ [(e.check, round)]) ∧ s.Leads next) ∧ next.Fits others := by
  have places := runSteps_places task s e stride pos
  have run := (places.safe safe.covered fits.left).strengthen fun _ result _ => places.result result
  refine run.bind fun mid quiet => ?_
  have harmless : ∀ m ∈ gridMoves stride start e, m.Plain := by
    intro m mem
    obtain ⟨step, inside, mem⟩ := mem_flatMap.mp mem
    exact plain_of_mem_meetingMoves (unitary step inside) mem
  have after : ∀ m ∈ gridMoves stride start e, s.layerStart ≤ m.tick := by
    intro m mem
    have placed := le_tick_of_mem_gridMoves mem
    omega
  have safe' := safe.quiet quiet harmless
  have leads := quiet.leads after
  have fits' := fits.right quiet.does
  refine measureAncilla_meets safe'.covered letter ?_
  intro gate last measuring measures direct
  have tick : start ≤ mid.measureTick e (if e.plan.steps.isEmpty then start
      else start + (e.plan.steps.length - 1) * stride + 1) := by
    refine le_trans ?_ (mid.occupancy.le_earliestFree _ _)
    split_ifs <;> omega
  have by_gate : e.check.MeasuredBy (mid.measureMove e (if e.plan.steps.isEmpty then start
      else start + (e.plan.steps.length - 1) * stride + 1) round gate) := by
    simp only [Check.MeasuredBy, ancilla]
    exact ⟨rfl, rfl, _, measuring⟩
  refine (safe'.measure_meets measures rfl by_gate (measuring_eq_ok measuring) ?_ ?_).strengthen ?_
  · rw [leads.layerStart]
    exact (late.le).trans tick
  · intro q d found
    rw [direct] at found
    exact .inl found
  · rintro next reported ⟨safe'', leads'⟩
    refine ⟨⟨safe'', leads.trans leads'⟩, ?_⟩
    obtain ⟨progress, rfl⟩ := notify_eq_ok reported
    refine fits'.frame fun m mem q acted => ?_
    have different : q ≠ e.ancilla := by
      rintro rfl
      exact elsewhere m mem acted
    refine (measures.does.free m.tick q).trans ?_
    simp [Move.takes, measureMove, different]

lemma ancilla_not_mem_gridMoves {code : Code} {es : List Extracted} {f : Extracted}
    (compatible : Extracted.Compatible code es) (he : e ∈ es) (hf : f ∈ es)
    (different : e.ancilla ≠ f.ancilla) (mem : m ∈ gridMoves stride start f) :
    e.ancilla ∉ m.qubits := by
  intro acted
  obtain ⟨step, inside, mem⟩ := mem_flatMap.mp mem
  rcases qubit_of_mem_meetingMoves mem acted with same | same
  · exact different same
  · have ancilla := compatible.ancilla e he
    rw [same, compatible.data f hf step inside] at ancilla
    contradiction

/-- All checks with ancillas of a round are measured. -/
lemma Safe.scheduleExtracted_meets {task : Task}
    {es : List Extracted} {round : Nat} (safe : s.Safe made)
    (compatible : Extracted.Compatible task.code es)
    (ancilla : ∀ e ∈ es, e.check.ancilla = some e.ancilla) :
    (s.scheduleExtracted task es round).Bounded fun next =>
      next.Safe (made ++ es.map fun e => (e.check, round)) ∧ s.Leads next := by
  simp only [scheduleExtracted]
  split_ifs with empty
  · have none : es = [] := isEmpty_iff.mp empty
    rw [none]
    exact meets_ok ⟨by simpa using safe, .refl s⟩
  refine (prepareAncillas_meets safe.covered es).bind ?_
  rintro ⟨prepared, ready⟩ ⟨openings, opened, quiet, opens⟩
  have after : s.layerStart < ready := layerStart_lt_of_opens opened (by simpa using empty) opens
  have safe' := safe.quiet quiet fun m mem => by
    obtain ⟨_, _, _, plain, _⟩ := mem_openings opened opens mem
    exact plain
  have leads := quiet.leads fun m mem => by
    obtain ⟨_, _, _, _, late, _⟩ := mem_openings opened opens mem
    exact late
  have needed := le_foldl_max
    (fun step : Nat × Interaction => prepared.startFor (Extracted.stride es) step.1 step.2)
    (es.flatMap (·.interactions)) ready
  simp only at needed ⊢
  refine (gridStart_meets prepared.occupancy es (by omega)).bind ?_
  rintro start ⟨reached, free⟩
  have fits : prepared.Fits (es.flatMap (gridMoves (Extracted.stride es) start)) :=
    ⟨free, pairwise_gridMoves compatible (by omega)⟩
  have late : prepared.layerStart < start := by
    rw [leads.layerStart]
    omega
  have apart := compatible.apart
  -- the checks still to run keep their grid to themselves
  refine (Outcome.Meets.foldlM (fun rest state => ∃ done, done ++ rest = es ∧
    (state.Safe (made ++ done.map fun e => (e.check, round)) ∧ prepared.Leads state) ∧
      state.Fits (rest.flatMap (gridMoves (Extracted.stride es) start))) ?_ es prepared
    ⟨[], rfl, ⟨by simpa using safe', .refl _⟩, fits⟩).imp ?_
  · rintro e rest state ⟨done, whole, ⟨held, led⟩, fit⟩
    have he : e ∈ es := by simp [← whole]
    have elsewhere : ∀ m ∈ rest.flatMap (gridMoves (Extracted.stride es) start),
        e.ancilla ∉ m.qubits := by
      intro m mem
      obtain ⟨f, hf, mem⟩ := mem_flatMap.mp mem
      rw [← whole] at apart
      have different := ((pairwise_cons.mp (pairwise_append.mp apart).2.1).1 f hf).1
      exact ancilla_not_mem_gridMoves compatible he (by simp [← whole, hf]) different mem
    refine (held.runExtracted_meets (ancilla e he) (compatible.basis e he) (compatible.unitary e he)
      (by omega) (by rw [led.layerStart]; exact late) fit elsewhere).imp ?_
    rintro next ⟨⟨held', led'⟩, fit'⟩
    exact ⟨done ++ [e], by simp [whole], ⟨by simpa using held', led.trans led'⟩, fit'⟩
  · rintro next ⟨done, whole, ⟨held, led⟩, _⟩
    rw [append_nil] at whole
    subst whole
    exact ⟨held, leads.trans led⟩

end Session

/-! Whole rounds. -/

namespace Code

/-- The checks measured in a round, in order: first those with an ancilla. -/
def measuredIn (code : Code) (round : Nat) : List (Check × Nat) :=
  ((code.checksIn round).filter (·.ancilla.isSome) ++
    (code.checksIn round).filter (·.ancilla.isNone)).map fun c => (c, round)

/-- The checks measured in the first rounds. -/
def measured (code : Code) (rounds : Nat) : List (Check × Nat) :=
  (List.range rounds).flatMap code.measuredIn

lemma measured_succ (code : Code) (rounds : Nat) :
    code.measured (rounds + 1) = code.measured rounds ++ code.measuredIn rounds := by
  simp [measured, range_succ]

lemma mem_measuredIn {code : Code} {round : Nat} {e : Check × Nat} :
    e ∈ code.measuredIn round ↔ e.1 ∈ code.checksIn round ∧ e.2 = round := by
  obtain ⟨c, r⟩ := e
  simp only [measuredIn, mem_map, mem_append, mem_filter, Prod.mk.injEq]
  constructor
  · rintro ⟨c', inside | inside, rfl, rfl⟩
    · exact ⟨inside.1, rfl⟩
    · exact ⟨inside.1, rfl⟩
  · rintro ⟨inside, rfl⟩
    refine ⟨c, ?_, rfl, rfl⟩
    cases has : c.ancilla with
    | none => exact .inr ⟨inside, rfl⟩
    | some a => exact .inl ⟨inside, rfl⟩

lemma mem_measured {code : Code} {rounds : Nat} {e : Check × Nat} :
    e ∈ code.measured rounds ↔ e.2 < rounds ∧ e.1 ∈ code.checksIn e.2 := by
  simp only [measured, mem_flatMap, mem_range, mem_measuredIn]
  constructor
  · rintro ⟨r, below, inside, rfl⟩
    exact ⟨below, inside⟩
  · rintro ⟨below, inside⟩
    exact ⟨e.2, below, inside, rfl⟩

end Code

namespace Task

/-- Detectors of the first rounds that the initial state does not rule out. -/
def planned (task : Task) (rounds : Nat) : List (Entry × Int × List Key) :=
  (List.range rounds).flatMap
    (({ initial := task.request.initial } : Resolver).openedIn task.code)

lemma planned_succ (task : Task) (rounds : Nat) :
    task.planned (rounds + 1) = task.planned rounds ++
      ({ initial := task.request.initial } : Resolver).openedIn task.code rounds := by
  simp [planned, range_succ]

/-- Every round can be extracted without a conflict. -/
def Extractable (task : Task) : Prop :=
  ∀ round, ∃ extracted, task.extractRound round = .ok extracted ∧
    Extracted.conflict? extracted = none

end Task

lemma Resolver.openedIn_congr {r other : Resolver} (same : r.initial = other.initial)
    (code : Code) (round : Nat) : r.openedIn code round = other.openedIn code round := by
  have each : r.opened (round % code.period) (Word.signed round) =
      other.opened (round % code.period) (Word.signed round) := by
    funext e
    simp only [opened, discards_congr same]
  rw [openedIn, each, openedIn]

namespace Session

variable {task : Task} {made : List (Check × Nat)} {s : Session}

/-- A session after some whole rounds. -/
structure Complete (task : Task) (s : Session) : Prop where
  safe : s.Safe (task.code.measured s.rounds)
  plan : s.progress.plan = task.planned s.rounds
  initial : s.progress.resolver.initial = task.request.initial

lemma Safe.scheduleDirects_meets {round : Nat} {checks : List Check} (safe : s.Safe made)
    (bare : ∀ c ∈ checks, c.ancilla = none) :
    (checks.foldlM (scheduleDirect task round) s).Bounded fun next =>
      next.Safe (made ++ checks.map fun c => (c, round)) ∧ s.Leads next := by
  refine (Outcome.Meets.foldlM (fun rest state => ∃ done, done ++ rest = checks ∧
    state.Safe (made ++ done.map fun c => (c, round)) ∧ s.Leads state) ?_ checks s
    ⟨[], rfl, by simpa using safe, .refl s⟩).imp ?_
  · rintro c rest state ⟨done, whole, held, led⟩
    have none : c.ancilla = none := bare c (by simp [← whole])
    refine scheduleDirect_meets held.covered ?_
    intro m mid directly tick key measures notes
    have by_gate : c.MeasuredBy m := by
      simpa only [Check.MeasuredBy, none] using directly
    refine (held.measure_meets measures key by_gate directly.isMeasurement ?_ ?_).imp ?_
    · rw [tick]
      exact state.layerStart_le_directTick c
    · intro q d found
      refine (notes q d found).imp id ?_
      rintro ⟨handle, tick, same, reads⟩
      exact ⟨handle, tick, same, none, reads⟩
    · rintro next ⟨held', led'⟩
      exact ⟨done ++ [c], by simp [whole], by simpa using held', led.trans led'⟩
  · rintro next ⟨done, whole, held, led⟩
    rw [append_nil] at whole
    subst whole
    exact ⟨held, led⟩

lemma Safe.roundNoises_meets (safe : s.Safe made) (qubits : List Qubit) :
    (qubits.foldlM (roundNoise task) s).Bounded fun next => next.Safe made ∧ s.Leads next := by
  refine Outcome.Meets.foldlM (fun _ state => state.Safe made ∧ s.Leads state) ?_ qubits s
    ⟨safe, .refl s⟩
  rintro q rest state ⟨held, led⟩
  refine (roundNoise_meets task state q).imp fun next quiet => ?_
  exact ⟨held.quiet quiet (by simp), led.trans (quiet.leads (by simp))⟩

lemma Safe.setTrackers (safe : s.Safe made) {trackers : List Tracker}
    (valid : ∀ t ∈ trackers, t.Valid s.store.record) (rounds : Nat) :
    ({ s with progress := s.progress.setTrackers trackers, rounds } : Session).Safe made where
  __ := safe
  enclosed := { safe.enclosed with }
  trackers := valid
  consistent := { safe.consistent with }

lemma Safe.startRound (safe : s.Safe made) (code : Code) : (startRound code s).Safe made where
  __ := safe
  enclosed := { safe.enclosed with }

lemma Later.startRound {next : Session} (h : s.Later next) (code : Code) :
    s.Later (startRound code next) :=
  { h with }

/-- The gates of a round, without its noise. -/
def gateRound (task : Task) (s : Session) : Outcome Session :=
  (s.progress.beginRound task.code s.rounds).commit >>= fun begun =>
    task.extractRound s.rounds >>= fun extracted =>
    (startRound task.code { s with progress := begun.1 }).scheduleExtracted task extracted
      s.rounds >>= fun first =>
    ((task.code.checksIn s.rounds).filter (·.ancilla.isNone)).foldlM
      (scheduleDirect task s.rounds) first

/-- A round up to its last outcome. Observables still have to move on. -/
def placeRound (task : Task) (s : Session) : Outcome Session :=
  s.gateRound task >>= fun gated => task.code.dataQubits.foldlM (roundNoise task) gated

lemma compileRound_split (task : Task) (s : Session) :
    s.compileRound task = s.placeRound task >>= fun third =>
      (third.progress.endRound task.code s.rounds).commit >>= fun ended =>
        .ok { third with progress := ended.1, rounds := s.rounds + 1 } := by
  simp only [placeRound, gateRound, bind_assoc]
  rfl

/-- All checks and detectors of a round are placed. -/
structure Fulfils (task : Task) (s third : Session) : Prop where
  safe : third.Safe (task.code.measured (s.rounds + 1))
  plan : third.progress.plan = task.planned (s.rounds + 1)
  later : s.Later third

/-- A round up to its end measures all of its checks. -/
lemma Complete.placeRound_meets (complete : s.Complete task) (extractable : task.Extractable) :
    (s.placeRound task).Bounded (s.Fulfils task) := by
  obtain ⟨es, extracts, conflict⟩ := extractable s.rounds
  obtain ⟨checks, each⟩ := Task.extractRound_eq_ok extracts
  simp only [placeRound, gateRound, extracts, bind_assoc]
  refine (complete.safe.consistent.beginRound_within False.elim False.elim).commit.bind ?_
  rintro ⟨p, u⟩ ⟨consistent, opened⟩
  obtain ⟨begun, later⟩ := complete.safe.extends consistent opened
  have started := begun.startRound task.code
  refine Outcome.Meets.bind (meets_ok rfl) ?_
  rintro _ rfl
  refine (started.scheduleExtracted_meets (Task.compatible extracts conflict)
    fun e mem => (each e mem).ancilla).bind ?_
  rintro first ⟨safe₁, leads₁⟩
  refine (safe₁.scheduleDirects_meets (fun c mem => by
    simpa using (mem_filter.mp mem).2)).bind ?_
  rintro second ⟨safe₂, leads₂⟩
  refine (safe₂.roundNoises_meets task.code.dataQubits).imp ?_
  rintro third ⟨safe₃, leads₃⟩
  have leads := (leads₁.trans leads₂).trans leads₃
  refine ⟨?_, ?_, (later.startRound task.code).trans leads.toLater⟩
  · have pairs : (es.map fun e => (e.check, s.rounds)) =
        (es.map (·.check)).map fun c => (c, s.rounds) := by
      simp
    rw [append_assoc, pairs, checks, ← map_append] at safe₃
    rwa [Code.measured_succ]
  · have begun_plan : third.progress.plan = p.plan := leads.plan
    have initial : s.progress.resolver.initial =
        ({ initial := task.request.initial } : Resolver).initial := complete.initial
    rw [begun_plan, opened.plan, complete.plan, Task.planned_succ, Resolver.openedIn_congr initial]

lemma Fulfils.contains {third : Session} (h : s.Fulfils task third) :
    ∀ c ∈ task.code.checksIn s.rounds,
      third.store.record.contains (.of c (Word.signed s.rounds)) = true := by
  intro c inside
  obtain ⟨keys, _, account⟩ := h.safe.account
  exact account.contains.mpr ⟨(c, s.rounds), Code.mem_measured.mpr ⟨by simp, inside⟩, rfl⟩

lemma Fulfils.endRound_meets {reasons : Halt → Prop} {third : Session} (h : s.Fulfils task third)
    (complete : s.Complete task) (each : ∀ t ∈ third.progress.resolver.trackers,
      (t.advance task.code s.rounds third.store.record).Meets reasons
        fun t _ => t.Valid third.store.record) :
    ((third.progress.endRound task.code s.rounds).commit >>= fun ended =>
      .ok { third with progress := ended.1, rounds := s.rounds + 1 }).Meets reasons fun next =>
        next.Complete task ∧ s.Later next ∧ next.rounds = s.rounds + 1 := by
  refine (Progress.endRound_meets each).commit.bind ?_
  rintro ⟨last, u⟩ ⟨valid, same⟩
  obtain ⟨trackers, rfl⟩ : ∃ trackers, last = third.progress.setTrackers trackers := ⟨_, same⟩
  refine meets_ok ⟨⟨h.safe.setTrackers valid _, h.plan, ?_⟩, ?_, rfl⟩
  · exact h.later.initial.trans complete.initial
  · exact { h.later with }

/-- A round can only fail for reasons that lie in the request, and completes all its checks and
detectors. -/
theorem Complete.compileRound_meets (complete : s.Complete task) (extractable : task.Extractable) :
    (s.compileRound task).Meets Halt.IsExpected fun next =>
      next.Complete task ∧ s.Later next ∧ next.rounds = s.rounds + 1 := by
  rw [compileRound_split]
  refine (complete.placeRound_meets extractable).expected.bind fun third fulfils => ?_
  exact fulfils.endRound_meets complete fun t mem =>
    (fulfils.safe.trackers t mem).advance_meets fulfils.contains

end Session

end SyndromeSchedule
