import SyndromeSchedule.Compile.Job
import SyndromeSchedule.Proofs.Layers

/-!
Compilations fail only for reasons that lie in the request. Once the request is found to be without
fault and every round can be extracted, gates never collide, every outcome that a detector or an
observable refers to is on record, and the store can be emitted. What is left are observables that
cannot be followed or read out, and words that are too small.
-/

namespace SyndromeSchedule

open List Outcome

variable {task : Task}

namespace Request

lemma finalFault?_eq_none {code : Code} {seen : List Qubit} {finals : List (Qubit × Pauli)}
    (h : finalFault? code seen finals = none) :
    (finals.map (·.1)).Nodup ∧ (∀ f ∈ finals, f.1 ∉ seen) ∧ ∀ f ∈ finals, f.2 ≠ .I := by
  induction finals generalizing seen with
  | nil => simp
  | cons f rest ih =>
    obtain ⟨q, basis⟩ := f
    simp only [finalFault?] at h
    split_ifs at h with stray identity repeated
    obtain ⟨distinct, unseen, letters⟩ := ih h
    refine ⟨?_, ?_, ?_⟩
    · rw [map_cons, nodup_cons]
      refine ⟨fun again => ?_, distinct⟩
      obtain ⟨f, mem, same⟩ := mem_map.mp again
      exact unseen f mem (by rw [same]; exact .head _)
    · exact forall_mem_cons.mpr ⟨repeated, fun f mem old =>
        unseen f mem (.tail _ old)⟩
    · exact forall_mem_cons.mpr ⟨identity, letters⟩

lemma fault?_eq_none {r : Request} {code : Code} (h : r.fault? code = none) :
    0 < r.layers ∧ ((r.resolvedFinals code).map (·.1)).Nodup ∧
      ∀ f ∈ r.resolvedFinals code, f.2 ≠ .I := by
  simp only [fault?] at h
  split_ifs at h with none
  rw [Option.or_eq_none_iff, Option.or_eq_none_iff, Option.map_eq_none_iff,
    Option.map_eq_none_iff] at h
  obtain ⟨distinct, _, letters⟩ := finalFault?_eq_none h.2.1
  refine ⟨Nat.pos_of_ne_zero none, ?_⟩
  simp only [resolvedFinals]
  split_ifs
  · refine ⟨?_, ?_⟩
    · rw [map_map]
      have same : (fun f : Qubit × Pauli => f.1) ∘ (fun q => (q, (r.initialState q).basis)) = id :=
        rfl
      rw [same, map_id]
      exact code.data.keys_nodup
    · intro f mem
      obtain ⟨q, _, rfl⟩ := mem_map.mp mem
      simp only
      cases r.initialState q <;> decide
  · exact ⟨distinct, letters⟩

end Request

namespace Session

variable {state : Session × Table (Pauli × Nat)} {tick last : Nat} {s s₀ : Session} {key : Key}
  {made : List (Check × Nat)} {done : List (Qubit × Pauli)} {f : Qubit × Pauli} {task : Task}
  {next : Session}

lemma enclosed_session (task : Task) : task.session.Enclosed where
  size := le_rfl
  horizon := fun _ => le_rfl
  floor := fun _ => le_rfl
  living := fun alive => by cases alive

lemma complete_session (task : Task) : task.session.Complete task := by
  refine ⟨⟨⟨⟨[], .nil, [], .refl, .nil _⟩, ?_, enclosed_session task, ?_, ?_, ?_⟩, ?_⟩, rfl,
    rfl⟩
  · intro t n taken
    simp [Task.session, store, Store.tickAt] at taken
  · intro q d found
    simp [Task.session] at found
  · intro t mem
    obtain ⟨e, _, rfl⟩ := mem_map.mp mem
    intro h inside
    simp [Tracker.start] at inside
  · intro region here
    cases here
  · refine ⟨.nil, by simp, ?_, ?_⟩
    · intro id i found
      simp [Task.session] at found
    · intro key
      rfl

lemma plain_rotationMoves {t : Nat} {state : State} {q : Qubit} {m : Move}
    (mem : m ∈ rotationMoves t (preparation state) q) : m.Plain := by
  simp only [rotationMoves, mem_map, Option.mem_toList] at mem
  obtain ⟨g, found, rfl⟩ := mem
  exact ⟨rfl, plain_preparation found⟩

lemma fits_initialMoves (task : Task) : task.session.Fits (initialMoves task) := by
  have distinct : task.code.dataQubits.Nodup := task.code.data.keys_nodup
  refine ⟨?_, ?_⟩
  · intro m _ q _
    exact Occupancy.isFree_of_size_le (Nat.zero_le _) q
  · rw [initialMoves, pairwise_append, pairwise_flatMap, pairwise_flatMap]
    refine ⟨⟨?_, ?_⟩, ⟨?_, ?_⟩, ?_⟩
    · intro q _
      exact pairwise_singleton ..
    · refine distinct.imp ?_
      intro p q different a ha b hb x hx hx'
      obtain rfl := mem_singleton.mp ha
      obtain rfl := mem_singleton.mp hb
      exact absurd ((mem_singleton.mp hx).symm.trans (mem_singleton.mp hx')) different
    · intro q _
      cases preparation (task.request.initialState q) with
      | none => exact .nil
      | some g => exact pairwise_singleton ..
    · refine distinct.imp ?_
      intro p q different a ha b hb x hx hx'
      rw [(mem_rotationMoves ha).2.2] at hx
      rw [(mem_rotationMoves hb).2.2] at hx'
      exact absurd ((mem_singleton.mp hx).symm.trans (mem_singleton.mp hx')) different
    · intro a ha b hb _ _ _
      obtain ⟨_, _, ha⟩ := mem_flatMap.mp ha
      obtain ⟨_, _, hb⟩ := mem_flatMap.mp hb
      obtain rfl := mem_singleton.mp ha
      rw [(mem_rotationMoves hb).2.1]
      exact Nat.zero_ne_one

lemma initialise_meets (task : Task) : (task.session.initialise task).Bounded fun s =>
      s.Complete task ∧ s.rounds = 0 ∧ s.store.region = none ∧ s.layerStart = 0 := by
  have places := initialise_places task task.session
  have start := complete_session task
  refine (places.safe start.safe.covered (fits_initialMoves task)).strengthen fun s result _ => ?_
  have quiet := places.result result
  have plain : ∀ m ∈ initialMoves task, m.Plain := by
    intro m mem
    rcases mem_append.mp mem with reset | prepared
    · obtain ⟨q, _, mem⟩ := mem_flatMap.mp reset
      obtain rfl := mem_singleton.mp mem
      exact ⟨rfl, rfl⟩
    · obtain ⟨q, _, mem⟩ := mem_flatMap.mp prepared
      exact plain_rotationMoves mem
  have leads := quiet.leads fun m _ => Nat.zero_le _
  exact ⟨start.congr (start.safe.quiet quiet plain) leads, leads.rounds, leads.region,
    leads.layerStart⟩

/-! Final measurements. -/

/-- Outcomes are added in one tick, and nothing else changes. -/
structure Ends (tick : Nat) (s next : Session) : Prop where
  within : s.store.record.Within next.store.record
  placed : ∀ {h t : Nat} {key : Key}, next.store.record.entry? h = some (key, t) →
    s.store.record.entry? h = none → t = tick
  ticks : ∀ t < tick, next.store.tickAt t = s.store.tickAt t
  resolver : next.progress.resolver = s.progress.resolver
  region : next.store.region = s.store.region
  rounds : next.rounds = s.rounds

lemma Ends.refl (tick : Nat) (s : Session) : s.Ends tick s where
  within := id
  placed := by
    intro h t key entry none
    rw [entry] at none
    contradiction
  ticks := fun _ _ => rfl
  resolver := rfl
  region := rfl
  rounds := rfl

lemma Ends.trans {last : Session} (h : s.Ends tick next) (h' : next.Ends tick last) :
    s.Ends tick last where
  within := fun entry => h'.within (h.within entry)
  placed := by
    intro handle t key entry none
    rcases Option.eq_none_or_eq_some <| next.store.record.entry? handle with fresh | ⟨e, old⟩
    · exact h'.placed entry fresh
    · have same := h'.within old
      rw [entry] at same
      obtain rfl := Option.some.inj same
      exact h.placed old none
  ticks := fun t below => (h'.ticks t below).trans (h.ticks t below)
  resolver := h'.resolver.trans h.resolver
  region := h'.region.trans h.region
  rounds := h'.rounds.trans h.rounds

lemma Measures.ends {m : Move} (h : s.Measures m next) : s.Ends m.tick next := by
  obtain ⟨u, effect, rfl⟩ := h.effect
  refine ⟨effect.within, ?_, ?_, h.resolver, effect.writes.region, effect.rounds⟩
  · intro handle t k entry none
    obtain ⟨v, used, rfl⟩ := effect.writes.use_of_fresh entry none
    rw [mem_singleton.mp used]
    rfl
  · exact fun t below => effect.writes.tickAt_of_untouched (forall_mem_singleton.mpr below.ne')

/-- Final measurements of some qubits, as checks of a round. -/
def ReadOut (rounds : Nat) (finals : List (Qubit × Pauli)) (made : List (Check × Nat)) : Prop :=
  Forall₂ (fun f e => e.1.Reads f.1 f.2 ∧ e.2 = rounds) finals made

/-- A final measurement that needs no gate, since the check of the qubit alone was measured in the
last round. -/
def Reused (last : Nat) (made : List (Check × Nat)) (f : Qubit × Pauli) : Prop :=
  ∃ c, (c, last) ∈ made ∧ c.Reads f.1 f.2

/-- A key of the last rounds, or of the final measurements after them. -/
def IsLast (period rounds : Nat) (key : Key) : Prop :=
  ∃ round, rounds ≤ round + period ∧ round ≤ rounds ∧ key.round = Word.signed round

/-- Final measurements so far: some made anew, the others reused. -/
structure Finals (s₀ : Session) (made : List (Check × Nat)) (tick last : Nat)
    (done : List (Qubit × Pauli)) (state : Session × Table (Pauli × Nat)) : Prop where
  fresh : ∃ anew more, anew.Sublist done ∧ (∀ f ∈ done, f ∉ anew → Reused last made f) ∧
    ReadOut s₀.rounds anew more ∧ state.1.Stable (made ++ more)
  ends : s₀.Ends tick state.1
  direct : state.1.direct = s₀.direct
  known : ∀ q e, state.2.get? q = some e → ∃ key t,
    state.1.store.record.entry? e.2 = some (key, t) ∧
      (key.round = Word.signed last ∨ key.round = Word.signed s₀.rounds)

section

variable (h : Finals s₀ made tick last done state)
include h

lemma Finals.reuse (stable : s₀.Stable made) {d : DirectOutcome}
    (found : state.1.direct.get? f.1 = some d) (round : d.round = last) (basis : d.basis = f.2) :
    Finals s₀ made tick last (done ++ [f]) (state.1, state.2.insert f.1 (f.2, d.handle)) := by
  rw [h.direct] at found
  obtain ⟨c, inside, reads, entry⟩ := stable.direct found
  rw [round] at inside
  rw [basis] at reads
  obtain ⟨anew, more, part, rest, closes, held⟩ := h.fresh
  refine ⟨⟨anew, more, part.trans (sublist_append_left ..), ?_, closes, held⟩, h.ends, h.direct, ?_⟩
  · intro g mem missing
    rcases mem_append.mp mem with old | new
    · exact rest g old missing
    · obtain rfl := mem_singleton.mp new
      exact ⟨c, inside, reads⟩
  · intro q e here
    rw [Table.get?_insert] at here
    split_ifs at here
    · obtain rfl := Option.some.inj here
      exact ⟨_, _, h.ends.within entry, .inl (by rw [round]; rfl)⟩
    · exact h.known q e here

/-- A final measurement that is made anew. -/
lemma Finals.measure {mid : Session} {c : Check} (reads : c.Reads f.1 f.2) {gate : Gate}
    (measuring : Gate.measuring f.2 = .ok gate)
    (measures : state.1.Measures
      ⟨tick, gate, [f.1], [], some (Key.of c (Word.signed state.1.rounds))⟩ mid)
    (direct : mid.direct = state.1.direct) :
    Finals s₀ made tick last (done ++ [f])
      (mid, state.2.insert f.1 (f.2, state.1.store.record.size)) := by
  obtain ⟨anew, more, part, rest, closes, held⟩ := h.fresh
  have ends := measures.ends
  have record := measures.record rfl
  have by_gate : c.MeasuredBy
      ⟨tick, gate, [f.1], [], some (Key.of c (Word.signed state.1.rounds))⟩ := by
    obtain ⟨none, m, single, qubit, letter⟩ := reads
    simp only [Check.MeasuredBy, none, Directly, single]
    exact ⟨by simp [Check.qubits, single, qubit], by rw [letter]; exact measuring, trivial⟩
  have held' := held.measure measures rfl by_gate (measuring_eq_ok measuring) fun q d found => by
    rw [direct] at found
    exact .inl found
  rw [append_assoc] at held'
  refine ⟨⟨anew ++ [f], more ++ [(c, state.1.rounds)], part.append (.refl _), ?_, ?_, held'⟩,
    h.ends.trans ends, direct.trans h.direct, ?_⟩
  · intro g mem missing
    rw [mem_append, not_or] at missing
    rcases mem_append.mp mem with old | new
    · exact rest g old missing.1
    · exact absurd new missing.2
  · exact rel_append closes (.cons ⟨reads, h.ends.rounds⟩ .nil)
  · intro q e here
    rw [Table.get?_insert] at here
    split_ifs at here
    · obtain rfl := Option.some.inj here
      refine ⟨Key.of c (Word.signed state.1.rounds), tick, ?_, .inr ?_⟩
      · rw [record, Record.entry?_push, if_pos rfl]
      · rw [h.ends.rounds]
        rfl
    · obtain ⟨key, t, entry, late⟩ := h.known q e here
      exact ⟨key, t, ends.within entry, late⟩

/-- A final measurement finds its qubit free, unless it needs no gate. -/
lemma Finals.measureFinal_meets (stable : s₀.Stable made) (letter : f.2 ≠ .I)
    (free : state.1.occupancy.isFree tick f.1 = true) :
    (measureFinal task last tick state f).Bounded fun next =>
      Finals s₀ made tick last (done ++ [f]) next ∧ ∀ q, q ≠ f.1 →
        next.1.occupancy.isFree tick q = state.1.occupancy.isFree tick q := by
  obtain ⟨s, finals⟩ := state
  obtain ⟨q, basis⟩ := f
  simp only [measureFinal]
  split
  · next d found =>
      obtain ⟨found, same⟩ := Option.filter_eq_some_iff.mp found
      simp only [Bool.and_eq_true, decide_eq_true_eq] at same
      exact meets_ok ⟨h.reuse stable found same.1.1 same.1.2, fun _ _ => rfl⟩
  · obtain ⟨c, checks, reads⟩ := Check.ofLetters_single (q := q) letter
    obtain ⟨gate, measuring⟩ := exists_measuring letter
    obtain ⟨_, _, _, _, _, held⟩ := h.fresh
    have names : Store.Names (s.store.index q).1.qubits [(s.store.index q).2] [q] :=
      (Store.indexAll_numbering [q] s.store).2
    have open_target : s.store.IsOpen tick (s.store.measureUse tick gate q
        task.compiler.noise.flip? (Key.of c (Word.signed s.rounds))).target :=
      held.covered.isOpen (s.store.index_numbering q).1 names (by simpa using free)
    simp only [checks, measuring, Outcome.ofExcept]
    refine Outcome.Meets.bind (meets_ok rfl) ?_
    rintro _ rfl
    refine Outcome.Meets.bind (meets_ok rfl) ?_
    rintro _ rfl
    refine (Store.addMeasurement_meets open_target).commit.bind ?_
    rintro ⟨store, handle⟩ ⟨made_store, rfl⟩
    have measures := measures_qubit task.code made_store
    refine meets_ok ⟨h.measure reads measuring measures ?_, ?_⟩
    · rw [touch_eq]
      rfl
    · intro p different
      rw [measures.does.free]
      simp [Move.takes, different]

end

/-- All final measurements fit into one tick. -/
lemma Stable.measureAll_meets (stable : s.Stable made) (last : Nat)
    {finals : List (Qubit × Pauli)} (distinct : (finals.map (·.1)).Nodup)
    (letters : ∀ f ∈ finals, f.2 ≠ .I) :
    (finals.foldlM (measureFinal task last s.barrier) (s, .empty)).Bounded
      (Finals s made s.barrier last finals) := by
  have start : Finals s made s.barrier last [] (s, .empty) := by
    refine ⟨⟨[], [], .slnil, by simp, .nil, by simpa using stable⟩, .refl _ s, rfl, ?_⟩
    intro q e found
    simp at found
  have free : ∀ f ∈ finals, s.occupancy.isFree s.barrier f.1 = true :=
    fun f _ => Occupancy.isFree_of_size_le (le_max_left ..) f.1
  refine (Outcome.Meets.foldlM (fun rest state => ∃ done, done ++ rest = finals ∧
    Finals s made s.barrier last done state ∧
      ∀ f ∈ rest, state.1.occupancy.isFree s.barrier f.1 = true) ?_ finals (s, .empty)
    ⟨[], rfl, start, free⟩).imp ?_
  · rintro f rest state ⟨done, whole, held, open_rest⟩
    refine (held.measureFinal_meets stable (letters f (by simp [← whole]))
      (open_rest f (.head _))).imp ?_
    rintro next ⟨held', others⟩
    refine ⟨done ++ [f], by simp [whole], held', ?_⟩
    intro g mem
    have different : g.1 ≠ f.1 := by
      rw [← whole, map_append, map_cons] at distinct
      have tail := (nodup_cons.mp (nodup_append.mp distinct).2.1).1
      rintro same
      exact tail (mem_map.mpr ⟨g, mem, same⟩)
    rw [others g.1 different]
    exact open_rest g (.tail _ mem)
  · rintro state ⟨done, whole, held, _⟩
    rw [append_nil] at whole
    rwa [← whole]

section

variable (h : Finals s₀ made tick (s₀.rounds - 1) done state) (pos : 0 < s₀.rounds) {code : Code}
include h pos

lemma Finals.isLast_final {q : Qubit} {e : Pauli × Nat} (found : state.2.get? q = some e) :
    ∃ key t, state.1.store.record.entry? e.2 = some (key, t) ∧
      IsLast code.period s₀.rounds key := by
  have period := code.period_pos
  obtain ⟨key, t, entry, last | final⟩ := h.known q e found
  · exact ⟨key, t, entry, s₀.rounds - 1, by omega, by omega, last⟩
  · exact ⟨key, t, entry, s₀.rounds, by omega, by omega, final⟩

lemma Finals.isLast {f : FinalDetector}
    (closes : f.Closes code (s₀.rounds - 1) state.2 state.1.store.record) :
    ∀ h ∈ f.handles, ∃ key t, state.1.store.record.entry? h = some (key, t) ∧
      IsLast code.period s₀.rounds key := by
  intro handle mem
  have period := code.period_pos
  rcases mem_cons.mp (mem_of_mem_oddItems mem) with rfl | other
  · obtain ⟨t, entry⟩ := Record.entry?_of_handle? closes.made
    obtain ⟨le, back, _⟩ := Progress.lastMeasured?_eq_some closes.found
    exact ⟨_, t, entry, f.round, by omega, by omega, rfl⟩
  · have found := Progress.finalHandles_eq_ok closes.finals closes.covered
    obtain ⟨m, _, found⟩ := exists_left_of_forall₂ found other
    exact h.isLast_final pos found

end

lemma provides_of_mem_planned {rounds : Nat} {i : Entry × Int × List Key}
    (mem : i ∈ task.planned rounds) (inside : key ∈ i.2.2) :
    task.code.Provides rounds key := by
  obtain ⟨round, below, mem⟩ := mem_flatMap.mp mem
  obtain ⟨⟨d, index⟩, listed, mem⟩ := mem_flatMap.mp mem
  simp only [Resolver.opened] at mem
  split_ifs at mem
  · simp at mem
  · obtain rfl := mem_singleton.mp mem
    have detector : d ∈ task.code.detectorsIn round :=
      mem_of_getElem? (mem_zipIdx_iff_getElem?.mp listed)
    have provided := task.code.provides_of_mem_keys detector inside
    exact provided.mono (mem_range.mp below)

lemma Complete.contains (complete : s.Complete task)
    (provided : task.code.Provides s.rounds key) : s.store.record.contains key = true := by
  obtain ⟨r, below, c, scheduled, rfl⟩ := provided
  obtain ⟨keys, _, account⟩ := complete.safe.account
  exact account.contains.mpr ⟨(c, r), Code.mem_measured.mpr ⟨below, scheduled⟩, rfl⟩

lemma Complete.resolved (complete : s.Complete task) {i : Instance}
    (mem : i ∈ s.progress.resolver.instances.toList) : i.stage = .resolved := by
  obtain ⟨id, found⟩ := getElem?_of_mem mem
  rw [Array.getElem?_toList] at found
  have settled := complete.safe.consistent.settled found
  have planned : (i.entry, i.round, i.constituents) ∈ task.planned s.rounds := by
    rw [← complete.plan]
    exact mem_map_of_mem mem
  have none : i.constituents.filter (!s.progress.store.record.contains ·) = [] := by
    rw [filter_eq_nil_iff]
    intro key inside
    have there : s.progress.store.record.contains key = true :=
      complete.contains (provides_of_mem_planned planned inside)
    simp [there]
  have missing := settled.missing
  rw [none] at missing
  rw [settled.stage, missing]
  rfl

lemma Complete.written (complete : s.Complete task) :
    s.progress.written = (task.planned s.rounds).map (·.2.2) := by
  have all : s.progress.resolver.instances.toList.filter (·.stage = .resolved) =
      s.progress.resolver.instances.toList := by
    rw [filter_eq_self]
    intro i mem
    simpa using complete.resolved mem
  rw [← complete.plan, Progress.written, all, Progress.plan, map_map]
  rfl

/-- What is on record after the final measurements: those made anew in addition to the checks of all
rounds, and the keys of detectors, among them those that close on the final measurements. -/
structure Ledger (task : Task) (s next : Session) (placed : Nat) (anew : List (Qubit × Pauli))
    (more : List (Check × Nat)) (keys closing : List (List Key)) : Prop where
  part : anew.Sublist (task.request.resolvedFinals task.code)
  rest : ∀ f ∈ task.request.resolvedFinals task.code, f ∉ anew →
    Reused (s.rounds - 1) (task.code.measured s.rounds) f
  read : ReadOut s.rounds anew more
  planned : keys.Perm ((task.planned s.rounds).map (·.2.2))
  count : closing.length = placed
  kinds : ∀ k ∈ closing, k ≠ [] ∧ ∀ key ∈ k, IsLast task.code.period s.rounds key
  account : next.store.Account (task.code.measured s.rounds ++ more) (keys ++ closing)

/-- A session after the final measurements, with the detectors that close on them counted. -/
structure Finished (task : Task) (s next : Session) (placed : Nat) : Prop where
  account : ∃ anew more keys closing, s.Ledger task next placed anew more keys closing
  ends : ∃ mid items, s.Ends s.store.size mid ∧ next.store = mid.store.withNotes items
  instances : next.progress.resolver.instances = s.progress.resolver.instances
  region : next.store.region = s.store.region
  marked : ∀ region, next.store.region = some region →
    region.start ≤ region.stop ∧ region.stop ≤ next.store.size
  rounds : next.rounds = s.rounds

lemma Finished.emissible {placed : Nat} (h : s.Finished task next placed) :
    next.store.Emissible := by
  obtain ⟨_, _, _, _, ledger⟩ := h.account
  exact ⟨ledger.account.sound, h.marked⟩

lemma Finished.finish_eq {placed : Nat} (h : s.Finished task next placed)
    (complete : s.Complete task) : next.progress.resolver.finish = .ok () := by
  have resolved : next.progress.resolver.unresolved? = none := by
    rw [Resolver.unresolved?, find?_eq_none]
    intro i mem
    rw [h.instances] at mem
    simpa using complete.resolved mem
  simp only [Resolver.finish, resolved]

/-- What the detectors and the observables that close on the final measurements leave. -/
lemma Finals.finished {mid : Session} {finals : Table (Pauli × Nat)} {p q : Progress} {placed : Nat}
    (held : Finals s (task.code.measured s.rounds) s.barrier (s.rounds - 1)
      (task.request.resolvedFinals task.code) (mid, finals))
    (complete : s.Complete task) (pos : 0 < s.rounds)
    (closes : (mid.progress.finalDetectors task.code (s.rounds - 1) finals).commit =
      .ok (p, placed))
    (ends : (p.finalObservables mid.rounds finals).commit = .ok (q, ())) :
    s.Finished task { mid with progress := q } placed := by
  obtain ⟨anew, more, part, rest, read, stable⟩ := held.fresh
  obtain ⟨keys, written, account⟩ := stable.account
  have untouched : mid.progress.resolver = s.progress.resolver := held.ends.resolver
  obtain ⟨_, resolver, _⟩ := Progress.finalDetectors_eq_ok closes
  obtain ⟨closing, detected, count, found⟩ := Progress.finalDetectors_closes closes
  obtain ⟨items, lasts, noted⟩ := Progress.finalObservables_eq_ok ends
  have resolver' : q.resolver.instances = p.resolver.instances := by
    obtain ⟨rfl, _⟩ := Attempt.commit_eq_ok.mp ends
    rfl
  have refer : ∀ f ∈ closing, ∃ keys, mid.progress.store.record.Refers keys f.note ∧ keys ≠ [] ∧
      ∀ key ∈ keys, IsLast task.code.period s.rounds key :=
    fun f mem => (found f mem).refers (held.isLast pos (found f mem))
  obtain ⟨closing', adds, length, kinds⟩ := Store.Adds.closes refer
  have after : ∀ e ∈ items, ∀ h ∈ e.2.pending, ∃ key t,
      p.store.record.entry? h = some (key, t) ∧ t ≤ e.1 := by
    intro e mem
    obtain ⟨_, _, _, latest⟩ := exists_left_of_forall₂ lasts mem
    exact latest.after
  have closed : p.store.Account (task.code.measured s.rounds ++ more) (keys ++ closing') := by
    rw [detected]
    exact account.annotate adds
  have observed := closed.annotate (Store.Adds.observes after)
  rw [append_nil, ← noted] at observed
  have ended : q.store = mid.store.withNotes
      (closing.map FinalDetector.note ++ Tracker.allNoted items) := by
    rw [noted, detected, Store.withNotes_append]
    rfl
  have writes :=
    mid.store.writes_withNotes (closing.map FinalDetector.note ++ Tracker.allNoted items)
  rw [← ended] at writes
  refine ⟨⟨anew, more, keys, closing', part, rest, read, ?_, ?_, kinds, observed⟩,
    ⟨mid, _, ?_, ended⟩, ?_, ?_, ?_, ?_⟩
  · have same : mid.progress.written = s.progress.written := by
      simp only [Progress.written, untouched]
    have written : keys.Perm mid.progress.written := written
    rwa [same, complete.written] at written
  · omega
  · have barrier := complete.safe.enclosed.barrier_eq
    rw [← barrier]
    exact held.ends
  · change q.resolver.instances = _
    rw [resolver', resolver, untouched]
  · exact writes.region.trans held.ends.region
  · intro r here
    obtain ⟨ordered, inside⟩ := stable.marked r (writes.region.symm.trans here)
    exact ⟨ordered, inside.trans writes.size_le⟩
  · exact held.ends.rounds

/-- The end of a compilation, which fails only if an observable cannot be closed. -/
lemma Complete.measureFinals_of_close {reasons : Halt → Prop}
    (full : reasons (@Halt.overflow .word)) (complete : s.Complete task) (pos : 0 < s.rounds)
    (fault : task.request.fault? task.code = none)
    (each : ∀ mid finals, (task.request.resolvedFinals task.code).foldlM
      (measureFinal task (s.rounds - 1) s.barrier) (s, .empty) = .ok (mid, finals) →
      (∀ q e, finals.get? q = some e → e.2 < mid.store.record.size) →
      ∀ t ∈ s.progress.resolver.trackers, t.Valid mid.store.record →
        (t.close s.rounds finals).Meets reasons fun t _ => t.Valid mid.store.record) :
    (s.measureFinals task).Meets reasons fun r => s.Finished task r.1 r.2 := by
  obtain ⟨_, distinct, letters⟩ := Request.fault?_eq_none fault
  simp only [measureFinals]
  refine Outcome.Meets.bind (meets_pred pos rfl) ?_
  rintro _ rfl
  refine ((complete.safe.measureAll_meets (s.rounds - 1) distinct letters).mono full).bind_of_ok ?_
  rintro ⟨mid, finals⟩ measures held
  obtain ⟨anew, more, _, _, _, stable⟩ := held.fresh
  obtain ⟨keys, _, account⟩ := stable.account
  have period := task.code.period_pos
  have measured : Progress.HoldsLast task.code (s.rounds - 1) mid.progress.store.record := by
    intro round bound back c inside
    refine account.contains.mpr ⟨(c, round), mem_append_left _ ?_, rfl⟩
    exact Code.mem_measured.mpr ⟨by simp only; omega, inside⟩
  have made : Progress.HoldsFinals finals mid.progress.store.record := by
    intro q e found
    obtain ⟨key, t, entry, _⟩ := held.known q e found
    exact Record.lt_size entry
  have closing := (Progress.finalDetectors_meets measured made).commit
  refine (Outcome.Bounded.mono closing full).bind_of_ok ?_
  rintro ⟨p, placed⟩ closes _
  obtain ⟨_, resolver, _⟩ := Progress.finalDetectors_eq_ok closes
  obtain ⟨_, detected, _⟩ := Progress.finalDetectors_closes closes
  have record : p.store.record = mid.store.record := by
    rw [detected]
    exact Store.record_withNotes ..
  have closed : ∀ t ∈ p.resolver.trackers,
      (t.close mid.rounds finals).Meets reasons fun t _ => t.Valid p.store.record := by
    intro t mem
    rw [resolver] at mem
    rw [record, held.ends.rounds]
    exact each mid finals measures made t (held.ends.resolver ▸ mem) (stable.trackers t mem)
  refine (Progress.finalObservables_meets full closed).commit.bind_of_ok ?_
  rintro ⟨q, u⟩ ends _
  exact meets_ok (held.finished complete pos closes ends)

lemma Complete.measureFinals_meets (complete : s.Complete task) (pos : 0 < s.rounds)
    (fault : task.request.fault? task.code = none) :
    (s.measureFinals task).Meets Halt.IsExpected fun r => s.Finished task r.1 r.2 :=
  complete.measureFinals_of_close (.inr (.inr rfl)) pos fault
    fun _ _ _ made _ _ valid => valid.close_meets s.rounds made

end Session

/-! Whole compilations. -/

lemma Outcome.forM_meets {α : Type} {reasons : Halt → Prop} {P : α → Prop}
    {f : α → Outcome Unit} {items : List α} (each : ∀ a ∈ items, (f a).Meets reasons fun _ => P a) :
    (items.forM f).Meets reasons fun _ => ∀ a ∈ items, P a := by
  induction items with
  | nil => exact meets_ok (by simp)
  | cons a rest ih =>
    refine (each a (.head _)).bind fun _ here => ?_
    refine (ih fun b mem => each b (.tail _ mem)).imp fun _ others => ?_
    exact forall_mem_cons.mpr ⟨here, others⟩

namespace Task

lemma extractRound_meets (task : Task) (round : Nat) :
    (task.extractRound round).Meets Halt.IsExpected fun es =>
      task.extractRound round = .ok es := by
  have safe : (task.extractRound round).Meets Halt.IsExpected fun _ => True := by
    have each : ∀ e ∈ (task.code.checksIn round).filterMap fun c => c.ancilla.map fun a => (c, a),
        (do
          let plan ← task.compiler.extractor.plan e.1
          return (⟨e.1, e.2, plan⟩ : Extracted) : Outcome Extracted).Meets Halt.IsExpected
            fun _ => True :=
      fun e _ => (task.compiler.extractor.plan_meets e.1).bind fun _ _ => meets_ok trivial
    exact (Outcome.Meets.mapM _ each).imp fun _ _ => trivial
  exact safe.strengthen fun _ result _ => result

lemma checkExtraction_meets (task : Task) :
    task.checkExtraction.Meets Halt.IsExpected fun _ => task.Extractable := by
  have each : task.checkExtraction.Meets Halt.IsExpected fun _ =>
      ∀ round ∈ range task.code.period, ∃ es,
        task.extractRound round = .ok es ∧ Extracted.conflict? es = none := by
    refine forM_meets fun round _ => ?_
    refine (task.extractRound_meets round).bind fun es found => ?_
    cases conflict : Extracted.conflict? es with
    | some cause => exact meets_extraction
    | none => exact meets_ok ⟨es, found, conflict⟩
  refine each.imp fun _ all round => ?_
  have bound : round % task.code.period ∈ range task.code.period :=
    mem_range.mpr (Nat.mod_lt _ task.code.period_pos)
  obtain ⟨es, found, conflict⟩ := all _ bound
  refine ⟨es, ?_, conflict⟩
  simpa only [extractRound, Code.checksIn_mod] using found


end Task

section Layered

variable {s₀ s : Session} {repeated : Bool} (h : s₀.Layered task s repeated)
include h

lemma Session.Layered.complete : s.Complete task := by
  cases h with
  | flat complete _ _ => exact complete
  | folded _ _ _ _ _ third => exact third.complete

lemma Session.Layered.rounds_pos (pos : 0 < task.request.layers) : 0 < s.rounds := by
  have period := task.code.period_pos
  cases h with
  | flat _ rounds _ =>
    have product := Nat.mul_pos pos period
    omega
  | folded _ _ _ _ _ third =>
    have rounds := third.rounds
    omega

lemma Session.Layered.rounds_eq_mul (none : s₀.rounds = 0) :
    ∃ n, s.rounds = n * task.code.period := by
  cases h with
  | flat _ count => exact ⟨task.request.layers, by rw [count, none, Nat.zero_add]⟩
  | @folded s₁ s₂ _ _ _ _ _ _ _ _ first second _ _ third =>
    have marked : s.rounds = s₂.rounds + task.code.period := third.rounds
    exact ⟨3, by rw [marked, second.rounds, first.rounds, none]; omega⟩

end Layered

lemma Task.schedule_meets (fault : task.request.fault? task.code = none) :
    task.schedule.Meets Halt.IsExpected (·.1.Emissible) := by
  have pos := (Request.fault?_eq_none fault).1
  simp only [schedule]
  refine task.checkExtraction_meets.bind fun _ extractable => ?_
  refine (Session.initialise_meets task).expected.bind ?_
  rintro s₀ ⟨complete₀, _⟩
  refine (Task.placeLayers_meets extractable complete₀ pos).bind ?_
  rintro ⟨s, repeated⟩ layered
  have complete := layered.complete
  refine (complete.measureFinals_meets (layered.rounds_pos pos) fault).bind ?_
  rintro ⟨next, placed⟩ finished
  simp only [finished.finish_eq complete]
  refine Outcome.Meets.bind (meets_ok rfl) ?_
  rintro _ rfl
  exact meets_ok finished.emissible

/-- Nothing goes wrong in a compilation but what is expected to. -/
lemma Compiler.compile_meets {c : Compiler} {code : Code} {request : Request}
    (fault : request.fault? code = none) :
    (c.compile code request).Meets Halt.IsExpected fun _ => True := by
  simp only [compile, fault]
  refine (Task.schedule_meets fault).bind ?_
  rintro ⟨store, report⟩ emissible
  have emitted : store.emit c.options.layout = _ := emissible.emit_eq c.options.layout
  simp only [emitted]
  exact meets_ok trivial

/-- A request is refused for its own fault or that of an observable. -/
def Request.Refuses (request : Request) (code : Code) (halt : Halt) : Prop :=
  ∃ cause, request.fault? code = some cause ∧ halt = .fault cause ∧
    ((∃ fault, cause = .request fault) ∨ ∃ fault, cause = .design (.code fault))

lemma Request.refuses_of_fault {request : Request} {code : Code} {cause : Error}
    (fault : request.fault? code = some cause) : request.Refuses code (.fault cause) := by
  refine ⟨cause, fault, rfl, ?_⟩
  simp only [fault?] at fault
  split_ifs at fault
  · exact .inl ⟨_, (Option.some.inj fault).symm⟩
  · rw [Option.or_eq_some_iff, Option.or_eq_some_iff] at fault
    rcases fault with initial | ⟨_, final | ⟨_, logical⟩⟩
    · obtain ⟨_, _, rfl⟩ := Option.map_eq_some_iff.mp initial
      exact .inl ⟨_, rfl⟩
    · obtain ⟨_, _, rfl⟩ := Option.map_eq_some_iff.mp final
      exact .inl ⟨_, rfl⟩
    · obtain ⟨_, _, rfl⟩ := Option.map_eq_some_iff.mp logical
      exact .inr ⟨_, rfl⟩

lemma Outcome.Meets.cases {α : Type} {post : α → Prop} {x : Outcome α}
    (h : x.Meets Halt.IsExpected post) :
    (∃ a, x = .ok a ∧ post a) ∨ ∃ halt, x = .error halt ∧ halt.IsExpected := by
  cases x with
  | ok a => exact .inl ⟨a, rfl, h⟩
  | error halt => exact .inr ⟨halt, rfl, h⟩

/-! A code of two data qubits with one check between them, which is compared with itself one round
earlier. -/

namespace PairCode

def left : Qubit := ⟨[0]⟩

def right : Qubit := ⟨[2]⟩

def check : Check :=
  ⟨[⟨⟨[-1]⟩, left, .positive .Z⟩, ⟨⟨[1]⟩, right, .positive .Z⟩], some ⟨[1]⟩, some ⟨[1]⟩, by decide⟩

def detector : Detector := ⟨[⟨-1, check⟩], [⟨0, check⟩], 0, by decide⟩

/-- One check of two qubits, measured in every round and compared with the round before. -/
def code : Code := ⟨.ofList [left, right], [[check]], [[detector]], [], by decide⟩

/-- A compiler without noise. -/
def compiler (options : Options) : Compiler := ⟨.noiseless, {}, options, NoiseModel.noiseless_sound⟩

end PairCode

/-- If a compilation fails, then the request is refused, a check cannot be extracted or an
observable cannot be followed; no gates collide, no outcome is missing and no index is out of range.
A job that is found valid can only fail in the last two ways. Words that are too small are apart
from this. -/
theorem Compiler.compile_error_expected (c : Compiler) (code : Code) (request : Request) :
    (∀ halt, c.compile code request = .error halt →
      request.Refuses code halt ∨ halt.IsExpected) ∧
    ∀ j : Job, j.validate = .ok () →
      (∃ r, j.run = .ok r) ∨ ∃ halt, j.run = .error halt ∧ halt.IsExpected := by
  refine ⟨?_, ?_⟩
  · intro halt failed
    cases fault : request.fault? code with
    | some cause =>
      simp only [compile, fault] at failed
      cases failed
      exact .inl (Request.refuses_of_fault fault)
    | none =>
      have meets := compile_meets (c := c) fault
      rw [failed] at meets
      exact .inr meets
  · intro j valid
    obtain ⟨compiler, made, valid⟩ := Outcome.of_bind valid
    cases fault : j.request.fault? j.code with
    | some cause =>
      rw [fault] at valid
      cases valid
    | none =>
      have run : j.run = compiler.compile j.code j.request := by
        simp only [Job.run, made]
        rfl
      rw [run]
      rcases (compile_meets (c := compiler) fault).cases with ⟨r, ok, _⟩ | failed
      · exact .inl ⟨r, ok⟩
      · exact .inr failed

theorem PairCode.compile_error_expected_pair :
    ((compiler {}).compile code { layers := 0 } = .error (.fault (.request .noLayers)) ∧
      (({ layers := 0 } : Request).Refuses code (.fault (.request .noLayers)) ∨
        (Halt.fault (.request .noLayers)).IsExpected)) ∧
    ((⟨code, { layers := 4 }, .explicit .noiseless, {}, {}⟩ : Job).validate = .ok () ∧
      ((∃ r, (⟨code, { layers := 4 }, .explicit .noiseless, {}, {}⟩ : Job).run = .ok r) ∨
        ∃ halt, (⟨code, { layers := 4 }, .explicit .noiseless, {}, {}⟩ : Job).run = .error halt ∧
          halt.IsExpected)) :=
  ⟨⟨rfl, (Compiler.compile_error_expected (compiler {}) code { layers := 0 }).1 _ rfl⟩,
    rfl, (Compiler.compile_error_expected (compiler {}) code { layers := 0 }).2 _ rfl⟩

end SyndromeSchedule
