import SyndromeSchedule.Proofs.Safety

/-!
Compilations that go well, taken apart into the steps they are made of. What a run keeps can then be
followed from step to step without a thought for the ways in which a step may fail.
-/

namespace SyndromeSchedule

open List Outcome

variable {task : Task} {result : Compilation} {prepared ended : Session}

namespace Outcome

variable {α σ : Type}

lemma foldlM_keeps {f : σ → α → Outcome σ} {items : List α} (keeps : σ → Prop)
    (step : ∀ a ∈ items, ∀ s next, keeps s → f s a = .ok next → keeps next) {s last : σ}
    (h : items.foldlM f s = .ok last) (first : keeps s) : keeps last := by
  induction items generalizing s with
  | nil =>
    cases h
    exact first
  | cons a rest ih =>
    obtain ⟨next, here, others⟩ := foldlM_cons_eq_ok.mp h
    apply ih (fun b mem => step b (.tail _ mem)) others
    exact step a (.head _) s next first here

end Outcome

lemma Progress.beginRound_marks {p next : Progress} {code : Code} {round : Nat} {u : Unit}
    (h : (p.beginRound code round).commit = .ok (next, u)) : p.Marks next := by
  apply Attempt.forEach_keeps p.Marks ?_ h (.refl p rfl)
  rintro e - mid next v marks opens
  apply marks.trans
  simp only [openDetector] at opens
  split at opens
  · simp [Attempt.commit] at opens
  · have result := openInstance_eq_ok opens
    split_ifs at result with dropped complete
    · subst result
      exact .refl mid rfl
    · obtain ⟨store, written, rfl⟩ := result
      exact written.marks rfl
    · subst result
      exact .refl mid rfl

namespace Session

variable {task : Task} {s next : Session}

/-- The steps of a round: detectors begin to wait, checks with an ancilla are placed, then those
without one, then noise, and observables move on. -/
theorem compileRound_eq_ok (h : s.compileRound task = .ok next) :
    ∃ begun es first second third ended,
      (s.progress.beginRound task.code s.rounds).commit = .ok (begun, ()) ∧
      task.extractRound s.rounds = .ok es ∧
      (startRound task.code { s with progress := begun }).scheduleExtracted task es
        s.rounds = .ok first ∧
      ((task.code.checksIn s.rounds).filter (·.ancilla.isNone)).foldlM
        (scheduleDirect task s.rounds) first = .ok second ∧
      task.code.dataQubits.foldlM (roundNoise task) second = .ok third ∧
      (third.progress.endRound task.code s.rounds).commit = .ok (ended, ()) ∧
      next = { third with progress := ended, rounds := s.rounds + 1 } := by
  obtain ⟨⟨begun, _⟩, begins, h⟩ := of_bind h
  obtain ⟨es, extracts, h⟩ := of_bind h
  obtain ⟨first, places, h⟩ := of_bind h
  obtain ⟨second, measures, h⟩ := of_bind h
  obtain ⟨third, disturbs, h⟩ := of_bind h
  obtain ⟨⟨ended, _⟩, ends, h⟩ := of_bind h
  exact ⟨begun, es, first, second, third, ended, begins, extracts, places, measures,
    disturbs, ends, (pure_eq_ok.mp h).symm⟩

lemma compileLayer_eq_ok {start stop : Nat} (h : s.compileLayer task = .ok (next, start, stop)) :
    start = (if s.rounds = 0 then 0 else s.barrier) ∧
      ∃ mid, compileRounds task task.code.period { s with layerStart := start } = .ok mid ∧
        stop = mid.barrier ∧
        if start < stop then
          ∃ flushed, mid.progress.flush (stop - 1) = .ok flushed ∧
            next = { mid with progress := flushed }
        else next = mid := by
  unfold compileLayer at h
  generalize begins : (if s.rounds = 0 then 0 else s.barrier) = first at h ⊢
  obtain ⟨mid, rounds, h⟩ := of_bind h
  simp only at h
  split_ifs at h with some_tick
  · obtain ⟨flushed, flushes, h⟩ := of_bind h
    cases h
    refine ⟨rfl, mid, rounds, rfl, ?_⟩
    rw [if_pos some_tick]
    exact ⟨flushed, flushes, rfl⟩
  · cases h
    exact ⟨rfl, _, rounds, rfl, by rw [if_neg some_tick]⟩

lemma compileLayers_succ_eq_ok {n : Nat} :
    s.compileLayers task (n + 1) = .ok next ↔ ∃ mid start stop,
      s.compileLayer task = .ok (mid, start, stop) ∧ mid.compileLayers task n = .ok next := by
  constructor
  · intro h
    obtain ⟨⟨mid, start, stop⟩, first, others⟩ := of_bind h
    exact ⟨mid, start, stop, first, others⟩
  · rintro ⟨mid, start, stop, first, others⟩
    exact bind_eq_ok.mpr ⟨_, first, others⟩

lemma compileLayers_concat {n start stop : Nat} {mid : Session}
    (h : s.compileLayers task n = .ok mid)
    (last : mid.compileLayer task = .ok (next, start, stop)) :
    s.compileLayers task (n + 1) = .ok next := by
  induction n generalizing s with
  | zero =>
    cases h
    exact compileLayers_succ_eq_ok.mpr ⟨_, _, _, last, rfl⟩
  | succ n ih =>
    obtain ⟨first, begin, finish, here, others⟩ := compileLayers_succ_eq_ok.mp h
    exact compileLayers_succ_eq_ok.mpr ⟨first, begin, finish, here, ih others⟩

lemma measureFinal_eq_ok {last tick : Nat} {finals after : Table (Pauli × Nat)} {q : Qubit}
    {basis : Pauli} (h : measureFinal task last tick (s, finals) (q, basis) = .ok (next, after)) :
    (∃ d, s.direct.get? q = some d ∧ d.round = last ∧ d.basis = basis ∧
        s.lastUse.get? q = some d.tick ∧ next = s ∧ after = finals.insert q (basis, d.handle)) ∨
      ∃ c gate, c.Reads q basis ∧ Gate.measuring basis = .ok gate ∧
        s.Measures ⟨tick, gate, [q], [], some (Key.of c (Word.signed s.rounds))⟩ next ∧
        next.direct = s.direct ∧ after = finals.insert q (basis, s.store.record.size) := by
  simp only [measureFinal] at h
  split at h
  · next d found =>
      obtain ⟨found, same⟩ := Option.filter_eq_some_iff.mp found
      simp only [Bool.and_eq_true, decide_eq_true_eq] at same
      cases h
      exact .inl ⟨d, found, same.1.1, same.1.2, same.2, rfl, rfl⟩
  · obtain ⟨c, checks, h⟩ := of_bind h
    obtain ⟨gate, measuring, h⟩ := of_bind h
    obtain ⟨⟨store, handle⟩, adds, h⟩ := of_bind h
    have measuring := Outcome.ofExcept_eq_ok.mp measuring
    have letter : basis ≠ .I := by
      rintro rfl
      cases measuring
    obtain ⟨c', checks', reads⟩ := Check.ofLetters_single (q := q) letter
    rw [checks] at checks'
    cases checks'
    obtain ⟨made, rfl⟩ := Store.addMeasurement_eq_ok adds
    cases h
    refine .inr ⟨c, gate, reads, measuring, measures_qubit task.code made, ?_, rfl⟩
    rw [touch_eq]
    rfl

lemma measureFinals_eq_ok {placed : Nat} (h : s.measureFinals task = .ok (next, placed)) :
    0 < s.rounds ∧ ∃ mid finals closed ended, (task.request.resolvedFinals task.code).foldlM
        (measureFinal task (s.rounds - 1) s.barrier) (s, .empty) = .ok (mid, finals) ∧
      (mid.progress.finalDetectors task.code (s.rounds - 1) finals).commit = .ok (closed, placed) ∧
      (closed.finalObservables mid.rounds finals).commit = .ok (ended, ()) ∧
      next = { mid with progress := ended } := by
  obtain ⟨last, before, h⟩ := of_bind h
  obtain ⟨pos, rfl⟩ : 0 < s.rounds ∧ last = s.rounds - 1 := by
    cases rounds : s.rounds with
    | zero =>
      rw [rounds] at before
      cases before
    | succ n =>
      rw [rounds] at before
      cases before
      exact ⟨Nat.succ_pos _, rfl⟩
  obtain ⟨⟨mid, finals⟩, measures, h⟩ := of_bind h
  obtain ⟨⟨closed, count⟩, closes, h⟩ := of_bind h
  obtain ⟨⟨ended, _⟩, ends, h⟩ := of_bind h
  cases h
  exact ⟨pos, mid, finals, closed, ended, measures, closes, ends, rfl⟩

/-! What the steps of a round keep. -/

/-- Gates, measurements with their reports, and noise keep a property. -/
structure Stepwise (task : Task) (keeps : Session → Prop) : Prop where
  apply : ∀ {s next : Session} {tick : Nat} {gate : Gate} {qubits : List Qubit} {place : Place},
    gate.isMeasurement = false → (place = .twoQubitGate → 2 ∣ qubits.length) →
      s.apply task tick gate qubits place = .ok next → keeps s → keeps next
  reset : ∀ {s next : Session} {tick : Nat} {q : Qubit},
    s.reset task tick q = .ok next → keeps s → keeps next
  ancilla : ∀ {s next : Session} {e : Extracted} {start round : Nat}, task.Extracts round e →
    s.measureAncilla task e start round = .ok next → keeps s → keeps next
  direct : ∀ {s next : Session} {c : Check} {round : Nat},
    scheduleDirect task round s c = .ok next → keeps s → keeps next
  noise : ∀ {s next : Session} {q : Qubit}, s.roundNoise task q = .ok next → keeps s → keeps next

section Stepwise

variable {keeps : Session → Prop}

lemma Stepwise.of_quiet
    (quiet : ∀ {s next : Session} {moves : List Move}, s.Quiet moves next → keeps s → keeps next)
    (measures : ∀ {s next : Session} {m : Move}, s.Measures m next → keeps s → keeps next)
    (notify : ∀ {s next : Session} {key : Key}, s.notify key = .ok next → keeps s → keeps next) :
    Stepwise task keeps where
  apply := fun _ _ run => quiet (apply_quiet run)
  reset := fun run => quiet ((reset_places ..).result run)
  ancilla := by
    intro s next e start round _ run h
    obtain ⟨gate, mid, _, made, _, _, told⟩ := measureAncilla_eq_ok run
    exact notify told (measures made h)
  direct := by
    intro s next c round run h
    obtain ⟨mid, made, told⟩ := of_bind run
    obtain ⟨m, _, _, _, made, _⟩ := measureDirect_eq_ok made
    exact notify told (measures made h)
  noise := fun run => quiet ((roundNoise_meets ..).of_ok run)

variable {tick round : Nat} (stepwise : Stepwise task keeps)
include stepwise

lemma Stepwise.singleIf {gate : Option Gate} {q : Qubit}
    (plain : ∀ g ∈ gate, g.isMeasurement = false) (run : s.singleIf task tick gate q = .ok next)
    (h : keeps s) : keeps next := by
  cases gate with
  | none =>
    cases run
    exact h
  | some g => exact stepwise.apply (plain g rfl) (by rintro ⟨⟩) run h

lemma Stepwise.initialise (run : s.initialise task = .ok next) (h : keeps s) : keeps next := by
  obtain ⟨mid, resets, prepares⟩ := of_bind run
  have reset : keeps mid :=
    foldlM_keeps keeps (fun _ _ _ _ kept run => stepwise.reset run kept) resets h
  apply foldlM_keeps keeps ?_ prepares reset
  exact fun _ _ _ _ kept run => stepwise.singleIf (fun _ found => plain_preparation found) run kept

lemma Stepwise.interact {ancilla : Qubit} {i : Interaction} (unitary : i.Unitary)
    (run : s.interact task ancilla tick i = .ok next) (h : keeps s) : keeps next := by
  have plain : ∀ {gate : Option Gate}, (∀ g ∈ gate, g.isUnitary = true) →
      ∀ g ∈ gate, g.isMeasurement = false :=
    fun each g found => Gate.isMeasurement_of_isUnitary (each g found)
  obtain ⟨turned, before, run⟩ := of_bind run
  have first : keeps turned := by
    unfold rotateBefore at before
    split at before
    · cases before
      exact h
    · next gate found =>
        obtain ⟨t, _, applied⟩ := of_bind before
        exact stepwise.apply (plain unitary.before gate found) (by rintro ⟨⟩) applied h
  have meeting := Gate.isMeasurement_of_isUnitary unitary.gate
  simp only at run
  split_ifs at run
  all_goals
    obtain ⟨met, meets, after⟩ := of_bind run
    have joined := stepwise.apply meeting (fun _ => ⟨1, rfl⟩) meets first
    exact stepwise.singleIf (plain unitary.after) after joined

lemma Stepwise.prepareAncilla {e : Extracted} {ready : Nat}
    (run : s.prepareAncilla task e = .ok (next, ready)) (h : keeps s) : keeps next := by
  simp only [Session.prepareAncilla] at run
  obtain ⟨mid, first, run⟩ := of_bind run
  have done := stepwise.reset first h
  split at run
  · cases run
    exact done
  · next gate found =>
      obtain ⟨last, second, run⟩ := of_bind run
      cases run
      exact stepwise.apply (plain_preparation found) (by rintro ⟨⟩) second done

lemma Stepwise.scheduleExtracted {es : List Extracted} (each : ∀ e ∈ es, task.Extracts round e)
    (run : s.scheduleExtracted task es round = .ok next) (h : keeps s) : keeps next := by
  unfold Session.scheduleExtracted at run
  split_ifs at run
  · cases run
    exact h
  obtain ⟨⟨mid, ready⟩, prepares, run⟩ := of_bind run
  obtain ⟨start, _, run⟩ := of_bind run
  have prepared : keeps mid := by
    apply foldlM_keeps (fun r : Session × Nat => keeps r.1) ?_ prepares h
    rintro e _ ⟨before, _⟩ ⟨after, _⟩ kept step
    obtain ⟨⟨reset, _⟩, first, step⟩ := of_bind step
    cases step
    exact stepwise.prepareAncilla first kept
  apply foldlM_keeps keeps ?_ run prepared
  intro e mem before after kept step
  obtain ⟨met, meets, measures⟩ := of_bind step
  apply stepwise.ancilla (each e mem) measures
  apply foldlM_keeps keeps ?_ meets kept
  intro i inside before after kept step
  have planned := mem_of_getElem? (Extracted.mem_interactions.mp inside)
  obtain ⟨m, _, joins⟩ := (each e mem).follows.joins planned
  exact stepwise.interact joins.unitary step kept

lemma Stepwise.gateRound (run : s.gateRound task = .ok next) :
    ∃ begun, (s.progress.beginRound task.code s.rounds).commit = .ok (begun, ()) ∧
      (keeps (startRound task.code { s with progress := begun }) → keeps next) := by
  obtain ⟨⟨begun, _⟩, begins, run⟩ := of_bind run
  obtain ⟨es, extracts, run⟩ := of_bind run
  obtain ⟨first, places, measures⟩ := of_bind run
  refine ⟨begun, begins, fun started => ?_⟩
  have one := stepwise.scheduleExtracted (Task.extractRound_eq_ok extracts).2 places started
  exact foldlM_keeps keeps (fun _ _ _ _ kept run => stepwise.direct run kept) measures one

lemma Stepwise.placeRound (run : s.placeRound task = .ok next) :
    ∃ begun, (s.progress.beginRound task.code s.rounds).commit = .ok (begun, ()) ∧
      (keeps (startRound task.code { s with progress := begun }) → keeps next) := by
  obtain ⟨gated, gates, disturbs⟩ := of_bind run
  obtain ⟨begun, begins, steps⟩ := stepwise.gateRound gates
  refine ⟨begun, begins, fun started => ?_⟩
  exact foldlM_keeps keeps (fun _ _ _ _ kept run => stepwise.noise run kept) disturbs
    (steps started)

lemma Stepwise.compileRound (run : s.compileRound task = .ok next) :
    ∃ begun third ended, (s.progress.beginRound task.code s.rounds).commit = .ok (begun, ()) ∧
      (keeps (startRound task.code { s with progress := begun }) → keeps third) ∧
      (third.progress.endRound task.code s.rounds).commit = .ok (ended, ()) ∧
      next = { third with progress := ended, rounds := s.rounds + 1 } := by
  rw [compileRound_split] at run
  obtain ⟨third, placed, run⟩ := of_bind run
  obtain ⟨⟨ended, _⟩, ends, run⟩ := of_bind run
  obtain ⟨begun, begins, steps⟩ := stepwise.placeRound placed
  exact ⟨begun, third, ended, begins, steps, ends, (pure_eq_ok.mp run).symm⟩

end Stepwise

end Session

/-- How layers come about: one after the other, or three of them, the second of which is marked to
be repeated. -/
inductive Task.Placed (task : Task) (s₀ : Session) : Session → Bool → Prop where
  | flat {s : Session} (run : s₀.compileLayers task task.request.layers = .ok s) :
      Placed task s₀ s false
  | folded {s₁ s₂ s₃ : Session} {start₁ stop₁ start₂ stop₂ start₃ stop₃ : Nat}
      (enough : 3 ≤ task.request.layers)
      (first : s₀.compileLayer task = .ok (s₁, start₁, stop₁))
      (second : s₁.compileLayer task = .ok (s₂, start₂, stop₂)) (nonempty : start₂ < stop₂)
      (same : s₂.sameMeasurements task (start₁, stop₁) (start₂, stop₂) = .ok true)
      (inside : stop₂ ≤ s₂.store.size)
      (third : (s₂.mark start₂ stop₂ (task.request.layers - 2)).compileLayer task =
        .ok (s₃, start₃, stop₃)) : Placed task s₀ s₃ true

/-- How the layers of a successful run were placed. -/
lemma Task.placeLayers_eq_ok {s next : Session} {repeated : Bool}
    (pos : 0 < task.request.layers) (h : task.placeLayers s = .ok (next, repeated)) :
    task.Placed s next repeated := by
  obtain ⟨⟨s₁, start₁, stop₁⟩, first, h⟩ := of_bind h
  obtain one | two | enough : task.request.layers = 1 ∨ task.request.layers = 2 ∨
      3 ≤ task.request.layers := by omega
  · simp only [one] at h
    cases h
    apply Task.Placed.flat
    rw [one]
    exact Session.compileLayers_succ_eq_ok.mpr ⟨s₁, start₁, stop₁, first, rfl⟩
  · simp only [two] at h
    obtain ⟨_, only, h⟩ := of_bind h
    cases only
    obtain ⟨⟨s₂, start₂, stop₂⟩, second, h⟩ := of_bind h
    cases h
    apply Task.Placed.flat
    rw [two]
    apply Session.compileLayers_succ_eq_ok.mpr
    refine ⟨s₁, start₁, stop₁, first, ?_⟩
    exact Session.compileLayers_succ_eq_ok.mpr ⟨s₂, start₂, stop₂, second, rfl⟩
  · have several : 2 ≤ task.request.layers := by omega
    simp only [enough, several, if_true] at h
    obtain ⟨⟨mid, marked⟩, middle, h⟩ := of_bind h
    obtain ⟨⟨s₃, start₃, stop₃⟩, third, h⟩ := of_bind h
    cases h
    obtain ⟨⟨s₂, start₂, stop₂⟩, second, middle⟩ := of_bind middle
    obtain ⟨same, compared, middle⟩ := of_bind middle
    split_ifs at middle with folds
    · obtain ⟨store, marks, middle⟩ := of_bind middle
      cases middle
      simp only [Bool.and_eq_true, decide_eq_true_eq] at folds
      obtain ⟨⟨nonempty, rfl⟩, _⟩ := folds
      have marks := Outcome.ofExcept_eq_ok.mp marks
      unfold Store.markRepeat at marks
      split_ifs at marks with fits
      · cases marks
        simp only [Bool.and_eq_true, decide_eq_true_eq] at fits
        exact .folded enough first second nonempty compared fits.2 third
    · obtain ⟨last, others, middle⟩ := of_bind middle
      cases middle
      have count : task.request.layers = task.request.layers - 3 + 1 + 1 + 1 := by omega
      apply Task.Placed.flat
      rw [count]
      apply Session.compileLayers_succ_eq_ok.mpr
      refine ⟨s₁, start₁, stop₁, first, ?_⟩
      apply Session.compileLayers_succ_eq_ok.mpr
      exact ⟨s₂, start₂, stop₂, second, Session.compileLayers_concat others third⟩

/-! Rounds after rounds. -/

namespace Session

variable {s next last : Session} {stages more : List (Session × Session)}

/-- What happens between rounds: a layer begins, observables are written, or ticks are marked. -/
inductive Between (s : Session) : Session → Prop where
  | start (tick : Nat) : Between s { s with layerStart := tick }
  | flush {tick : Nat} {p : Progress} (written : s.progress.flush tick = .ok p) :
      Between s { s with progress := p }
  | mark (start stop repetitions : Nat) : Between s (s.mark start stop repetitions)

/-- The rounds that lead from one session to another, each with the sessions before and after it. -/
inductive Stages (task : Task) : Session → List (Session × Session) → Session → Prop where
  | done (s : Session) : Stages task s [] s
  | round {s mid last : Session} {rest : List (Session × Session)}
      (run : s.compileRound task = .ok mid) (later : Stages task mid rest last) :
      Stages task s ((s, mid) :: rest) last
  | between {s mid last : Session} {rest : List (Session × Session)} (pause : s.Between mid)
      (later : Stages task mid rest last) : Stages task s rest last

lemma Stages.trans (h : Stages task s stages next)
    (h' : Stages task next more last) : Stages task s (stages ++ more) last := by
  induction h with
  | done => exact h'
  | round run _ ih => exact .round run (ih h')
  | between pause _ ih => exact .between pause (ih h')

lemma Stages.split {stage : Session × Session} (h : Stages task s (stages ++ stage :: more) last) :
    Stages task s stages stage.1 ∧ stage.1.compileRound task = .ok stage.2 ∧
      Stages task stage.2 more last := by
  generalize whole : stages ++ stage :: more = all at h
  induction h generalizing stages with
  | done => simp at whole
  | round run later ih =>
    cases stages with
    | nil =>
      obtain ⟨rfl, rfl⟩ := cons.inj whole
      exact ⟨.done _, run, later⟩
    | cons first rest =>
      obtain ⟨rfl, rest⟩ := cons.inj whole
      obtain ⟨before, others⟩ := ih rest
      exact ⟨.round run before, others⟩
  | between pause _ ih =>
    obtain ⟨before, others⟩ := ih whole
    exact ⟨.between pause before, others⟩

lemma Stages.keeps {P : Session → Prop}
    (round : ∀ {s next : Session}, s.compileRound task = .ok next → P s → P next)
    (between : ∀ {s next : Session}, s.Between next → P s → P next)
    (h : Stages task s stages last) (first : P s) : P last := by
  induction h with
  | done => exact first
  | round run _ ih => exact ih (round run first)
  | between pause _ ih => exact ih (between pause first)

lemma rounds_compileRound (run : s.compileRound task = .ok next) :
    next.rounds = s.rounds + 1 := by
  obtain ⟨_, _, _, _, _, _, _, _, _, _, _, _, rfl⟩ := compileRound_eq_ok run
  rfl

lemma layerStart_compileRound (run : s.compileRound task = .ok next) :
    next.layerStart = s.layerStart := by
  have stepwise : Stepwise task (·.layerStart = s.layerStart) := by
    refine .of_quiet (fun quiet h => quiet.does.layerStart.trans h)
      (fun measures h => measures.does.layerStart.trans h) (fun told h => ?_)
    obtain ⟨progress, rfl⟩ := notify_eq_ok told
    exact h
  obtain ⟨begun, third, ended, _, steps, _, rfl⟩ := stepwise.compileRound run
  exact steps rfl

lemma Stages.each {P : Session → Prop}
    (round : ∀ {s next : Session}, s.compileRound task = .ok next → P s → P next)
    (between : ∀ {s next : Session}, s.Between next → P s → P next)
    (h : Stages task s stages last) (first : P s) :
    ∀ stage ∈ stages, P stage.1 ∧ stage.1.compileRound task = .ok stage.2 := by
  intro stage mem
  obtain ⟨before, after, rfl⟩ := append_of_mem mem
  exact ⟨h.split.1.keeps round between first, h.split.2.1⟩

lemma Stages.rounds (h : Stages task s stages last) :
    stages.map (·.1.rounds) = List.range' s.rounds stages.length ∧
      last.rounds = s.rounds + stages.length := by
  induction h with
  | done => exact ⟨rfl, rfl⟩
  | round run _ ih =>
    obtain ⟨listed, counted⟩ := ih
    rw [rounds_compileRound run] at listed counted
    refine ⟨?_, ?_⟩
    · rw [map_cons, listed, length_cons, range'_succ]
    · rw [counted, length_cons]
      omega
  | between pause _ ih =>
    cases pause <;> exact ih

/-- A layer has one round per entry of the schedule. All of them know its start: the beginning of
the first layer, and the first tick after everything for a later one. -/
structure LayerOf (period : Nat) (layer : List (Session × Session)) : Prop where
  length : layer.length = period
  start : ∀ first ∈ layer.head?, ∀ stage ∈ layer,
    stage.1.layerStart = if first.1.rounds = 0 then 0 else first.1.barrier

lemma compileRounds_stages (n : Nat) (run : compileRounds task n s = .ok next) :
    ∃ stages, Stages task s stages next ∧ stages.length = n ∧
      (∀ first ∈ stages.head?, first.1 = s) ∧
      ∀ stage ∈ stages, stage.1.layerStart = s.layerStart := by
  induction n generalizing s with
  | zero =>
    cases run
    exact ⟨[], .done _, rfl, fun _ none => (Option.not_mem_none _ none).elim, forall_mem_nil _⟩
  | succ n ih =>
    obtain ⟨mid, first, others⟩ := of_bind run
    obtain ⟨stages, later, counted, _, starts⟩ := ih others
    refine ⟨_, .round first later, congrArg Nat.succ counted, ?_, ?_⟩
    · intro stage head
      rw [← Option.mem_some.mp head]
    · intro stage mem
      rcases mem_cons.mp mem with rfl | mem
      · rfl
      · rw [starts stage mem, layerStart_compileRound first]

lemma compileLayer_stages {start stop : Nat}
    (run : s.compileLayer task = .ok (next, start, stop)) :
    ∃ layer, Stages task s layer next ∧ LayerOf task.code.period layer := by
  obtain ⟨begins, mid, rounds, _, ending⟩ := compileLayer_eq_ok run
  obtain ⟨layer, placed, counted, heads, starts⟩ := compileRounds_stages _ rounds
  have known : LayerOf task.code.period layer := by
    refine ⟨counted, fun first head stage mem => ?_⟩
    rwa [starts stage mem, heads first head]
  refine ⟨layer, ?_, known⟩
  split_ifs at ending
  · obtain ⟨flushed, flushes, rfl⟩ := ending
    have pause : mid.Between { mid with progress := flushed } := .flush flushes
    have whole := placed.trans (.between pause (.done _))
    rw [append_nil] at whole
    exact .between (.start start) whole
  · rw [ending]
    exact .between (.start start) placed

lemma compileLayers_stages (n : Nat) (run : s.compileLayers task n = .ok next) :
    ∃ layers : List (List (Session × Session)), Stages task s layers.flatten next ∧
      ∀ layer ∈ layers, LayerOf task.code.period layer := by
  induction n generalizing s with
  | zero =>
    cases run
    exact ⟨[], .done _, forall_mem_nil _⟩
  | succ n ih =>
    obtain ⟨mid, _, _, first, others⟩ := compileLayers_succ_eq_ok.mp run
    obtain ⟨layer, here, known⟩ := compileLayer_stages first
    obtain ⟨layers, later, each⟩ := ih others
    exact ⟨layer :: layers, here.trans later, forall_mem_cons.mpr ⟨known, each⟩⟩

lemma placed_layers {repeated : Bool} (h : task.Placed s next repeated) :
    ∃ layers : List (List (Session × Session)), Stages task s layers.flatten next ∧
      ∀ layer ∈ layers, LayerOf task.code.period layer := by
  cases h with
  | flat run => exact compileLayers_stages _ run
  | folded _ first second _ _ _ third =>
    obtain ⟨one, placed₁, known₁⟩ := compileLayer_stages first
    obtain ⟨two, placed₂, known₂⟩ := compileLayer_stages second
    obtain ⟨three, placed₃, known₃⟩ := compileLayer_stages third
    refine ⟨[one, two, three], ?_, ?_⟩
    · have whole := placed₁.trans (placed₂.trans (.between (.mark _ _ _) placed₃))
      simpa using whole
    · intro layer mem
      simp only [mem_cons, not_mem_nil, or_false] at mem
      rcases mem with rfl | rfl | rfl
      · exact known₁
      · exact known₂
      · exact known₃

lemma placed_stages {repeated : Bool} (h : task.Placed s next repeated) :
    ∃ stages, Stages task s stages next := by
  obtain ⟨layers, placed, _⟩ := placed_layers h
  exact ⟨_, placed⟩

end Session

lemma Session.keysIn_of_sameMeasurements {s₀ s₁ s₂ : Session} {start₁ stop₁ start₂ stop₂ : Nat}
    (extractable : task.Extractable) (complete : s₀.Complete task)
    (first : s₀.compileLayer task = .ok (s₁, start₁, stop₁))
    (second : s₁.compileLayer task = .ok (s₂, start₂, stop₂))
    (same : s₂.sameMeasurements task (start₁, stop₁) (start₂, stop₂) = .ok true) :
    (s₂.store.keysIn start₁ stop₁).map (Key.since 0) =
      (s₂.store.keysIn start₂ stop₂).map (Key.since task.code.period) := by
  have layer₁ := complete.layer extractable first
  have layer₂ := layer₁.complete.layer extractable second
  rw [sameMeasurements_eq layer₂.complete.safe.sound layer₁.ordered
    (layer₁.stop_le.trans layer₂.size_le) layer₂.ordered layer₂.stop_le] at same
  exact of_decide_eq_true (Except.ok.inj same)

/-- A compilation that went well: data qubits are prepared, layers are placed, and everything ends
with the final measurements. -/
structure Task.Runs (task : Task) (result : Compilation) (prepared layered ended : Session) :
    Prop where
  fault : task.request.fault? task.code = none
  extraction : task.checkExtraction = .ok ()
  prepares : task.session.initialise task = .ok prepared
  places : task.placeLayers prepared = .ok (layered, result.report.repeated)
  measures : layered.measureFinals task = .ok (ended, result.report.finalDetectors)
  store : result.store = ended.store
  emits : ended.store.emit task.compiler.options.layout = .ok result.program
  report : result.report =
    { layers := task.request.layers
      rounds := ended.rounds
      ticks := ended.barrier
      measurements := ended.store.record.size
      detectors := ended.progress.resolver.report
      finalDetectors := result.report.finalDetectors
      discarded := ended.progress.resolver.discarded
      repeated := result.report.repeated }

section

variable (h : task.Runs result prepared layered ended)

include h

lemma Task.Runs.extractable : task.Extractable := task.checkExtraction_meets.of_ok h.extraction

lemma Task.Runs.complete :
    (prepared.Complete task ∧ prepared.rounds = 0 ∧ prepared.store.region = none ∧
      prepared.layerStart = 0) ∧ prepared.Layered task layered result.report.repeated := by
  have start := (Session.initialise_meets task).of_ok h.prepares
  have pos := (Request.fault?_eq_none h.fault).1
  exact ⟨start, (placeLayers_meets h.extractable start.1 pos).of_ok h.places⟩

lemma Task.Runs.placed : task.Placed prepared layered result.report.repeated :=
  Task.placeLayers_eq_ok (Request.fault?_eq_none h.fault).1 h.places

lemma Task.Runs.finished :
    0 < layered.rounds ∧ layered.Finished task ended result.report.finalDetectors := by
  have layers := h.complete.2
  have pos := layers.rounds_pos (Request.fault?_eq_none h.fault).1
  exact ⟨pos, (layers.complete.measureFinals_meets pos h.fault).of_ok h.measures⟩

lemma Task.Runs.repetitions {region : Region} (marked : ended.store.region = some region) :
    0 < region.repetitions ∧ region.repetitions ≤ task.request.layers := by
  obtain ⟨⟨_, _, unmarked, _⟩, layers⟩ := h.complete
  rw [h.finished.2.region] at marked
  generalize result.report.repeated = repeated at layers
  cases layers with
  | flat _ _ kept =>
    rw [kept, unmarked] at marked
    cases marked
  | folded enough _ _ _ _ third =>
    rw [third.region] at marked
    cases marked
    exact ⟨Nat.sub_pos_of_lt enough, Nat.sub_le _ 2⟩

lemma Task.Runs.rounds_eq : result.report.rounds = layered.rounds := by
  rw [h.report]
  exact h.finished.2.rounds

lemma Task.Runs.listed {stages : List (Session × Session)}
    (placed : Session.Stages task prepared stages layered) :
    stages.map (·.1.rounds) = List.range result.report.rounds := by
  obtain ⟨listed, counted⟩ := placed.rounds
  have none : prepared.rounds = 0 := h.complete.1.2.1
  rw [listed, h.rounds_eq, counted, none, Nat.zero_add, range_eq_range']

lemma Task.Runs.program_eq :
    result.program = ended.store.program task.compiler.options.layout := by
  have emits := h.emits
  rw [h.finished.2.emissible.emit_eq] at emits
  exact (Except.ok.inj emits).symm

end

lemma Compiler.compile_eq_ok {c : Compiler} {code : Code} {request : Request}
    (h : c.compile code request = .ok result) :
    ∃ prepared layered ended, (⟨c, code, request⟩ : Task).Runs result prepared layered ended := by
  unfold compile at h
  cases fault : request.fault? code with
  | some cause =>
    rw [fault] at h
    cases h
  | none =>
    rw [fault] at h
    obtain ⟨⟨store, report⟩, scheduled, h⟩ := of_bind h
    obtain ⟨program, emits, rfl⟩ := of_bind_pure h
    obtain ⟨_, extraction, h⟩ := of_bind scheduled
    obtain ⟨prepared, prepares, h⟩ := of_bind h
    obtain ⟨⟨layered, repeated⟩, places, h⟩ := of_bind h
    obtain ⟨⟨ended, placed⟩, measures, h⟩ := of_bind h
    obtain ⟨_, _, h⟩ := of_bind h
    cases h
    exact ⟨prepared, layered, ended, fault, extraction, prepares, places, measures, rfl, emits, rfl⟩

end SyndromeSchedule
