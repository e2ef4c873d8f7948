import SyndromeSchedule.Proofs.Balance
import SyndromeSchedule.Proofs.Succession

/-!
Detectors of final measurements compare outcomes that nothing disturbs. A check is closed on its
last outcome only if it commutes with everything that later rounds measure. What is measured in a
later tick but belongs to an earlier round is measured through an ancilla, and has left the data
qubits of the check before.
-/

namespace SyndromeSchedule

open List

lemma Word.signed_inj {m n : Nat} (fits : m < size) (fits' : n < size)
    (same : signed m = signed n) : m = n := by
  unfold signed at same
  unfold size at *
  split_ifs at same <;> omega

namespace Check

variable {a b : Check}

lemma letter_eq_of_content (same : a.content = b.content) (q : Qubit) :
    a.product.letter q = b.product.letter q := by
  have keys : Key.of a 0 = Key.of b 0 := by rw [Key.of, Key.of, same]
  rw [← Key.letter_of a 0, ← Key.letter_of b 0, keys]

lemma mem_qubits_of_content (same : a.content = b.content) {q : Qubit} (acted : q ∈ a.qubits) :
    q ∈ b.qubits := by
  by_contra outside
  apply a.letter_product_ne_I acted
  rw [letter_eq_of_content same, b.letter_product_of_not_mem outside]

lemma exists_clash (clash : a.commutes b ≠ true) : ∃ q, q ∈ a.clashes b := by
  rw [ne_eq, commutes_iff] at clash
  apply exists_mem_of_ne_nil
  intro none
  rw [none] at clash
  exact clash Even.zero

lemma commutes_of_reads {c d : Check} {q : Qubit} {basis : Pauli} (reads : d.Reads q basis)
    (agrees : q ∈ c.qubits → c.product.letter q = basis) : c.commutes d = true := by
  by_contra clash
  obtain ⟨p, clashes⟩ := exists_clash clash
  obtain ⟨mine, yours, differ⟩ := mem_clashes.mp clashes
  have only : p = q := by
    obtain ⟨_, m, single, rfl, _⟩ := reads
    simpa [qubits, single] using yours
  subst only
  apply differ
  rw [agrees mine, reads.letter, if_pos rfl]

end Check

lemma Store.Writes.entry_cases {s next : Store} {log : List Write} (h : Writes s log next)
    {handle t : Nat} {key : Key} (entry : next.record.entry? handle = some (key, t)) :
    s.record.entry? handle = some (key, t) ∨ ∃ m ∈ moves log, m.key = some key ∧ m.tick = t := by
  induction h with
  | refl => exact .inl entry
  | number _ _ _ ih => exact ih entry
  | put w _ _ ih =>
    rcases entry?_put.mp entry with old | ⟨u, filed, rfl, key, _, same⟩
    · refine (ih old).imp id ?_
      rintro ⟨m, mem, files⟩
      exact ⟨m, by rw [moves_append]; exact mem_append_left _ mem, files⟩
    · cases same
      refine .inr ⟨u.move, ?_, key, rfl⟩
      rw [moves_append]
      exact mem_append_right _ (by simp [moves, uses])

namespace Session

variable {task : Task} {s next last : Session} {finals : List (Qubit × Pauli)}
variable {handle t : Nat} {key : Key} {stages : List (Session × Session)}

/-! Where outcomes come from. -/

/-- How a round makes the outcome of a check: gates act on all its qubits until then, and it is
measured on its ancilla, or on them. -/
structure Yields (s next : Session) (d : Check) (t : Nat) : Prop where
  acts : ∀ q ∈ d.qubits, ∃ n ≤ t, ∃ g ∈ s.store.addedIn next.store n, q ∈ g.2
  measured : ∃ g ∈ s.store.addedIn next.store t, g.2 = d.sites

lemma LaysMoves.entry_cases {moves : List Move} (h : s.LaysMoves moves next)
    (entry : next.store.record.entry? handle = some (key, t)) :
    s.store.record.entry? handle = some (key, t) ∨ ∃ m ∈ moves, m.key = some key ∧ m.tick = t := by
  obtain ⟨log, writes, rfl⟩ := h.writes
  exact writes.entry_cases entry

lemma LaysMoves.application_mem {moves : List Move} (h : s.LaysMoves moves next) {m : Move}
    (mem : m ∈ moves) : m.application ∈ s.store.addedIn next.store m.tick := by
  rw [h.addedIn_eq]
  exact mem_map.mpr ⟨m, mem_filter.mpr ⟨mem, by simp⟩, rfl⟩

lemma compileRound_entry_cases (extractable : task.Extractable)
    (run : s.compileRound task = .ok next)
    (entry : next.store.record.entry? handle = some (key, t)) :
    s.store.record.entry? handle = some (key, t) ∨ ∃ d ∈ task.code.checksIn s.rounds,
      key = Key.of d (Word.signed s.rounds) ∧ s.Yields next d t := by
  obtain ⟨es, start, openings, closings, reads, performs⟩ := compileRound_performs extractable run
  refine (performs.lays.entry_cases entry).imp id ?_
  rintro ⟨m, mem, filed, rfl⟩
  rcases mem_roundMoves.mp mem with ⟨o, _, inside⟩ | ⟨⟨e, last⟩, known, slot | rfl⟩ | read
  · rw [(mem_openingMoves inside).2.1.1] at filed
    cases filed
  · rw [key_of_mem_gridMoves slot] at filed
    cases filed
  · have closes := performs.fills.closes _ known
    have listed : e ∈ es := performs.fills.closed ▸ mem_map_of_mem known
    have extracts := (Task.extractRound_eq_ok performs.extracts).2 e listed
    rw [closes.key] at filed
    refine ⟨e.check, extracts.scheduled, (Option.some.inj filed).symm, fun q acted => ?_, ?_⟩
    · -- The ancilla has met all data qubits before it is measured.
      have meets := (Extracted.data_interactions extracts.follows).mem_iff.mpr acted
      obtain ⟨step, used, rfl⟩ := mem_map.mp meets
      let slot := slotMove (Extracted.stride es) start e step
      have placed : slot ∈ roundMoves es start openings closings reads := by
        refine mem_roundMoves.mpr (.inr (.inl ⟨_, known, .inl ?_⟩))
        exact mem_flatMap.mpr ⟨step, used, mem_append_right _ (.head _)⟩
      refine ⟨slot.tick, (closes.late step used).le, slot.application,
        performs.lays.application_mem placed, ?_⟩
      change step.2.data ∈ slot.qubits
      simp only [slot, slotMove]
      split_ifs <;> simp
    · refine ⟨_, performs.lays.application_mem mem, ?_⟩
      rw [Check.sites, extracts.ancilla]
      exact closes.qubits
  · obtain ⟨d, scheduled, bare, directly, key⟩ := performs.files m read
    rw [key] at filed
    have added := performs.lays.application_mem mem
    refine ⟨d, scheduled, (Option.some.inj filed).symm, fun q acted => ?_, _, added, ?_⟩
    · refine ⟨m.tick, le_rfl, _, added, ?_⟩
      change q ∈ m.qubits
      rwa [directly.1]
    · rw [Check.sites, bare]
      exact directly.1

lemma Stages.entry_cases (extractable : task.Extractable) (h : Stages task s stages last)
    (entry : last.store.record.entry? handle = some (key, t)) :
    s.store.record.entry? handle = some (key, t) ∨
      ∃ stage ∈ stages, ∃ d ∈ task.code.checksIn stage.1.rounds,
        key = Key.of d (Word.signed stage.1.rounds) ∧ stage.1.Yields stage.2 d t := by
  induction h with
  | done => exact .inl entry
  | round run _ ih =>
    rcases ih entry with before | ⟨stage, mem, made⟩
    · refine (compileRound_entry_cases extractable run before).imp id ?_
      exact fun made => ⟨_, .head _, made⟩
    · exact .inr ⟨stage, .tail _ mem, made⟩
  | between pause _ ih =>
    refine (ih entry).imp (fun before => ?_) id
    rcases pause.lays.entry_cases before with old | ⟨_, none, _⟩
    · exact old
    · exact absurd none not_mem_nil

lemma initialise_fresh (run : task.session.initialise task = .ok next) (handle : Nat) :
    next.store.record.entry? handle = none := by
  apply Option.eq_none_iff_forall_not_mem.mpr
  rintro ⟨key, t⟩ entry
  rcases (initialise_does run).lays.entry_cases entry with old | ⟨m, mem, filed, _⟩
  · cases old
  · rw [key_of_mem_initialMoves mem] at filed
    cases filed

lemma Stages.rounds_lt (h : Stages task s stages last) {stage : Session × Session}
    (mem : stage ∈ stages) : stage.1.rounds < last.rounds := by
  obtain ⟨listed, counted⟩ := h.rounds
  have inside : stage.1.rounds ∈ range' s.rounds stages.length := listed ▸ mem_map_of_mem mem
  rw [mem_range'_1] at inside
  omega

lemma Stages.precedes (extractable : task.Extractable) (h : Stages task s stages last)
    {a b : Session × Session} (mem : a ∈ stages) (member' : b ∈ stages)
    (earlier : a.1.rounds < b.1.rounds) :
    Store.Precedes (a.1.store, a.2.store) (b.1.store, b.2.store) := by
  obtain ⟨i, inside, rfl⟩ := getElem_of_mem mem
  obtain ⟨j, inside', rfl⟩ := getElem_of_mem member'
  have counted : ∀ k (below : k < stages.length), stages[k].1.rounds = s.rounds + k := by
    intro k below
    have listed := congrArg (·[k]?) h.rounds.1
    simpa [below] using listed
  rw [counted, counted] at earlier
  have apart := pairwise_map.mp (h.pairwise extractable)
  have ordered : i < j := by omega
  intro q t t' g g' added acted added' acted'
  exact pairwise_iff_getElem.mp apart i j inside inside' ordered added acted added' acted'

/-- What final measurements leave: outcomes of single qubits, and their letters. -/
structure Draws (finals : List (Qubit × Pauli)) (s : Session)
    (state : Session × Table (Pauli × Nat)) : Prop where
  rounds : state.1.rounds = s.rounds
  letters : ∀ {q basis handle}, state.2.get? q = some (basis, handle) → (q, basis) ∈ finals
  entries : ∀ {handle key t}, state.1.store.record.entry? handle = some (key, t) →
    s.store.record.entry? handle = some (key, t) ∨
      ∃ p ∈ finals, ∃ d : Check, d.Reads p.1 p.2 ∧ key = Key.of d (Word.signed s.rounds)

lemma Draws.step {mid : Session} {n tick : Nat}
    {before after : Table (Pauli × Nat)} {q : Qubit} {basis : Pauli}
    (h : Draws finals s (mid, before)) (listed : (q, basis) ∈ finals)
    (run : measureFinal task n tick (mid, before) (q, basis) = .ok (next, after)) :
    Draws finals s (next, after) := by
  have letters : ∀ handle, ∀ {p letter other},
      (before.insert q (basis, handle)).get? p = some (letter, other) → (p, letter) ∈ finals := by
    intro handle p letter other found
    rw [Table.get?_insert] at found
    split_ifs at found with here
    · cases found
      exact here ▸ listed
    · exact h.letters found
  rcases measureFinal_eq_ok run with ⟨_, _, _, _, _, rfl, rfl⟩ | ⟨c, gate, reads, _, made, _, rfl⟩
  · exact ⟨h.rounds, letters _, h.entries⟩
  · have record := made.record rfl
    obtain ⟨log, effect, _⟩ := made.effect
    refine ⟨effect.rounds.trans h.rounds, letters _, fun {handle key t} entry => ?_⟩
    rw [record, Record.entry?_push] at entry
    split_ifs at entry with here
    · cases entry
      exact .inr ⟨_, listed, c, reads, by rw [h.rounds]⟩
    · exact h.entries entry

lemma draws_finals {n tick : Nat} {table : Table (Pauli × Nat)}
    (run : finals.foldlM (measureFinal task n tick) (s, .empty) = .ok (next, table)) :
    Draws finals s (next, table) := by
  apply Outcome.foldlM_keeps (Draws finals s) ?_ run
  · exact ⟨rfl, fun found => by simp at found, .inl⟩
  · rintro ⟨q, basis⟩ listed ⟨mid, before⟩ ⟨next, after⟩ held measures
    exact held.step listed measures

end Session

/-! Detectors of final measurements. -/

namespace FinalDetector

/-- What a detector of final measurements compares: the outcome of its check in the last round that
measures it, in a given tick, and final measurements of its letters. -/
structure Compares (code : Code) (finals : List (Qubit × Pauli)) (rounds : Nat) (r : Record)
    (f : FinalDetector) (t : Nat) : Prop where
  listed : f.check ∈ code.distinctChecks
  covered : ∀ m ∈ f.check.members, (m.qubit, m.operator.letter) ∈ finals
  below : f.round < rounds
  scheduled : ∃ c ∈ code.checksIn f.round, f.check.same c = true
  last : ∀ n, f.round < n → n < rounds → ∀ c ∈ code.checksIn n, f.check.same c = false
  entry : r.entry? f.handle = some (Key.of f.check (Word.signed f.round), t)
  others : Forall₂ (fun (m : Member) h => ∃ c round t, c.Reads m.qubit m.operator.letter ∧
    r.entry? h = some (Key.of c round, t)) f.check.members f.others

/-- What may be measured after the outcome that a detector closes on: checks that commute with its
own, checks of the same round, and checks of earlier rounds whose ancillas are measured late. -/
def Spares (code : Code) (finals : List (Qubit × Pauli)) (rounds : Nat) (f : FinalDetector)
    (key : Key) : Prop :=
  ∃ (d : Check) (n : Nat), key = Key.of d (Word.signed n) ∧
    (n < rounds ∧ d ∈ code.checksIn n ∨ n = rounds ∧ ∃ p ∈ finals, d.Reads p.1 p.2) ∧
    (f.check.commutes d = true ∨ n = f.round ∨ n < f.round ∧ d.ancilla.isSome = true)

end FinalDetector

namespace Progress

variable {code : Code} {c : Check} {finals : Table (Pauli × Nat)}

lemma lastMeasured?_last {steps round measured : Nat}
    (found : lastMeasured? code c steps round = some measured) {n : Nat} (after : measured < n)
    (until_round : n ≤ round) : ∀ d ∈ code.checksIn n, c.same d = false := by
  induction steps generalizing round with
  | zero => simp [lastMeasured?] at found
  | succ steps ih =>
    simp only [lastMeasured?] at found
    split at found
    · cases found
      omega
    · next none =>
        obtain rfl | early : n = round ∨ n ≤ round - 1 := by omega
        · simpa using none
        · exact ih found early

lemma commutes_of_not_isDisturbed {measured last : Nat}
    (calm : isDisturbed code c measured last = false) {n : Nat} (after : measured < n)
    (until_last : n ≤ last) : ∀ d ∈ code.checksIn n, c.commutes d = true := by
  intro d mem
  by_contra clash
  have disturbed : isDisturbed code c measured last = true := by
    refine any_eq_true.mpr ⟨n - measured - 1, mem_range.mpr (by omega), ?_⟩
    have there : measured + 1 + (n - measured - 1) = n := by omega
    rw [there]
    exact any_eq_true.mpr ⟨d, mem, by simpa using clash⟩
  rw [disturbed] at calm
  cases calm

end Progress

namespace FinalDetector

open Progress Session

variable {code : Code} {rounds : Nat} {table : Table (Pauli × Nat)} {r : Record}
  {f : FinalDetector} {state : Session × Table (Pauli × Nat)} {stages : List (Session × Session)}
variable {finals : List (Qubit × Pauli)} {t : Nat}

lemma Closes.compares (h : f.Closes code (rounds - 1) table r) (pos : 0 < rounds)
    (reads : ReadsFinals r table)
    (letters : ∀ {q basis handle}, table.get? q = some (basis, handle) → (q, basis) ∈ finals) :
    ∃ t, f.Compares code finals rounds r t := by
  obtain ⟨t, entry⟩ := Record.entry?_of_handle? h.made
  obtain ⟨le, _, c, scheduled, content⟩ := lastMeasured?_eq_some h.found
  refine ⟨t, h.listed, fun m mem => ?_, by omega, ⟨c, scheduled, by simp [Check.same, content]⟩,
    fun n after below => lastMeasured?_last h.found after (by omega), entry, ?_⟩
  · have here := all_eq_true.mp h.covered m mem
    rw [decide_eq_true_eq] at here
    obtain ⟨⟨letter, handle⟩, found, same⟩ := Option.map_eq_some_iff.mp here
    rw [← same]
    exact letters found
  · exact (finalHandles_eq_ok h.finals h.covered).imp fun m h found => reads _ _ _ found

lemma Compares.commutes_final (h : f.Compares code finals rounds r t)
    (distinct : (finals.map (·.1)).Nodup) {p : Qubit × Pauli} (listed : p ∈ finals) {d : Check}
    (reads : d.Reads p.1 p.2) :
    f.check.commutes d = true := by
  apply Check.commutes_of_reads reads
  intro acted
  obtain ⟨m, mem, same⟩ := mem_map.mp acted
  have both : (m.qubit, m.operator.letter) = p :=
    inj_on_of_nodup_map distinct (h.covered m mem) listed same
  rw [← both, f.check.letter_product mem]

lemma Compares.stage {task : Task} {prepared layered : Session}
    (extractable : task.Extractable) (fresh : ∀ handle, prepared.store.record.entry? handle = none)
    (placed : Stages task prepared stages layered) (draws : Draws finals layered state)
    (fits : layered.rounds < Word.size)
    (h : f.Compares code finals layered.rounds state.1.store.record t) :
    ∃ stage ∈ stages, stage.1.rounds = f.round ∧
      ∃ c, f.check.content = c.content ∧ stage.1.Yields stage.2 c t := by
  have below := h.below
  rcases draws.entries h.entry with old | ⟨_, _, d, _, same⟩
  · rcases placed.entry_cases extractable old with none | ⟨stage, mem, c, _, same, yields⟩
    · rw [fresh] at none
      cases none
    · obtain ⟨round, content⟩ := Key.mk.inj same
      have inside := placed.rounds_lt mem
      have round := Word.signed_inj (by omega) (by omega) round
      exact ⟨stage, mem, round.symm, c, content, yields⟩
  · have round := Word.signed_inj (by omega) (by omega) (Key.mk.inj same).1
    omega

/-- No later measurement disturbs the outcome that a detector closes on. -/
theorem Compares.spares {task : Task} {prepared layered : Session} {t₀ : Nat}
    (extractable : task.Extractable) (fresh : ∀ handle, prepared.store.record.entry? handle = none)
    (placed : Stages task prepared stages layered) (draws : Draws finals layered state)
    (fits : layered.rounds < Word.size) (distinct : (finals.map (·.1)).Nodup)
    (h : f.Compares task.code finals layered.rounds state.1.store.record t₀)
    (calm : ∀ n, f.round < n → n < layered.rounds →
      ∀ d ∈ task.code.checksIn n, f.check.commutes d = true) {handle : Nat} {key : Key}
    (entry : state.1.store.record.entry? handle = some (key, t)) (later : t₀ < t) :
    f.Spares task.code finals layered.rounds key := by
  rcases draws.entries entry with old | ⟨p, listed, d, reads, rfl⟩
  · rcases placed.entry_cases extractable old with none | ⟨a, mem, d, scheduled, rfl, yields⟩
    · rw [fresh] at none
      cases none
    have below := placed.rounds_lt mem
    refine ⟨d, a.1.rounds, rfl, .inl ⟨below, scheduled⟩, ?_⟩
    by_cases commutes : f.check.commutes d = true
    · exact .inl commutes
    obtain before | same | after := Nat.lt_trichotomy a.1.rounds f.round
    · refine .inr (.inr ⟨before, ?_⟩)
      by_contra bare
      -- Without an ancilla the measurement itself is on a qubit that the check uses later.
      obtain ⟨b, member', round, c, content, made⟩ := h.stage extractable fresh placed draws fits
      obtain ⟨q, clashes⟩ := Check.exists_clash commutes
      obtain ⟨mine, yours, _⟩ := Check.mem_clashes.mp clashes
      obtain ⟨n, early, g', added', acted'⟩ :=
        made.acts q (Check.mem_qubits_of_content content mine)
      obtain ⟨g, added, acted⟩ := yields.measured
      rw [Option.not_isSome_iff_eq_none] at bare
      rw [Check.sites, bare] at acted
      have ordered := placed.precedes extractable mem member' (by omega) added
        (acted ▸ yours) added' acted'
      omega
    · exact .inr (.inl same)
    · exact absurd (calm _ after below d scheduled) commutes
  · exact ⟨d, layered.rounds, rfl, .inr ⟨rfl, p, listed, reads⟩,
      .inl (h.commutes_final distinct listed reads)⟩

end FinalDetector

open Session in
/-- Detectors of final measurements compare undisturbed outcomes. Apart from the checks of its own
round, whatever is measured after the outcome that such a detector closes on commutes with its
check, or is measured on an ancilla by an earlier round, and on every qubit the gates of an earlier
round precede those of a later one. -/
theorem Compiler.final_detectors_undisturbed {c : Compiler} {code : Code} {request : Request}
    {result : Compilation} (run : c.compile code request = .ok result) :
    ∃ (prepared layered ended : Session) (stages : List (Session × Session))
      (closing : List FinalDetector),
      (⟨c, code, request⟩ : Task).Runs result prepared layered ended ∧
      Stages ⟨c, code, request⟩ prepared stages layered ∧
      stages.map (·.1.rounds) = List.range result.report.rounds ∧
      (stages.map fun stage => (stage.1.store, stage.2.store)).Pairwise Store.Precedes ∧
      closing.length = result.report.finalDetectors ∧
      (∀ t, (result.store.tickAt t).notes.filter Note.isDetector =
        (layered.store.tickAt t).notes.filter Note.isDetector ++
          (closing.filter (·.tick = t)).map (.detector ·.handles)) ∧
      ∀ f ∈ closing, ∃ t₀,
        f.Compares code (request.resolvedFinals code) result.report.rounds result.store.record t₀ ∧
        ∀ {handle t : Nat} {key : Key}, result.store.record.entry? handle = some (key, t) →
          t₀ < t → f.Spares code (request.resolvedFinals code) result.report.rounds key := by
  obtain ⟨prepared, layered, ended, runs⟩ := compile_eq_ok run
  have extractable := runs.extractable
  obtain ⟨stages, placed⟩ := placed_stages runs.placed
  obtain ⟨positive, mid, table, closed, last, measures, closes, ends, rfl⟩ :=
    measureFinals_eq_ok runs.measures
  have measured := measured_finals runs.complete.2.complete.safe.toStable measures
  have draws := draws_finals measures
  obtain ⟨fits, _⟩ := Progress.finalDetectors_eq_ok closes
  obtain ⟨whole, closing, length, each, detectors⟩ := measured.detectors closes ends
  refine ⟨prepared, layered, _, stages, closing, runs, placed, runs.listed placed,
    placed.pairwise extractable, length, fun t => ?_, fun f member => ?_⟩
  · rw [runs.store]
    exact detectors t
  · have found := each f member
    have same : result.store.record = mid.store.record := by
      rw [runs.store]
      exact whole
    rw [same, runs.rounds_eq]
    obtain ⟨t₀, compares⟩ := found.compares positive measured.reads draws.letters
    refine ⟨t₀, compares, fun entry later => ?_⟩
    refine compares.spares extractable ?_ placed draws (by omega)
      (Request.fault?_eq_none runs.fault).2.1 (fun n after below => ?_) entry later
    · exact initialise_fresh runs.prepares
    · exact Progress.commutes_of_not_isDisturbed found.calm after (by omega)

namespace LateChecks

open GapChecks

/-- Measured through an ancilla that meets the middle qubit last. -/
def flips : Check :=
  ⟨[⟨⟨[-3]⟩, left, .positive .X⟩, ⟨⟨[-2]⟩, middle, .positive .X⟩], some ancilla, some ancilla,
    by decide⟩

/-- A product of Z on the outer qubits, measured without an ancilla. -/
def outer : Check :=
  ⟨[⟨⟨[0]⟩, left, .positive .Z⟩, ⟨⟨[2]⟩, right, .positive .Z⟩], some left, none, by decide⟩

/-- A product of Z on neighbours, measured without an ancilla. -/
def inner : Check :=
  ⟨[⟨⟨[0]⟩, left, .positive .Z⟩, ⟨⟨[1]⟩, middle, .positive .Z⟩], some left, none, by decide⟩

/-- The second round begins while the ancilla of the first is still in use. -/
def overlapping : Code :=
  ⟨.ofList [left, middle, right], [[flips], [outer]], [[], []], [], by decide⟩

/-- Checks of one round that do not commute. -/
def crossing : Code := ⟨.ofList [left, middle, right], [[inner, pair]], [[]], [], by decide⟩

/-- A compiler without noise, with checks in the order they are declared in. -/
def compiler : Compiler := ⟨.noiseless, ⟨.pureCnot, .declared⟩, {}, NoiseModel.noiseless_sound⟩

/-- The ancilla of the first round is measured after the outcome that the detector closes on. -/
theorem final_detectors_undisturbed_overlapping :
    ∃ result, compiler.compile overlapping { layers := 1 } = .ok result ∧
      ∃ closing : List FinalDetector, closing.length = 1 ∧
        ∀ f ∈ closing, ∃ t₀,
          f.Compares overlapping (({ layers := 1 } : Request).resolvedFinals overlapping) 2
            result.store.record t₀ ∧
          ∀ {handle t : Nat} {key : Key}, result.store.record.entry? handle = some (key, t) →
            t₀ < t →
              f.Spares overlapping
                (({ layers := 1 } : Request).resolvedFinals overlapping) 2 key := by
  have report : (compiler.compile overlapping { layers := 1 }).toOption.map
      (fun r => (r.report.rounds, r.report.finalDetectors)) = some (2, 1) := by
    decide +kernel
  obtain ⟨result, compiled, same⟩ := Outcome.exists_ok_of_map report
  obtain ⟨rounds, placed⟩ := Prod.mk.inj same
  obtain ⟨_, _, _, _, closing, _, _, _, _, length, _, each⟩ :=
    Compiler.final_detectors_undisturbed compiled
  rw [rounds] at each
  exact ⟨result, compiled, closing, length.trans placed, each⟩

/-- A detector may close on an outcome although a check that does not commute with it is measured
later: by an earlier round that is not over yet, or in the same round. -/
theorem clash_after_closing :
    (outer.commutes flips = false ∧
      ∃ result, compiler.compile overlapping { layers := 1 } = .ok result ∧
        result.report.finalDetectors = 1 ∧ Note.detector [1, 2, 4] ∈ (result.store.tickAt 5).notes ∧
        result.store.record.entry? 1 = some (Key.of outer 1, 3) ∧
        result.store.record.entry? 0 = some (Key.of flips 0, 4)) ∧
    (inner.commutes pair = false ∧
      ∃ result, compiler.compile crossing { layers := 1 } = .ok result ∧
        result.report.finalDetectors = 1 ∧ Note.detector [0, 2, 3] ∈ (result.store.tickAt 3).notes ∧
        result.store.record.entry? 0 = some (Key.of inner 0, 1) ∧
        result.store.record.entry? 1 = some (Key.of pair 0, 2)) := by
  have holds : ∀ {code : Code} {check : Compilation → Prop} [DecidablePred check],
      (compiler.compile code { layers := 1 }).toOption.any (fun r => check r) = true →
        ∃ result, compiler.compile code { layers := 1 } = .ok result ∧ check result := by
    intro code check _ shown
    obtain ⟨result, found, shown⟩ := (Option.any_eq_true ..).mp shown
    exact ⟨result, Outcome.eq_ok_of_toOption found, of_decide_eq_true shown⟩
  refine ⟨⟨by decide, holds ?_⟩, by decide, holds ?_⟩
  · decide +kernel
  · decide +kernel

end LateChecks

end SyndromeSchedule
