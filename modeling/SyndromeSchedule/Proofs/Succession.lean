import SyndromeSchedule.Proofs.Gaps
import SyndromeSchedule.Proofs.Settled

/-!
Rounds one after the other on every qubit. Rounds overlap in time, but what a round does to a qubit
comes after everything that earlier rounds did to it: data qubits are used from the tick after their
last use on, ancillas from the tick after their last measurement on. Within a round an ancilla is
reset, prepared, led through its slots and measured, and nothing else happens to it.
-/

namespace SyndromeSchedule

open List Outcome

/-- What is added in one step precedes what is added in another, on every qubit. -/
def Store.Precedes (a b : Store × Store) : Prop :=
  ∀ {q : Qubit} {t t' : Nat} {g g' : Gate × List Qubit}, g ∈ a.1.addedIn a.2 t → q ∈ g.2 →
    g' ∈ b.1.addedIn b.2 t' → q ∈ g'.2 → t < t'

namespace Session

variable {α : Type} {m : Move} {q : Qubit} {key : Key} {e : Extracted} {start ready t : Nat}
  {times : Nat × Nat} {es : List Extracted} {g : Gate × List Qubit}

variable {task : Task} {s mid next last : Session} {moves later : List Move} {tick round : Nat}

/-! The gates of a round. -/

open Extracted in
/-- What a round places, from the sessions before it: when ancillas are reset and prepared, where
the grid starts, how ancillas are measured, and the checks without an ancilla. -/
structure FillsRound (task : Task) (s : Session) (extracted : List Extracted) (start : Nat)
    (openings : List (Extracted × Nat × Nat)) (closings : List (Extracted × Move))
    (reads : List Move) : Prop where
  opened : openings.map (·.1) = extracted
  closed : closings.map (·.1) = extracted
  opens : ∀ o ∈ openings, Opens o.1 (s.resetTick o.1) start o.2
  closes : ∀ c ∈ closings, Closes s.rounds (stride extracted) start c.1 c.2
  grid : ∀ e ∈ extracted, ∀ step ∈ e.interactions,
    (s.horizon step.2.data + if step.2.before.isSome then 1 else 0) ≤
      start + step.1 * stride extracted
  reads : ∀ m ∈ reads, s.layerStart ≤ m.tick ∧ ∃ c ∈ task.code.checksIn s.rounds, Directly c m ∧
    ∀ q ∈ c.qubits, s.horizon q ≤ m.tick

/-- The gate on an ancilla and a data qubit in a slot. -/
def slotMove (stride start : Nat) (e : Extracted) (step : Nat × Interaction) : Move :=
  ⟨start + step.1 * stride, step.2.gate,
    if step.2.ancillaControls then [e.ancilla, step.2.data] else [step.2.data, e.ancilla], [], none⟩

/-- The part of an ancilla in a round: it is reset, prepared, meets the data qubits of its slots in
order, and is measured. -/
def lifeMoves (stride start : Nat) (e : Extracted) (times : Nat × Nat) (last : Move) : List Move :=
  openingMoves e times ++ (e.interactions.map (slotMove stride start e) ++ [last])

lemma mem_lifeMoves {stride : Nat} {last : Move} : m ∈ lifeMoves stride start e times last ↔
    m ∈ openingMoves e times ∨ (∃ step ∈ e.interactions, m = slotMove stride start e step) ∨
      m = last := by
  simp only [lifeMoves, mem_append, mem_map, mem_singleton, eq_comm]

lemma ancilla_mem_slotMove (stride start : Nat) (e : Extracted) (step : Nat × Interaction) :
    e.ancilla ∈ (slotMove stride start e step).qubits := by
  unfold slotMove
  split_ifs <;> simp

lemma pairwise_lifeMoves {stride floor : Nat} (pos : 0 < stride) {last : Move}
    (opens : Opens e floor start times) (closes : Closes round stride start e last) :
    (lifeMoves stride start e times last).Pairwise fun a b => a.tick < b.tick := by
  have first : (openingMoves e times).Pairwise fun a b => a.tick < b.tick := by
    unfold openingMoves rotationMoves
    cases preparation e.plan.ancillaState with
    | none => simp
    | some g => simpa using opens.ordered
  have slots : (e.interactions.map (slotMove stride start e)).Pairwise
      fun a b => a.tick < b.tick := by
    rw [pairwise_map]
    refine e.slots_lt.imp fun less => ?_
    have grown := Nat.mul_lt_mul_of_pos_right less pos
    simp only [slotMove]
    omega
  apply pairwise_append.mpr
  refine ⟨first, pairwise_append.mpr ⟨slots, pairwise_singleton _ _, ?_⟩, ?_⟩
  · intro m mem n ending
    obtain ⟨step, inside, rfl⟩ := mem_map.mp mem
    rw [mem_singleton.mp ending]
    exact closes.late step inside
  · intro m mem n later
    have early := opens.ready m mem
    rcases mem_append.mp later with slot | ending
    · obtain ⟨step, _, rfl⟩ := mem_map.mp slot
      exact early.trans_le (Nat.le_add_right ..)
    · rw [mem_singleton.mp ending]
      exact early.trans_le closes.begun

lemma bounds_lifeMoves {stride floor : Nat} {last : Move} (opens : Opens e floor start times)
    (closes : Closes round stride start e last) (mem : m ∈ lifeMoves stride start e times last) :
    floor ≤ m.tick ∧ m.tick ≤ last.tick := by
  have low := opens.floor
  have reset := opens.ready _ (.head _)
  have begun := closes.begun
  simp only at reset
  rcases mem_lifeMoves.mp mem with opening | ⟨step, inside, rfl⟩ | rfl
  · have early := opens.ready m opening
    have ordered := opens.ordered
    obtain ⟨_, _, here⟩ := mem_openingMoves opening
    omega
  · have late := closes.late step inside
    simp only [slotMove]
    omega
  · omega

lemma filter_flatMap_of_unique {ι : Type} {items : List ι} {f : ι → List α} {p : α → Bool} {i : ι}
    (distinct : items.Nodup) (mem : i ∈ items)
    (others : ∀ j ∈ items, j ≠ i → ∀ a ∈ f j, p a = false) :
    (items.flatMap f).filter p = (f i).filter p := by
  induction items with
  | nil => cases mem
  | cons j rest ih =>
    obtain ⟨fresh, distinct⟩ := nodup_cons.mp distinct
    rw [flatMap_cons, filter_append]
    have later : ∀ k ∈ rest, k ≠ i → ∀ a ∈ f k, p a = false :=
      fun k inside => others k (mem_cons_of_mem j inside)
    rcases mem_cons.mp mem with rfl | mem
    · have none : (rest.flatMap f).filter p = [] := by
        rw [filter_eq_nil_iff]
        intro a inside
        obtain ⟨k, known, inside⟩ := mem_flatMap.mp inside
        have different : k ≠ i := fun same => fresh (same ▸ known)
        simp [later k known different a inside]
      rw [none, append_nil]
    · have different : j ≠ i := fun same => fresh (same ▸ mem)
      have none : (f j).filter p = [] := by
        rw [filter_eq_nil_iff]
        intro a inside
        simp [others j mem_cons_self different a inside]
      rw [none, nil_append]
      exact ih distinct mem later

lemma filter_gridMoves_ancilla {code : Code} (compatible : Extracted.Compatible code es)
    (mem : e ∈ es) (stride start : Nat) :
    (gridMoves stride start e).filter (e.ancilla ∈ ·.qubits) =
      e.interactions.map (slotMove stride start e) := by
  have data : ∀ step ∈ e.interactions, e.ancilla ≠ step.2.data := by
    intro step inside same
    have ancilla := compatible.ancilla e mem
    rw [same, compatible.data e mem step inside] at ancilla
    cases ancilla
  have turns : ∀ (t : Nat) (gate : Option Gate) (q : Qubit), e.ancilla ≠ q →
      (rotationMoves t gate q).filter (e.ancilla ∈ ·.qubits) = [] := by
    intro t gate q different
    cases gate with
    | none => rfl
    | some g => simp [rotationMoves, different]
  have meets : ∀ step ∈ e.interactions,
      (meetingMoves e.ancilla (start + step.1 * stride) step.2).filter (e.ancilla ∈ ·.qubits) =
        [slotMove stride start e step] := by
    intro step inside
    have acted : decide (e.ancilla ∈ (slotMove stride start e step).qubits) = true :=
      decide_eq_true (ancilla_mem_slotMove stride start e step)
    have here : meetingMoves e.ancilla (start + step.1 * stride) step.2 =
        rotationMoves (start + step.1 * stride - 1) step.2.before step.2.data ++
          slotMove stride start e step ::
            rotationMoves (start + step.1 * stride + 1) step.2.after step.2.data := rfl
    rw [here, filter_append, filter_cons, if_pos acted, turns _ _ _ (data step inside),
      turns _ _ _ (data step inside), nil_append]
  rw [gridMoves, filter_flatMap, flatMap_congr meets]
  exact map_eq_flatMap.symm

section Round

variable {es : List Extracted} {start : Nat} {openings : List (Extracted × Nat × Nat)}
  {closings : List (Extracted × Move)} {reads : List Move} {e : Extracted} {m : Move}

lemma ancilla_ne_of_ne {code : Code} (compatible : Extracted.Compatible code es)
    {f : Extracted} (he : e ∈ es) (hf : f ∈ es) (different : f ≠ e) :
    e.ancilla ≠ f.ancilla :=
  fun same => different (compatible.ancilla_inj he hf same).symm

lemma extracted_nodup {code : Code} (compatible : Extracted.Compatible code es) : es.Nodup :=
  compatible.apart.imp fun both same => both.1 (congrArg Extracted.ancilla same)

variable (fills : s.FillsRound task es start openings closings reads)
include fills

/-- All that happens to an ancilla in a round: reset, meetings and measurement. -/
lemma FillsRound.life (compatible : Extracted.Compatible task.code es) (mem : e ∈ es) :
    ∃ times last, (e, times) ∈ openings ∧ (e, last) ∈ closings ∧
      (roundMoves es start openings closings reads).filter (e.ancilla ∈ ·.qubits) =
        lifeMoves (Extracted.stride es) start e times last := by
  have distinct := extracted_nodup compatible
  have opened : e ∈ openings.map (·.1) := fills.opened ▸ mem
  have closed : e ∈ closings.map (·.1) := fills.closed ▸ mem
  obtain ⟨⟨_, times⟩, here, rfl⟩ := mem_map.mp opened
  obtain ⟨⟨f, last⟩, there, same⟩ := mem_map.mp closed
  simp only at same mem opened closed
  subst same
  have nodupO : (openings.map (·.1)).Nodup := fills.opened ▸ distinct
  have nodupC : (closings.map (·.1)).Nodup := fills.closed ▸ distinct
  refine ⟨times, last, here, there, ?_⟩
  -- Other checks have other ancillas, and no data qubit is an ancilla.
  have first : (openings.flatMap fun o => openingMoves o.1 o.2).filter (f.ancilla ∈ ·.qubits) =
      openingMoves f times := by
    rw [filter_flatMap_of_unique nodupO.of_map here]
    · rw [filter_eq_self]
      intro m inside
      simp [(mem_openingMoves inside).1]
    · intro o known different m inside
      have other : o.1 ≠ f := fun same =>
        different (inj_on_of_nodup_map nodupO known here same)
      have listed : o.1 ∈ es := fills.opened ▸ mem_map_of_mem known
      simpa [(mem_openingMoves inside).1] using ancilla_ne_of_ne compatible mem listed other
  have second : (closings.flatMap fun c =>
      gridMoves (Extracted.stride es) start c.1 ++ [c.2]).filter (f.ancilla ∈ ·.qubits) =
        f.interactions.map (slotMove (Extracted.stride es) start f) ++ [last] := by
    rw [filter_flatMap_of_unique nodupC.of_map there]
    · rw [filter_append, filter_gridMoves_ancilla compatible mem]
      have ends := (fills.closes _ there).qubits
      simp only at ends
      simp [ends]
    · intro c known different m inside
      have other : c.1 ≠ f := fun same =>
        different (inj_on_of_nodup_map nodupC known there same)
      have listed : c.1 ∈ es := fills.closed ▸ mem_map_of_mem known
      have apart := ancilla_ne_of_ne compatible mem listed other
      rcases mem_append.mp inside with grid | ending
      · simpa using ancilla_not_mem_gridMoves compatible mem listed apart grid
      · obtain rfl := mem_singleton.mp ending
        simpa [(fills.closes c known).qubits] using apart
  have third : reads.filter (f.ancilla ∈ ·.qubits) = [] := by
    rw [filter_eq_nil_iff]
    intro m inside
    obtain ⟨_, c, scheduled, directly, _⟩ := fills.reads m inside
    have ancilla := compatible.ancilla f mem
    simp only [decide_eq_true_eq, directly.1]
    intro acted
    rw [task.code.isData_of_mem scheduled acted] at ancilla
    cases ancilla
  rw [roundMoves, filter_append, filter_append, first, second, third, append_nil, lifeMoves]

omit fills in
lemma stride_pos (es : List Extracted) : 0 < Extracted.stride es := by
  rw [Extracted.stride_eq]
  omega

lemma FillsRound.acts (compatible : Extracted.Compatible task.code es)
    (mem : m ∈ roundMoves es start openings closings reads) (acted : q ∈ m.qubits) :
    (∃ e ∈ es, e.ancilla = q) ∨ task.code.isData q = true ∧ s.horizon q ≤ m.tick := by
  have closed : ∀ c ∈ closings, c.1 ∈ es := fun c known => fills.closed ▸ mem_map_of_mem known
  rcases mem_roundMoves.mp mem with ⟨o, known, inside⟩ | ⟨c, known, grid | rfl⟩ | direct
  · rw [(mem_openingMoves inside).1] at acted
    refine .inl ⟨o.1, fills.opened ▸ mem_map_of_mem known, ?_⟩
    exact (mem_singleton.mp acted).symm
  · obtain ⟨step, used, inside⟩ := mem_flatMap.mp grid
    rcases qubit_of_mem_meetingMoves inside acted with here | here
    · exact .inl ⟨c.1, closed c known, here.symm⟩
    · have room := fills.grid c.1 (closed c known) step used
      rw [here]
      refine .inr ⟨compatible.data c.1 (closed c known) step used, ?_⟩
      rcases mem_meetingMoves inside with ⟨tick, _⟩ | ⟨turns, tick, _⟩ | ⟨_, tick, _⟩
      · omega
      · rw [if_pos turns] at room
        omega
      · omega
  · rw [(fills.closes c known).qubits] at acted
    exact .inl ⟨c.1, closed c known, (mem_singleton.mp acted).symm⟩
  · obtain ⟨_, c, scheduled, directly, floor⟩ := fills.reads m direct
    rw [directly.1] at acted
    exact .inr ⟨task.code.isData_of_mem scheduled acted, floor q acted⟩

lemma FillsRound.late (mem : m ∈ roundMoves es start openings closings reads) :
    s.layerStart ≤ m.tick := by
  have resets : ∀ o ∈ openings, s.layerStart ≤ o.2.1 :=
    fun o listed => le_trans (le_max_left ..) (fills.opens o listed).floor
  rcases mem_roundMoves.mp mem with ⟨o, listed, inside⟩ | ⟨c, listed, inside⟩ | direct
  · have low := resets o listed
    have ordered := (fills.opens o listed).ordered
    obtain ⟨_, _, here⟩ := mem_openingMoves inside
    omega
  · have known : c.1 ∈ es := fills.closed ▸ mem_map_of_mem listed
    obtain ⟨o, opening, _⟩ := mem_map.mp (fills.opened ▸ known)
    have low := resets o opening
    have begun : o.2.1 < start := (fills.opens o opening).ready _ (.head _)
    rcases inside with grid | rfl
    · have placed := le_tick_of_mem_gridMoves grid
      omega
    · have placed := (fills.closes c listed).begun
      omega
  · exact (fills.reads m direct).1

lemma FillsRound.exists_ancilla (compatible : Extracted.Compatible task.code es)
    (mem : m ∈ roundMoves es start openings closings reads) (acted : q ∈ m.qubits)
    (bare : task.code.isData q = false) : ∃ e ∈ es, e.ancilla = q := by
  refine (fills.acts compatible mem acted).resolve_right ?_
  rintro ⟨data, _⟩
  rw [bare] at data
  cases data

end Round

/-! Floors of qubits. -/

/-- First tick in which a later round may use a qubit. -/
def floor (code : Code) (s : Session) (q : Qubit) : Nat :=
  if code.isData q then s.horizon q else (s.ancillaFloor.get? q).getD 0

lemma FillsRound.addedIn_life {openings : List (Extracted × Nat × Nat)}
    {closings : List (Extracted × Move)} {reads : List Move}
    (fills : s.FillsRound task es start openings closings reads)
    (compatible : Extracted.Compatible task.code es)
    (lays : s.LaysMoves (roundMoves es start openings closings reads) next)
    (mem : e ∈ es) :
    ∃ times last, (e, times) ∈ openings ∧ (e, last) ∈ closings ∧
      ∀ t, (s.store.addedIn next.store t).filter (e.ancilla ∈ ·.2) =
        ((lifeMoves (Extracted.stride es) start e times last).filter (·.tick = t)).map
          Move.application := by
  obtain ⟨times, last, here, there, life⟩ := fills.life compatible mem
  refine ⟨times, last, here, there, fun t => ?_⟩
  rw [lays.addedIn_eq, ← life, filter_map, filter_filter, filter_filter]
  apply congrArg
  apply filter_congr
  intro m _
  exact Bool.and_comm ..

/-- How a round leaves a session: everything it places comes from the floors on, and the floors are
raised above it. -/
structure RaisesFloors (task : Task) (s next : Session) : Prop where
  round : ∃ extracted start openings closings reads,
    task.extractRound s.rounds = .ok extracted ∧
      Extracted.Compatible task.code extracted ∧
      s.FillsRound task extracted start openings closings reads ∧
      s.LaysMoves (roundMoves extracted start openings closings reads) next
  above : ∀ {t : Nat} {g : Gate × List Qubit} {q : Qubit}, g ∈ s.store.addedIn next.store t →
    q ∈ g.2 → s.floor task.code q ≤ t
  below : ∀ {t : Nat} {g : Gate × List Qubit} {q : Qubit}, g ∈ s.store.addedIn next.store t →
    q ∈ g.2 → t < next.floor task.code q
  late : ∀ {t : Nat} {g : Gate × List Qubit}, g ∈ s.store.addedIn next.store t → s.layerStart ≤ t
  grows : ∀ q, s.floor task.code q ≤ next.floor task.code q
  rounds : next.rounds = s.rounds + 1

lemma dataFloor_startRound {code : Code} (data : code.isData q = true) (s : Session) :
    (startRound code s).dataFloor.get? q = some (s.horizon q) := by
  refine (Table.get?_foldl_insert ..).trans ?_
  rw [if_pos ((code.mem_dataQubits q).mpr data)]
  unfold horizon
  cases s.lastUse.get? q <;> rfl

/-- A round, with all that it places and notes. -/
structure Performs (task : Task) (s next : Session) (extracted : List Extracted) (start : Nat)
    (openings : List (Extracted × Nat × Nat)) (closings : List (Extracted × Move))
    (reads : List Move) : Prop where
  extracts : task.extractRound s.rounds = .ok extracted
  compatible : Extracted.Compatible task.code extracted
  fills : s.FillsRound task extracted start openings closings reads
  lays : s.LaysMoves (roundMoves extracted start openings closings reads) next
  grows : ∀ q, s.horizon q ≤ next.horizon q
  noted : ∀ m ∈ roundMoves extracted start openings closings reads, ∀ q ∈ m.qubits,
    m.tick < next.horizon q
  attained : ∀ q, next.horizon q = s.horizon q ∨
    ∃ m ∈ roundMoves extracted start openings closings reads, q ∈ m.qubits ∧
      next.horizon q = m.tick + 1
  raised : ∀ c ∈ closings, next.ancillaFloor.get? c.1.ancilla = some (c.2.tick + 1)
  idle : ∀ q, (∀ m ∈ roundMoves extracted start openings closings reads, q ∉ m.qubits) →
    next.ancillaFloor.get? q = s.ancillaFloor.get? q
  files : ∀ m ∈ reads, ∃ c ∈ task.code.checksIn s.rounds, c.ancilla = none ∧ Directly c m ∧
    m.key = some (Key.of c (Word.signed s.rounds))

/-- A round performs the moves of its checks, in an order with all their bounds. -/
lemma compileRound_performs (extractable : task.Extractable)
    (run : s.compileRound task = .ok next) :
    ∃ es start openings closings reads, Performs task s next es start openings closings reads := by
  obtain ⟨begun, es, first, second, third, ended, begins, extracts, places, measures,
    disturbs, ends, rfl⟩ := compileRound_eq_ok run
  obtain ⟨_, found, conflict⟩ := extractable s.rounds
  obtain rfl := Except.ok.inj (extracts.symm.trans found)
  have compatible := Task.compatible extracts conflict
  let started := startRound task.code { s with progress := begun }
  obtain ⟨start, openings, closings, opened, closed, opens, closes, raised, grid, does⟩ :=
    scheduleExtracted_does places
  obtain ⟨reads, more, each⟩ := scheduleDirects_does measures
  have noise := roundNoises_does disturbs
  have horizons : ∀ {q : Qubit}, task.code.isData q = true →
      (started.dataFloor.get? q).getD 0 = s.horizon q := by
    intro q data
    rw [dataFloor_startRound data]
    rfl
  have fills : s.FillsRound task es start openings closings reads := by
    refine ⟨opened, closed, opens, closes, ?_, ?_⟩
    · intro e mem step inside
      rw [← horizons (compatible.data e mem step inside)]
      exact grid e mem step inside
    · intro m mem
      obtain ⟨late, c, known, directly, _, floor⟩ := each m mem
      rw [does.dataFloor] at floor
      have scheduled := mem_of_mem_filter known
      refine ⟨does.layerStart ▸ late, c, scheduled, directly, fun q acted => ?_⟩
      rw [← horizons (task.code.isData_of_mem scheduled acted)]
      exact floor q acted
  have all : started.DoesMoves (roundMoves es start openings closings reads) third := by
    have placed := (does.trans more).trans noise
    simpa [roundMoves] using placed
  obtain ⟨trackers, rfl⟩ := Progress.endRound_eq_ok ends
  refine ⟨es, start, openings, closings, reads, extracts, compatible, fills, ?_, all.grows,
    fun _ mem _ => all.noted mem, all.attained, ?_, ?_, ?_⟩
  · exact { (startRound_lays begins).trans all.lays with }
  · intro c mem
    have listed : c.1 ∈ es := closed ▸ mem_map_of_mem mem
    change third.ancillaFloor.get? c.1.ancilla = _
    rw [noise.ancillaFloor (forall_mem_nil _), more.ancillaFloor fun m inside acted => ?_]
    · exact raised (compatible.apart.imp fun both => both.1) c mem
    · -- Checks without an ancilla act on data qubits alone.
      obtain ⟨_, d, known, directly, _⟩ := each m inside
      have bare := compatible.ancilla c.1 listed
      rw [task.code.isData_of_mem (mem_of_mem_filter known) (directly.1 ▸ acted)] at bare
      cases bare
  · exact fun q unused => all.ancillaFloor fun m mem acted => absurd acted (unused m mem)
  · intro m mem
    obtain ⟨_, c, known, directly, key, _⟩ := each m mem
    obtain ⟨scheduled, bare⟩ := mem_filter.mp known
    exact ⟨c, scheduled, Option.isNone_iff_eq_none.mp bare, directly, key⟩

section Performs

variable {es : List Extracted} {start : Nat} {openings : List (Extracted × Nat × Nat)}
  {closings : List (Extracted × Move)} {reads : List Move}

variable (h : Performs task s next es start openings closings reads)
include h

lemma Performs.bounds (bare : task.code.isData q = false)
    (mem : m ∈ roundMoves es start openings closings reads) (acted : q ∈ m.qubits) :
    (s.ancillaFloor.get? q).getD 0 ≤ m.tick ∧ m.tick < (next.ancillaFloor.get? q).getD 0 := by
  obtain ⟨e, known, rfl⟩ := h.fills.exists_ancilla h.compatible mem acted bare
  obtain ⟨times, last, here, there, life⟩ := h.fills.life h.compatible known
  have listed : m ∈ lifeMoves (Extracted.stride es) start e times last := by
    rw [← life]
    exact mem_filter.mpr ⟨mem, by simpa using acted⟩
  obtain ⟨low, high⟩ := bounds_lifeMoves (h.fills.opens _ here) (h.fills.closes _ there) listed
  rw [h.raised _ there]
  exact ⟨le_trans (le_max_right ..) low, Nat.lt_succ_of_le high⟩

lemma Performs.ancillaFloor_le (bare : task.code.isData q = false) :
    (s.ancillaFloor.get? q).getD 0 ≤ (next.ancillaFloor.get? q).getD 0 := by
  by_cases used : ∃ m ∈ roundMoves es start openings closings reads, q ∈ m.qubits
  · obtain ⟨m, mem, acted⟩ := used
    obtain ⟨low, high⟩ := h.bounds bare mem acted
    omega
  · rw [h.idle q fun m mem acted => used ⟨m, mem, acted⟩]

lemma Performs.raises (rounds : next.rounds = s.rounds + 1) : s.RaisesFloors task next := by
  refine ⟨⟨es, start, openings, closings, reads, h.extracts, h.compatible, h.fills, h.lays⟩,
    fun {t g q} mem acted => ?_, fun {t g q} mem acted => ?_, fun {t g} mem => ?_,
    fun q => ?_, rounds⟩
  · obtain ⟨m, inside, rfl, rfl⟩ := h.lays.mem_addedIn.mp mem
    unfold floor
    split_ifs with data
    · refine ((h.fills.acts h.compatible inside acted).resolve_left ?_).2
      rintro ⟨e, known, rfl⟩
      rw [h.compatible.ancilla e known] at data
      cases data
    · exact (h.bounds (by simpa using data) inside acted).1
  · obtain ⟨m, inside, rfl, rfl⟩ := h.lays.mem_addedIn.mp mem
    unfold floor
    split_ifs with data
    · exact h.noted m inside q acted
    · exact (h.bounds (by simpa using data) inside acted).2
  · obtain ⟨m, inside, rfl, _⟩ := h.lays.mem_addedIn.mp mem
    exact h.fills.late inside
  · unfold floor
    split_ifs with data
    · exact h.grows q
    · exact h.ancillaFloor_le (by simpa using data)

end Performs

lemma compileRound_raises (extractable : task.Extractable)
    (run : s.compileRound task = .ok next) : s.RaisesFloors task next := by
  obtain ⟨es, start, openings, closings, reads, performs⟩ := compileRound_performs extractable run
  exact performs.raises (rounds_compileRound run)

/-! Rounds after rounds. -/

lemma Between.lays (h : s.Between next) : s.LaysMoves [] next := by
  cases h with
  | start tick => exact ⟨(LaysMoves.refl s).writes, (LaysMoves.refl s).free⟩
  | flush written =>
    obtain rfl := (Progress.flush_meets ..).of_ok written
    exact (does_notes rfl).lays
  | mark start stop repetitions => exact ⟨(LaysMoves.refl s).writes, (LaysMoves.refl s).free⟩

lemma Between.floor_eq (h : s.Between next) (code : Code) (q : Qubit) :
    next.floor code q = s.floor code q := by
  cases h <;> rfl

variable {stages : List (Session × Session)}

section

variable (extractable : task.Extractable)

include extractable

variable (h : Stages task s stages last)
include h

lemma Stages.raises : ∀ stage ∈ stages, stage.1.RaisesFloors task stage.2 := by
  intro stage mem
  have placed := h.each (P := fun _ => True) (fun _ _ => trivial) (fun _ _ => trivial) trivial
  exact compileRound_raises extractable (placed stage mem).2

lemma Stages.floor_mono (q : Qubit) : s.floor task.code q ≤ last.floor task.code q := by
  refine h.keeps (P := fun x => s.floor task.code q ≤ x.floor task.code q) ?_ ?_ le_rfl
  · exact fun run low => low.trans ((compileRound_raises extractable run).grows q)
  · exact fun pause low => (pause.floor_eq task.code q).symm ▸ low

lemma Stages.floor_le :
    ∀ stage ∈ stages, ∀ {t : Nat} {g : Gate × List Qubit} {q : Qubit},
      g ∈ stage.1.store.addedIn stage.2.store t → q ∈ g.2 → s.floor task.code q ≤ t := by
  intro stage mem t g q added acted
  obtain ⟨before, after, rfl⟩ := append_of_mem mem
  exact le_trans (h.split.1.floor_mono extractable q)
    ((h.raises extractable stage mem).above added acted)

lemma Stages.lt_floor :
    ∀ stage ∈ stages, ∀ {t : Nat} {g : Gate × List Qubit} {q : Qubit},
      g ∈ stage.1.store.addedIn stage.2.store t → q ∈ g.2 → t < last.floor task.code q := by
  intro stage mem t g q added acted
  obtain ⟨before, after, rfl⟩ := append_of_mem mem
  exact lt_of_lt_of_le ((h.raises extractable stage mem).below added acted)
    (h.split.2.2.floor_mono extractable q)

lemma Stages.pairwise :
    (stages.map fun stage => (stage.1.store, stage.2.store)).Pairwise Store.Precedes := by
  induction h with
  | done => exact .nil
  | round run later ih =>
    have raises := compileRound_raises extractable run
    refine pairwise_cons.mpr ⟨fun b mem => ?_, ih⟩
    obtain ⟨stage, known, rfl⟩ := mem_map.mp mem
    intro q t t' g g' added acted added' acted'
    exact lt_of_lt_of_le (raises.below added acted)
      (later.floor_le extractable stage known added' acted')
  | between _ _ ih => exact ih

lemma Stages.lays :
    ∃ moves, s.LaysMoves moves last ∧ ∀ t, s.store.addedIn last.store t =
      (stages.map fun stage => (stage.1.store, stage.2.store)).flatMap
        fun a => a.1.addedIn a.2 t := by
  induction h with
  | done s =>
    refine ⟨[], .refl s, fun t => ?_⟩
    rw [(LaysMoves.refl s).addedIn_eq]
    rfl
  | round run _ ih =>
    obtain ⟨_, _, _, _, _, _, _, _, first⟩ := (compileRound_raises extractable run).round
    obtain ⟨moves, others, added⟩ := ih
    refine ⟨_, first.trans others, fun t => ?_⟩
    rw [first.addedIn_append others, added, map_cons, flatMap_cons]
  | between pause _ ih =>
    obtain ⟨moves, others, added⟩ := ih
    refine ⟨_, pause.lays.trans others, fun t => ?_⟩
    rw [pause.lays.addedIn_append others, pause.lays.addedIn_eq, added]
    rfl

end

/-! The first and the last gates. -/

lemma initialise_does (run : s.initialise task = .ok next) : s.DoesMoves (initialMoves task) next :=
  ((initialise_places task s).result run).does

lemma isData_of_mem_initialMoves (mem : m ∈ initialMoves task) (acted : q ∈ m.qubits) :
    task.code.isData q = true := by
  rcases mem_append.mp mem with reset | prepared
  · obtain ⟨p, known, inside⟩ := mem_flatMap.mp reset
    obtain rfl := mem_singleton.mp inside
    rw [mem_singleton.mp acted]
    exact (task.code.mem_dataQubits p).mp known
  · obtain ⟨p, known, inside⟩ := mem_flatMap.mp prepared
    rw [(mem_rotationMoves inside).2.2] at acted
    rw [mem_singleton.mp acted]
    exact (task.code.mem_dataQubits p).mp known

lemma LaysMoves.lt_barrier (h : s.LaysMoves moves next) (added : g ∈ s.store.addedIn next.store t)
    (acted : q ∈ g.2) : t < next.barrier := by
  obtain ⟨m, mem, rfl, rfl⟩ := h.mem_addedIn.mp added
  have taken := h.taken mem acted
  have inside : m.tick < next.occupancy.size := by
    by_contra past
    rw [Occupancy.isFree_of_size_le (Nat.le_of_not_lt past)] at taken
    cases taken
  exact inside.trans_le (le_max_left ..)

lemma LaysMoves.precedes (h : s.LaysMoves moves next) (h' : next.LaysMoves later last)
    (late : ∀ m ∈ later, m.tick = next.barrier) :
    Store.Precedes (s.store, next.store) (next.store, last.store) := by
  intro q t t' g g' added acted added' _
  obtain ⟨m, mem, rfl, _⟩ := h'.mem_addedIn.mp added'
  rw [late m mem]
  exact h.lt_barrier added acted

lemma key_of_mem_initialMoves (mem : m ∈ initialMoves task) : m.key = none := by
  rcases mem_append.mp mem with reset | prepared
  · obtain ⟨p, _, inside⟩ := mem_flatMap.mp reset
    rw [mem_singleton.mp inside]
  · obtain ⟨p, _, inside⟩ := mem_flatMap.mp prepared
    obtain ⟨g, _, rfl⟩ := mem_map.mp inside
    rfl

lemma DoesMoves.initial_lt_floor (h : s.DoesMoves (initialMoves task) next)
    (added : g ∈ s.store.addedIn next.store t) (acted : q ∈ g.2) : t < next.floor task.code q := by
  obtain ⟨m, mem, rfl, rfl⟩ := h.lays.mem_addedIn.mp added
  rw [Session.floor, if_pos (isData_of_mem_initialMoves mem acted)]
  exact h.noted mem acted

/-- All that a round does to the ancilla of a check, in order of ticks: it is reset, prepared, meets
the data qubits of its slots and is measured for the round. -/
def Lives (s next : Session) (e : Extracted) : Prop :=
  ∃ stride start times last, Gate.measuring e.plan.basis = .ok last.gate ∧
    last.qubits = [e.ancilla] ∧ last.key = some (Key.of e.check (Word.signed s.rounds)) ∧
    (lifeMoves stride start e times last).Pairwise (fun a b => a.tick < b.tick) ∧
    ∀ t, (s.store.addedIn next.store t).filter (e.ancilla ∈ ·.2) =
      ((lifeMoves stride start e times last).filter (·.tick = t)).map Move.application

lemma RaisesFloors.lives (h : s.RaisesFloors task next) :
    ∃ es, task.extractRound s.rounds = .ok es ∧
      (∀ e ∈ es, (e.interactions.map (·.2.data)).Perm e.check.qubits ∧ s.Lives next e) ∧
      ∀ {t : Nat} {g : Gate × List Qubit} {q : Qubit}, g ∈ s.store.addedIn next.store t →
        q ∈ g.2 → task.code.isData q = false → ∃ e ∈ es, e.ancilla = q := by
  obtain ⟨es, start, openings, closings, reads, extracts, compatible, fills, lays⟩ := h.round
  refine ⟨es, extracts, fun e mem => ⟨?_, ?_⟩, fun {t g q} added acted bare => ?_⟩
  · exact Extracted.data_interactions ((Task.extractRound_eq_ok extracts).2 e mem).follows
  · obtain ⟨times, last, here, there, life⟩ := fills.addedIn_life compatible lays mem
    have closes := fills.closes _ there
    exact ⟨Extracted.stride es, start, times, last, closes.gate, closes.qubits, closes.key,
      pairwise_lifeMoves (stride_pos es) (fills.opens _ here) closes, life⟩
  · obtain ⟨m, inside, _, rfl⟩ := lays.mem_addedIn.mp added
    exact fills.exists_ancilla compatible inside acted bare

end Session

open Session in
/-- Rounds never overlap on a qubit. What a run places is what it places to prepare the data qubits,
round by round, and for the final measurements, and on every qubit these come strictly after one
another. In a round nothing happens to an ancilla but the part it has in its check: it is reset,
prepared if need be, meets each data qubit of the check once, in order of slots, and is measured, in
increasing ticks. -/
theorem Compiler.rounds_succeed {c : Compiler} {code : Code} {request : Request}
    {result : Compilation} (run : c.compile code request = .ok result) :
    ∃ (prepared layered ended : Session) (stages : List (Session × Session))
      (phases : List (Store × Store)),
      (⟨c, code, request⟩ : Task).Runs result prepared layered ended ∧
      Stages ⟨c, code, request⟩ prepared stages layered ∧
      stages.map (·.1.rounds) = List.range result.report.rounds ∧
      phases = ({}, prepared.store) :: (stages.map fun stage => (stage.1.store, stage.2.store)) ++
        [(layered.store, ended.store)] ∧
      (∀ t, ({} : Store).addedIn result.store t = phases.flatMap fun a => a.1.addedIn a.2 t) ∧
      phases.Pairwise Store.Precedes ∧
      ∀ stage ∈ stages, ∃ extracted,
        (⟨c, code, request⟩ : Task).extractRound stage.1.rounds = .ok extracted ∧
        (∀ e ∈ extracted, (e.interactions.map (·.2.data)).Perm e.check.qubits ∧
          stage.1.Lives stage.2 e) ∧
        ∀ {t : Nat} {g : Gate × List Qubit} {q : Qubit},
          g ∈ stage.1.store.addedIn stage.2.store t → q ∈ g.2 → code.isData q = false →
            ∃ e ∈ extracted, e.ancilla = q := by
  let task : Task := ⟨c, code, request⟩
  obtain ⟨prepared, layered, ended, runs⟩ := compile_eq_ok run
  have extractable := runs.extractable
  obtain ⟨stages, placed⟩ := placed_stages runs.placed
  have first := initialise_does runs.prepares
  obtain ⟨moves, middle, rounds⟩ := placed.lays extractable
  obtain ⟨finals, ending, late⟩ := measureFinals_does runs.measures
  have through := first.lays.trans middle
  refine ⟨prepared, layered, ended, stages, _, runs, placed, runs.listed placed, rfl, fun t => ?_,
    ?_, fun stage member => (placed.raises extractable stage member).lives⟩
  · rw [runs.store]
    have all := through.addedIn_append ending.lays t
    have parts := first.lays.addedIn_append middle t
    change ({} : Store).addedIn ended.store t = _ at all
    rw [all, parts, rounds, List.flatMap_append, List.flatMap_cons, List.flatMap_singleton]
    rfl
  · have before : Store.Precedes (task.session.store, layered.store)
        (layered.store, ended.store) := through.precedes ending.lays late
    have parts := fun t => first.lays.addedIn_append middle t
    apply List.pairwise_append.mpr
    refine ⟨List.pairwise_cons.mpr ⟨fun b member => ?_, placed.pairwise extractable⟩,
      List.pairwise_singleton _ _, fun a member b last => ?_⟩
    · obtain ⟨stage, known, rfl⟩ := List.mem_map.mp member
      intro q t t' g g' added acted added' acted'
      exact Nat.lt_of_lt_of_le (first.initial_lt_floor added acted)
        (placed.floor_le extractable stage known added' acted')
    · rw [List.mem_singleton.mp last]
      intro q t t' g g' added acted added' acted'
      apply before ?_ acted added' acted'
      change g ∈ task.session.store.addedIn layered.store t
      rw [parts]
      rcases List.mem_cons.mp member with rfl | member
      · exact List.mem_append_left _ added
      · apply List.mem_append_right
        rw [rounds]
        exact List.mem_flatMap.mpr ⟨a, member, added⟩

open Session in
/-- Five layers of which three are placed. -/
theorem PairCode.rounds_succeed_five :
    ∃ result, (compiler {}).compile code { layers := 5 } = .ok result ∧
      ∃ (prepared layered : Session) (stages : List (Session × Session)),
        Stages ⟨compiler {}, code, { layers := 5 }⟩ prepared stages layered ∧
        stages.map (·.1.rounds) = [0, 1, 2] ∧
        (stages.map fun stage => (stage.1.store, stage.2.store)).Pairwise Store.Precedes := by
  have report : ((compiler {}).compile code { layers := 5 }).toOption.map
      (·.report.rounds) = some 3 := by
    decide +kernel
  obtain ⟨result, compiled, rounds⟩ := Outcome.exists_ok_of_map report
  obtain ⟨prepared, layered, ended, stages, phases, _, placed, counted, rfl, _, apart, _⟩ :=
    Compiler.rounds_succeed compiled
  rw [rounds] at counted
  refine ⟨result, compiled, prepared, layered, stages, placed, counted, ?_⟩
  exact (List.pairwise_cons.mp (List.pairwise_append.mp apart).1).2

end SyndromeSchedule
