import SyndromeSchedule.Proofs.Entries
import SyndromeSchedule.Proofs.Lockstep

/-!
Gates of a round in the order of their ticks. What a session places is found in the ticks of its
store; for the checks with an ancilla these are the gates of the grid, and since gates that share a
qubit are in different slots, taking them tick by tick is the same as taking them slot by slot.
-/

namespace SyndromeSchedule

open List Outcome

namespace Store

/-- Gates of a tick that another store does not have. -/
def addedIn (s next : Store) (t : Nat) : List (Gate × List Qubit) :=
  ((next.tickAt t).gates.drop (s.tickAt t).gates.length).map fun op =>
    (op.gate, op.target.indices.filterMap (next.qubits[·]?))

/-- Gates that another store does not have, tick by tick. -/
def added (s next : Store) : List (Gate × List Qubit) :=
  (List.range next.size).flatMap (s.addedIn next)

lemma Names.filterMap {numbering : List Qubit} {indices : List Nat} {qubits : List Qubit}
    (names : Names numbering indices qubits) :
    indices.filterMap (numbering[·]?) = qubits := by
  induction names with
  | nil => rfl
  | cons found _ ih => rw [filterMap_cons_some found, ih]

lemma Writes.addedIn_eq {s next : Store} {log : List Write} (h : Writes s log next) (t : Nat) :
    s.addedIn next t = ((moves log).filter (·.tick = t)).map Move.application := by
  have gates := h.gates_eq t
  have new : ((next.tickAt t).gates.drop (s.tickAt t).gates.length).map
      (fun op => (op.gate, op.flip, op.target)) =
        ((uses log).filter (·.tick = t)).map fun u => (u.gate, u.flip, u.target) := by
    rw [map_drop, gates]
    simp
  have placed : ((uses log).filter (·.tick = t)).map (fun u => (u.gate,
      u.target.indices.filterMap (next.qubits[·]?))) =
        ((uses log).filter (·.tick = t)).map fun u => u.move.application := by
    refine map_congr_left fun u mem => ?_
    have names := h.named _ (mem_uses.mp (mem_of_mem_filter mem))
    rw [Names.filterMap names]
    rfl
  have decoded := congrArg (map fun x : Gate × Option Double × GateTarget =>
    (x.1, x.2.2.indices.filterMap (next.qubits[·]?))) new
  rw [map_map, map_map] at decoded
  refine (decoded.trans placed).trans ?_
  rw [moves, filter_map, map_map]
  rfl

end Store

/-- Moves in the order of their ticks. -/
def inTicks (ticks : Nat) (moves : List Move) : List Move :=
  (List.range ticks).flatMap fun t => moves.filter (·.tick = t)

lemma perm_inTicks {ticks : Nat} {moves : List Move} (inside : ∀ m ∈ moves, m.tick < ticks) :
    (inTicks ticks moves).Perm moves := by
  induction ticks generalizing moves with
  | zero =>
    have none : moves = [] := eq_nil_iff_forall_not_mem.mpr fun m mem => by
      have := inside m mem
      omega
    rw [none]
    exact .refl _
  | succ n ih =>
    rw [inTicks, range_succ, flatMap_append, flatMap_singleton]
    have below : (range n).flatMap (fun t => moves.filter (·.tick = t)) =
        inTicks n (moves.filter (·.tick < n)) := by
      refine flatMap_congr fun t mem => ?_
      rw [filter_filter]
      refine filter_congr fun m _ => ?_
      have := mem_range.mp mem
      by_cases here : m.tick = t
      · simp [here, this]
      · simp [here]
    have last : moves.filter (·.tick = n) = moves.filter (fun m => !decide (m.tick < n)) := by
      refine filter_congr fun m mem => ?_
      have := inside m mem
      rw [← decide_not, decide_eq_decide]
      omega
    rw [below, last]
    refine ((ih fun m mem => ?_).append_right _).trans (filter_append_perm _ _)
    simpa using (mem_filter.mp mem).2

lemma filter_inTicks (ticks : Nat) (moves : List Move) (keep : Move → Bool) :
    (inTicks ticks moves).filter keep = inTicks ticks (moves.filter keep) := by
  rw [inTicks, filter_flatMap]
  refine flatMap_congr fun t _ => ?_
  rw [filter_filter, filter_filter]
  refine filter_congr fun m _ => Bool.and_comm ..

lemma before_inTicks (ticks : Nat) {moves : List Move}
    (apart : moves.Pairwise fun a b => ∀ q ∈ a.qubits, q ∈ b.qubits → a.tick ≠ b.tick) :
    (inTicks ticks moves).Pairwise Move.Before := by
  rw [inTicks, pairwise_flatMap]
  refine ⟨fun t _ => ?_, ?_⟩
  · refine List.Pairwise.imp_of_mem ?_ (apart.filter _)
    intro a b ha hb different q acted acted'
    have first : a.tick = t := by simpa using (mem_filter.mp ha).2
    have second : b.tick = t := by simpa using (mem_filter.mp hb).2
    exact absurd (first.trans second.symm) (different q acted acted')
  · refine pairwise_lt_range.imp ?_
    intro t t' less a ha b hb _ _ _
    have first : a.tick = t := by simpa using (mem_filter.mp ha).2
    have second : b.tick = t' := by simpa using (mem_filter.mp hb).2
    omega

namespace Session

open Extracted

variable {code : Code} {es : List Extracted}
variable {start round : Nat} {s next : Session} {task : Task}

def slotMoves (extracted : List Extracted) (start : Nat) : List Move :=
  (inSlots extracted).flatMap fun m =>
    meetingMoves m.1.ancilla (start + m.2.1 * stride extracted) m.2.2

lemma perm_slotMoves (es : List Extracted) (start : Nat) :
    (slotMoves es start).Perm (es.flatMap (gridMoves (stride es) start)) := by
  have grid : es.flatMap (gridMoves (stride es) start) = (meetings es).flatMap fun m =>
        meetingMoves m.1.ancilla (start + m.2.1 * stride es) m.2.2 := by
    rw [meetings, flatMap_assoc]
    refine flatMap_congr fun e _ => ?_
    rw [flatMap_map]
    rfl
  rw [grid]
  exact (perm_inSlots es).flatMap_right _

lemma before_slotMoves (compatible : Compatible code es)
    (follows : ∀ e ∈ es, Extractor.Follows e.plan e.check) (pos : 0 < start) :
    (slotMoves es start).Pairwise Move.Before := by
  rw [slotMoves, pairwise_flatMap]
  refine ⟨fun m _ => ?_, ?_⟩
  · refine (pairwise_meetingMoves m.1.ancilla fun _ => by omega).imp ?_
    intro a b less _ _ _
    exact less
  · refine List.Pairwise.imp_of_mem ?_ (compatible.pairwise_inSlots follows)
    rintro a b ha hb ⟨le, apart⟩ m hm n hn q acted acted'
    have ha := (perm_inSlots es).mem_iff.mp ha
    have hb := (perm_inSlots es).mem_iff.mp hb
    obtain ⟨known, step⟩ := mem_meetings.mp ha
    obtain ⟨known', step'⟩ := mem_meetings.mp hb
    rcases lt_or_eq_of_le le with less | same
    · exact tick_lt_of_slot_lt known known' step step' less hm hn
    · obtain ⟨ancillas, data⟩ := apart.slot same
      exfalso
      rcases qubit_of_mem_meetingMoves hm acted with rfl | rfl <;>
        rcases qubit_of_mem_meetingMoves hn acted' with here | here
      · exact ancillas here
      · exact compatible.data_ne_ancilla hb known here.symm
      · exact compatible.data_ne_ancilla ha known' here
      · exact data here

lemma pullBack_slotMoves (compatible : Compatible code es)
    (follows : ∀ e ∈ es, Extractor.Follows e.plan e.check) (start : Nat)
    (letters : Qubit → Pauli) :
    pullBack ((slotMoves es start).map Move.application) letters =
      (inSlots es).foldr Extracted.meet letters := by
  have listed : ∀ m ∈ inSlots es, m ∈ meetings es := fun m => (perm_inSlots es).mem_iff.mp
  rw [slotMoves]
  revert listed
  induction inSlots es with
  | nil => exact fun _ => rfl
  | cons m rest ih =>
    intro listed
    have here := listed m (.head _)
    obtain ⟨known, step⟩ := mem_meetings.mp here
    obtain ⟨x, mem, joins⟩ := (follows m.1 known).joins (mem_of_getElem? (mem_interactions.mp step))
    have apart := compatible.data_ne_ancilla here known
    rw [joins.data] at apart
    rw [flatMap_cons, map_append, pullBack_append,
      ih fun n inside => listed n (mem_cons_of_mem _ inside), foldr_cons,
      pullBack_meetingMoves joins (m.1.check.letter_ne_I mem) apart.symm, Extracted.meet,
      joins.data, m.1.check.letter_product mem]

/-- The gates of a round, taken tick by tick, pull back what an ancilla measures to what its check
declares. -/
theorem pullBack_inTicks (compatible : Compatible code es)
    (follows : ∀ e ∈ es, Extractor.Follows e.plan e.check)
    (balanced : es.Pairwise Balanced) {ticks : Nat} (pos : 0 < start)
    (inside : ∀ m ∈ es.flatMap (gridMoves (stride es) start), m.tick < ticks)
    {e : Extracted} (he : e ∈ es) (state : e.plan.ancillaState.basis = e.plan.basis) :
    pullBack ((inTicks ticks (es.flatMap (gridMoves (stride es) start))).map
      Move.application) e.measuredLetter = e.target := by
  have same := pullBack_perm ((perm_inTicks inside).trans (perm_slotMoves es start).symm)
    (before_inTicks ticks (pairwise_gridMoves compatible pos))
    (before_slotMoves compatible follows pos) e.measuredLetter
  rw [same, pullBack_slotMoves compatible follows]
  exact compatible.foldr_meet follows balanced he state

/-! What a session places for a round. -/

/-- Unitary gates on data qubits that were added to a session, tick by tick. -/
def couplings (code : Code) (s next : Session) : List (Gate × List Qubit) :=
  (s.store.added next.store).filter fun g => g.1.isUnitary && g.2.any code.isData

lemma DoesMoves.couplings_eq {moves : List Move} (h : s.DoesMoves moves next) (code : Code) :
    couplings code s next = (inTicks next.store.size (moves.filter fun m =>
      m.gate.isUnitary && m.qubits.any code.isData)).map Move.application := by
  obtain ⟨log, effect, rfl⟩ := h
  have added : s.store.added next.store =
      (inTicks next.store.size (Store.moves log)).map Move.application := by
    rw [Store.added, inTicks, map_flatMap]
    exact flatMap_congr fun t _ => effect.writes.addedIn_eq t
  rw [couplings, added, ← filter_inTicks, filter_map]
  rfl

/-- Moves on an ancilla alone are left out. -/
def Skips (extracted : List Extracted) (keep : Move → Bool) : Prop :=
  ∀ m : Move, ∀ e ∈ extracted, m.qubits = [e.ancilla] → keep m = false

lemma scheduleExtracted_grid (some : es ≠ []) (h : s.scheduleExtracted task es round = .ok next) :
    ∃ start moves, 0 < start ∧ s.DoesMoves moves next ∧ ∀ keep, Skips es keep →
      moves.filter keep = (es.flatMap (gridMoves (stride es) start)).filter keep := by
  obtain ⟨start, openings, closings, opened, closed, opens, closes, _, _, does⟩ :=
    scheduleExtracted_does h
  refine ⟨start, _, Nat.zero_lt_of_lt (layerStart_lt_of_opens opened some opens), does,
    fun keep skips => ?_⟩
  have prepares : (openings.flatMap fun o => openingMoves o.1 o.2).filter keep = [] := by
    rw [filter_eq_nil_iff]
    intro m mem
    obtain ⟨o, listed, mem⟩ := mem_flatMap.mp mem
    have known : o.1 ∈ es := opened ▸ mem_map_of_mem listed
    simp [skips m o.1 known (mem_openingMoves mem).1]
  have measures : ∀ c ∈ closings, (gridMoves (stride es) start c.1 ++ [c.2]).filter keep =
      (gridMoves (stride es) start c.1).filter keep := by
    intro c listed
    have known : c.1 ∈ es := closed ▸ mem_map_of_mem listed
    simp [skips c.2 c.1 known (closes c listed).qubits]
  rw [roundMoves, append_nil, filter_append, prepares, nil_append, filter_flatMap,
    flatMap_congr measures, filter_flatMap]
  nth_rewrite 3 [← closed]
  rw [flatMap_map]

lemma skips_ancillas (compatible : Compatible code es) :
    Skips es fun m => m.gate.isUnitary && m.qubits.any code.isData := by
  intro m e inside qubits
  simp [qubits, compatible.ancilla e inside]

lemma filter_gridMoves (compatible : Compatible code es) (stride start : Nat) :
    (es.flatMap (gridMoves stride start)).filter
      (fun m => m.gate.isUnitary && m.qubits.any code.isData) =
        es.flatMap (gridMoves stride start) := by
  rw [filter_eq_self]
  intro m mem
  obtain ⟨e, inside, mem⟩ := mem_flatMap.mp mem
  obtain ⟨step, known, mem⟩ := mem_flatMap.mp mem
  have unitary := (unitary_of_mem_meetingMoves (compatible.unitary e inside step known) mem).2
  have acted : step.2.data ∈ m.qubits := by
    rw [meetingMoves, mem_append, mem_cons] at mem
    rcases mem with before | rfl | after
    · simp [(mem_rotationMoves before).2.2]
    · simp only
      split_ifs
      · simp
      · simp
    · simp [(mem_rotationMoves after).2.2]
  rw [unitary, Bool.true_and, any_eq_true]
  exact ⟨_, acted, compatible.data e inside step known⟩

end Session

/-! Two checks that clash on both of their qubits. -/

namespace CrossedChecks

def upper : Qubit := ⟨[2, 0]⟩

def lower : Qubit := ⟨[2, 2]⟩

def xCheck : Check :=
  ⟨[⟨Order.northEast, upper, .positive .X⟩, ⟨Order.southEast, lower, .positive .X⟩],
    some ⟨[1, 1]⟩, some ⟨[1, 1]⟩, by decide⟩

def zCheck : Check :=
  ⟨[⟨Order.northWest, upper, .positive .Z⟩, ⟨Order.southWest, lower, .positive .Z⟩],
    some ⟨[3, 1]⟩, some ⟨[3, 1]⟩, by decide⟩

def code : Code := ⟨.ofList [upper, lower], [[xCheck, zCheck]], [[]], [], by decide⟩

/-- Controlled-X gates in the standard order. -/
def task : Task :=
  ⟨⟨.noiseless, ⟨.pureCnot, .standard⟩, {}, NoiseModel.noiseless_sound⟩, code, { layers := 1 }⟩

/-- The checks with their plans. -/
def extracted : List Extracted :=
  match task.extractRound 0 with
  | .ok extracted => extracted
  | .error _ => []

end CrossedChecks

open Extracted Session

/-- Lockstep extraction measures the declared operators. If the checks of a round are balanced, then
what an ancilla measures, pulled back through the gates that the round places on data qubits, is up
to a sign the letter of the ancilla's state and the letters of the check, and nothing else. -/
theorem Session.pullBack_couplings {task : Task} {round : Nat} {s next : Session}
    {extracted : List Extracted} (extracts : task.extractRound round = .ok extracted)
    (conflict : conflict? extracted = none)
    (placed : s.scheduleExtracted task extracted round = .ok next)
    (balanced : extracted.Pairwise Balanced) {e : Extracted} (member : e ∈ extracted) :
    pullBack (couplings task.code s next) e.measuredLetter = e.target := by
  have compatible := Task.compatible extracts conflict
  have each := (Task.extractRound_eq_ok extracts).2
  have follows : ∀ e ∈ extracted, Extractor.Follows e.plan e.check :=
    fun e inside => (each e inside).follows
  have state : e.plan.ancillaState.basis = e.plan.basis := by
    have plan := (task.compiler.extractor.plan_meets e.check).of_ok (each e member).plan
    rcases plan.2 with ⟨start, basis⟩ | ⟨start, basis⟩
    · rw [start, basis]
      rfl
    · rw [start, basis]
      rfl
  obtain ⟨start, moves, positive, does, kept⟩ :=
    scheduleExtracted_grid (List.ne_nil_of_mem member) placed
  have grid := (kept _ (skips_ancillas compatible)).trans (filter_gridMoves compatible _ start)
  rw [does.couplings_eq, grid]
  refine pullBack_inTicks compatible follows balanced positive (fun m inside => ?_) member state
  rw [← grid] at inside
  exact does.tick_lt (List.mem_of_mem_filter inside)

theorem CrossedChecks.pullBack_couplings_crossed :
    task.extractRound 0 = .ok extracted ∧ extracted.length = 2 ∧ conflict? extracted = none ∧
      extracted.Pairwise Balanced ∧
      ∃ next, ({} : Session).scheduleExtracted task extracted 0 = .ok next ∧
        ∀ e ∈ extracted, pullBack (couplings task.code {} next) e.measuredLetter = e.target := by
  have extracts : task.extractRound 0 = .ok extracted := rfl
  have conflict : conflict? extracted = none := by decide
  have balanced : extracted.Pairwise Balanced := by decide
  have placed : (({} : Session).scheduleExtracted task extracted 0).toOption.isSome = true := by
    decide +kernel
  obtain ⟨next, found⟩ := Option.isSome_iff_exists.mp placed
  have schedules := Outcome.eq_ok_of_toOption found
  exact ⟨extracts, rfl, conflict, balanced, next, schedules,
    fun e member => Session.pullBack_couplings extracts conflict schedules balanced member⟩

end SyndromeSchedule
