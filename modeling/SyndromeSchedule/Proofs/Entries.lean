import SyndromeSchedule.Proofs.Rounds

/-!
What is noted of gates. A gate is noted as the last use of its qubits, and an ancilla that is
measured is free again in the next tick. The gates of a round are listed in the order in which they
are placed: ancillas are reset and prepared, led through the grid and measured one after the other.
-/

namespace SyndromeSchedule

open List Outcome

namespace Session

variable {α : Type} {m : Move} {q : Qubit} {key : Key} {e : Extracted} {start ready : Nat}
  {times : Nat × Nat} {es : List Extracted}
variable {stride : Nat}

variable {task : Task} {s mid next last : Session} {moves later : List Move} {tick round : Nat}

lemma DoesMoves.foldlM {f : Session → α → Outcome Session} {place : α → List Move} {items : List α}
    (step : ∀ a ∈ items, ∀ s next, f s a = .ok next → s.DoesMoves (place a) next)
    (run : items.foldlM f s = .ok next) : s.DoesMoves (items.flatMap place) next := by
  induction items generalizing s with
  | nil =>
    cases run
    exact .refl _
  | cons a rest ih =>
    obtain ⟨mid, first, others⟩ := foldlM_cons_eq_ok.mp run
    have more := ih (fun b inside => step b (mem_cons_of_mem a inside)) others
    exact (step a (.head _) s mid first).trans more

lemma interact_does {ancilla : Qubit} {i : Interaction}
    (run : s.interact task ancilla tick i = .ok next) :
    s.DoesMoves (meetingMoves ancilla tick i) next := by
  refine ((interact_places task s ancilla fun turns => ?_).result run).does
  obtain ⟨gate, found⟩ := Option.isSome_iff_exists.mp turns
  obtain ⟨turned, before, _⟩ := of_bind run
  rw [rotateBefore, found] at before
  obtain ⟨t, known, _⟩ := of_bind before
  cases tick with
  | zero => cases known
  | succ n => exact Nat.succ_pos n

lemma notify_eq (run : s.notify key = .ok next) :
    next = { s with progress := next.progress } := by
  obtain ⟨⟨progress, u⟩, _, rfl⟩ := of_bind_pure run
  rfl

lemma notify_does {key : Key} (h : s.notify key = .ok next) : s.DoesMoves [] next := by
  obtain ⟨⟨progress, u⟩, told, rfl⟩ := of_bind_pure h
  obtain ⟨items, made, _⟩ := (Progress.notify_marks told).notes
  exact does_notes made

lemma measureAncilla_does (run : s.measureAncilla task e start round = .ok next) :
    ∃ gate, Gate.measuring e.plan.basis = .ok gate ∧
      s.DoesMoves [s.measureMove e start round gate] next ∧
      next.ancillaFloor.get? e.ancilla = some (s.measureTick e start + 1) := by
  obtain ⟨gate, mid, measuring, measures, _, floor, told⟩ := measureAncilla_eq_ok run
  refine ⟨gate, measuring, measures.does.trans (notify_does told), ?_⟩
  rwa [notify_eq told]

lemma scheduleDirect_does {c : Check} (run : scheduleDirect task round s c = .ok next) :
    ∃ m, Directly c m ∧ m.key = some (Key.of c (Word.signed round)) ∧ m.tick = s.directTick c ∧
      s.DoesMoves [m] next ∧
      next.store.record = s.store.record.push (Key.of c (Word.signed round)) m.tick := by
  obtain ⟨mid, measures, told⟩ := of_bind run
  obtain ⟨m, directly, here, key, made, _⟩ := measureDirect_eq_ok measures
  have reported := notify_does told
  exact ⟨m, directly, key, here, made.does.trans reported, reported.record.trans (made.record key)⟩

/-! The part of an ancilla in a round. -/

lemma key_of_mem_gridMoves (mem : m ∈ gridMoves stride start e) : m.key = none := by
  obtain ⟨step, _, mem⟩ := mem_flatMap.mp mem
  have turns : ∀ {t : Nat} {gate : Option Gate} {q : Qubit}, m ∈ rotationMoves t gate q →
      m.key = none := by
    intro t gate q turned
    obtain ⟨g, _, rfl⟩ := mem_map.mp turned
    rfl
  rcases mem_append.mp mem with before | later
  · exact turns before
  · rcases mem_cons.mp later with rfl | after
    · rfl
    · exact turns after

/-- The measurement that ends the part of an ancilla: after all of its slots. -/
structure Closes (round stride start : Nat) (e : Extracted) (m : Move) : Prop where
  gate : Gate.measuring e.plan.basis = .ok m.gate
  qubits : m.qubits = [e.ancilla]
  key : m.key = some (Key.of e.check (Word.signed round))
  begun : start ≤ m.tick
  late : ∀ step ∈ e.interactions, start + step.1 * stride < m.tick

lemma gridMoves_does (run : e.interactions.foldlM
      (fun s step => s.interact task e.ancilla (start + step.1 * stride) step.2) s = .ok next) :
    s.DoesMoves (gridMoves stride start e) next :=
  DoesMoves.foldlM (fun _ _ _ _ => interact_does) run

lemma runExtracted_does (run : runExtracted task stride start round s e = .ok next) :
    ∃ m, s.DoesMoves (gridMoves stride start e ++ [m]) next ∧ Closes round stride start e m ∧
      next.ancillaFloor.get? e.ancilla = some (m.tick + 1) := by
  obtain ⟨mid, meets, measures⟩ := of_bind run
  have met := gridMoves_does meets
  obtain ⟨gate, measuring, does, floor⟩ := measureAncilla_does measures
  have after := mid.occupancy.le_earliestFree (if e.plan.steps.isEmpty then start
    else start + (e.plan.steps.length - 1) * stride + 1) [e.ancilla]
  refine ⟨_, met.trans does, ⟨measuring, rfl, rfl, ?_, fun step inside => ?_⟩, floor⟩
  · refine le_trans ?_ after
    split_ifs
    · exact le_rfl
    · omega
  · have slot : step.1 < e.plan.steps.length :=
      (lt_of_getElem? (Extracted.mem_interactions.mp inside))
    refine lt_of_lt_of_le ?_ after
    rw [if_neg (by simpa using ne_nil_of_length_pos (by omega : 0 < e.plan.steps.length))]
    have reach : step.1 * stride ≤ (e.plan.steps.length - 1) * stride :=
      Nat.mul_le_mul_right stride (by omega)
    omega

/-- Checks run on the grid one after the other. If their ancillas are different, then each of them
is free after its own measurement. -/
theorem runAll_does {items : List Extracted}
    (run : items.foldlM (runExtracted task stride start round) s = .ok next) :
    ∃ closings : List (Extracted × Move), closings.map (·.1) = items ∧
      s.DoesMoves (closings.flatMap fun c => gridMoves stride start c.1 ++ [c.2]) next ∧
      (∀ c ∈ closings, Closes round stride start c.1 c.2) ∧
      ((items.Pairwise fun e f => e.ancilla ≠ f.ancilla) →
        ∀ c ∈ closings, next.ancillaFloor.get? c.1.ancilla = some (c.2.tick + 1)) := by
  induction items generalizing s with
  | nil =>
    cases run
    exact ⟨[], rfl, .refl _, forall_mem_nil _, fun _ => forall_mem_nil _⟩
  | cons e rest ih =>
    obtain ⟨mid, first, others⟩ := foldlM_cons_eq_ok.mp run
    obtain ⟨m, does, closes, floor⟩ := runExtracted_does first
    obtain ⟨closings, listed, more, each, floors⟩ := ih others
    refine ⟨(e, m) :: closings, by rw [map_cons, listed], does.trans more,
      forall_mem_cons.mpr ⟨closes, each⟩, fun apart => ?_⟩
    obtain ⟨different, apart⟩ := pairwise_cons.mp apart
    refine forall_mem_cons.mpr ⟨?_, floors apart⟩
    -- Later checks measure other ancillas.
    rw [← floor]
    apply more.ancillaFloor
    intro n inside acted
    obtain ⟨c, known, inside⟩ := mem_flatMap.mp inside
    rcases mem_append.mp inside with grid | closing
    · exact key_of_mem_gridMoves grid
    · obtain rfl := mem_singleton.mp closing
      rw [(each c known).qubits] at acted
      have listed : c.1 ∈ rest := listed ▸ mem_map_of_mem known
      exact absurd (mem_singleton.mp acted) (different c.1 listed)

/-- The gates of a round. -/
def roundMoves (extracted : List Extracted) (start : Nat)
    (openings : List (Extracted × Nat × Nat)) (closings : List (Extracted × Move))
    (reads : List Move) : List Move :=
  openings.flatMap (fun o => openingMoves o.1 o.2) ++
    closings.flatMap (fun c => gridMoves (Extracted.stride extracted) start c.1 ++ [c.2]) ++ reads

/-- A gate of a round opens the part of an ancilla, belongs to the grid, closes the part of an
ancilla, or measures a check without one. -/
lemma mem_roundMoves {openings : List (Extracted × Nat × Nat)} {closings : List (Extracted × Move)}
    {reads : List Move} : m ∈ roundMoves es start openings closings reads ↔
      (∃ o ∈ openings, m ∈ openingMoves o.1 o.2) ∨
      (∃ c ∈ closings, m ∈ gridMoves (Extracted.stride es) start c.1 ∨ m = c.2) ∨ m ∈ reads := by
  simp only [roundMoves, mem_append, mem_flatMap, mem_singleton, or_assoc]

/-- The moves of checks with ancillas: each has its reset, its grid and its measurement. -/
lemma scheduleExtracted_does (run : s.scheduleExtracted task es round = .ok next) :
    ∃ start openings closings, openings.map (·.1) = es ∧ closings.map (·.1) = es ∧
      (∀ o ∈ openings, Opens o.1 (s.resetTick o.1) start o.2) ∧
      (∀ c ∈ closings, Closes round (Extracted.stride es) start c.1 c.2) ∧
      ((es.Pairwise fun e f => e.ancilla ≠ f.ancilla) →
        ∀ c ∈ closings, next.ancillaFloor.get? c.1.ancilla = some (c.2.tick + 1)) ∧
      (∀ e ∈ es, ∀ step ∈ e.interactions,
        ((s.dataFloor.get? step.2.data).getD 0 + if step.2.before.isSome then 1 else 0) ≤
          start + step.1 * Extracted.stride es) ∧
      s.DoesMoves (roundMoves es start openings closings []) next := by
  unfold scheduleExtracted at run
  split_ifs at run with empty
  · cases run
    obtain rfl := isEmpty_iff.mp empty
    have nothing : ∀ {α : Type} {P : α → Prop}, ∀ a ∈ ([] : List α), P a := forall_mem_nil _
    exact ⟨0, [], [], rfl, rfl, nothing, nothing, fun _ => nothing, nothing, .refl _⟩
  obtain ⟨⟨mid, ready⟩, prepares, run⟩ := of_bind run
  obtain ⟨start, found, run⟩ := of_bind run
  obtain ⟨_, openings, opened, first, opens, _⟩ := prepareAll_opens prepares
  obtain ⟨closings, closed, second, closes, floors⟩ := runAll_does run
  have reached := (gridStart_eq_ok found).1
  refine ⟨start, openings, closings, opened, closed, fun o mem => ?_, closes, floors,
    fun e mem step inside => ?_, ?_⟩
  · exact (opens o mem).mono ((le_foldl_max _ _ ready).trans reached)
  · have listed : step ∈ es.flatMap (·.interactions) := mem_flatMap.mpr ⟨e, mem, inside⟩
    have needed := mem_le_foldl_max (f := fun step : Nat × Interaction =>
      mid.startFor (Extracted.stride es) step.1 step.2) listed ready
    have enough := needed.trans reached
    simp only [startFor, first.does.dataFloor] at enough
    omega
  · simpa [roundMoves] using first.does.trans second

lemma scheduleDirects_does {checks : List Check}
    (run : checks.foldlM (scheduleDirect task round) s = .ok next) :
    ∃ reads, s.DoesMoves reads next ∧ ∀ m ∈ reads, s.layerStart ≤ m.tick ∧ ∃ c ∈ checks,
      Directly c m ∧ m.key = some (Key.of c (Word.signed round)) ∧
        ∀ q ∈ c.qubits, (s.dataFloor.get? q).getD 0 ≤ m.tick := by
  induction checks generalizing s with
  | nil =>
    cases run
    exact ⟨[], .refl _, forall_mem_nil _⟩
  | cons c rest ih =>
    obtain ⟨mid, first, others⟩ := foldlM_cons_eq_ok.mp run
    obtain ⟨m, directly, key, here, does, _⟩ := scheduleDirect_does first
    obtain ⟨reads, more, each⟩ := ih others
    refine ⟨m :: reads, does.trans more, ?_⟩
    intro n mem
    rcases mem_cons.mp mem with rfl | mem
    · rw [here]
      refine ⟨s.layerStart_le_directTick c, c, .head _, directly, key, fun q acted => ?_⟩
      refine le_trans ?_ (s.occupancy.le_earliestFree _ _)
      rw [foldl_map]
      exact mem_le_foldl_max (f := fun q => (s.dataFloor.get? q).getD 0) acted s.layerStart
    · rw [← does.layerStart, ← does.dataFloor]
      obtain ⟨late, d, inside, others⟩ := each n mem
      exact ⟨late, d, mem_cons_of_mem c inside, others⟩

end Session

end SyndromeSchedule
