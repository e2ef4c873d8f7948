import SyndromeSchedule.Proofs.Entries
import SyndromeSchedule.Proofs.TwinLayers

/-!
What a session knows of its data qubits. They hold a state from the first tick on and are used by
some gate, and nothing that is noted about a qubit lies past the end of the store. Every step of a
layer keeps this.
-/

namespace SyndromeSchedule

open List Outcome

namespace Session

variable {held : Qubit → Prop} {task : Task} {s next : Session} {tick round : Nat} {q : Qubit}
  {moves : List Move}

/-- The given qubits hold a state in every tick, and notes on qubits lie within the store. -/
structure Settled (held : Qubit → Prop) (s : Session) : Prop extends s.Enclosed where
  live : ∀ {q : Qubit}, held q → ∀ t, s.occupancy.isLive t q = true
  noted : ∀ {q : Qubit}, held q → 0 < s.horizon q

lemma Settled.used (h : s.Settled held) (known : held q) : ∃ t, s.lastUse.get? q = some t := by
  have noted := h.noted known
  unfold Session.horizon at noted
  cases found : s.lastUse.get? q with
  | none => simp [found] at noted
  | some t => exact ⟨t, rfl⟩

lemma Settled.does (h : s.Settled held) (does : s.DoesMoves moves next)
    (live : ∀ {q : Qubit}, held q → ∀ t, s.occupancy.isLive t q = true →
      next.occupancy.isLive t q = true) : next.Settled held :=
  ⟨does.enclosed h.toEnclosed, fun known t => live known t (h.live known t),
    fun known => (h.noted known).trans_le (does.grows _)⟩

/-! Which steps change what holds a state. -/

lemma isLive_apply {gate : Gate} {qubits : List Qubit} {place : Place}
    (run : s.apply task tick gate qubits place = .ok next) (t : Nat) (q : Qubit) :
    next.occupancy.isLive t q = s.occupancy.isLive t q := by
  obtain ⟨_, _, run⟩ := of_bind run
  obtain ⟨_, _, rfl⟩ := of_bind_pure run
  rw [touchAll_eq]
  exact Occupancy.isLive_occupyAll ..

lemma isLive_reset (run : s.reset task tick q = .ok next) (t : Nat) (p : Qubit) :
    next.occupancy.isLive t p = if tick ≤ t ∧ p = q then true else s.occupancy.isLive t p := by
  obtain ⟨mid, applied, rfl⟩ := of_bind_pure run
  rw [← isLive_apply applied]
  exact Occupancy.isLive_setLive ..

lemma isLive_measureAncilla {e : Extracted} {start : Nat}
    (run : s.measureAncilla task e start round = .ok next) (t : Nat) (other : q ≠ e.ancilla) :
    next.occupancy.isLive t q = s.occupancy.isLive t q := by
  obtain ⟨_, _, run⟩ := of_bind run
  obtain ⟨_, _, told⟩ := of_bind run
  rw [notify_eq told, touch_eq]
  refine (Occupancy.isLive_setLive ..).trans ?_
  rw [if_neg fun both => other both.2]
  exact Occupancy.isLive_occupyAll ..

lemma isLive_scheduleDirect {c : Check} (run : scheduleDirect task round s c = .ok next) (t : Nat)
    (q : Qubit) : next.occupancy.isLive t q = s.occupancy.isLive t q := by
  obtain ⟨mid, measures, told⟩ := of_bind run
  rw [notify_eq told, touchAll_eq]
  refine (Occupancy.isLive_occupyAll ..).trans ?_
  unfold measureDirect at measures
  split at measures
  · obtain ⟨_, _, measures⟩ := of_bind measures
    obtain ⟨_, _, rfl⟩ := of_bind_pure measures
    rfl
  · obtain ⟨_, _, rfl⟩ := of_bind_pure measures
    rfl

lemma stepwise_settled (task : Task) : Stepwise task (Settled (task.code.isData · = true)) where
  apply := fun _ _ run h =>
    h.does (apply_quiet run).does fun _ t alive => (isLive_apply run t _).trans alive
  reset := fun run h => by
    refine h.does ((reset_places ..).result run).does fun _ t alive => ?_
    rw [isLive_reset run, alive, ite_self]
  ancilla := fun known run h => by
    obtain ⟨_, _, does, _⟩ := measureAncilla_does run
    refine h.does does fun {q} data t alive => (isLive_measureAncilla run t ?_).trans alive
    rintro rfl
    rw [task.code.isData_ancilla known.scheduled known.ancilla] at data
    cases data
  direct := fun run h => by
    obtain ⟨_, _, _, _, does, _⟩ := scheduleDirect_does run
    exact h.does does fun _ t alive => (isLive_scheduleDirect run t _).trans alive
  noise := fun run h => by
    refine h.does ((roundNoise_meets ..).of_ok run).does fun _ t alive => ?_
    rwa [roundNoise_eq_setStore run]

/-! Runs. -/

/-- After the initial states every data qubit holds one. -/
lemma settled_initialise (run : task.session.initialise task = .ok s) :
    s.Settled fun q => task.code.isData q = true := by
  have does := ((initialise_places ..).result run).does
  obtain ⟨mid, resets, prepares⟩ := of_bind run
  -- A reset makes its qubit hold a state, and later resets leave it so.
  have reset : ∀ (qubits : List Qubit) {s mid : Session},
      qubits.foldlM (fun (s : Session) q => s.reset task 0 q) s = .ok mid →
        ∀ t q, mid.occupancy.isLive t q = (s.occupancy.isLive t q || decide (q ∈ qubits)) := by
    intro qubits
    induction qubits with
    | nil =>
      intro s mid run
      cases run
      simp
    | cons p rest ih =>
      intro s mid run t q
      obtain ⟨after, first, others⟩ := foldlM_cons_eq_ok.mp run
      rw [ih others, isLive_reset first]
      by_cases here : q = p <;> simp [here]
  refine ⟨does.enclosed (enclosed_session task), fun {q} data t => ?_, fun {q} data => ?_⟩
  · refine foldlM_keeps (·.occupancy.isLive t q = true) ?_ prepares ?_
    · intro p _ before after alive rotates
      unfold singleIf at rotates
      split at rotates
      · exact (isLive_apply rotates t q).trans alive
      · cases rotates
        exact alive
    · rw [reset _ resets, decide_eq_true ((task.code.mem_dataQubits q).mpr data), Bool.or_true]
  · have mem : ⟨0, .R, [q], [], none⟩ ∈ initialMoves task := by
      apply mem_append_left
      exact mem_flatMap.mpr ⟨q, (task.code.mem_dataQubits q).mpr data, mem_singleton_self _⟩
    exact (Nat.zero_le _).trans_lt (does.noted mem (mem_singleton_self q))

lemma Settled.startRound (h : s.Settled held) {begun : Progress} {u : Unit} {code : Code}
    (begins : (s.progress.beginRound code round).commit = .ok (begun, u)) :
    (Session.startRound code { s with progress := begun }).Settled held := by
  obtain ⟨items, made, _⟩ := (Progress.beginRound_marks begins).notes
  have waits := h.does (does_notes made) fun _ _ => id
  exact { waits with }

lemma Settled.compileRound (h : s.Settled (task.code.isData · = true))
    (run : s.compileRound task = .ok next) : next.Settled (task.code.isData · = true) := by
  obtain ⟨begun, third, ended, begins, steps, ends, rfl⟩ := (stepwise_settled task).compileRound run
  have three := steps (h.startRound begins)
  obtain ⟨trackers, rfl⟩ := Progress.endRound_eq_ok ends
  exact { three with }

lemma Settled.between (h : s.Settled held) (pause : s.Between next) : next.Settled held := by
  cases pause with
  | start tick => exact { h with }
  | flush flushes =>
    obtain rfl := (Progress.flush_meets ..).of_ok flushes
    exact h.does (does_notes rfl) fun _ _ => id
  | mark start stop repetitions => exact { h with }

lemma Settled.compileLayer (h : s.Settled (task.code.isData · = true)) {start stop : Nat}
    (run : s.compileLayer task = .ok (next, start, stop)) :
    next.Settled (task.code.isData · = true) := by
  obtain ⟨layer, placed, _⟩ := compileLayer_stages run
  exact placed.keeps (fun run h => h.compileRound run) (fun pause h => h.between pause) h

end Session

end SyndromeSchedule
