import SyndromeSchedule.Proofs.Store

/-!
Runs of writes. What stands in a tick after a run is what stood there before, followed by what the
run wrote into it; what is on record is what its gates filed; and every outcome on record was
measured by one gate of its tick.
-/

namespace SyndromeSchedule

open List

namespace Store

variable {s : Store}

/-- One store is reached from another by numbering qubits and by writes. -/
inductive Writes (s : Store) : List Write → Store → Prop where
  | refl : Writes s [] s
  | number {log : List Write} {next : Store} (longer : Numbering) (h : Writes s log next)
      (longer_of : next.qubits <+: longer.qubits) : Writes s log { next with numbering := longer }
  | put {log : List Write} {next : Store} (w : Write) (h : Writes s log next)
      (named : w.Named next.qubits) : Writes s (log ++ [w]) (next.put w)

namespace Writes

variable {s next last : Store} {log later : List Write}

section

variable (h : Writes s log next)

include h

lemma trans (h' : Writes next later last) :
    Writes s (log ++ later) last := by
  induction h' with
  | refl => simpa using h
  | number longer _ longer_of ih => exact ih.number longer longer_of
  | put w _ named ih =>
    rw [← append_assoc]
    exact ih.put w named

lemma numbering : s.qubits <+: next.qubits := by
  induction h with
  | refl => exact prefix_rfl
  | number _ _ longer_of ih => exact ih.trans longer_of
  | put _ _ _ ih => exact ih

lemma region : next.region = s.region := by
  induction h with
  | refl => rfl
  | number _ _ _ ih => exact ih
  | put _ _ _ ih => exact ih

lemma named : ∀ w ∈ log, w.Named next.qubits := by
  induction h with
  | refl => simp
  | number longer _ longer_of ih => exact fun w mem => (ih w mem).mono longer_of
  | put w _ named ih =>
    intro v mem
    rcases mem_append.mp mem with old | new
    · exact ih v old
    · rwa [mem_singleton.mp new]

lemma size_le : s.size ≤ next.size := by
  induction h with
  | refl => exact le_rfl
  | number _ _ _ ih => exact ih
  | put w _ _ ih =>
    rw [size_put]
    omega

lemma tick_lt : ∀ w ∈ log, w.tick < next.size := by
  induction h with
  | refl => simp
  | number _ _ _ ih => exact ih
  | put w _ _ ih =>
    intro v mem
    rw [size_put]
    rcases mem_append.mp mem with old | new
    · have := ih v old
      omega
    · rw [mem_singleton.mp new]
      omega

lemma busy {t n : Nat} (taken : n ∈ (next.tickAt t).busy) :
    n ∈ (s.tickAt t).busy ∨ ∃ u, Write.gate u ∈ log ∧ u.tick = t ∧ n ∈ u.target.indices := by
  induction h with
  | refl => exact .inl taken
  | number _ _ _ ih => exact ih taken
  | @put log mid w _ _ ih =>
    have widen : (n ∈ (s.tickAt t).busy ∨
          ∃ u, Write.gate u ∈ log ∧ u.tick = t ∧ n ∈ u.target.indices) →
        n ∈ (s.tickAt t).busy ∨
          ∃ u, Write.gate u ∈ log ++ [w] ∧ u.tick = t ∧ n ∈ u.target.indices := by
      rintro (old | ⟨u, mem, rest⟩)
      · exact .inl old
      · exact .inr ⟨u, mem_append_left _ mem, rest⟩
    rw [tickAt_put] at taken
    split_ifs at taken with here
    · cases w with
      | gate u =>
        rcases (mem_takeUp _ _ _).mp taken with old | new
        · exact widen (ih old)
        · exact .inr ⟨u, by simp, here, new⟩
      | noise _ placement _ =>
        cases placement with
        | before | after => exact widen (ih taken)
      | note _ _ => exact widen (ih taken)
    · exact widen (ih taken)

end

end Writes

lemma writes_number (s : Store) (qubits : List Qubit) : Writes s [] (s.indexAll qubits).1 := by
  rw [indexAll_eq]
  exact Writes.refl.number _ (indexAll_numbering qubits s).1

lemma writes_gate (s : Store) (tick : Nat) (gate : Gate) (qubits : List Qubit) :
    Writes s [.gate (s.gateUse tick gate qubits)]
      ((s.indexAll qubits).1.put (.gate (s.gateUse tick gate qubits))) :=
  (s.writes_number qubits).put _ (indexAll_numbering qubits s).2

lemma writes_measurement (s : Store) (tick : Nat) (gate : Gate) (q : Qubit)
    (flip : Option Double) (key : Key) :
    Writes s [.gate (s.measureUse tick gate q flip key)]
      ((s.index q).1.put (.gate (s.measureUse tick gate q flip key))) :=
  (s.writes_number [q]).put _ (indexAll_numbering [q] s).2

lemma writes_product (s : Store) (tick : Nat) (factors : List (Qubit × Pauli))
    (flip : Option Double) (key : Key) :
    Writes s [.gate (s.productUse tick factors flip key)]
      ((s.indexAll (factors.map (·.1))).1.put (.gate (s.productUse tick factors flip key))) := by
  refine (s.writes_number _).put _ ?_
  have names := (indexAll_numbering (factors.map (·.1)) s).2
  have length : (s.indexAll (factors.map (·.1))).2.length = (factors.map (·.2)).length := by
    rw [names.length_eq]
    simp
  simp only [Write.Named, productUse, GateTarget.indices]
  rwa [map_snd_zip (by omega)]

/-! What is found after a run. -/

/-- Gates of a log. -/
def uses (log : List Write) : List Use :=
  log.filterMap fun
    | .gate u => some u
    | _ => none

/-- Annotations of a log with their ticks. -/
def notes (log : List Write) : List (Nat × Note) :=
  log.filterMap fun
    | .note t n => some (t, n)
    | _ => none

@[simp] lemma uses_append (log later : List Write) : uses (log ++ later) = uses log ++ uses later :=
  filterMap_append ..

@[simp] lemma notes_append (log later : List Write) :
    notes (log ++ later) = notes log ++ notes later :=
  filterMap_append ..

lemma mem_uses {log : List Write} {u : Use} : u ∈ uses log ↔ Write.gate u ∈ log := by
  simp only [uses, mem_filterMap]
  constructor
  · rintro ⟨w, mem, found⟩
    cases w with
    | gate v =>
      obtain rfl := Option.some.inj found
      exact mem
    | noise _ _ _ | note _ _ => cases found
  · intro mem
    exact ⟨_, mem, rfl⟩

lemma gates_put (s : Store) (w : Write) (t : Nat) :
    ((s.put w).tickAt t).gates = (s.tickAt t).gates ++
      ((uses [w]).filter (·.tick = t)).map (·.op s.record.size) := by
  rw [tickAt_put]
  cases w with
  | gate u =>
    split_ifs with here
    · have same : u.tick = t := here
      simp [Write.change, putGate, uses, same]
    · have other : ¬ u.tick = t := here
      simp [uses, other]
  | noise _ placement _ =>
    split_ifs with here
    · cases placement <;> simp [Write.change, putNoise, uses]
    · simp [uses]
  | note _ _ =>
    split_ifs with here
    · simp [Write.change, uses]
    · simp [uses]

lemma entry?_put {w : Write} {handle : Nat} {e : Key × Nat} :
    Record.entry? (s.put w).record handle = some e ↔ s.record.entry? handle = some e ∨
        ∃ u key, w = .gate u ∧ u.key = some key ∧ handle = s.record.size ∧ e = (key, u.tick) := by
  have fresh : s.record.entry? s.record.size ≠ some e :=
    fun found => absurd (Record.lt_size found) (Nat.lt_irrefl _)
  cases w with
  | gate u =>
    cases filed : u.key with
    | none => simp [Write.file, filed]
    | some key =>
      simp only [record_put, Write.file, filed, Record.entry?_push]
      by_cases last : handle = s.record.size
      · subst last
        simp [fresh, filed, eq_comm]
      · simp [last]
  | noise _ _ _ | note _ _ => simp [Write.file]

namespace Writes

variable {s next last : Store} {log later : List Write}

variable (h : Writes s log next)
include h

lemma notes_eq (t : Nat) :
    (next.tickAt t).notes = (s.tickAt t).notes ++ ((notes log).filter (·.1 = t)).map (·.2) := by
  induction h with
  | refl => simp [notes]
  | number _ _ _ ih => exact ih
  | @put log mid w _ _ ih =>
    rw [tickAt_put, notes_append, filter_append, map_append, ← append_assoc, ← ih]
    split_ifs with here
    · cases w with
      | gate u => simp [Write.change, putGate, notes]
      | noise _ placement _ =>
        cases placement with
        | before | after => simp [Write.change, putNoise, notes]
      | note t' n =>
        have same : t' = t := here
        simp [Write.change, notes, same]
    · cases w with
      | gate u | noise _ _ _ => simp [notes]
      | note t' n =>
        have other : ¬ t' = t := here
        simp [notes, other]

lemma record_eq : next.record.entries =
      ((uses log).filterMap fun u => u.key.map fun key => (key, u.tick)).reverse ++
        s.record.entries := by
  induction h with
  | refl => simp [uses]
  | number _ _ _ ih => exact ih
  | @put log mid w _ _ ih =>
    rw [record_put, uses_append, filterMap_append, reverse_append, append_assoc, ← ih]
    cases w with
    | gate u =>
      cases filed : u.key with
      | none | some key => simp [Write.file, uses, filed]
    | noise _ _ _ | note _ _ => simp [Write.file, uses]

lemma entry?_mono {handle : Nat} {e : Key × Nat} (found : s.record.entry? handle = some e) :
    next.record.entry? handle = some e := by
  induction h with
  | refl => exact found
  | number _ _ _ ih => exact ih
  | put w _ _ ih => exact entry?_put.mpr (.inl ih)

lemma use_of_fresh {handle t : Nat} {key : Key} (found : next.record.entry? handle = some (key, t))
    (fresh : s.record.entry? handle = none) : ∃ u ∈ uses log, u.tick = t := by
  induction h with
  | refl =>
    rw [fresh] at found
    contradiction
  | number _ _ _ ih => exact ih found
  | put w _ _ ih =>
    rw [uses_append]
    rcases entry?_put.mp found with old | ⟨u, _, rfl, _, _, same⟩
    · obtain ⟨u, used, here⟩ := ih old
      exact ⟨u, mem_append_left _ used, here⟩
    · exact ⟨u, by simp [uses], (Prod.mk.inj same).2.symm⟩

lemma gates_eq (t : Nat) :
    (next.tickAt t).gates.map (fun op => (op.gate, op.flip, op.target)) =
      (s.tickAt t).gates.map (fun op => (op.gate, op.flip, op.target)) ++
        ((uses log).filter (·.tick = t)).map fun u => (u.gate, u.flip, u.target) := by
  induction h with
  | refl => simp [uses]
  | number _ _ _ ih => exact ih
  | put w _ _ ih =>
    rw [gates_put, map_append, ih, uses_append, filter_append, map_append, map_map, append_assoc]
    rfl

end Writes

lemma mem_gates_put {w : Write} {t : Nat} {op : GateOp} : op ∈ ((s.put w).tickAt t).gates ↔
      op ∈ (s.tickAt t).gates ∨ ∃ u, w = .gate u ∧ u.tick = t ∧ op = u.op s.record.size := by
  rw [gates_put, mem_append]
  refine or_congr_right ?_
  simp only [mem_map, mem_filter, mem_uses, mem_singleton, decide_eq_true_eq]
  constructor
  · rintro ⟨u, ⟨same, here⟩, rfl⟩
    exact ⟨u, same.symm, here, rfl⟩
  · rintro ⟨u, same, here, rfl⟩
    exact ⟨u, ⟨same.symm, here⟩, rfl⟩

lemma Writes.tickAt_of_untouched {next : Store} {log : List Write} (h : Writes s log next)
    {t : Nat} (untouched : ∀ w ∈ log, w.tick ≠ t) : next.tickAt t = s.tickAt t := by
  induction h with
  | refl => rfl
  | number _ _ _ ih => exact ih untouched
  | put w _ _ ih =>
    obtain ⟨before, last⟩ := forall_mem_append.mp untouched
    rw [tickAt_put, if_neg (last w (mem_singleton_self w))]
    exact ih before

lemma Writes.gates_of_untouched {next : Store} {log : List Write} (h : Writes s log next)
    {t : Nat} (untouched : ∀ u ∈ uses log, u.tick ≠ t) :
    (next.tickAt t).gates = (s.tickAt t).gates := by
  induction h with
  | refl => rfl
  | number longer _ _ ih => exact ih untouched
  | put w _ _ ih =>
    simp only [uses_append, mem_append] at untouched
    have none : (uses [w]).filter (·.tick = t) = [] := by
      rw [filter_eq_nil_iff]
      intro u mem
      simpa using untouched u (.inr mem)
    rw [gates_put, none, map_nil, append_nil]
    exact ih fun u mem => untouched u (.inl mem)

namespace Writes

variable {s : Store} {log : List Write} {t : Nat}

variable (h : Writes {} log s)
include h

lemma performed {handle : Nat} {key : Key} (found : s.record.entry? handle = some (key, t)) :
    ∃ u ∈ uses log, u.key = some key ∧ u.tick = t ∧ u.op handle ∈ (s.tickAt t).gates := by
  induction h with
  | refl => cases found
  | number _ _ _ ih => exact ih found
  | @put log mid w _ _ ih =>
    rcases entry?_put.mp found with old | ⟨u, key', rfl, filed, rfl, same⟩
    · obtain ⟨u, mem, rest, here, present⟩ := ih old
      exact ⟨u, by simp [mem], rest, here, mem_gates_put.mpr (.inl present)⟩
    · obtain ⟨rfl, rfl⟩ := Prod.mk.inj same
      exact ⟨u, by simp [uses], filed, rfl, mem_gates_put.mpr (.inr ⟨u, rfl, rfl, rfl⟩)⟩

/-- Every gate in a tick comes from the log, and its handle leads to what it files. -/
theorem gate_of_mem {op : GateOp} (mem : op ∈ (s.tickAt t).gates) :
    ∃ u ∈ uses log, ∃ handle, u.tick = t ∧ op = u.op handle ∧
      ∀ key, u.key = some key → s.record.entry? handle = some (key, t) := by
  induction h with
  | refl => simp [tickAt] at mem
  | number _ _ _ ih => exact ih mem
  | @put log mid w _ _ ih =>
    rcases mem_gates_put.mp mem with old | ⟨u, rfl, here, rfl⟩
    · obtain ⟨u, known, handle, here, same, filed⟩ := ih old
      refine ⟨u, by simp [known], handle, here, same, ?_⟩
      intro key files
      exact entry?_put.mpr (.inl (filed key files))
    · refine ⟨u, by simp [uses], mid.record.size, here, rfl, ?_⟩
      intro key files
      exact entry?_put.mpr (.inr ⟨u, key, rfl, files, rfl, by rw [here]⟩)

lemma entry?_of_handle {handle : Nat} {op : GateOp} (mem : op ∈ (s.tickAt t).gates)
    (has : op.handle = some handle) : ∃ key, s.record.entry? handle = some (key, t) := by
  obtain ⟨u, _, n, _, rfl, filed⟩ := h.gate_of_mem mem
  simp only [Use.op, Option.map_eq_some_iff] at has
  obtain ⟨key, files, rfl⟩ := has
  exact ⟨key, filed key files⟩

lemma handles_nodup (t : Nat) : ((s.tickAt t).gates.filterMap (·.handle)).Nodup := by
  induction h with
  | refl => simp [tickAt]
  | number _ _ _ ih => exact ih
  | @put log mid w before _ ih =>
    rw [gates_put, filterMap_append, nodup_append]
    refine ⟨ih, ?_, ?_⟩
    · cases w with
      | gate u =>
        by_cases here : u.tick = t
        · cases filed : u.key with
          | none | some key => simp [uses, here, Use.op, filed]
        · simp [uses, here]
      | noise _ _ _ | note _ _ => simp [uses]
    · intro old known new made same
      subst same
      obtain ⟨op, mem, has⟩ := mem_filterMap.mp known
      obtain ⟨key, entry⟩ := before.entry?_of_handle mem has
      have inside := Record.lt_size entry
      obtain ⟨op', member', has'⟩ := mem_filterMap.mp made
      obtain ⟨u, _, rfl⟩ := mem_map.mp member'
      simp only [Use.op, Option.map_eq_some_iff] at has'
      obtain ⟨_, _, rfl⟩ := has'
      omega

end Writes

/-! Annotations alone. -/

/-- A store after some annotations, each in its tick. -/
def withNotes (s : Store) (items : List (Nat × Note)) : Store :=
  items.foldl (fun s e => s.put (.note e.1 e.2)) s

def noteLog (items : List (Nat × Note)) : List Write := items.map fun e => .note e.1 e.2

variable (s : Store) (items : List (Nat × Note))

@[simp] lemma uses_noteLog : uses (noteLog items) = [] := by
  simp [uses, noteLog]

@[simp] lemma notes_noteLog : notes (noteLog items) = items := by
  simp [notes, noteLog]

lemma withNotes_append (more : List (Nat × Note)) :
    s.withNotes (items ++ more) = (s.withNotes items).withNotes more := foldl_append ..

lemma writes_withNotes : Writes s (noteLog items) (s.withNotes items) := by
  induction items generalizing s with
  | nil => exact .refl
  | cons e rest ih => exact (Writes.refl.put (.note e.1 e.2) trivial).trans (ih _)

@[simp] lemma record_withNotes : (s.withNotes items).record = s.record := by
  induction items generalizing s with
  | nil => rfl
  | cons e rest ih => exact ih _

lemma tickAt_withNotes (t : Nat) : (s.withNotes items).tickAt t = { s.tickAt t with
      notes := (s.tickAt t).notes ++ (items.filter (·.1 = t)).map (·.2) } := by
  induction items generalizing s with
  | nil => simp [withNotes]
  | cons e rest ih =>
    have here := ih (s.put (.note e.1 e.2))
    rw [tickAt_put] at here
    refine here.trans ?_
    by_cases same : e.1 = t
    · simp [Write.tick, Write.change, same]
    · simp [Write.tick, same]

lemma size_withNotes (inside : ∀ e ∈ items, e.1 < s.size) : (s.withNotes items).size = s.size := by
  induction items generalizing s with
  | nil => rfl
  | cons e rest ih =>
    obtain ⟨first, others⟩ := forall_mem_cons.mp inside
    have same : (s.put (.note e.1 e.2)).size = s.size := by
      rw [size_put]
      exact max_eq_left first
    rw [← same] at others
    exact (ih _ others).trans same

lemma notes_withNotes (t : Nat) : ((s.withNotes items).tickAt t).notes =
    (s.tickAt t).notes ++ (items.filter (·.1 = t)).map (·.2) := by
  rw [tickAt_withNotes]

end Store

end SyndromeSchedule
