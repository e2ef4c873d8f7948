import SyndromeSchedule.Proofs.Emission
import SyndromeSchedule.Proofs.Observables
import SyndromeSchedule.Proofs.Session

/-!
Accounts of a store: the log that made it, the checks whose outcomes were filed, in order, and the
outcomes of its detectors. Whatever a compilation writes extends the account, and a store with an
account is sound, so it is emitted.
-/

namespace SyndromeSchedule

open List

def Note.isDetector : Note → Bool
  | .detector _ => true
  | .observable _ _ => false

/-- How a check is measured: through its ancilla, or on its qubits. -/
def Check.MeasuredBy (c : Check) (m : Move) : Prop :=
  match c.ancilla with
  | some a => m.qubits = [a] ∧ m.letters = [] ∧ ∃ basis, Gate.measuring basis = .ok m.gate
  | none => Session.Directly c m

/-- A gate measures and has a target exactly if it files an outcome. -/
def Use.Lawful (u : Use) : Prop :=
  u.gate.isMeasurement = u.key.isSome ∧
    (u.key.isSome = true → ∃ target, Store.measured u.target = .ok target)

/-- A gate that measures a check and files its outcome under the round. -/
def Use.Files (made : Check × Nat) (u : Use) : Prop :=
  u.key = some (Key.of made.1 (Word.signed made.2)) ∧ made.1.MeasuredBy u.move

/-- A detector of the outcomes of some keys, in the tick of the latest. -/
def Record.Refers (r : Record) (keys : List Key) (e : Nat × Note) : Prop :=
  ∃ handles, e.2 = .detector handles ∧
    Forall₂ (fun key h => ∃ t, r.entry? h = some (key, t)) keys handles ∧
    r.Latest handles e.1

/-- An annotation stands after the outcomes it refers to. -/
def Record.Dates (r : Record) (e : Nat × Note) : Prop :=
  ∀ h ∈ e.2.handles, ∃ key t, r.entry? h = some (key, t) ∧ t ≤ e.1

/-- Everything on record stays on a later record, under the same handle. -/
def Record.Within (r later : Record) : Prop :=
  ∀ {h : Nat} {e : Key × Nat}, r.entry? h = some e → later.entry? h = some e

lemma Record.Within.size_le {r later : Record} (within : r.Within later) : r.size ≤ later.size := by
  by_contra larger
  obtain ⟨_, _, found⟩ := Record.exists_entry (Nat.lt_of_not_le larger)
  exact absurd (Record.lt_size (within found)) (Nat.lt_irrefl _)

lemma Tracker.Valid.mono {r later : Record} (within : r.Within later) {t : Tracker}
    (valid : t.Valid r) : t.Valid later :=
  fun h mem => (valid h mem).trans_le within.size_le

namespace Record

variable {r later : Record}
variable {keys : List Key} {e : Nat × Note}

lemma Latest.mono (within : r.Within later) {handles : List Nat} {tick : Nat}
    (h : r.Latest handles tick) : later.Latest handles tick where
  after := by
    intro handle mem
    obtain ⟨key, t, entry, before⟩ := h.after handle mem
    exact ⟨key, t, within entry, before⟩
  attained := by
    refine h.attained.imp id ?_
    rintro ⟨handle, mem, key, entry⟩
    exact ⟨handle, mem, key, within entry⟩

lemma Refers.mono (within : r.Within later) (h : r.Refers keys e) : later.Refers keys e := by
  obtain ⟨handles, same, entries, latest⟩ := h
  refine ⟨handles, same, entries.imp ?_, latest.mono within⟩
  rintro key handle ⟨t, entry⟩
  exact ⟨t, within entry⟩

lemma Dates.mono (within : r.Within later) (h : r.Dates e) : later.Dates e := by
  intro handle mem
  obtain ⟨key, t, entry, before⟩ := h handle mem
  exact ⟨key, t, within entry, before⟩

lemma Refers.dates (h : r.Refers keys e) : r.Dates e := by
  obtain ⟨handles, same, _, latest⟩ := h
  intro handle mem
  rw [same] at mem
  exact latest.after handle mem

lemma Latest.le_of_entry {handles : List Nat} {tick handle t : Nat} {key : Key}
    (h : r.Latest handles tick) (mem : handle ∈ handles)
    (entry : r.entry? handle = some (key, t)) : t ≤ tick := by
  obtain ⟨_, _, same, le⟩ := h.after handle mem
  rw [entry] at same
  cases same
  exact le

lemma Refers.attained (h : r.Refers keys e) (some_key : keys ≠ []) :
    (∃ key ∈ keys, ∃ handle, r.entry? handle = some (key, e.1)) ∧
      ∀ key ∈ keys, ∃ handle t, r.entry? handle = some (key, t) ∧ t ≤ e.1 := by
  obtain ⟨handles, _, entries, latest⟩ := h
  refine ⟨?_, ?_⟩
  · rcases latest.attained with ⟨rfl, _⟩ | ⟨handle, mem, key, entry⟩
    · cases entries
      contradiction
    · obtain ⟨key', inside, t, entry'⟩ := exists_left_of_forall₂ entries mem
      rw [entry] at entry'
      cases entry'
      exact ⟨key, inside, handle, entry⟩
  · intro key inside
    obtain ⟨handle, mem, t, entry⟩ := exists_right_of_forall₂ entries inside
    exact ⟨handle, t, entry, latest.le_of_entry mem entry⟩

lemma refers_of_notes (h : Progress.Notes r keys e) : r.Refers keys e := by
  obtain ⟨handles, same, found, latest⟩ := h
  exact ⟨handles, same, found.imp fun _ _ here => entry?_of_handle? here, latest⟩

lemma Latest.refers {handles : List Nat} {tick : Nat} (h : r.Latest handles tick) :
    ∃ keys, r.Refers keys (tick, .detector handles) := by
  obtain ⟨keys, found⟩ : ∃ keys, Forall₂ (fun key x => ∃ t, r.entry? x = some (key, t)) keys
      handles := by
    refine exists_forall₂ fun x mem => ?_
    obtain ⟨key, t, entry, _⟩ := h.after x mem
    exact ⟨key, t, entry⟩
  exact ⟨keys, handles, rfl, found, h⟩

end Record

namespace Store

variable {s next : Store} {log : List Write} {made : List (Check × Nat)} {keys : List (List Key)}
  {more : List (Check × Nat)} {new : List (List Key)}

def unmarked (s : Store) : Store := { s with region := none }

lemma Writes.unmarked (h : Writes s log next) : Writes s.unmarked log next.unmarked := by
  induction h with
  | refl => exact .refl
  | number longer _ longer_of ih => exact ih.number longer longer_of
  | put w _ named ih => exact ih.put w named

lemma Writes.within (h : Writes s log next) : s.record.Within next.record := h.entry?_mono

/-- Gates of a log that file an outcome. -/
def outcomes (log : List Write) : List Use := (uses log).filter (·.key.isSome)

@[simp] lemma outcomes_append (log later : List Write) :
    outcomes (log ++ later) = outcomes log ++ outcomes later := by
  simp [outcomes]

/-- Detectors of a log, with their ticks. -/
def detectors (log : List Write) : List (Nat × Note) := (notes log).filter (·.2.isDetector)

@[simp] lemma detectors_append (log later : List Write) :
    detectors (log ++ later) = detectors log ++ detectors later := by
  simp [detectors]

lemma detectors_of_notes (h : notes log = []) : detectors log = [] := by
  simp [detectors, h]

lemma Writes.record_of_outcomes (h : Writes s log next) (none : outcomes log = []) :
    next.record = s.record := by
  have entries := h.record_eq
  have unfiled : ((uses log).filterMap fun u => u.key.map fun key => (key, u.tick)) = [] := by
    rw [filterMap_eq_nil_iff]
    intro u mem
    have no_key := (filter_eq_nil_iff.mp none) u mem
    cases key : u.key with
    | none => rfl
    | some k => simp [key] at no_key
  rw [unfiled] at entries
  exact Record.ext_entries (by simpa using entries)

/-- What a piece of a log adds: outcomes of checks, detectors of keys, and annotations that look
back. -/
structure Adds (made : List (Check × Nat)) (keys : List (List Key)) (log : List Write)
    (record : Record) : Prop where
  lawful : ∀ u ∈ uses log, u.Lawful
  made : Forall₂ Use.Files made (outcomes log)
  detectors : Forall₂ record.Refers keys (detectors log)
  dated : ∀ e ∈ notes log, record.Dates e

lemma Adds.nil (record : Record) : Adds [] [] [] record where
  lawful := by simp [uses]
  made := .nil
  detectors := .nil
  dated := by simp [notes]

/-- Detectors alone add what they refer to. -/
lemma Adds.refer {items : List (Nat × Note)} {r : Record} (refers : Forall₂ r.Refers keys items) :
    Adds [] keys (noteLog items) r where
  lawful := by simp
  made := by simp [outcomes]
  detectors := by
    have all : items.filter (·.2.isDetector) = items := by
      rw [filter_eq_self]
      intro e mem
      obtain ⟨_, _, handles, same, _⟩ := exists_left_of_forall₂ refers mem
      rw [same]
      rfl
    rwa [Store.detectors, notes_noteLog, all]
  dated := by
    intro e mem
    rw [notes_noteLog] at mem
    obtain ⟨_, _, refer⟩ := exists_left_of_forall₂ refers mem
    exact refer.dates

lemma Adds.append {later : List Write}
    {r next : Record} (h : Adds made keys log r) (h' : Adds more new later next)
    (within : r.Within next) :
    Adds (made ++ more) (keys ++ new) (log ++ later) next where
  lawful := by
    intro u mem
    rw [uses_append] at mem
    rcases mem_append.mp mem with old | recent
    · exact h.lawful u old
    · exact h'.lawful u recent
  made := by
    rw [outcomes_append]
    exact rel_append h.made h'.made
  detectors := by
    rw [detectors_append]
    exact rel_append (h.detectors.imp fun _ _ refers => refers.mono within) h'.detectors
  dated := by
    intro e mem
    rw [notes_append] at mem
    rcases mem_append.mp mem with old | recent
    · exact (h.dated e old).mono within
    · exact h'.dated e recent

/-- The log of a store, with the checks it measures and the keys of its detectors. -/
def Account (made : List (Check × Nat)) (keys : List (List Key)) (s : Store) : Prop :=
  ∃ log, Writes {} log s.unmarked ∧ Adds made keys log s.record

variable (h : Account made keys s)
include h

lemma Account.extend (writes : Writes s log next) (adds : Adds more new log next.record) :
    Account (made ++ more) (keys ++ new) next := by
  obtain ⟨old, before, accounts⟩ := h
  exact ⟨old ++ log, before.trans writes.unmarked, accounts.append adds writes.within⟩

lemma Account.annotate {items : List (Nat × Note)} (adds : Adds [] new (noteLog items) s.record) :
    Account made (keys ++ new) (s.withNotes items) := by
  rw [← record_withNotes s items] at adds
  have longer := h.extend (s.writes_withNotes items) adds
  rwa [append_nil] at longer

lemma Account.sound : s.Sound := by
  obtain ⟨log, writes, adds⟩ := h
  refine ⟨?_, ?_, writes.handles_nodup, ?_, ?_⟩
  · intro t op handle mem has
    exact writes.entry?_of_handle mem has
  · intro handle t key entry
    obtain ⟨u, _, files, _, placed⟩ := writes.performed entry
    exact ⟨u.op handle, placed, by simp [Use.op, files]⟩
  · intro t op mem
    obtain ⟨u, used, handle, _, rfl, _⟩ := writes.gate_of_mem mem
    obtain ⟨measures, target⟩ := adds.lawful u used
    refine ⟨?_, ?_⟩
    · simp [Use.op, measures]
    · intro measuring
      exact target (measures.symm.trans measuring)
  · intro t note mem
    have noted := writes.notes_eq t
    have listed : note ∈ ((notes log).filter (·.1 = t)).map (·.2) := by
      have here : note ∈ (s.unmarked.tickAt t).notes := mem
      rw [noted] at here
      simpa [tickAt] using here
    obtain ⟨e, filtered, rfl⟩ := mem_map.mp listed
    obtain ⟨inside, here⟩ := mem_filter.mp filtered
    have date := adds.dated e inside
    rwa [Record.Dates, of_decide_eq_true here] at date

omit h in
lemma filterMap_key_of_files {us : List Use} (h : Forall₂ Use.Files made us) :
    us.filterMap (·.key) = made.map fun e => Key.of e.1 (Word.signed e.2) := by
  induction h with
  | nil => rfl
  | cons files _ ih => rw [filterMap_cons, files.1, map_cons, ih]

lemma Account.record :
    s.record.entries.reverse.map (·.1) = made.map fun e => Key.of e.1 (Word.signed e.2) := by
  obtain ⟨log, writes, adds⟩ := h
  have entries := writes.record_eq
  change s.record.entries = _ at entries
  rw [entries]
  simp only [Record.entries_empty, append_nil, reverse_reverse, map_filterMap]
  have outcome : (uses log).filterMap (fun u => (u.key.map fun key => (key, u.tick)).map (·.1)) =
      (outcomes log).filterMap (·.key) := by
    rw [outcomes, filterMap_filter]
    refine filterMap_congr fun u _ => ?_
    cases u.key <;> rfl
  rw [outcome, filterMap_key_of_files adds.made]

lemma Account.contains {key : Key} :
    s.record.contains key = true ↔ ∃ e ∈ made, key = Key.of e.1 (Word.signed e.2) := by
  have listed := h.record
  have iff : s.record.contains key = true ↔ key ∈ s.record.entries.reverse.map (·.1) := by
    rw [map_reverse, mem_reverse]
    exact Record.contains_iff_mem
  rw [iff, listed, mem_map]
  constructor
  · rintro ⟨e, mem, same⟩
    exact ⟨e, mem, same.symm⟩
  · rintro ⟨e, mem, same⟩
    exact ⟨e, mem, same.symm⟩

end Store

end SyndromeSchedule
