import SyndromeSchedule.Proofs.Calls
import SyndromeSchedule.Proofs.Runs

/-!
Rounds that begin and outcomes that are reported, in any order and any number of times. Instances
always miss what is not on record, and each is written once, with the outcomes on record at that
moment. Only words that are too small can stop this: a round whose distance to an outcome leaves
them, or a tick there is no room for.
-/

namespace SyndromeSchedule

open List Outcome

namespace Attempt

variable {σ α : Type}

lemma forEach_append (action : σ → α → Attempt σ Unit) (s : σ) (items later : List α) :
    forEach action s (items ++ later) =
      (forEach action s items).andThen fun s _ => forEach action s later := by
  induction items generalizing s with
  | nil => rfl
  | cons a rest ih =>
    rw [cons_append, forEach, forEach]
    cases first : action s a with
    | mk state outcome =>
      cases outcome with
      | ok _ => exact ih state
      | error halt => rfl

end Attempt

/-! Room for what is written. -/

lemma Record.Roomy.push {r : Record} (roomy : r.Roomy) (key : Key) {tick : Nat}
    (inside : tick < Store.maxTicks) : (r.push key tick).Roomy := by
  intro h k t found
  rw [Record.entry?_push] at found
  split_ifs at found
  · rwa [← (Prod.mk.inj (Option.some.inj found)).2]
  · exact roomy h k t found

namespace Progress

/-! Instances that are written. -/

variable {p next : Progress} {id : Nat} {placed : List Inscription} {u : Unit}

/-- Whether an instance is written. -/
def IsResolved (p : Progress) (id : Nat) : Prop :=
  ∃ i, p.resolver.instances[id]? = some i ∧ i.stage = .resolved

/-- Instances stay, with the outcomes they wait for. -/
def Keeps (p next : Progress) : Prop :=
  ∀ (id : Nat) (i : Instance), p.resolver.instances[id]? = some i →
    ∃ j, next.resolver.instances[id]? = some j ∧ j.constituents = i.constituents

/-- A detector that is written for an instance. -/
structure Inscription where
  id : Nat
  tick : Nat
  handles : List Nat

/-- The detector lists the outcomes of its instance that are on record, in the tick of the
latest. -/
def Inscription.Reads (e : Inscription) (p : Progress) : Prop :=
  ∃ i, p.resolver.instances[e.id]? = some i ∧
    Forall₂ (fun key h => p.store.record.handle? key = some h) i.constituents e.handles ∧
    p.store.record.Latest e.handles e.tick

/-- Annotations of some detectors in a tick. -/
def Inscription.notesAt (placed : List Inscription) (t : Nat) : List Note :=
  (placed.filter (·.tick = t)).map (.detector ·.handles)

lemma Inscription.notesAt_append (placed later : List Inscription) (t : Nat) :
    notesAt (placed ++ later) t = notesAt placed t ++ notesAt later t := by
  simp [notesAt]

/-- Some instances are written, each for the first time and with one detector, and no other
annotation is made. -/
structure Resolves (p : Progress) (placed : List Inscription) (next : Progress) : Prop where
  distinct : (placed.map (·.id)).Nodup
  fresh : ∀ e ∈ placed, ¬ p.IsResolved e.id
  resolved : ∀ id, next.IsResolved id ↔ p.IsResolved id ∨ id ∈ placed.map (·.id)
  reads : ∀ e ∈ placed, e.Reads next
  notes : ∀ t, (next.store.tickAt t).notes =
    (p.store.tickAt t).notes ++ Inscription.notesAt placed t
  kept : p.Keeps next

lemma Resolves.refl (instances : next.resolver.instances = p.resolver.instances)
    (notes : ∀ t, (next.store.tickAt t).notes = (p.store.tickAt t).notes) :
    p.Resolves [] next where
  distinct := nodup_nil
  fresh := by simp
  resolved := by simp [IsResolved, instances]
  reads := by simp
  notes := by simp [notes, Inscription.notesAt]
  kept := by
    intro id i found
    exact ⟨i, by rw [instances, found], rfl⟩

lemma Inscription.Reads.mono {e : Inscription} (reads : e.Reads p)
    (record : next.store.record = p.store.record) (kept : p.Keeps next) : e.Reads next := by
  obtain ⟨i, found, handles, latest⟩ := reads
  obtain ⟨j, found_j, same⟩ := kept _ i found
  refine ⟨j, found_j, ?_, ?_⟩
  · rwa [same, record]
  · rwa [record]

lemma Resolves.trans {mid : Progress} {later : List Inscription} (h : p.Resolves placed mid)
    (h' : mid.Resolves later next) (record : next.store.record = mid.store.record) :
    p.Resolves (placed ++ later) next where
  distinct := by
    rw [map_append, nodup_append]
    refine ⟨h.distinct, h'.distinct, ?_⟩
    rintro id old _ new rfl
    obtain ⟨e, mem, rfl⟩ := mem_map.mp new
    exact h'.fresh e mem ((h.resolved e.id).mpr (.inr old))
  fresh := by
    exact forall_mem_append.mpr ⟨h.fresh, fun e new before =>
      h'.fresh e new ((h.resolved e.id).mpr (.inl before))⟩
  resolved := by
    intro id
    rw [h'.resolved, h.resolved, map_append, mem_append, or_assoc]
  reads := by
    exact forall_mem_append.mpr ⟨fun e old => (h.reads e old).mono record h'.kept, h'.reads⟩
  notes := by
    intro t
    rw [h'.notes, h.notes, Inscription.notesAt_append, append_assoc]
  kept := by
    intro id i found
    obtain ⟨j, found_j, same⟩ := h.kept id i found
    obtain ⟨k, found_k, same'⟩ := h'.kept id j found_j
    exact ⟨k, found_k, same'.trans same⟩

lemma notes_put_detector (s : Store) (e : Inscription) (t : Nat) :
    ((s.put (.note e.tick (.detector e.handles))).tickAt t).notes =
      (s.tickAt t).notes ++ Inscription.notesAt [e] t := by
  have written : Store.Writes s _ (s.put (.note e.tick (.detector e.handles))) :=
    Store.Writes.refl.put _ trivial
  rw [written.notes_eq]
  by_cases here : e.tick = t
  · simp [Store.notes, Inscription.notesAt, here]
  · simp [Store.notes, Inscription.notesAt, here]

/-- One instance that is not written yet is changed or added. -/
theorem Resolves.update {r : Resolver} {store : Store} {i : Instance} (pending : ¬ p.IsResolved id)
    (now : r.instances[id]? = some i)
    (others : ∀ k ≠ id, r.instances[k]? = p.resolver.instances[k]?)
    (same : ∀ j, p.resolver.instances[id]? = some j → i.constituents = j.constituents)
    (only : placed.map (·.id) = if i.stage = .resolved then [id] else [])
    (reads : ∀ e ∈ placed,
      Forall₂ (fun key h => store.record.handle? key = some h) i.constituents e.handles ∧
      store.record.Latest e.handles e.tick) (notes : ∀ t, (store.tickAt t).notes =
      (p.store.tickAt t).notes ++ Inscription.notesAt placed t) :
    p.Resolves placed ⟨r, store⟩ := by
  have members : ∀ k, k ∈ placed.map (·.id) ↔ i.stage = .resolved ∧ k = id := by
    intro k
    rw [only]
    split_ifs with written
    · simp [written]
    · simp [written]
  have at_id : ∀ e ∈ placed, e.id = id := fun e mem =>
    ((members e.id).mp (mem_map_of_mem mem)).2
  refine ⟨?_, ?_, ?_, ?_, notes, ?_⟩
  · rw [only]
    split_ifs
    · exact nodup_singleton id
    · exact nodup_nil
  · intro e mem
    rwa [at_id e mem]
  · intro k
    rw [members]
    by_cases here : k = id
    · rw [here, or_iff_right pending, and_iff_left rfl]
      simp [IsResolved, now]
    · simp [IsResolved, others k here, here]
  · intro e mem
    refine ⟨i, ?_, reads e mem⟩
    rwa [at_id e mem]
  · intro k j found
    by_cases here : k = id
    · subst here
      exact ⟨i, now, same j found⟩
    · exact ⟨j, (others k here).trans found, rfl⟩

/-! Telling instances of an outcome. -/

/-- An outcome that arrives writes the detectors that it completes. -/
lemma Awaiting.arrive_resolves {rest : List Nat} (awaiting : p.Awaiting (id :: rest))
    (h : (p.arrive id).commit = .ok (next, u)) :
    (∃ placed, p.Resolves placed next) ∧ next.store.record = p.store.record := by
  obtain ⟨i, found, pos, result⟩ := arrive_eq_ok h
  have open_before : i.stage ≠ .resolved := by
    rw [(awaiting.settled found).stage, if_neg (by omega)]
    decide
  have pending : ¬ p.IsResolved id := by
    rintro ⟨j, found_j, written⟩
    cases found.symm.trans found_j
    exact open_before written
  have same : ∀ j, p.resolver.instances[id]? = some j → i.constituents = j.constituents := by
    intro j found_j
    cases found.symm.trans found_j
    rfl
  have now : ∀ change, (p.resolver.modify id change).instances[id]? = some (change i) := by
    intro change
    rw [Resolver.getElem?_modify, if_pos rfl, found, Option.map_some]
  have others : ∀ change, ∀ k ≠ id,
      (p.resolver.modify id change).instances[k]? = p.resolver.instances[k]? := by
    intro change k apart
    rw [Resolver.getElem?_modify, if_neg apart.symm]
  split_ifs at result with last
  · obtain ⟨store, ⟨handles, tick, reads, latest, rfl⟩, rfl⟩ := result
    refine ⟨⟨[⟨id, tick, handles⟩], ?_⟩, rfl⟩
    refine .update pending (now _) (others _) same rfl ?_ fun t =>
      notes_put_detector p.store ⟨id, tick, handles⟩ t
    exact forall_mem_singleton.mpr ⟨reads, latest⟩
  · subst result
    refine ⟨⟨[], ?_⟩, rfl⟩
    refine .update pending (now _) (others _) same ?_ (by simp) (by simp [Inscription.notesAt])
    rw [if_neg open_before]
    rfl

lemma Awaiting.forEach_resolves {ids : List Nat} (awaiting : p.Awaiting ids)
    (h : (Attempt.forEach Progress.arrive p ids).commit = .ok (next, u)) :
    (∃ placed, p.Resolves placed next) ∧ next.store.record = p.store.record := by
  induction ids generalizing p with
  | nil =>
    cases h
    exact ⟨⟨[], .refl rfl fun _ => rfl⟩, rfl⟩
  | cons id rest ih =>
    obtain ⟨mid, _, first, others⟩ := Attempt.andThen_eq_ok.mp h
    obtain ⟨⟨placed, resolves⟩, record⟩ := awaiting.arrive_resolves first
    obtain ⟨⟨later, step⟩, kept⟩ := ih (awaiting.arrive first) others
    exact ⟨⟨_, resolves.trans step kept⟩, kept.trans record⟩

lemma notify_resolves {key : Key} (filed : p.Filed key)
    (h : (p.notify key).commit = .ok (next, u)) : ∃ placed, p.Resolves placed next := by
  obtain ⟨⟨placed, resolves⟩, _⟩ := Awaiting.forEach_resolves filed h
  exact ⟨placed, resolves.distinct, resolves.fresh, resolves.resolved, resolves.reads,
    resolves.notes, resolves.kept⟩

/-! Beginning a round. -/

lemma openInstance_resolves {entry : Entry} {round : Int} {cut : Bool} {keys : List Key}
    (h : (p.openInstance entry round cut keys).commit = .ok (next, u)) :
    (∃ placed, p.Resolves placed next) ∧ next.store.record = p.store.record := by
  have result := openInstance_eq_ok h
  have pending : ¬ p.IsResolved p.resolver.instances.size := by simp [IsResolved]
  have now : ∀ i, (p.resolver.instances.push i)[p.resolver.instances.size]? = some i := by simp
  have others : ∀ i, ∀ k ≠ p.resolver.instances.size,
      (p.resolver.instances.push i)[k]? = p.resolver.instances[k]? := by
    intro i k apart
    rw [Array.getElem?_push, if_neg apart]
  split_ifs at result with dropped complete
  · subst result
    exact ⟨⟨[], .refl rfl fun _ => rfl⟩, rfl⟩
  · obtain ⟨store, ⟨handles, tick, reads, latest, rfl⟩, rfl⟩ := result
    refine ⟨⟨[⟨p.resolver.instances.size, tick, handles⟩], ?_⟩, rfl⟩
    refine .update pending (now _) (others _) (by simp) rfl ?_ fun t =>
      notes_put_detector p.store ⟨p.resolver.instances.size, tick, handles⟩ t
    exact forall_mem_singleton.mpr ⟨reads, latest⟩
  · subst result
    refine ⟨⟨[], ?_⟩, rfl⟩
    exact .update pending (now _) (others _) (by simp) rfl (by simp) (by simp [Inscription.notesAt])

lemma beginRound_resolves {code : Code} {round : Nat}
    (h : (p.beginRound code round).commit = .ok (next, u)) : ∃ placed, p.Resolves placed next := by
  refine (Attempt.forEach_keeps (fun q => (∃ placed, p.Resolves placed q) ∧
    q.store.record = p.store.record) ?_ h ⟨⟨[], .refl rfl fun _ => rfl⟩, rfl⟩).1
  rintro e - mid last v ⟨⟨placed, resolves⟩, record⟩ opens
  simp only [openDetector] at opens
  split at opens
  · cases opens
  · obtain ⟨⟨later, step⟩, kept⟩ := openInstance_resolves opens
    exact ⟨⟨_, resolves.trans step kept⟩, kept.trans record⟩

end Progress

/-! Events. -/

/-- How an outcome gets on record: as an entry of its own, or by a measurement of a qubit or of a
product. -/
inductive Filing where
  | entry (tick : Nat)
  | single (tick : Nat) (g : Gate) (q : Qubit) (flip : Option Double)
  | product (tick : Nat) (factors : List (Qubit × Pauli)) (flip : Option Double)

namespace Filing

variable (s : Store)

def tick : Filing → Nat
  | entry tick => tick
  | single tick _ _ _ => tick
  | product tick _ _ => tick

/-- What is asked of the store. -/
def call (key : Key) : Filing → Store.Call
  | entry tick => .file key tick
  | single tick g q flip => .measure tick g q flip key
  | product tick factors flip => .product tick factors flip key

/-- Whether an outcome of a key is filed in a store. -/
def Accepted (s : Store) (key : Key) (filing : Filing) : Prop :=
  ((filing.call key).run s).outcome = .ok ()

lemma notes_numbered (qubits : List Qubit) (t : Nat) :
    ((s.indexAll qubits).1.tickAt t).notes = (s.tickAt t).notes := by
  rw [(s.writes_number qubits).notes_eq]
  simp [Store.notes]

lemma notes_put_gate (u : Use) (t : Nat) :
    ((s.put (.gate u)).tickAt t).notes = (s.tickAt t).notes := by
  rw [Store.tickAt_put]
  split_ifs <;> rfl

/-- What filing an outcome does: there is no room for its tick, its qubits are taken, or it is on
record. -/
structure Effect (s : Store) (key : Key) (tick : Nat) (made : Attempt Store Unit) : Prop where
  notes : ∀ t, (made.state.tickAt t).notes = (s.tickAt t).notes
  filed : (Store.maxTicks ≤ tick ∧ made.outcome = .overflow) ∨
    (∃ cause, made.outcome = .fail cause ∧ made.state.record = s.record) ∨
    made.outcome = .ok () ∧ made.state.record = s.record.push key tick

lemma effect_outcome (qubits : List Qubit) {u : Use} {key : Key} (files : u.key = some key) :
    Effect s key u.tick
      ((s.indexAll qubits).1.addOutcome u.tick u.gate u.target u.flip key).void := by
  have numbered : (s.indexAll qubits).1.record = s.record := by rw [Store.indexAll_eq]
  rcases (s.indexAll qubits).1.addOutcome_cases files with
    ⟨far, overflows⟩ | ⟨q, refused⟩ | ⟨free, made⟩
  · rw [overflows]
    exact ⟨notes_numbered s qubits, .inl ⟨far, rfl⟩⟩
  · rw [refused]
    exact ⟨notes_numbered s qubits, .inr (.inl ⟨_, rfl, numbered⟩)⟩
  · rw [made]
    refine ⟨fun t => (notes_put_gate _ u t).trans (notes_numbered s qubits t),
      .inr (.inr ⟨rfl, ?_⟩)⟩
    simp only [Attempt.void, Store.record_put, Write.file, files, numbered]

lemma effect_call (key : Key) (filing : Filing) :
    Effect s key filing.tick ((filing.call key).run s) := by
  cases filing with
  | entry tick => exact ⟨fun _ => rfl, .inr (.inr ⟨rfl, rfl⟩)⟩
  | single tick g q flip =>
    exact effect_outcome s [q] (u := s.measureUse tick g q flip key) rfl
  | product tick factors flip =>
    have made := effect_outcome s (factors.map (·.1)) (u := s.productUse tick factors flip key) rfl
    simp only [call, Store.Call.run, Store.addProduct]
    exact made

end Filing

/-- A round begins, or an outcome gets on record and is reported. -/
inductive Event where
  | begins (round : Nat)
  | outcome (key : Key) (filing : Filing)

namespace Event

/-- What an event does. A measurement that is refused leaves nothing to report. -/
def run (code : Code) (p : Progress) : Event → Attempt Progress Unit
  | begins round => p.beginRound code round
  | outcome key filing =>
    let made := (filing.call key).run p.store
    match made.outcome with
    | .ok () => Progress.notify ⟨p.resolver, made.state⟩ key
    | .error (.fault _) => ⟨⟨p.resolver, made.state⟩, .ok ()⟩
    | .error halt => ⟨⟨p.resolver, made.state⟩, .error halt⟩

/-- Whether an event stays within words: all outcomes of the detectors of a round have a signed word
for their round, and there is room for the tick of an outcome. -/
def Fits (code : Code) : Event → Prop
  | begins round => ∀ d ∈ code.detectorsIn round, ∀ t ∈ d.timed,
      Word.isInt64 (Word.signed round + t.offset) = true
  | outcome _ filing => filing.tick < Store.maxTicks

/-- Whether an event puts an outcome of a key on record. -/
def Files (s : Store) (key : Key) (e : Event) : Prop :=
  ∃ filing : Filing, e = outcome key filing ∧ filing.Accepted s key

/-- Instances that an event adds. -/
def opens (code : Code) (r : Resolver) : Event → List (Entry × Int × List Key)
  | begins round => r.openedIn code round
  | outcome _ _ => []

lemma opens_congr {r other : Resolver} (same : r.initial = other.initial) (code : Code)
    (e : Event) : e.opens code r = e.opens code other := by
  cases e with
  | begins round =>
    simp only [opens, Resolver.openedIn]
    congr 1
    funext d
    simp only [Resolver.opened, Resolver.discards_congr same]
  | outcome _ _ => rfl

/-- All that an event does to instances, annotations and the record. -/
structure Effect (code : Code) (p : Progress) (e : Event) (placed : List Progress.Inscription)
    (next : Progress) : Prop where
  plan : next.plan = p.plan ++ e.opens code p.resolver
  initial : next.resolver.initial = p.resolver.initial
  resolves : p.Resolves placed next
  filed : ∀ key, next.store.record.contains key = true ↔
    p.store.record.contains key = true ∨ e.Files p.store key

/-- An event fails only for want of room; otherwise it has its effect. -/
lemma run_within {room : Prop} {p : Progress} {code : Code} (consistent : p.Consistent)
    (roomy : room → p.store.record.Roomy) (e : Event) (fits : room → e.Fits code) :
    (e.run code p).Within room fun next _ => next.Consistent ∧
      (room → next.store.record.Roomy) ∧ ∃ placed, e.Effect code p placed next := by
  cases e with
  | begins round =>
    refine (consistent.beginRound_within roomy fits).strengthen fun _ done => ?_
    rintro ⟨after, extended⟩
    obtain ⟨placed, resolves⟩ := Progress.beginRound_resolves (Attempt.commit_eq_ok.mpr ⟨rfl, done⟩)
    have record := extended.record
    simp only [run]
    refine ⟨after, by rw [record]; exact roomy, placed, extended.plan, extended.initial, resolves,
      fun key => ?_⟩
    rw [record]
    simp [Files]
  | outcome key filing =>
    have effect := filing.effect_call p.store key
    simp only [run]
    rcases effect.filed with ⟨far, overflows⟩ | ⟨cause, refused, record⟩ | ⟨accepted, record⟩
    · simp only [overflows, Outcome.overflow]
      exact within_overflow fun room => not_lt.mpr far (fits room)
    · simp only [refused, Outcome.fail]
      refine meets_ok ⟨consistent.congr rfl record, ?_, [], (append_nil _).symm,
        rfl, .refl rfl effect.notes, ?_⟩
      · simp only [record]
        exact roomy
      · intro k
        simp only [record, Files, Filing.Accepted, outcome.injEq]
        constructor
        · exact .inl
        · rintro (old | ⟨_, ⟨rfl, rfl⟩, done⟩)
          · exact old
          · rw [refused] at done
            cases done
    · simp only [accepted]
      have roomier : room → (p.store.record.push key filing.tick).Roomy := fun room =>
        (roomy room).push key (fits room)
      rw [← record] at roomier
      have filed := consistent.file record
      refine (Progress.notify_within filed roomier).strengthen fun _ done => ?_
      rintro ⟨after, extended⟩
      obtain ⟨placed, resolves⟩ :=
        Progress.notify_resolves filed (Attempt.commit_eq_ok.mpr ⟨rfl, done⟩)
      have kept := extended.record
      have start : p.Resolves [] ⟨p.resolver, ((filing.call key).run p.store).state⟩ :=
        .refl rfl effect.notes
      refine ⟨after, by rw [kept]; exact roomier, placed, extended.plan, extended.initial,
        start.trans resolves kept, fun k => ?_⟩
      rw [kept]
      simp only [record, Record.contains_push, Files, Filing.Accepted, outcome.injEq,
        Bool.or_eq_true, decide_eq_true_eq]
      constructor
      · rintro (rfl | old)
        · exact .inr ⟨filing, ⟨rfl, rfl⟩, accepted⟩
        · exact .inl old
      · rintro (old | ⟨_, ⟨same, _⟩, _⟩)
        · exact .inr old
        · exact .inl same

end Event

/-! Whole runs. -/

namespace Progress

/-- Events one after the other, up to one that fails. -/
def runEvents (code : Code) (start : Progress) (events : List Event) : Attempt Progress Unit :=
  Attempt.forEach (fun p e => e.run code p) start events

/-- What there is after some events. -/
def afterEvents (code : Code) (start : Progress) (events : List Event) : Progress :=
  (runEvents code start events).state

/-- Nothing has begun and nothing is on record. -/
def fresh (initial : Table State) (trackers : List Tracker) : Progress :=
  ⟨{ initial, trackers }, .empty⟩

/-- What a run has put on record, which instances it has added, and which detectors it has written
when. -/
structure History (code : Code) (start : Progress) (events : List Event)
    (placed : List Inscription) : Prop where
  plan : (afterEvents code start events).plan =
    start.plan ++ events.flatMap (·.opens code start.resolver)
  initial : (afterEvents code start events).resolver.initial = start.resolver.initial
  filed : ∀ key, (afterEvents code start events).store.record.contains key = true ↔
    ∃ (k : Nat) (e : Event), events[k]? = some e ∧
      e.Files (afterEvents code start (events.take k)).store key
  distinct : (placed.map (·.id)).Nodup
  resolved : ∀ id, (afterEvents code start events).IsResolved id ↔ id ∈ placed.map (·.id)
  notes : ∀ t, ((afterEvents code start events).store.tickAt t).notes = Inscription.notesAt placed t
  /-- What is written stays written. -/
  lasting : ∀ k ≤ events.length, ∀ id, (afterEvents code start (events.take k)).IsResolved id →
    (afterEvents code start events).IsResolved id
  /-- Each detector is written with one of the events and lists what was on record then. -/
  moment : ∀ e ∈ placed, ∃ k ≤ events.length,
    (∀ j ≤ events.length, (afterEvents code start (events.take j)).IsResolved e.id ↔ k ≤ j) ∧
    e.Reads (afterEvents code start (events.take k))

section Run

variable {code : Code} {start : Progress} {events : List Event} {e : Event}
variable (initial : Table State) (trackers : List Tracker)

lemma afterEvents_take_concat {k : Nat} (le : k ≤ events.length) :
    afterEvents code start ((events ++ [e]).take k) = afterEvents code start (events.take k) := by
  rw [take_append_of_le_length le]

lemma afterEvents_take_all (code : Code) (start : Progress) (events : List Event) :
    afterEvents code start (events.take events.length) = afterEvents code start events := by
  rw [take_length]

lemma afterEvents_take_last (code : Code) (start : Progress) (events : List Event) (e : Event) :
    afterEvents code start ((events ++ [e]).take (events.length + 1)) =
      afterEvents code start (events ++ [e]) := by
  rw [take_of_length_le (by simp)]

lemma runEvents_concat (code : Code) (start : Progress) (events : List Event) (e : Event) :
    runEvents code start (events ++ [e]) =
      (runEvents code start events).andThen fun p _ => e.run code p := by
  rw [runEvents, Attempt.forEach_append]
  congr 1
  funext p _
  rw [Attempt.forEach]
  cases made : e.run code p with
  | mk state outcome =>
    cases outcome <;> rfl

/-- The events of a run that file a key, up to the last and the last itself. -/
lemma files_concat {key : Key} :
    (∃ (k : Nat) (e' : Event), (events ++ [e])[k]? = some e' ∧
        e'.Files (afterEvents code start ((events ++ [e]).take k)).store key) ↔
      (∃ (k : Nat) (e' : Event), events[k]? = some e' ∧
        e'.Files (afterEvents code start (events.take k)).store key) ∨
      e.Files (afterEvents code start events).store key := by
  constructor
  · rintro ⟨k, e', found, files⟩
    have inside := lt_of_getElem? found
    rw [length_append, length_singleton] at inside
    rw [afterEvents_take_concat (by omega)] at files
    by_cases old : k < events.length
    · rw [getElem?_append_left old] at found
      exact .inl ⟨k, e', found, files⟩
    · obtain rfl : k = events.length := by omega
      rw [getElem?_concat_length, Option.some.injEq] at found
      rw [afterEvents_take_all, ← found] at files
      exact .inr files
  · rintro (⟨k, e', found, files⟩ | files)
    · have inside := lt_of_getElem? found
      refine ⟨k, e', by rw [getElem?_append_left inside, found], ?_⟩
      rwa [afterEvents_take_concat inside.le]
    · refine ⟨events.length, e, getElem?_concat_length, ?_⟩
      rwa [afterEvents_take_concat le_rfl, afterEvents_take_all]

/-- A history goes on by what one more event writes. -/
lemma History.step {placed new : List Inscription} (history : History code start events placed)
    (effect : e.Effect code (afterEvents code start events) new
      (afterEvents code start (events ++ [e]))) :
    History code start (events ++ [e]) (placed ++ new) := by
  have resolves := effect.resolves
  have last : (events ++ [e]).length = events.length + 1 := by simp
  have whole := afterEvents_take_last code start events e
  -- What is written at any earlier moment is written before the event.
  have earlier : ∀ k ≤ events.length, ∀ id,
      (afterEvents code start ((events ++ [e]).take k)).IsResolved id →
      (afterEvents code start events).IsResolved id := by
    intro k le id written
    rw [afterEvents_take_concat le] at written
    exact history.lasting k le id written
  refine ⟨?_, effect.initial.trans history.initial, ?_, ?_, ?_, ?_, ?_, ?_⟩
  · rw [effect.plan, history.plan, e.opens_congr history.initial]
    simp
  · intro key
    rw [effect.filed, history.filed, files_concat]
  · rw [map_append, nodup_append]
    refine ⟨history.distinct, resolves.distinct, ?_⟩
    rintro id old _ now rfl
    obtain ⟨e', mem, rfl⟩ := mem_map.mp now
    exact resolves.fresh e' mem ((history.resolved e'.id).mpr old)
  · intro id
    rw [resolves.resolved, history.resolved, map_append, mem_append]
  · intro t
    rw [resolves.notes, history.notes, Inscription.notesAt_append]
  · intro k le id written
    by_cases before : k ≤ events.length
    · exact (resolves.resolved id).mpr (.inl (earlier k before id written))
    · obtain rfl : k = events.length + 1 := by omega
      rwa [whole] at written
  · intro d mem
    rcases mem_append.mp mem with old | now
    · obtain ⟨k, le, since, reads⟩ := history.moment d old
      refine ⟨k, by omega, ?_, by rwa [afterEvents_take_concat le]⟩
      intro j bound
      by_cases before : j ≤ events.length
      · rw [afterEvents_take_concat before]
        exact since j before
      · obtain rfl : j = events.length + 1 := by omega
        rw [whole, resolves.resolved, history.resolved]
        have listed : d.id ∈ placed.map (·.id) := mem_map_of_mem old
        simp only [listed, true_or, true_iff]
        omega
    · refine ⟨events.length + 1, by omega, ?_, by rw [whole]; exact resolves.reads d now⟩
      intro j bound
      by_cases before : j ≤ events.length
      · constructor
        · intro written
          exact absurd (earlier j before d.id written) (resolves.fresh d now)
        · intro late
          omega
      · obtain rfl : j = events.length + 1 := by omega
        rw [whole, resolves.resolved]
        have listed : d.id ∈ new.map (·.id) := mem_map_of_mem now
        simp [listed]

lemma History.nil (code : Code) (initial : Table State) (trackers : List Tracker) :
    History code (fresh initial trackers) [] [] where
  plan := (append_nil _).symm
  initial := rfl
  filed := by
    intro key
    simp only [getElem?_nil]
    constructor
    · intro known
      cases known
    · rintro ⟨_, _, none_left, _⟩
      cases none_left
  distinct := nodup_nil
  resolved := by simp [IsResolved, afterEvents, runEvents, Attempt.forEach, fresh]
  notes := by
    intro t
    simp [afterEvents, runEvents, Attempt.forEach, fresh, Store.tickAt, Store.empty,
      Inscription.notesAt]
  lasting := by simp
  moment := by simp

lemma Consistent.fresh : (fresh initial trackers).Consistent where
  distinct := nodup_nil
  present := by simp
  settled := by simp [Progress.fresh]
  listed := by simp [Progress.fresh, Resolver.waiting]

lemma runEvents_within (code : Code) (initial : Table State) (trackers : List Tracker)
    (events : List Event) :
    (runEvents code (fresh initial trackers) events).Within (∀ e ∈ events, e.Fits code)
      fun p _ => p.Consistent ∧ ((∀ e ∈ events, e.Fits code) → p.store.record.Roomy) ∧
        ∃ placed, History code (fresh initial trackers) events placed := by
  induction events using reverseRecOn with
  | nil =>
    refine meets_ok ⟨.fresh initial trackers, ?_, [], .nil code initial trackers⟩
    intro _ h key t found
    cases found
  | append_singleton events e ih =>
    have shorter : (∀ e' ∈ events ++ [e], e'.Fits code) → ∀ e' ∈ events, e'.Fits code :=
      fun fits e' mem => fits e' (mem_append_left _ mem)
    rw [runEvents_concat]
    refine (ih.mono shorter).andThen fun p _ committed => ?_
    rintro ⟨consistent, roomy, placed, history⟩
    obtain ⟨rfl, done⟩ := Attempt.commit_eq_ok.mp committed
    have fits : (∀ e' ∈ events ++ [e], e'.Fits code) → e.Fits code := fun fits =>
      fits e (mem_append_right _ (mem_singleton_self e))
    refine (e.run_within consistent (fun room => roomy (shorter room)) fits).strengthen
      fun _ _ => ?_
    rintro ⟨after, roomier, new, effect⟩
    refine ⟨after, roomier, placed ++ new, history.step ?_⟩
    have same : afterEvents code (Progress.fresh initial trackers) (events ++ [e]) =
        (e.run code (afterEvents code (Progress.fresh initial trackers) events)).state := by
      rw [afterEvents, runEvents_concat, Attempt.andThen, done]
      rfl
    rwa [same]

end Run

/-- All instances are written exactly if all their outcomes are on record. -/
theorem Consistent.finish_eq_ok_iff {p : Progress} (consistent : p.Consistent) :
    p.resolver.finish = .ok () ↔
      ∀ i ∈ p.resolver.instances, ∀ key ∈ i.constituents, p.store.record.contains key = true := by
  have complete : ∀ i ∈ p.resolver.instances, (i.stage = .resolved ↔
      ∀ key ∈ i.constituents, p.store.record.contains key = true) := by
    intro i mem
    obtain ⟨id, inside, rfl⟩ := Array.getElem_of_mem mem
    have settled := consistent.settled (Array.getElem?_eq_getElem inside)
    have missing := settled.missing
    rw [if_neg not_mem_nil, Nat.add_zero] at missing
    rw [settled.stage, missing]
    split_ifs with none_missing
    · simpa using none_missing
    · simpa using none_missing
  have written : p.resolver.finish = .ok () ↔ ∀ i ∈ p.resolver.instances, i.stage = .resolved := by
    unfold Resolver.finish Resolver.unresolved?
    cases found : p.resolver.instances.toList.find? (·.stage ≠ .resolved) with
    | none =>
      simp only [true_iff]
      intro i mem
      simpa using find?_eq_none.mp found i (Array.mem_toList_iff.mpr mem)
    | some i =>
      have open_still : i.stage ≠ .resolved := by simpa using find?_some found
      constructor
      · intro finished
        cases finished
      · intro all
        have mem := Array.mem_toList_iff.mp (mem_of_find?_eq_some found)
        exact absurd (all i mem) open_still
  rw [written]
  constructor
  · exact fun all i mem => (complete i mem).mp (all i mem)
  · exact fun all i mem => (complete i mem).mpr (all i mem)

lemma Consistent.mem_waiting {p : Progress} (consistent : p.Consistent) (key : Key) (id : Nat) :
    id ∈ p.resolver.waiting key ↔ ∃ i, p.resolver.instances[id]? = some i ∧
      key ∈ i.constituents ∧ p.store.record.contains key = false := by
  rw [consistent.listed, mem_filter, mem_range]
  simp only [waitsFor, Bool.and_eq_true, Bool.not_eq_true']
  constructor
  · rintro ⟨inside, unknown, waits⟩
    rw [Array.getElem?_eq_getElem inside] at waits
    exact ⟨_, Array.getElem?_eq_getElem inside, by simpa using waits, unknown⟩
  · rintro ⟨i, found, mem, unknown⟩
    refine ⟨(Array.getElem?_eq_some_iff.mp found).1, unknown, ?_⟩
    rw [found]
    simpa using mem

/-- Rounds begin and outcomes are reported in any order. Only a word that is too small can stop
this, and none is if all events fit. As long as it goes on, each instance misses what is not on
record, it is written exactly if it misses nothing, it is listed under what it misses, and it was
written once, with what was on record at that moment. All is finished when nothing is missed. -/
theorem tracks_events (code : Code) (initial : Table State) (trackers : List Tracker)
    (events : List Event) :
    (runEvents code (fresh initial trackers) events).Within (∀ e ∈ events, e.Fits code)
      fun p _ =>
        (∀ (id : Nat) (i : Instance), p.resolver.instances[id]? = some i →
          i.Settled p.store.record 0) ∧
        (∀ key id, id ∈ p.resolver.waiting key ↔ ∃ i, p.resolver.instances[id]? = some i ∧
          key ∈ i.constituents ∧ p.store.record.contains key = false) ∧
        (∃ placed, History code (fresh initial trackers) events placed) ∧
        (p.resolver.finish = .ok () ↔ ∀ i ∈ p.resolver.instances, ∀ key ∈ i.constituents,
          p.store.record.contains key = true) := by
  refine (runEvents_within code initial trackers events).strengthen fun _ _ => ?_
  rintro ⟨consistent, _, history⟩
  refine ⟨fun id i found => ?_, consistent.mem_waiting, history, consistent.finish_eq_ok_iff⟩
  exact consistent.settled found

end Progress

/-- A round of half the words has no signed word for the round before it. -/
theorem PairCode.begins_overflows :
    (Progress.runEvents code (.fresh .empty []) [.begins Word.half]).outcome = .overflow := by
  decide +kernel

end SyndromeSchedule
