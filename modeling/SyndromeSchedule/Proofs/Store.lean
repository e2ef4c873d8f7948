import Mathlib.Data.List.Infix
import Mathlib.Tactic.SplitIfs
import SyndromeSchedule.Proofs.Outcome
import SyndromeSchedule.Timeline.Store

/-!
What the operations of a store write. Every operation that goes well numbers some qubits and then
carries out one write, so a store is known from the writes that led to it: what stands in a tick,
what is on record and which qubits are taken.
-/

namespace SyndromeSchedule

open List Outcome

namespace Record

variable {r : Record} {key other : Key} {tick t handle : Nat}

@[simp] lemma entries_empty : empty.entries = [] := rfl

@[simp] lemma size_push (r : Record) (key : Key) (tick : Nat) :
    (r.push key tick).size = r.size + 1 := rfl

@[simp] lemma entries_push (r : Record) (key : Key) (tick : Nat) :
    (r.push key tick).entries = (key, tick) :: r.entries := rfl

/-- A handle counts the entries before it. -/
lemma entry_eq_reverse (r : Record) (handle : Nat) :
    r.entry? handle = r.entries.reverse[handle]? := by
  unfold entry? size
  split_ifs with inside
  · rw [getElem?_reverse inside]
  · rw [getElem?_eq_none]
    simpa using inside

lemma entry?_push (r : Record) (key : Key) (tick handle : Nat) :
    Record.entry? (r.push key tick) handle =
      if handle = r.size then some (key, tick) else r.entry? handle := by
  have length : r.entries.reverse.length = r.size := length_reverse
  rw [entry_eq_reverse, entry_eq_reverse]
  change (reverse ((key, tick) :: r.entries))[handle]? = _
  rw [reverse_cons, getElem?_append, getElem?_singleton, length]
  split_ifs with inside zero last last
  · omega
  · rfl
  · rfl
  · omega
  · omega
  · rw [getElem?_eq_none (by omega)]

lemma lt_size {e : Key × Nat} (found : r.entry? handle = some e) : handle < r.size := by
  rw [entry_eq_reverse] at found
  have inside := lt_of_getElem? found
  rwa [length_reverse] at inside

lemma exists_entry (inside : handle < r.size) : ∃ key t, r.entry? handle = some (key, t) := by
  rw [entry_eq_reverse]
  exact ⟨_, _, getElem?_eq_getElem (length_reverse.symm ▸ inside)⟩

lemma entry?_eq_none (past : r.size ≤ handle) : r.entry? handle = none :=
  if_neg (Nat.not_lt.mpr past)

lemma size_le (none : r.entry? handle = none) : r.size ≤ handle := by
  by_contra inside
  obtain ⟨key, t, found⟩ := exists_entry (Nat.lt_of_not_le inside)
  rw [none] at found
  cases found

lemma handle?_push (r : Record) (key other : Key) (tick : Nat) :
    (r.push key tick).handle? other = if key = other then some r.size else r.handle? other := rfl

lemma contains_push (r : Record) (key other : Key) (tick : Nat) :
    (r.push key tick).contains other = (decide (key = other) || r.contains other) := by
  simp only [contains, handle?_push]
  by_cases h : key = other
  · simp [h]
  · simp [h]

lemma entry?_push_of_some (h : r.entry? handle = some (other, t)) :
    Record.entry? (r.push key tick) handle = some (other, t) := by
  rw [entry?_push, if_neg (ne_of_lt (lt_size h)), h]

/-- A record is made by filing its entries one after the other. -/
lemma push_induction {P : Record → Prop} (r : Record) (nothing : P .empty)
    (filed : ∀ r key tick, P r → P (r.push key tick)) : P r := by
  obtain ⟨entries, _, rfl⟩ := r
  induction entries with
  | nil => exact nothing
  | cons e older ih => exact filed ⟨older, _, rfl⟩ e.1 e.2 ih

/-- The index follows from the entries. -/
lemma ext_entries {r r' : Record} (same : r.entries = r'.entries) : r = r' := by
  obtain ⟨_, _, rfl⟩ := r
  obtain ⟨_, _, rfl⟩ := r'
  cases same
  rfl

lemma entry?_of_handle? (h : r.handle? key = some handle) :
    ∃ t, r.entry? handle = some (key, t) := by
  induction r using push_induction with
  | nothing => cases h
  | filed r k t ih =>
    rw [handle?_push] at h
    by_cases same : k = key
    · rw [if_pos same] at h
      obtain rfl := Option.some.inj h
      exact ⟨t, by rw [entry?_push, if_pos rfl, same]⟩
    · rw [if_neg same] at h
      obtain ⟨t', found⟩ := ih h
      exact ⟨t', entry?_push_of_some found⟩

lemma entry?_push_other (apart : key ≠ other) :
    Record.entry? (r.push key tick) handle = some (other, t) ↔
      r.entry? handle = some (other, t) := by
  refine ⟨fun found => ?_, entry?_push_of_some⟩
  rw [entry?_push] at found
  split_ifs at found
  · cases found
    exact absurd rfl apart
  · exact found

/-- The index leads from a key to its latest entry. -/
lemma handle?_eq_some_iff : r.handle? key = some handle ↔
    (∃ t, r.entry? handle = some (key, t)) ∧ ∀ h t, handle < h → r.entry? h ≠ some (key, t) := by
  induction r using push_induction with
  | nothing => simp [empty, handle?, handleIn?, Record.entry?, size]
  | filed r k t ih =>
    rw [handle?_push]
    split_ifs with same
    · subst same
      rw [Option.some.injEq]
      constructor
      · rintro rfl
        refine ⟨⟨t, by rw [entry?_push, if_pos rfl]⟩, fun h t' later found => ?_⟩
        have inside := lt_size found
        rw [size_push] at inside
        omega
      · rintro ⟨⟨t', found⟩, last⟩
        have inside := lt_size found
        rw [size_push] at inside
        by_contra earlier
        exact last r.size t (by omega) (by rw [entry?_push, if_pos rfl])
    · simp only [ih, ne_eq, entry?_push_other same]

lemma contains_iff_mem : r.contains key = true ↔ key ∈ r.entries.map (·.1) := by
  induction r using push_induction with
  | nothing => simp [empty, contains, handle?, handleIn?]
  | filed r k t ih =>
    rw [contains_push, Bool.or_eq_true, ih, decide_eq_true_eq, entries_push, map_cons, mem_cons,
      eq_comm]

/-- A measurement is found as soon as it is filed. -/
@[simp] lemma lookup_push (r : Record) (key : Key) (tick : Nat) :
    (r.push key tick).lookup key = .ok r.size := by
  rw [lookup, handle?_push, if_pos rfl]

lemma lookupMade_of_contains (h : r.contains key = true) :
    ∃ handle t, r.lookupMade key = .ok handle ∧ r.handle? key = some handle ∧
      r.entry? handle = some (key, t) := by
  obtain ⟨handle, found⟩ := Option.isSome_iff_exists.mp h
  obtain ⟨t, entry⟩ := entry?_of_handle? found
  exact ⟨handle, t, by simp [lookupMade, found], found, entry⟩

lemma lookupMade_eq_ok : r.lookupMade key = .ok handle ↔ r.handle? key = some handle := by
  simp only [lookupMade]
  cases h : r.handle? key with
  | none => simp [Outcome.fail]
  | some found => simp

lemma tickOf_eq_ok (h : r.entry? handle = some (key, t)) : r.tickOf handle = .ok t := by
  simp [tickOf, h, Outcome.ofIndex, Functor.map, Except.map]

end Record

namespace Store

/-- What is in a tick; nothing past the last. -/
def tickAt (s : Store) (t : Nat) : Tick := (s.ticks[t]?).getD {}

lemma tickAt_of_size_le {s : Store} {t : Nat} (h : s.size ≤ t) : s.tickAt t = {} := by
  have past : s.ticks[t]? = none := by simpa [size] using h
  simp [tickAt, past]

/-! Numbering of qubits. -/

/-- Indices that lead to qubits. -/
def Names (numbering : List Qubit) (indices : List Nat) (qubits : List Qubit) : Prop :=
  Forall₂ (fun n q => numbering[n]? = some q) indices qubits

lemma Names.mono {numbering longer : List Qubit} {indices : List Nat} {qubits : List Qubit}
    (h : Names numbering indices qubits) (longer_of : numbering <+: longer) :
    Names longer indices qubits := by
  refine Forall₂.imp ?_ h
  intro n q found
  obtain ⟨rest, rfl⟩ := longer_of
  have inside : n < numbering.length := lt_of_getElem? found
  rwa [getElem?_append_left inside]

lemma Names.lt {numbering qubits : List Qubit} {indices : List Nat}
    (names : Names numbering indices qubits) : ∀ n ∈ indices, n < numbering.length := by
  intro n mem
  obtain ⟨q, _, found⟩ := exists_right_of_forall₂ names mem
  exact lt_of_getElem? found

lemma index_eq (s : Store) (q : Qubit) :
    (s.index q).1 = { s with numbering := (s.index q).1.numbering } := rfl

lemma index_numbering (s : Store) (q : Qubit) :
    s.qubits <+: (s.index q).1.qubits ∧ (s.index q).1.qubits[(s.index q).2]? = some q := by
  simp only [index, qubits, Numbering.number]
  split
  · next n known => exact ⟨prefix_rfl, (s.numbering.inverse q n).mp known⟩
  · exact ⟨prefix_append _ _, by simp⟩

lemma indexAll_eq (qubits : List Qubit) (s : Store) :
    (s.indexAll qubits).1 = { s with numbering := (s.indexAll qubits).1.numbering } := by
  induction qubits generalizing s with
  | nil => rfl
  | cons q rest ih =>
    simp only [indexAll]
    rw [ih, index_eq]

lemma indexAll_numbering (qubits : List Qubit) (s : Store) :
    s.qubits <+: (s.indexAll qubits).1.qubits ∧
      Names (s.indexAll qubits).1.qubits (s.indexAll qubits).2 qubits := by
  induction qubits generalizing s with
  | nil => exact ⟨prefix_rfl, Forall₂.nil⟩
  | cons q rest ih =>
    obtain ⟨first, found⟩ := s.index_numbering q
    obtain ⟨others, names⟩ := ih (s.index q).1
    have head : Names (s.index q).1.qubits [(s.index q).2] [q] := .cons found .nil
    have kept := head.mono others
    refine ⟨first.trans others, ?_⟩
    simp only [indexAll]
    cases kept with
    | cons found _ => exact .cons found names

end Store

/-- A gate as it is written into a tick: what it acts on by number and by place, and what its
outcome is filed under. -/
structure Use where
  tick : Nat
  gate : Gate
  flip : Option Double := none
  target : GateTarget
  qubits : List Qubit
  key : Option Key := none

/-- The gate in its tick, if the next outcome has the given handle. -/
def Use.op (u : Use) (handle : Nat) : GateOp :=
  ⟨u.gate, u.flip, u.target, u.key.map fun _ => handle⟩

/-- One addition to a store. -/
inductive Write where
  | gate (use : Use)
  | noise (tick : Nat) (placement : Placement) (op : NoiseOp)
  | note (tick : Nat) (note : Note)

namespace Store

/-- Pushes a gate and marks its qubits as taken. -/
def putGate (op : GateOp) (t : Tick) : Tick :=
  { t with gates := t.gates ++ [op], busy := takeUp t.busy op.target.indices }

/-- Taking the qubits of a gate and pushing it later is one change. -/
lemma modify_occupy_pushGate (s : Store) (tick : Nat) (op : GateOp) :
    (s.modify tick (occupy op.target.indices)).modify tick (pushGate op) =
      s.modify tick (putGate op) := by
  have twice : (s.ticks.modify tick (occupy op.target.indices)).modify tick (pushGate op) =
      s.ticks.modify tick (putGate op) := by
    refine Array.ext_getElem? fun i => ?_
    simp only [Array.getElem?_modify]
    split_ifs
    · rw [Option.map_map]
      rfl
    · rfl
  simp only [modify, twice]

end Store

namespace Write

def tick : Write → Nat
  | gate u => u.tick
  | noise t _ _ => t
  | note t _ => t

/-- What a write does to its tick, if the next outcome has the given handle. -/
def change (handle : Nat) : Write → Tick → Tick
  | gate u, t => Store.putGate (u.op handle) t
  | noise _ placement op, t => Store.putNoise placement op t
  | note _ n, t => { t with notes := t.notes ++ [n] }

/-- What a write files. -/
def file (r : Record) : Write → Record
  | gate u =>
    match u.key with
    | some key => r.push key u.tick
    | none => r
  | noise _ _ _ => r
  | note _ _ => r

/-- Whether the indices of a gate are those of its qubits. -/
def Named (numbering : List Qubit) : Write → Prop
  | gate u => Store.Names numbering u.target.indices u.qubits
  | noise _ _ _ => True
  | note _ _ => True

lemma Named.mono {numbering longer : List Qubit} {w : Write} (h : w.Named numbering)
    (longer_of : numbering <+: longer) : w.Named longer := by
  cases w with
  | gate u => exact Store.Names.mono h longer_of
  | noise _ _ _ | note _ _ => exact h

end Write

namespace Store

variable {s next : Store} {tick handle : Nat} {gate : Gate} {key : Key} {flip : Option Double}
  {factors : List (Qubit × Pauli)}

/-- The store with room for a tick. -/
def reach (s : Store) (tick : Nat) : Store :=
  { s with ticks := s.ticks ++ Array.replicate (tick + 1 - s.ticks.size) {} }

/-- Carries out a write. -/
def put (s : Store) (w : Write) : Store :=
  { (s.reach w.tick).modify w.tick (w.change s.record.size) with record := w.file s.record }

@[simp] lemma size_reach (s : Store) (tick : Nat) :
    (s.reach tick).size = max s.size (tick + 1) := by
  simp only [size, reach, Array.size_append, Array.size_replicate]
  omega

@[simp] lemma tickAt_reach (s : Store) (tick t : Nat) :
    (s.reach tick).tickAt t = s.tickAt t := by
  simp only [tickAt, reach, Array.getElem?_append, Array.getElem?_replicate]
  by_cases h : t < s.ticks.size
  · rw [if_pos h]
  · have past : s.ticks[t]? = none := by simpa using h
    rw [if_neg h, past]
    split_ifs <;> rfl

@[simp] lemma size_modify (s : Store) (tick : Nat) (change : Tick → Tick) :
    (s.modify tick change).size = s.size := by
  simp [size, modify]

lemma tickAt_modify (inside : tick < s.size) (change : Tick → Tick) (t : Nat) :
    (s.modify tick change).tickAt t = if tick = t then change (s.tickAt t) else s.tickAt t := by
  simp only [tickAt, modify, Array.getElem?_modify]
  by_cases h : tick = t
  · subst h
    have found : s.ticks[tick]? = some s.ticks[tick] := Array.getElem?_eq_getElem inside
    simp [found]
  · simp [h]

@[simp] lemma size_put (s : Store) (w : Write) : (s.put w).size = max s.size (w.tick + 1) := by
  have kept := (s.reach w.tick).size_modify w.tick (w.change s.record.size)
  rwa [size_reach] at kept

lemma tickAt_put (s : Store) (w : Write) (t : Nat) : (s.put w).tickAt t =
      if w.tick = t then w.change s.record.size (s.tickAt t) else s.tickAt t := by
  have inside : w.tick < (s.reach w.tick).size := by
    rw [size_reach]
    omega
  have changed := tickAt_modify inside (w.change s.record.size) t
  rwa [tickAt_reach] at changed

@[simp] lemma record_put (s : Store) (w : Write) : (s.put w).record = w.file s.record := rfl

@[simp] lemma qubits_put (s : Store) (w : Write) : (s.put w).qubits = s.qubits := rfl

@[simp] lemma region_put (s : Store) (w : Write) : (s.put w).region = s.region := rfl

lemma mem_takeUp (n : Nat) (indices busy : List Nat) :
    n ∈ takeUp busy indices ↔ n ∈ busy ∨ n ∈ indices := by
  induction indices generalizing busy with
  | nil => simp [takeUp]
  | cons m rest ih =>
    rw [takeUp, ih]
    split_ifs with known
    · constructor
      · rintro (h | h)
        · exact .inl h
        · exact .inr (.tail _ h)
      · rintro (h | h)
        · exact .inl h
        · rcases mem_cons.mp h with rfl | h
          · exact .inl known
          · exact .inr h
    · simp only [mem_cons]
      tauto

/-! The operations as writes. -/

def gateUse (s : Store) (tick : Nat) (gate : Gate) (qubits : List Qubit) : Use :=
  { tick, gate, target := .qubits (s.indexAll qubits).2, qubits }

def measureUse (s : Store) (tick : Nat) (gate : Gate) (q : Qubit) (flip : Option Double)
    (key : Key) : Use :=
  { tick, gate, flip, target := .qubits [(s.index q).2], qubits := [q], key := some key }

def productUse (s : Store) (tick : Nat) (factors : List (Qubit × Pauli))
    (flip : Option Double) (key : Key) : Use :=
  { tick, gate := .MPP, flip,
    target := .product ((factors.map (·.2)).zip (s.indexAll (factors.map (·.1))).2),
    qubits := factors.map (·.1), key := some key }

/-- A target whose qubits no gate of the tick uses. -/
def IsOpen (s : Store) (tick : Nat) (target : GateTarget) : Prop :=
  ∀ n ∈ target.indices, n ∉ (s.tickAt tick).busy

lemma conflict?_eq_none (s : Store) (tick : Nat) (target : GateTarget) :
    s.conflict? tick target = none ↔ s.IsOpen tick target := by
  have busy : ((s.ticks[tick]?).map (·.busy)).getD [] = (s.tickAt tick).busy := by
    simp only [tickAt]
    cases s.ticks[tick]? <;> rfl
  simp [conflict?, busy, IsOpen]

lemma isOpen_reach (s : Store) (tick : Nat) (target : GateTarget) :
    (s.reach tick).IsOpen tick target ↔ s.IsOpen tick target := by
  simp only [IsOpen, tickAt_reach]

/-- The store in which a gate has taken its qubits. -/
def claimed (s : Store) (tick : Nat) (target : GateTarget) : Store :=
  (s.reach tick).modify tick (occupy target.indices)

lemma claim_eq (s : Store) (tick : Nat) (target : GateTarget) : s.claim tick target =
      if maxTicks ≤ tick then ⟨s, .overflow⟩
      else match (s.reach tick).conflict? tick target with
        | some q => ⟨s.reach tick, .fail (.conflict tick q)⟩
        | none => ⟨s.claimed tick target, .ok ()⟩ := by
  simp only [claim, ensure]
  split_ifs <;> rfl

lemma claim_meets {target : GateTarget} (free : s.IsOpen tick target) :
    (s.claim tick target).Bounded fun next _ => next = s.claimed tick target := by
  have none_taken := ((s.reach tick).conflict?_eq_none tick target).mpr
    ((s.isOpen_reach tick target).mpr free)
  rw [claim_eq, none_taken]
  split_ifs
  · exact within_overflow id
  · exact meets_ok rfl

lemma claim_eq_ok {target : GateTarget} {u : Unit}
    (h : (s.claim tick target).commit = .ok (next, u)) :
    next = s.claimed tick target ∧ s.IsOpen tick target := by
  rw [claim_eq] at h
  split_ifs at h
  · cases h
  · cases taken : (s.reach tick).conflict? tick target with
    | none =>
      rw [taken] at h
      cases h
      have free := ((s.reach tick).conflict?_eq_none tick target).mp taken
      exact ⟨rfl, (s.isOpen_reach tick target).mp free⟩
    | some q =>
      rw [taken] at h
      cases h

/-- What follows a claim sees the store in which the qubits are taken. -/
lemma claim_andThen {α : Type} {target : GateTarget} {f g : Store → Unit → Attempt Store α}
    (same : f (s.claimed tick target) () = g (s.claimed tick target) ()) :
    (s.claim tick target).andThen f = (s.claim tick target).andThen g := by
  simp only [Attempt.andThen]
  cases outcome : (s.claim tick target).outcome with
  | error halt => rfl
  | ok _ =>
    have committed : (s.claim tick target).commit = .ok ((s.claim tick target).state, ()) := by
      rw [Attempt.commit, outcome]
    have claimed := claim_eq_ok committed
    rwa [claimed.1]

/-- A gate that has taken its qubits and, if it measures, has filed its outcome, is written by
pushing it. -/
lemma claimed_push (s : Store) (u : Use) :
    ({ s.claimed u.tick u.target with record := (Write.gate u).file s.record } : Store).modify
      u.tick (pushGate (u.op s.record.size)) = s.put (.gate u) := by
  have pushed := (s.reach u.tick).modify_occupy_pushGate u.tick (u.op s.record.size)
  exact congrArg (fun next : Store => { next with record := (Write.gate u).file s.record }) pushed

lemma addGate_eq (s : Store) (tick : Nat) (gate : Gate) (qubits : List Qubit) :
    s.addGate tick gate qubits =
      ((s.indexAll qubits).1.claim tick (s.gateUse tick gate qubits).target).andThen
        fun _ _ => ⟨(s.indexAll qubits).1.put (.gate (s.gateUse tick gate qubits)), .ok ()⟩ := by
  rw [addGate]
  refine claim_andThen ?_
  rw [← claimed_push]
  rfl

lemma addGate_meets {qubits : List Qubit}
    (free : s.IsOpen tick (s.gateUse tick gate qubits).target) :
    (s.addGate tick gate qubits).Bounded fun next _ =>
      next = (s.indexAll qubits).1.put (.gate (s.gateUse tick gate qubits)) := by
  have open_after : (s.indexAll qubits).1.IsOpen tick (s.gateUse tick gate qubits).target := by
    rwa [indexAll_eq]
  rw [addGate_eq]
  exact (claim_meets open_after).andThen fun _ _ _ _ => meets_ok rfl

lemma addGate_eq_ok {qubits : List Qubit} {u : Unit}
    (h : (s.addGate tick gate qubits).commit = .ok (next, u)) :
    next = (s.indexAll qubits).1.put (.gate (s.gateUse tick gate qubits)) := by
  rw [addGate_eq, Attempt.andThen_eq_ok] at h
  obtain ⟨_, _, _, rest⟩ := h
  cases rest
  rfl

/-- A measurement that has taken its qubits is filed, found on record and written: looking it up
cannot fail. -/
lemma addOutcome_eq (s : Store) {u : Use} (files : u.key = some key) :
    s.addOutcome u.tick u.gate u.target u.flip key = (s.claim u.tick u.target).andThen
        fun _ _ => ⟨s.put (.gate u), .ok s.record.size⟩ := by
  obtain ⟨tick, gate, flip, target, qubits, _⟩ := u
  subst files
  refine claim_andThen ?_
  have found : ((s.claimed tick target).file key tick).record.lookup key =
      .ok s.record.size := s.record.lookup_push key tick
  rw [← claimed_push, pushOutcome]
  simp only [found]
  rfl

lemma addOutcome_meets {u : Use} (files : u.key = some key) (free : s.IsOpen u.tick u.target) :
    (s.addOutcome u.tick u.gate u.target u.flip key).Bounded fun next handle =>
      next = s.put (.gate u) ∧ handle = s.record.size := by
  rw [addOutcome_eq s files]
  exact (claim_meets free).andThen fun _ _ _ _ => meets_ok ⟨rfl, rfl⟩

lemma addOutcome_eq_ok {u : Use} (files : u.key = some key)
    (h : (s.addOutcome u.tick u.gate u.target u.flip key).commit = .ok (next, handle)) :
    next = s.put (.gate u) ∧ handle = s.record.size := by
  rw [addOutcome_eq s files, Attempt.andThen_eq_ok] at h
  obtain ⟨mid, _, _, rest⟩ := h
  cases rest
  exact ⟨rfl, rfl⟩

lemma addMeasurement_meets {q : Qubit}
    (free : s.IsOpen tick (s.measureUse tick gate q flip key).target) :
    (s.addMeasurement tick gate q flip key).Bounded fun next handle =>
      next = (s.index q).1.put (.gate (s.measureUse tick gate q flip key)) ∧
        handle = s.record.size := by
  have open_after : (s.index q).1.IsOpen tick (s.measureUse tick gate q flip key).target := by
    rwa [index_eq]
  have same : (s.index q).1.record = s.record := by rw [index_eq]
  rw [← same]
  exact addOutcome_meets rfl open_after

lemma addMeasurement_eq_ok {q : Qubit}
    (h : (s.addMeasurement tick gate q flip key).commit = .ok (next, handle)) :
    next = (s.index q).1.put (.gate (s.measureUse tick gate q flip key)) ∧
      handle = s.record.size := by
  have same : (s.index q).1.record = s.record := by rw [index_eq]
  rw [← same]
  exact addOutcome_eq_ok (u := s.measureUse tick gate q flip key) rfl h

lemma addProduct_meets (free : s.IsOpen tick (s.productUse tick factors flip key).target) :
    (s.addProduct tick factors flip key).Bounded fun next handle =>
      next = (s.indexAll (factors.map (·.1))).1.put (.gate (s.productUse tick factors flip key)) ∧
        handle = s.record.size := by
  have open_after : (s.indexAll (factors.map (·.1))).1.IsOpen tick
      (s.productUse tick factors flip key).target := by
    rwa [indexAll_eq]
  have same : (s.indexAll (factors.map (·.1))).1.record = s.record := by rw [indexAll_eq]
  rw [← same]
  exact addOutcome_meets rfl open_after

lemma addProduct_eq_ok (h : (s.addProduct tick factors flip key).commit = .ok (next, handle)) :
    next = (s.indexAll (factors.map (·.1))).1.put (.gate (s.productUse tick factors flip key)) ∧
      handle = s.record.size := by
  have same : (s.indexAll (factors.map (·.1))).1.record = s.record := by rw [indexAll_eq]
  rw [← same]
  exact addOutcome_eq_ok (u := s.productUse tick factors flip key) rfl h

lemma addNoise_meets (s : Store) (tick : Nat) (placement : Placement) (channel : Channel)
    (parameters : List Double) (qubits : List Qubit) :
    (s.addNoise tick placement channel parameters qubits).Bounded fun next =>
      next = (s.indexAll qubits).1.put
        (.noise tick placement ⟨channel, parameters, (s.indexAll qubits).2⟩) := by
  simp only [addNoise, ensure]
  split_ifs
  · exact within_overflow id
  · exact meets_ok rfl

lemma annotate_within {room : Prop} (s : Store) (fits : room → tick < maxTicks) (note : Note) :
    (s.annotate tick note).Within room fun next => next = s.put (.note tick note) := by
  simp only [annotate, ensure]
  split_ifs with far
  · exact within_overflow fun room => not_lt.mpr far (fits room)
  · exact meets_ok rfl

lemma annotate_meets (s : Store) (tick : Nat) (note : Note) :
    (s.annotate tick note).Bounded fun next => next = s.put (.note tick note) :=
  s.annotate_within False.elim note

end Store

end SyndromeSchedule
