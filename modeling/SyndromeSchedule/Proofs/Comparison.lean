import SyndromeSchedule.Proofs.Along
import SyndromeSchedule.Proofs.Expected

/-!
Two runs of a compilation side by side, first as seen by their stores. The second run may be some
ticks, rounds and outcomes ahead of the first; then what is done from a base tick on is compared,
with everything moved by that lead. Or both runs start from nothing and differ in their noise alone.
-/

namespace SyndromeSchedule

open List

variable {t t' : Tick} {k : Comparison}

/-- How two runs are compared. A strict comparison has no lead: runs may differ in their noise, but
they fail together. In one that is not strict the noise is the same. -/
structure Comparison where
  strict : Prop
  /-- Ticks, rounds, outcomes and detectors the second run is ahead. -/
  ticks : Nat
  rounds : Nat
  handles : Nat
  ids : Nat
  /-- First tick that is compared. -/
  base : Nat
  /-- First detector that is compared. -/
  first : Nat
  /-- First round whose direct measurements are compared. -/
  since : Nat
  /-- Outcomes from a round on are in ticks from a low one on, and nothing is written before that
  tick. -/
  oldest : Int
  low : Nat
  /-- What the first run has written when the comparison starts. -/
  origin : Store
  /-- Qubits the runs may use. -/
  known : Qubit → Prop
  /-- Probabilities with which outcomes are flipped. -/
  flip : Option Double
  flip' : Option Double
  still : strict → ticks = 0 ∧ rounds = 0 ∧ handles = 0 ∧ ids = 0 ∧ base = 0 ∧ oldest ≤ 0
  low_le : low ≤ base
  flip_eq : ¬ strict → flip' = flip

namespace Comparison

variable {k : Comparison}
variable {t t' : Nat}

lemma low_eq_zero (strict : k.strict) : k.low = 0 := by
  have base := (k.still strict).2.2.2.2.1
  have le := k.low_le
  omega

/-- Ticks that correspond, or that both come before what is compared. -/
def Late (k : Comparison) (t t' : Nat) : Prop :=
  (k.base ≤ t ∧ t' = t + k.ticks) ∨ (t < k.base ∧ t' < k.base + k.ticks)

/-- Sizes that correspond from the first compared tick on. -/
def Agree (k : Comparison) (t t' : Nat) : Prop :=
  max (k.base + k.ticks) t' = max k.base t + k.ticks

def Covers (k : Comparison) (key : Key) : Prop := k.strict ∨ 0 ≤ key.round

lemma late_of_le (h : k.base ≤ t) : k.Late t (t + k.ticks) := .inl ⟨h, rfl⟩

lemma Late.max {u u' : Nat} (h : k.Late t t') (h' : k.Late u u') :
    k.Late (max t u) (max t' u') := by
  unfold Late at *
  omega

lemma Late.agree (h : k.Late t t') : k.Agree (t + 1) (t' + 1) := by
  unfold Late at h
  unfold Agree
  omega

lemma agree_zero : k.Agree 0 0 := by
  unfold Agree
  omega

lemma Late.foldl_max {ts ts' : List Nat} (related : Forall₂ k.Late ts ts')
    (h : k.Late t t') : k.Late (ts.foldl Max.max t) (ts'.foldl Max.max t') := by
  induction related generalizing t t' with
  | nil => exact h
  | cons head _ ih => exact ih (h.max head)

end Comparison

/-! What stands in a tick. -/

def Note.later (n : Nat) : Note → Note
  | .detector handles => .detector (handles.map (· + n))
  | .observable index handles => .observable index (handles.map (· + n))

def Note.isEmpty : Note → Bool
  | .detector [] => true
  | _ => false

lemma Note.isEmpty_later (n : Nat) (note : Note) : (note.later n).isEmpty = note.isEmpty := by
  cases note with
  | detector handles =>
    cases handles with
    | nil | cons h rest => rfl
  | observable index handles => rfl

lemma Note.later_zero (note : Note) : note.later 0 = note := by
  cases note <;> simp [later]

/-- Annotations of a tick, less detectors that compare nothing. -/
def Tick.told (t : Tick) : List Note := t.notes.filter (!·.isEmpty)

/-- Ticks that are alike but for detectors that compare nothing. -/
structure Tick.Like (t t' : Tick) : Prop where
  before : t.before = t'.before
  gates : t.gates = t'.gates
  after : t.after = t'.after
  told : t.told = t'.told

lemma Tick.Like.refl (t : Tick) : t.Like t := ⟨rfl, rfl, rfl, rfl⟩

lemma Tick.Like.trans {t'' : Tick} (h : t.Like t') (h' : t'.Like t'') : t.Like t'' :=
  ⟨h.before.trans h'.before, h.gates.trans h'.gates, h.after.trans h'.after, h.told.trans h'.told⟩

/-- The same gate, on the same qubits, with the handle and flip of its own run. -/
structure GateOp.Twin (k : Comparison) (op op' : GateOp) : Prop where
  gate : op'.gate = op.gate
  target : op'.target = op.target
  handle : op'.handle = op.handle.map (· + k.handles)
  flip : op.flip = op.handle.bind fun _ => k.flip
  flip' : op'.flip = op.handle.bind fun _ => k.flip'

/-- The same gates and annotations, and the same noise unless the runs differ by it. -/
structure Tick.Twin (k : Comparison) (t t' : Tick) : Prop where
  gates : Forall₂ (GateOp.Twin k) t.gates t'.gates
  busy : t'.busy = t.busy
  told : t'.told = t.told.map (Note.later k.handles)
  notes : k.strict → t'.notes = t.notes
  noise : ¬ k.strict → t'.before = t.before ∧ t'.after = t.after

lemma Tick.twin_empty (k : Comparison) : Tick.Twin k {} {} :=
  ⟨.nil, rfl, rfl, fun _ => rfl, fun _ => ⟨rfl, rfl⟩⟩

/-- The same gate on record, later by the ticks and rounds the second run is ahead. -/
structure Use.Twin (k : Comparison) (u u' : Use) : Prop where
  tick : u'.tick = u.tick + k.ticks
  gate : u'.gate = u.gate
  target : u'.target = u.target
  key : u'.key = u.key.map (Key.later k.rounds)
  flip : u.flip = u.key.bind fun _ => k.flip
  flip' : u'.flip = u.key.bind fun _ => k.flip'

lemma Use.Twin.op {u u' : Use} (h : u.Twin k u') (handle : Nat) :
    (u.op handle).Twin k (u'.op (handle + k.handles)) where
  __ := h
  handle := by
    simp only [Use.op, h.key, Option.map_map]
    rfl
  flip := by
    simp only [Use.op, h.flip]
    cases u.key <;> rfl
  flip' := by
    simp only [Use.op, h.flip']
    cases u.key <;> rfl

lemma Tick.Twin.putGate (h : t.Twin k t') {op op' : GateOp} (same : op.Twin k op') :
    (Store.putGate op t).Twin k (Store.putGate op' t') where
  __ := h
  gates := rel_append h.gates (.cons same .nil)
  busy := by simp only [Store.putGate, h.busy, same.target]

def Tick.tell (t : Tick) (note : Note) : Tick := { t with notes := t.notes ++ [note] }

lemma Tick.told_tell (t : Tick) (note : Note) :
    (t.tell note).told = if note.isEmpty then t.told else t.told ++ [note] := by
  simp only [told, tell, filter_append]
  cases h : note.isEmpty with
  | true | false => simp [h]

lemma Tick.Like.tell_empty (h : t.Like t') {note : Note} (empty : note.isEmpty = true) :
    (t.tell note).Like t' where
  __ := h
  told := by
    rw [told_tell, if_pos empty]
    exact h.told

section

variable (h : t.Twin k t')
include h

lemma Tick.Twin.tell (note : Note) : (t.tell note).Twin k (t'.tell (note.later k.handles)) where
  __ := h
  told := by
    rw [told_tell, told_tell, Note.isEmpty_later, h.told]
    split_ifs
    · rfl
    · rw [map_append, map_singleton]
  notes := by
    intro strict
    have none : k.handles = 0 := (k.still strict).2.2.1
    simp only [Tick.tell, h.notes strict, none, Note.later_zero]

lemma Tick.Twin.tell_left {note : Note} (empty : note.isEmpty = true) (loose : ¬ k.strict) :
    (t.tell note).Twin k t' where
  __ := h
  told := by
    rw [told_tell, if_pos empty]
    exact h.told
  notes := fun strict => absurd strict loose

lemma Tick.Twin.tell_right {note : Note} (empty : note.isEmpty = true) (loose : ¬ k.strict) :
    t.Twin k (t'.tell note) where
  __ := h
  told := by
    rw [told_tell, if_pos empty]
    exact h.told
  notes := fun strict => absurd strict loose

lemma Tick.Twin.putNoise (placement : Placement) (op : NoiseOp) :
    (Store.putNoise placement op t).Twin k (Store.putNoise placement op t') := by
  cases placement with
  | before => exact { h with noise := fun loose => (h.noise loose).imp (congrArg (· ++ [op])) id }
  | after => exact { h with noise := fun loose => (h.noise loose).imp id (congrArg (· ++ [op])) }

lemma Tick.Twin.putNoise_left (strict : k.strict) (placement : Placement) (op : NoiseOp) :
    (Store.putNoise placement op t).Twin k t' := by
  cases placement <;> exact { h with noise := fun loose => absurd strict loose }

lemma Tick.Twin.putNoise_right (strict : k.strict) (placement : Placement) (op : NoiseOp) :
    t.Twin k (Store.putNoise placement op t') := by
  cases placement <;> exact { h with noise := fun loose => absurd strict loose }

end

/-! What is on record. -/

/-- The second record holds the outcomes of the first, some rounds later, on top of older ones. -/
def Record.Twin (k : Comparison) (r r' : Record) : Prop :=
  ∃ late old, r'.entries = late ++ old ∧
    Forall₂ (fun e e' => e'.1 = e.1.later k.rounds ∧ k.Late e.2 e'.2) r.entries late ∧
    old.length = k.handles ∧ ∀ e ∈ old, e.1.round < k.rounds

namespace Record

variable {k : Comparison} {r r' : Record}
variable {key : Key}

variable (h : r.Twin k r')
include h

lemma Twin.size : r'.size = r.size + k.handles := by
  obtain ⟨late, old, entries, related, length, _⟩ := h
  simp [Record.size, entries, length, related.length_eq]

lemma Twin.push (key : Key) {tick tick' : Nat} (later : k.Late tick tick') :
    (r.push key tick).Twin k (r'.push (key.later k.rounds) tick') := by
  obtain ⟨late, old, entries, related, length, past⟩ := h
  refine ⟨(key.later k.rounds, tick') :: late, old, ?_, .cons ⟨rfl, later⟩ related, length, past⟩
  rw [entries_push, entries, cons_append]

lemma Twin.entry (handle : Nat) : (∀ key t, r.entry? handle = some (key, t) →
      ∃ t', r'.entry? (handle + k.handles) = some (key.later k.rounds, t') ∧ k.Late t t') ∧
      (r.entry? handle = none → r'.entry? (handle + k.handles) = none) := by
  have sizes := h.size
  obtain ⟨late, old, entries, related, length, _⟩ := h
  by_cases inside : handle < r.size
  · have inside' : handle + k.handles < r'.size := by omega
    have place : r'.size - 1 - (handle + k.handles) = r.size - 1 - handle := by omega
    have short : r.size - 1 - handle < r.entries.length := by
      unfold Record.size at inside ⊢
      omega
    have short' : r.size - 1 - handle < late.length := by
      rwa [← related.length_eq]
    simp only [if_pos inside, entry?, if_pos inside', place, entries,
      getElem?_append_left short', getElem?_eq_getElem short,
      getElem?_eq_getElem short', Option.some.injEq]
    have pair := Forall₂.get related short short'
    simp only [get_eq_getElem] at pair
    constructor
    · intro key t found
      rw [found] at pair
      exact ⟨_, Prod.ext pair.1 rfl, pair.2⟩
    · intro none
      cases none
  · have outside : ¬ handle + k.handles < r'.size := by omega
    simp only [if_neg inside, entry?, if_neg outside]
    exact ⟨fun _ _ found => absurd found.symm (Option.some_ne_none _), fun _ => trivial⟩

omit h in
lemma handleIn?_later {entries late old : List (Key × Nat)}
    (related : Forall₂ (fun e e' => e'.1 = e.1.later k.rounds ∧ k.Late e.2 e'.2) entries late)
    (past : ∀ e ∈ old, e.1 ≠ key.later k.rounds) :
    handleIn? (key.later k.rounds) (numbered (late ++ old)) =
      (handleIn? key (numbered entries)).map (· + old.length) := by
  induction related with
  | nil =>
    rw [nil_append]
    induction old with
    | nil => rfl
    | cons e rest ih =>
      have different : e.1 ≠ key.later k.rounds := past e (.head _)
      have skip : handleIn? (key.later k.rounds) (numbered (e :: rest)) =
          handleIn? (key.later k.rounds) (numbered rest) := if_neg different
      rw [skip]
      exact ih fun e mem => past e (.tail _ mem)
  | @cons e e' entries late head rest ih =>
    rw [cons_append, numbered, numbered, handleIn?, handleIn?, head.1]
    by_cases same : e.1 = key
    · rw [if_pos same, if_pos (congrArg _ same), length_append, rest.length_eq]
      rfl
    · rwa [if_neg same, if_neg fun again => same (Key.later_injective _ again)]

lemma Twin.handle? (covers : k.Covers key) :
    r'.handle? (key.later k.rounds) = (r.handle? key).map (· + k.handles) := by
  obtain ⟨late, old, entries, related, length, past⟩ := h
  rw [Record.handle?, Record.handle?, indexed, indexed, entries, ← length]
  apply handleIn?_later related
  intro e mem same
  rcases covers with strict | counted
  · have none : k.handles = 0 := (k.still strict).2.2.1
    rw [none, length_eq_zero_iff] at length
    rw [length] at mem
    cases mem
  · have before := past e mem
    rw [same] at before
    simp only [Key.later] at before
    omega

lemma Twin.contains (covers : k.Covers key) :
    r'.contains (key.later k.rounds) = r.contains key := by
  rw [Record.contains, Record.contains, h.handle? covers, Option.isSome_map]

lemma Twin.lookupMade (covers : k.Covers key) :
    (r.lookupMade key).Along k.strict
      (fun handle handle' => handle' = handle + k.handles ∧ r.handle? key = some handle)
      (r'.lookupMade (key.later k.rounds)) := by
  unfold Record.lookupMade
  rw [h.handle? covers]
  cases r.handle? key with
  | some handle => exact ⟨rfl, rfl⟩
  | none =>
    intro strict
    have none : k.rounds = 0 := (k.still strict).2.1
    simp [none, Key.later]

lemma Twin.tickOf (handle : Nat) :
    (r.tickOf handle).Along k.strict k.Late (r'.tickOf (handle + k.handles)) := by
  unfold Record.tickOf
  obtain ⟨found, missing⟩ := h.entry handle
  cases entry : r.entry? handle with
  | none =>
    rw [missing entry]
    exact fun _ => rfl
  | some e =>
    obtain ⟨t', entry', late⟩ := found e.1 e.2 entry
    rwa [entry']

end Record

/-! The stores of the two runs. -/

/-- Stores that agree on what is compared. Sizes agree from the first tick of a layer on, which
noise may claim before any gate does. -/
structure Store.Twin (k : Comparison) (top : Nat) (s s' : Store) : Prop where
  qubits : s'.qubits = s.qubits
  ticks : ∀ t, k.base ≤ t → (s.tickAt t).Twin k (s'.tickAt (t + k.ticks))
  record : s.record.Twin k s'.record
  recent : ∀ {h t : Nat} {key : Key}, s.record.entry? h = some (key, t) →
    k.oldest ≤ key.round → k.low ≤ t
  region : k.strict → s'.region = s.region
  kept : ∀ t < k.low, (s.tickAt t).Like (k.origin.tickAt t)
  size : max (top + k.ticks) s'.size = max top s.size + k.ticks
  length : ¬ k.strict → s'.size = s.size + k.ticks
  base_le : k.base ≤ s.size
  room : k.strict → s.size ≤ maxTicks
  numbered : (∀ q, k.known q → q ∈ k.origin.qubits) → s.qubits = k.origin.qubits

namespace Store

variable {k : Comparison} {top : Nat} {s s' : Store}
variable {w : Write} {tick : Nat}

section

variable (h : s.Twin k top s')

include h

/-- Stores stay in step if both runs write what corresponds. -/
lemma Twin.put {w' : Write} (tick : w'.tick = w.tick + k.ticks)
    (late : k.base ≤ w.tick) (inside : w.tick < maxTicks) (change : ∀ t t', Tick.Twin k t t' →
      (w.change s.record.size t).Twin k (w'.change s'.record.size t'))
    (record : (w.file s.record).Twin k (w'.file s'.record))
    (recent : ∀ {h t : Nat} {key : Key}, Record.entry? (w.file s.record) h = some (key, t) →
      k.oldest ≤ key.round → k.low ≤ t) :
    (s.put w).Twin k top (s'.put w') where
  __ := h
  ticks := by
    intro t compared
    rw [tickAt_put, tickAt_put, tick]
    by_cases here : w.tick = t
    · rw [if_pos here, if_pos (by omega)]
      exact change _ _ (h.ticks t compared)
    · rw [if_neg here, if_neg (by omega)]
      exact h.ticks t compared
  record := record
  recent := recent
  kept := by
    intro t early
    have le := k.low_le
    rw [tickAt_put, if_neg (by omega)]
    exact h.kept t early
  size := by
    have size := h.size
    rw [size_put, size_put, tick]
    omega
  length := by
    intro loose
    have length := h.length loose
    rw [size_put, size_put, tick]
    omega
  base_le := by
    have le := h.base_le
    rw [size_put]
    omega
  room := by
    intro strict
    have before := h.room strict
    rw [size_put]
    omega

/-- Stores stay in step if one run writes what the other need not have. -/
lemma Twin.put_left (files : w.file s.record = s.record)
    (change : k.base ≤ w.tick → ∀ t t', Tick.Twin k t t' → (w.change s.record.size t).Twin k t')
    (kept : w.tick < k.low → ∀ t t' : Tick, t.Like t' → (w.change s.record.size t).Like t')
    (inside : w.tick < max top s.size) (held : ¬ k.strict → w.tick < s.size)
    (room : k.strict → w.tick < maxTicks) : (s.put w).Twin k top s' where
  __ := h
  ticks := by
    intro t compared
    rw [tickAt_put]
    split_ifs with here
    · exact change (by omega) _ _ (h.ticks t compared)
    · exact h.ticks t compared
  record := by
    rw [record_put, files]
    exact h.record
  recent := by
    rw [record_put, files]
    exact h.recent
  kept := by
    intro t early
    rw [tickAt_put]
    split_ifs with here
    · exact kept (by omega) _ _ (h.kept t early)
    · exact h.kept t early
  size := by
    have size := h.size
    rw [size_put]
    omega
  length := by
    intro loose
    have length := h.length loose
    have held := held loose
    rw [size_put]
    omega
  base_le := by
    have le := h.base_le
    rw [size_put]
    omega
  room := by
    intro strict
    have before := h.room strict
    have here := room strict
    rw [size_put]
    omega

lemma Twin.put_right (files : w.file s'.record = s'.record)
    (change : k.base + k.ticks ≤ w.tick → ∀ t t', Tick.Twin k t t' →
      t.Twin k (w.change s'.record.size t')) (inside : w.tick < max (top + k.ticks) s'.size)
    (held : ¬ k.strict → w.tick < s'.size) :
    s.Twin k top (s'.put w) where
  __ := h
  ticks := by
    intro t compared
    rw [tickAt_put]
    split_ifs with here
    · exact change (by omega) _ _ (h.ticks t compared)
    · exact h.ticks t compared
  record := by
    rw [record_put, files]
    exact h.record
  size := by
    have size := h.size
    rw [size_put]
    omega
  length := by
    intro loose
    have length := h.length loose
    have held := held loose
    rw [size_put]
    omega

lemma Twin.gate {u u' : Use} (same : u.Twin k u') (late : k.base ≤ u.tick)
    (inside : u.tick < maxTicks) : (s.put (.gate u)).Twin k top (s'.put (.gate u')) := by
  have size := h.record.size
  have tick : (Write.gate u').tick = (Write.gate u).tick + k.ticks := same.tick
  apply h.put tick late inside
  · intro t t' twin
    rw [size]
    exact twin.putGate (same.op _)
  · simp only [Write.file, same.key]
    cases u.key with
    | none => exact h.record
    | some key =>
      simp only [Option.map_some, same.tick]
      exact h.record.push key (k.late_of_le late)
  · intro handle t key
    simp only [Write.file]
    cases u.key with
    | none => exact h.recent
    | some key' =>
      simp only [Record.entry?_push]
      split_ifs
      · intro found _
        have low := k.low_le
        obtain ⟨_, rfl⟩ := Prod.mk.inj (Option.some.inj found)
        omega
      · exact h.recent

lemma Twin.noise (placement : Placement) (op : NoiseOp)
    (late : k.base ≤ tick) (inside : tick < maxTicks) :
    (s.put (.noise tick placement op)).Twin k top (s'.put (.noise (tick + k.ticks) placement op)) :=
  h.put rfl late inside (fun _ _ twin => twin.putNoise placement op) h.record h.recent

lemma Twin.note (note : Note) (late : k.base ≤ tick)
    (inside : tick < maxTicks) :
    (s.put (.note tick note)).Twin k top (s'.put (.note (tick + k.ticks) (note.later k.handles))) :=
  h.put rfl late inside (fun _ _ twin => twin.tell note) h.record h.recent

lemma Twin.note_early (loose : ¬ k.strict) {tick' : Nat} (note note' : Note)
    (low : k.low ≤ tick) (early : tick < k.base) (early' : tick' < k.base + k.ticks) :
    (s.put (.note tick note)).Twin k top (s'.put (.note tick' note')) := by
  have base := h.base_le
  have length := h.length loose
  have left : (s.put (.note tick note)).Twin k top s' := by
    apply h.put_left rfl
    · intro late
      have late : k.base ≤ tick := late
      omega
    · intro before
      have before : tick < k.low := before
      omega
    · simp only [Write.tick]
      omega
    · intro _
      simp only [Write.tick]
      omega
    · exact fun strict => absurd strict loose
  apply left.put_right rfl
  · intro late
    have late : k.base + k.ticks ≤ tick' := late
    omega
  · simp only [Write.tick]
    omega
  · intro _
    simp only [Write.tick]
    omega

lemma Twin.note_empty {note : Note} (empty : note.isEmpty = true)
    (held : ¬ k.strict → tick < s.size) (inside : tick < maxTicks) :
    (s.put (.note tick note)).Twin k top (s'.put (.note tick (note.later k.handles))) := by
  by_cases strict : k.strict
  · have still := k.still strict
    have late : k.base ≤ tick := by omega
    have both := h.note note late inside
    rwa [still.1, Nat.add_zero] at both
  · have size := held strict
    have length := h.length strict
    have left : (s.put (.note tick note)).Twin k top s' := by
      apply h.put_left rfl
      · exact fun _ t t' twin => twin.tell_left empty strict
      · exact fun _ t t' like => like.tell_empty empty
      · simp only [Write.tick]
        omega
      · exact held
      · exact fun tight => absurd tight strict
    apply left.put_right rfl
    · intro _ t t' twin
      exact twin.tell_right ((Note.isEmpty_later ..).trans empty) strict
    · simp only [Write.tick]
      omega
    · intro _
      simp only [Write.tick]
      omega

end

end Store

end SyndromeSchedule
