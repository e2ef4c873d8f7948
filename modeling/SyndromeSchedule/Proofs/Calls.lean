import Mathlib.Data.List.Nodup
import SyndromeSchedule.Proofs.Writes

/-!
Calls of a store in any order. Whatever is asked of a store, and whether it is accepted or refused,
qubits keep their numbers, every tick knows which qubits its gates take, and the handle of a gate
leads to an entry of its own with the tick of the gate. A gate that is refused for a qubit that is
taken leaves nothing behind but numbers for new qubits.
-/

namespace SyndromeSchedule

open List

/-- What was attempted, without its result. -/
def Attempt.void {σ α : Type} (a : Attempt σ α) : Attempt σ Unit :=
  ⟨a.state, a.outcome.map fun _ => ()⟩

namespace Store

/-- What can be asked of a store. -/
inductive Call where
  | number (q : Qubit)
  | gate (tick : Nat) (g : Gate) (qubits : List Qubit)
  | measure (tick : Nat) (g : Gate) (q : Qubit) (flip : Option Double) (key : Key)
  | product (tick : Nat) (factors : List (Qubit × Pauli)) (flip : Option Double) (key : Key)
  | file (key : Key) (tick : Nat)
  | noise (tick : Nat) (placement : Placement) (channel : Channel) (parameters : List Double)
      (qubits : List Qubit)
  | note (tick : Nat) (n : Note)
  | mark (start stop repetitions : Nat)

/-- The store after a call, and whether it was accepted. -/
def Call.run (s : Store) : Call → Attempt Store Unit
  | number q => ⟨(s.index q).1, .ok ()⟩
  | gate tick g qubits => s.addGate tick g qubits
  | measure tick g q flip key => (s.addMeasurement tick g q flip key).void
  | product tick factors flip key => (s.addProduct tick factors flip key).void
  | file key tick => ⟨s.file key tick, .ok ()⟩
  | noise tick placement channel parameters qubits =>
    .ofOutcome (s.indexAll qubits).1
      ((·, ()) <$> s.addNoise tick placement channel parameters qubits)
  | note tick n => .ofOutcome s ((·, ()) <$> s.annotate tick n)
  | mark start stop repetitions =>
    .ofOutcome s ((·, ()) <$> Outcome.ofExcept .request (s.markRepeat start stop repetitions))

/-- The store after some calls, those that were refused included. -/
def after (s : Store) (calls : List Call) : Store :=
  calls.foldl (fun s call => (call.run s).state) s

/-- What holds of a store after any calls. -/
structure Intact (s : Store) : Prop where
  distinct : s.qubits.Nodup
  /-- The index map has a number for a qubit exactly if the qubit is listed there. -/
  numbers : ∀ q n, s.numbering.indices.get? q = some n ↔ s.qubits[n]? = some q
  gates : ∀ t, ∀ op ∈ (s.tickAt t).gates, ∀ n ∈ op.target.indices, n < s.qubits.length
  noise : ∀ t, ∀ op ∈ (s.tickAt t).before ++ (s.tickAt t).after, ∀ n ∈ op.targets,
    n < s.qubits.length
  busy : ∀ t n, n ∈ (s.tickAt t).busy ↔ ∃ op ∈ (s.tickAt t).gates, n ∈ op.target.indices
  /-- No two gates of a tick act on one qubit. -/
  apart : ∀ t, (s.tickAt t).gates.Pairwise fun a b => ∀ n ∈ a.target.indices, n ∉ b.target.indices
  /-- The index of the record leads from a key to its latest entry. -/
  keys : ∀ key h, s.record.handle? key = some h ↔ (∃ t, s.record.entry? h = some (key, t)) ∧
    ∀ h' t, h < h' → s.record.entry? h' ≠ some (key, t)
  filed : ∀ t, ∀ op ∈ (s.tickAt t).gates, ∀ h, op.handle = some h →
    h < s.record.size ∧ ∃ key, s.record.entry? h = some (key, t)
  /-- Gates that share a handle are one gate. -/
  unshared : ∀ (t i t' i' h : Nat) (op op' : GateOp), (s.tickAt t).gates[i]? = some op →
    (s.tickAt t').gates[i']? = some op' → op.handle = some h → op'.handle = some h →
    t = t' ∧ i = i'
  region : ∀ r, s.region = some r → r.start < r.stop ∧ r.stop ≤ s.size

/-! What a call does. -/

lemma reach_of_lt {s : Store} {tick : Nat} (inside : tick < s.size) : s.reach tick = s := by
  have enough : tick + 1 - s.ticks.size = 0 := Nat.sub_eq_zero_of_le inside
  simp [reach, enough]

lemma claim_cases (s : Store) (tick : Nat) (target : GateTarget) :
    (maxTicks ≤ tick ∧ s.claim tick target = ⟨s, .overflow⟩) ∨
      (∃ q, s.claim tick target = ⟨s, .fail (.conflict tick q)⟩) ∨
      s.IsOpen tick target ∧ s.claim tick target = ⟨s.claimed tick target, .ok ()⟩ := by
  rw [claim_eq]
  split_ifs with far
  · exact .inl ⟨far, rfl⟩
  · cases taken : (s.reach tick).conflict? tick target with
    | none =>
      have free := ((s.reach tick).conflict?_eq_none tick target).mp taken
      exact .inr (.inr ⟨(s.isOpen_reach tick target).mp free, rfl⟩)
    | some q =>
      -- A qubit can only be taken in a tick that is there already.
      have inside : tick < s.size := by
        by_contra past
        have free : (s.reach tick).conflict? tick target = none := by
          rw [conflict?_eq_none, isOpen_reach, IsOpen, tickAt_of_size_le (Nat.le_of_not_lt past)]
          exact fun _ _ => not_mem_nil
        rw [free] at taken
        cases taken
      rw [reach_of_lt inside]
      exact .inr (.inl ⟨q, rfl⟩)

lemma addOutcome_cases (s : Store) {u : Use} {key : Key} (files : u.key = some key) :
    (maxTicks ≤ u.tick ∧ s.addOutcome u.tick u.gate u.target u.flip key = ⟨s, .overflow⟩) ∨
      (∃ q, s.addOutcome u.tick u.gate u.target u.flip key = ⟨s, .fail (.conflict u.tick q)⟩) ∨
      s.IsOpen u.tick u.target ∧ s.addOutcome u.tick u.gate u.target u.flip key =
        ⟨s.put (.gate u), .ok s.record.size⟩ := by
  rw [addOutcome_eq s files]
  rcases s.claim_cases u.tick u.target with ⟨far, overflows⟩ | ⟨q, refused⟩ | ⟨free, claimed⟩
  · rw [overflows]
    exact .inl ⟨far, rfl⟩
  · rw [refused]
    exact .inr (.inl ⟨q, rfl⟩)
  · rw [claimed]
    exact .inr (.inr ⟨free, rfl⟩)

end Store

/-- Whether a write refers to numbered qubits only and takes none that is taken. -/
def Write.Admissible (s : Store) : Write → Prop
  | gate u => (∀ n ∈ u.target.indices, n < s.qubits.length) ∧ s.IsOpen u.tick u.target
  | noise _ _ op => ∀ n ∈ op.targets, n < s.qubits.length
  | note _ _ => True

namespace Store

variable {s next : Store} {w : Write} {t : Nat} {outcome : Outcome Unit}

/-- What a call can do to a store, with its outcome: a failed call at most numbers qubits. -/
inductive Effect (s : Store) : Outcome Unit → Store → Prop where
  | number (qubits : List Qubit) (outcome : Outcome Unit) : Effect s outcome (s.indexAll qubits).1
  | put (qubits : List Qubit) (w : Write) (admissible : w.Admissible (s.indexAll qubits).1) :
      Effect s (.ok ()) ((s.indexAll qubits).1.put w)
  | file (key : Key) (tick : Nat) : Effect s (.ok ()) (s.file key tick)
  | mark (r : Region) (some_tick : r.start < r.stop) (inside : r.stop ≤ s.size) :
      Effect s (.ok ()) { s with region := some r }

lemma effect_gate (s : Store) (tick : Nat) (gate : Gate) (qubits : List Qubit) :
    Effect s (s.addGate tick gate qubits).outcome (s.addGate tick gate qubits).state := by
  have names := (indexAll_numbering qubits s).2
  rw [addGate_eq]
  rcases (s.indexAll qubits).1.claim_cases tick (s.gateUse tick gate qubits).target with
    ⟨_, overflows⟩ | ⟨q, refused⟩ | ⟨free, claimed⟩
  · rw [overflows]
    exact .number qubits _
  · rw [refused]
    exact .number qubits _
  · rw [claimed]
    exact .put qubits (.gate (s.gateUse tick gate qubits)) ⟨names.lt, free⟩

lemma effect_outcome (s : Store) (qubits : List Qubit) {u : Use} {key : Key}
    (files : u.key = some key)
    (named : ∀ n ∈ u.target.indices, n < (s.indexAll qubits).1.qubits.length) :
    Effect s ((s.indexAll qubits).1.addOutcome u.tick u.gate u.target u.flip key).void.outcome
      ((s.indexAll qubits).1.addOutcome u.tick u.gate u.target u.flip key).void.state := by
  rcases (s.indexAll qubits).1.addOutcome_cases files with
    ⟨_, overflows⟩ | ⟨q, refused⟩ | ⟨free, made⟩
  · rw [overflows]
    exact .number qubits _
  · rw [refused]
    exact .number qubits _
  · rw [made]
    exact .put qubits (.gate u) ⟨named, free⟩

/-- Every call has one of the effects. -/
lemma effect_run (s : Store) (call : Call) :
    Effect s (call.run s).outcome (call.run s).state := by
  cases call with
  | number q => exact .number [q] _
  | gate tick gate qubits => exact s.effect_gate tick gate qubits
  | measure tick gate q flip key =>
    exact s.effect_outcome [q] (u := s.measureUse tick gate q flip key) rfl
      (indexAll_numbering [q] s).2.lt
  | product tick factors flip key =>
    have names := (indexAll_numbering (factors.map (·.1)) s).2
    have named : ∀ n ∈ (s.productUse tick factors flip key).target.indices,
        n < (s.indexAll (factors.map (·.1))).1.qubits.length := by
      simp only [productUse, GateTarget.indices]
      rw [map_snd_zip (by simp [names.length_eq])]
      exact names.lt
    have made := s.effect_outcome (factors.map (·.1)) (u := s.productUse tick factors flip key)
      rfl named
    simp only [Call.run, addProduct]
    exact made
  | file key tick => exact .file key tick
  | noise tick placement channel parameters qubits =>
    simp only [Call.run, addNoise, ensure]
    split_ifs
    · exact .number qubits _
    · exact .put qubits (.noise tick placement ⟨channel, parameters, (s.indexAll qubits).2⟩)
        (indexAll_numbering qubits s).2.lt
  | note tick note =>
    simp only [Call.run, annotate, ensure]
    split_ifs
    · exact .number [] _
    · exact .put [] (.note tick note) trivial
  | mark start stop repetitions =>
    simp only [Call.run, markRepeat]
    split_ifs with sound
    · simp only [Bool.and_eq_true, decide_eq_true_eq] at sound
      exact .mark ⟨start, stop, repetitions⟩ sound.1 sound.2
    · exact .number [] _

/-! What every effect keeps. -/

end Store

lemma Numbering.qubits_nodup (m : Numbering) : m.qubits.Nodup := by
  refine List.nodup_iff_getElem?_ne_getElem?.mpr fun i j before inside same => ?_
  have first : m.qubits[i]? = some m.qubits[i] := List.getElem?_eq_getElem (by omega)
  have number := (m.inverse _ i).mpr first
  rw [(m.inverse _ j).mpr (same ▸ first)] at number
  exact absurd (Option.some.inj number) (by omega)

namespace Store

variable {s next : Store} {w : Write} {t : Nat} {outcome : Outcome Unit}

lemma Intact.empty : empty.Intact where
  distinct := nodup_nil
  numbers := Numbering.inverse .empty
  keys := fun _ _ => Record.handle?_eq_some_iff
  gates := by simp [tickAt, Store.empty]
  noise := by simp [tickAt, Store.empty]
  busy := by simp [tickAt, Store.empty]
  apart := by simp [tickAt, Store.empty]
  filed := by simp [tickAt, Store.empty]
  unshared := by simp [tickAt, Store.empty]
  region := by simp [Store.empty]

lemma Intact.number (intact : s.Intact) (qubits : List Qubit) :
    (s.indexAll qubits).1.Intact := by
  have longer := (indexAll_numbering qubits s).1.length_le
  rw [indexAll_eq]
  exact {
    distinct := Numbering.qubits_nodup _
    numbers := Numbering.inverse _
    keys := intact.keys
    gates := fun t op mem n inside => (intact.gates t op mem n inside).trans_le longer
    noise := fun t op mem n inside => (intact.noise t op mem n inside).trans_le longer
    busy := intact.busy
    apart := intact.apart
    filed := intact.filed
    unshared := intact.unshared
    region := intact.region }

lemma Intact.file (intact : s.Intact) (key : Key) (tick : Nat) : (s.file key tick).Intact where
  __ := intact
  keys := fun _ _ => Record.handle?_eq_some_iff
  filed := by
    intro t op mem h has
    obtain ⟨inside, key', entry⟩ := intact.filed t op mem h has
    exact ⟨Nat.lt_succ_of_lt inside, key', Record.entry?_push_of_some entry⟩

lemma Intact.mark (intact : s.Intact) {r : Region} (some_tick : r.start < r.stop)
    (inside : r.stop ≤ s.size) : ({ s with region := some r } : Store).Intact where
  __ := intact
  region := by
    intro _ marked
    rw [← Option.some.inj marked]
    exact ⟨some_tick, inside⟩

lemma mem_noise_put {op : NoiseOp}
    (mem : op ∈ ((s.put w).tickAt t).before ++ ((s.put w).tickAt t).after) :
    op ∈ (s.tickAt t).before ++ (s.tickAt t).after ∨
      ∃ tick placement, w = .noise tick placement op := by
  rw [tickAt_put] at mem
  split_ifs at mem with here
  · cases w with
    | gate u => exact .inl mem
    | noise tick placement new =>
      cases placement with
      | before =>
        simp only [Write.change, putNoise, mem_append, mem_singleton] at mem ⊢
        rcases mem with (old | rfl) | old
        · exact .inl (.inl old)
        · exact .inr ⟨tick, .before, rfl⟩
        · exact .inl (.inr old)
      | after =>
        simp only [Write.change, putNoise, mem_append, mem_singleton] at mem ⊢
        rcases mem with old | old | rfl
        · exact .inl (.inl old)
        · exact .inl (.inr old)
        · exact .inr ⟨tick, .after, rfl⟩
    | note tick note => exact .inl mem
  · exact .inl mem

lemma mem_busy_put {n : Nat} : n ∈ ((s.put w).tickAt t).busy ↔
      n ∈ (s.tickAt t).busy ∨ ∃ u, w = .gate u ∧ u.tick = t ∧ n ∈ u.target.indices := by
  rw [tickAt_put]
  cases w with
  | gate u =>
    by_cases here : u.tick = t
    · simp [Write.tick, Write.change, putGate, mem_takeUp, here, Use.op]
    · simp [Write.tick, here]
  | noise tick placement op =>
    cases placement with
    | before | after =>
      split_ifs
      · simp [Write.change, putNoise]
      · simp
  | note tick note =>
    split_ifs
    · simp [Write.change]
    · simp

lemma handle_put (intact : s.Intact) {i h : Nat} {op : GateOp}
    (found : ((s.put w).tickAt t).gates[i]? = some op) (has : op.handle = some h) :
    (h < s.record.size ∧ (s.tickAt t).gates[i]? = some op) ∨
      (h = s.record.size ∧ t = w.tick ∧ i = (s.tickAt t).gates.length) := by
  rw [gates_put] at found
  by_cases old : i < (s.tickAt t).gates.length
  · rw [getElem?_append_left old] at found
    exact .inl ⟨(intact.filed t op (mem_of_getElem? found) h has).1, found⟩
  · rw [getElem?_append_right (Nat.le_of_not_lt old)] at found
    cases w with
    | gate u =>
      by_cases here : u.tick = t
      · simp only [uses, filterMap_cons, filterMap_nil, filter_cons, here,
          decide_true, if_true, filter_nil, map_cons, map_nil] at found
        have first : i - (s.tickAt t).gates.length = 0 := by
          by_contra later
          rw [getElem?_eq_none (by simp; omega)] at found
          cases found
        rw [first, getElem?_cons_zero, Option.some.injEq] at found
        subst found
        simp only [Use.op, Option.map_eq_some_iff] at has
        obtain ⟨_, _, rfl⟩ := has
        exact .inr ⟨rfl, here.symm, by omega⟩
      · simp [uses, here] at found
    | noise _ _ _ | note _ _ => simp [uses] at found

/-- An admissible write keeps a store intact. -/
lemma Intact.put (intact : s.Intact) (admissible : w.Admissible s) : (s.put w).Intact where
  distinct := intact.distinct
  numbers := intact.numbers
  keys := fun _ _ => Record.handle?_eq_some_iff
  gates := by
    intro t op mem n inside
    rcases mem_gates_put.mp mem with old | ⟨u, rfl, _, rfl⟩
    · exact intact.gates t op old n inside
    · exact admissible.1 n inside
  noise := by
    intro t op mem n inside
    rcases mem_noise_put mem with old | ⟨tick, placement, rfl⟩
    · exact intact.noise t op old n inside
    · exact admissible n inside
  busy := by
    intro t n
    rw [mem_busy_put, intact.busy]
    constructor
    · rintro (⟨op, mem, inside⟩ | ⟨u, rfl, here, inside⟩)
      · exact ⟨op, mem_gates_put.mpr (.inl mem), inside⟩
      · exact ⟨_, mem_gates_put.mpr (.inr ⟨u, rfl, here, rfl⟩), inside⟩
    · rintro ⟨op, mem, inside⟩
      rcases mem_gates_put.mp mem with old | ⟨u, rfl, here, rfl⟩
      · exact .inl ⟨op, old, inside⟩
      · exact .inr ⟨u, rfl, here, inside⟩
  apart := by
    intro t
    rw [gates_put, pairwise_append]
    refine ⟨intact.apart t, ?_, ?_⟩
    · cases w with
      | gate u =>
        by_cases here : u.tick = t
        · simp [uses, here]
        · simp [uses, here]
      | noise _ _ _ | note _ _ => simp [uses]
    · intro old known new made n inside
      obtain ⟨u, chosen, rfl⟩ := mem_map.mp made
      obtain ⟨is_gate, here⟩ := mem_filter.mp chosen
      obtain rfl := mem_singleton.mp (mem_uses.mp is_gate)
      obtain rfl : u.tick = t := by simpa using here
      exact fun again => admissible.2 n again ((intact.busy u.tick n).mpr ⟨old, known, inside⟩)
  filed := by
    intro t op mem h has
    have entry : ∃ key, Record.entry? (s.put w).record h = some (key, t) := by
      rcases mem_gates_put.mp mem with old | ⟨u, rfl, here, rfl⟩
      · obtain ⟨_, key, known⟩ := intact.filed t op old h has
        exact ⟨key, entry?_put.mpr (.inl known)⟩
      · simp only [Use.op, Option.map_eq_some_iff] at has
        obtain ⟨key, files, rfl⟩ := has
        exact ⟨key, entry?_put.mpr (.inr ⟨u, key, rfl, files, rfl, by rw [here]⟩)⟩
    obtain ⟨key, found⟩ := entry
    exact ⟨Record.lt_size found, key, found⟩
  unshared := by
    intro t i t' i' h op op' found found' has has'
    rcases handle_put intact found has with ⟨older, old⟩ | ⟨rfl, rfl, rfl⟩
    · rcases handle_put intact found' has' with ⟨_, old'⟩ | ⟨newest, _, _⟩
      · exact intact.unshared t i t' i' h op op' old old' has has'
      · omega
    · rcases handle_put intact found' has' with ⟨older, _⟩ | ⟨_, rfl, rfl⟩
      · omega
      · exact ⟨rfl, rfl⟩
  region := by
    intro r marked
    obtain ⟨some_tick, inside⟩ := intact.region r marked
    rw [size_put]
    exact ⟨some_tick, by omega⟩

lemma Intact.effect (intact : s.Intact) (h : Effect s outcome next) : next.Intact := by
  cases h with
  | number qubits _ => exact intact.number qubits
  | put qubits w admissible => exact (intact.number qubits).put admissible
  | file key tick => exact intact.file key tick
  | mark r some_tick inside => exact intact.mark some_tick inside

lemma Intact.after (intact : s.Intact) (calls : List Call) : (s.after calls).Intact := by
  induction calls generalizing s with
  | nil => exact intact
  | cons call rest ih => exact ih (intact.effect (s.effect_run call))

lemma Effect.region_isSome (h : Effect s outcome next)
    (marked : s.region.isSome) : next.region.isSome := by
  cases h with
  | number qubits _ =>
    rwa [indexAll_eq]
  | put qubits w _ =>
    rwa [region_put, indexAll_eq]
  | file _ _ => exact marked
  | mark _ _ _ => rfl

lemma Effect.refused {halt : Halt} (h : Effect s (.error halt) next) :
    next.ticks = s.ticks ∧ next.record = s.record ∧ next.region = s.region ∧
      s.qubits <+: next.qubits := by
  generalize same : (Except.error halt : Outcome Unit) = outcome at h
  cases h with
  | number qubits _ =>
    refine ⟨?_, ?_, ?_, (indexAll_numbering qubits s).1⟩
    all_goals rw [indexAll_eq]
  | put _ _ _ | file _ _ | mark _ _ _ => cases same

/-- A store is intact after any calls, and after any further one; a region once marked stays marked;
and a call that is refused for a conflict changes neither ticks nor record nor region, and numbers
new qubits at most. -/
theorem intact_after_calls (calls : List Call) (call : Call) :
    (empty.after calls).Intact ∧ (call.run (empty.after calls)).state.Intact ∧
    ((empty.after calls).region.isSome → (call.run (empty.after calls)).state.region.isSome) ∧
    ∀ tick qubit, (call.run (empty.after calls)).outcome = .fail (.conflict tick qubit) →
      (call.run (empty.after calls)).state.ticks = (empty.after calls).ticks ∧
      (call.run (empty.after calls)).state.record = (empty.after calls).record ∧
      (call.run (empty.after calls)).state.region = (empty.after calls).region ∧
      (empty.after calls).qubits <+: (call.run (empty.after calls)).state.qubits := by
  have intact := Intact.empty.after calls
  have effect := (empty.after calls).effect_run call
  refine ⟨intact, intact.effect effect, effect.region_isSome, ?_⟩
  intro tick qubit refused
  rw [refused] at effect
  exact effect.refused

/-- A reset, a measurement that is filed twice under one key, and a region around it. -/
def measuredTwice : List Call :=
  [.gate 0 .R [⟨[0]⟩], .measure 1 .M ⟨[0]⟩ none ⟨0, .empty⟩, .measure 2 .M ⟨[0]⟩ none ⟨0, .empty⟩,
    .mark 1 3 4]

theorem intact_after_calls_measuredTwice :
    (Call.run (empty.after measuredTwice) (.gate 2 .CX [⟨[1]⟩, ⟨[0]⟩])).outcome =
      .fail (.conflict 2 0) ∧
    (empty.after measuredTwice).region.isSome = true ∧
    (Call.run (empty.after measuredTwice) (.gate 2 .CX [⟨[1]⟩, ⟨[0]⟩])).state.ticks =
      (empty.after measuredTwice).ticks ∧
    (empty.after measuredTwice).qubits <+:
      (Call.run (empty.after measuredTwice) (.gate 2 .CX [⟨[1]⟩, ⟨[0]⟩])).state.qubits := by
  have refused : (Call.run (empty.after measuredTwice) (.gate 2 .CX [⟨[1]⟩, ⟨[0]⟩])).outcome =
      .fail (.conflict 2 0) := by decide +kernel
  obtain ⟨_, _, _, kept⟩ := intact_after_calls measuredTwice (.gate 2 .CX [⟨[1]⟩, ⟨[0]⟩])
  obtain ⟨ticks, _, _, numbering⟩ := kept 2 0 refused
  exact ⟨refused, by decide +kernel, ticks, numbering⟩

end Store

end SyndromeSchedule
