import SyndromeSchedule.Proofs.Writes
import SyndromeSchedule.Resolution.Resolver

/-!
Bookkeeping of detectors. At all times an instance misses exactly the outcomes that are not on
record, it is listed under exactly these, and it is written once none is missing. So a report never
meets an instance that is already written, and an instance is written only when all its outcomes can
be found.
-/

namespace SyndromeSchedule

open List Outcome

/-- A tick at or after all outcomes of some handles, and as early as possible. -/
structure Record.Latest (r : Record) (handles : List Nat) (tick : Nat) : Prop where
  after : ∀ h ∈ handles, ∃ key t, r.entry? h = some (key, t) ∧ t ≤ tick
  attained : (handles = [] ∧ tick = 0) ∨ ∃ h ∈ handles, ∃ key, r.entry? h = some (key, tick)

/-- All outcomes on record were made in ticks there is room for. -/
def Record.Roomy (r : Record) : Prop :=
  ∀ h key t, r.entry? h = some (key, t) → t < Store.maxTicks

lemma Record.Latest.lt_maxTicks {r : Record} {handles : List Nat} {tick : Nat}
    (latest : r.Latest handles tick) (roomy : r.Roomy) : tick < Store.maxTicks := by
  rcases latest.attained with ⟨_, rfl⟩ | ⟨h, _, key, entry⟩
  · decide
  · exact roomy h key tick entry


namespace Progress

variable {s : Store} {handles : List Nat} {reasons : Halt → Prop} {room : Prop}

/-- A detector of some keys is written into the tick of the latest one. -/
def Written (s : Store) (keys : List Key) (next : Store) : Prop :=
  ∃ handles tick, Forall₂ (fun key h => s.record.handle? key = some h) keys handles ∧
    s.record.Latest handles tick ∧ next = s.put (.note tick (.detector handles))

lemma latestTick_eq_ok {tick : Nat} (h : latestTick s handles = .ok tick) :
    s.record.Latest handles tick := by
  obtain ⟨ticks, found, rfl⟩ := of_bind_pure h
  have entries := mapM_eq_ok.mp found
  have entry : ∀ h t, s.record.tickOf h = .ok t → ∃ key, s.record.entry? h = some (key, t) := by
    intro h t found
    obtain ⟨⟨key, t'⟩, entry, rfl⟩ := map_eq_ok.mp found
    exact ⟨key, ofIndex_eq_ok.mp entry⟩
  obtain ⟨_, all, attained⟩ := foldl_max_spec ticks 0
  constructor
  · intro h mem
    obtain ⟨t, inside, found⟩ := exists_right_of_forall₂ entries mem
    obtain ⟨key, known⟩ := entry h t found
    exact ⟨key, t, known, all t inside⟩
  · cases entries with
    | nil => exact .inl ⟨rfl, rfl⟩
    | @cons handle t handles ticks first others =>
      -- The maximum is attained even if it is zero, since there is an outcome.
      have inside : (t :: ticks).foldl max 0 ∈ t :: ticks := by
        rcases attained with zero | inside
        · have low : t ≤ (t :: ticks).foldl max 0 := all t (.head _)
          have same : t = (t :: ticks).foldl max 0 := by omega
          rw [← same]
          exact .head _
        · exact inside
      have pairs : Forall₂ (fun h t => s.record.tickOf h = .ok t) (handle :: handles)
          (t :: ticks) := .cons first others
      obtain ⟨h', mem, found⟩ := exists_left_of_forall₂ pairs inside
      exact .inr ⟨h', mem, entry h' _ found⟩

lemma latestTick_meets (known : ∀ h ∈ handles, h < s.record.size) :
    (latestTick s handles).Meets reasons (s.record.Latest handles) := by
  have ticks : (handles.mapM s.record.tickOf).Meets reasons
      (Forall₂ (fun _ _ => True) handles) := by
    refine Outcome.Meets.mapM handles fun h mem => ?_
    obtain ⟨key, t, entry⟩ := Record.exists_entry (known h mem)
    rw [Record.tickOf_eq_ok entry]
    exact meets_ok trivial
  have safe : (latestTick s handles).Meets reasons fun _ => True := ticks.bind fun _ _ => trivial
  exact safe.strengthen fun tick found _ => latestTick_eq_ok found

lemma placeDetector_within (roomy : room → s.record.Roomy)
    (known : ∀ h ∈ handles, h < s.record.size) :
    (placeDetector s handles).Within room fun next => ∃ tick, s.record.Latest handles tick ∧
      next = s.put (.note tick (.detector handles)) := by
  refine (latestTick_meets known).bind fun tick latest => ?_
  refine (s.annotate_within (fun room => latest.lt_maxTicks (roomy room)) _).imp ?_
  exact fun next same => ⟨tick, latest, same⟩

lemma placeDetector_eq_ok {next : Store} (h : placeDetector s handles = .ok next) :
    ∃ tick, s.record.Latest handles tick ∧ next = s.put (.note tick (.detector handles)) := by
  obtain ⟨tick, found, h⟩ := of_bind h
  exact ⟨tick, latestTick_eq_ok found, (s.annotate_meets tick _).of_ok h⟩

lemma writeDetector_eq_ok {next : Store} {keys : List Key} (h : writeDetector s keys = .ok next) :
    Written s keys next := by
  obtain ⟨handles, found, h⟩ := of_bind h
  obtain ⟨tick, latest, same⟩ := placeDetector_eq_ok h
  refine ⟨handles, tick, ?_, latest, same⟩
  refine (mapM_eq_ok.mp found).imp ?_
  intro key handle made
  exact Record.lookupMade_eq_ok.mp made

lemma writeDetector_within {keys : List Key} (roomy : room → s.record.Roomy)
    (known : ∀ key ∈ keys, s.record.contains key = true) :
    (writeDetector s keys).Within room (Written s keys) := by
  have handles : (keys.mapM s.record.lookupMade).Within room
      (Forall₂ (fun _ h => h < s.record.size) keys) := by
    refine Outcome.Meets.mapM keys fun key mem => ?_
    obtain ⟨handle, t, found, _, entry⟩ := Record.lookupMade_of_contains (known key mem)
    rw [found]
    exact meets_ok (Record.lt_size entry)
  have safe : (writeDetector s keys).Within room fun _ => True := by
    refine handles.bind fun hs entries => ?_
    refine (placeDetector_within roomy fun h mem => ?_).imp fun _ _ => trivial
    obtain ⟨_, _, entry⟩ := exists_left_of_forall₂ entries mem
    exact entry
  exact safe.strengthen fun next found _ => writeDetector_eq_ok found

end Progress

/-! Instances that wait. -/

namespace Resolver

/-- Instances listed under a key. -/
def waiting (r : Resolver) (key : Key) : List Nat := (r.triggers.lookup key).getD []

lemma lookup_addTrigger (key k : Key) (id : Nat) (ts : List (Key × List Nat)) :
    ((addTrigger key id ts).lookup k).getD [] =
      (ts.lookup k).getD [] ++ if k = key then [id] else [] := by
  induction ts with
  | nil =>
    by_cases h : k = key
    · simp [addTrigger, h]
    · have different : (k == key) = false := by simpa using h
      simp [addTrigger, h, lookup_cons, different]
  | cons head rest ih =>
    obtain ⟨k', ids⟩ := head
    simp only [addTrigger]
    by_cases same : k' = key
    · subst same
      by_cases h : k = k'
      · simp [h]
      · have different : (k == k') = false := by simpa using h
        simp [h, lookup_cons, different]
    · rw [if_neg same]
      by_cases h : k = k'
      · subst h
        simp [same]
      · have different : (k == k') = false := by simpa using h
        simp only [lookup_cons, different, ih]

lemma lookup_addTriggers (missing : List Key) (distinct : missing.Nodup) (id : Nat) (k : Key)
    (ts : List (Key × List Nat)) :
    ((missing.foldl (fun ts key => addTrigger key id ts) ts).lookup k).getD [] =
      (ts.lookup k).getD [] ++ if k ∈ missing then [id] else [] := by
  induction missing generalizing ts with
  | nil => simp
  | cons key rest ih =>
    obtain ⟨fresh, distinct⟩ := nodup_cons.mp distinct
    rw [foldl_cons, ih distinct, lookup_addTrigger, append_assoc]
    congr 1
    by_cases same : k = key
    · subst same
      simp [fresh]
    · simp [same]

lemma lookup_filter_ne (key k : Key) (ts : List (Key × List Nat)) :
    ((ts.filter (·.1 ≠ key)).lookup k).getD [] = if k = key then [] else (ts.lookup k).getD [] := by
  induction ts with
  | nil => simp
  | cons head rest ih =>
    obtain ⟨k', ids⟩ := head
    by_cases same : k' = key
    · subst same
      simp only [filter_cons, ne_eq, not_true_eq_false, decide_false, Bool.false_eq_true,
        if_false, lookup_cons]
      rw [ih]
      by_cases h : k = k'
      · simp [h]
      · have different : (k == k') = false := by simpa using h
        simp [h, different]
    · simp only [filter_cons, ne_eq, same, not_false_eq_true, decide_true, if_true, lookup_cons]
      by_cases h : k = k'
      · subst h
        simp [same]
      · have different : (k == k') = false := by simpa using h
        simp only [different]
        exact ih

lemma modify_modify (r : Resolver) (id : Nat) (f g : Instance → Instance) :
    (r.modify id f).modify id g = r.modify id (g ∘ f) := by
  simp only [modify]
  congr 1
  refine Array.ext_getElem? fun k => ?_
  simp only [Array.getElem?_modify]
  by_cases h : id = k
  · simp [h]
  · simp [h]

lemma getElem?_modify (r : Resolver) (id k : Nat) (f : Instance → Instance) :
    (r.modify id f).instances[k]? =
      if id = k then (r.instances[k]?).map f else r.instances[k]? :=
  Array.getElem?_modify

@[simp] lemma size_modify (r : Resolver) (id : Nat) (f : Instance → Instance) :
    (r.modify id f).instances.size = r.instances.size :=
  Array.size_modify ..

end Resolver

/-- An instance misses the outcomes that are not on record, and some more that it will be told of,
and it is written if it misses none. -/
structure Instance.Settled (r : Record) (late : Nat) (i : Instance) : Prop where
  distinct : i.constituents.Nodup
  missing : i.missing = (i.constituents.filter (!r.contains ·)).length + late
  stage : i.stage = if i.missing = 0 then .resolved else .pending

namespace Progress

variable {room : Prop} {p next : Progress} {id : Nat} {u : Unit} {i : Instance} {rest : List Nat}
  {keys : List Key}

/-- Whether an instance waits for a key that is not on record. -/
def waitsFor (p : Progress) (key : Key) (id : Nat) : Bool :=
  !p.store.record.contains key && (p.resolver.instances[id]?).any (key ∈ ·.constituents)

/-- Instances and lists of triggers agree with the record, but for instances that still have to be
told of the latest outcome. -/
structure Awaiting (p : Progress) (ids : List Nat) : Prop where
  distinct : ids.Nodup
  present : ∀ id ∈ ids, id < p.resolver.instances.size
  settled : ∀ {id : Nat} {i : Instance}, p.resolver.instances[id]? = some i →
    i.Settled p.store.record (if id ∈ ids then 1 else 0)
  listed : ∀ key, p.resolver.waiting key =
    (List.range p.resolver.instances.size).filter (p.waitsFor key)

/-- Instances and lists of triggers agree with the record. -/
def Consistent (p : Progress) : Prop := p.Awaiting []

lemma Consistent.congr (consistent : p.Consistent) (resolver : next.resolver = p.resolver)
    (record : next.store.record = p.store.record) :
    next.Consistent := by
  obtain ⟨distinct, present, settled, listed⟩ := consistent
  have waits : next.waitsFor = p.waitsFor := by
    funext key id
    simp only [waitsFor, resolver, record]
  refine ⟨distinct, ?_, ?_, ?_⟩
  · rwa [resolver]
  · rwa [resolver, record]
  · rwa [resolver, waits]

lemma commit_trigger (p : Progress) (id : Nat) :
    (p.trigger id).commit = Outcome.ofIndex p.resolver.instances[id]? >>= fun i =>
      writeDetector p.store i.constituents >>= fun store =>
        .ok (⟨p.resolver.modify id fun i => { i with stage := .resolved }, store⟩, ()) := by
  simp only [trigger, Resolver.modify_modify]
  cases p.resolver.instances[id]? with
  | none => rfl
  | some i =>
    simp only [Outcome.ofIndex, bind, Except.bind]
    cases writeDetector p.store i.constituents <;> rfl

lemma trigger_eq_ok (h : (p.trigger id).commit = .ok (next, u)) :
    ∃ i store, p.resolver.instances[id]? = some i ∧ Written p.store i.constituents store ∧
      next = ⟨p.resolver.modify id fun i => { i with stage := .resolved }, store⟩ := by
  rw [commit_trigger] at h
  obtain ⟨i, found, h⟩ := of_bind h
  obtain ⟨store, written, h⟩ := of_bind h
  cases h
  exact ⟨i, store, ofIndex_eq_ok.mp found, writeDetector_eq_ok written, rfl⟩

lemma trigger_within (roomy : room → p.store.record.Roomy)
    (found : p.resolver.instances[id]? = some i)
    (known : ∀ key ∈ i.constituents, p.store.record.contains key = true) :
    (p.trigger id).Within room fun _ _ => True := by
  apply Attempt.Meets.of_commit
  rw [commit_trigger, found]
  exact (writeDetector_within roomy known).bind fun _ _ => meets_ok trivial

lemma commit_arrive (p : Progress) (id : Nat) :
    (p.arrive id).commit = Outcome.ofIndex p.resolver.instances[id]? >>= fun i =>
      Outcome.pred i.missing >>= fun missing =>
        if missing = 0 then
          (({ p with resolver := p.resolver.modify id fun i => { i with missing } } :
            Progress).trigger id).commit
        else .ok ({ p with resolver := p.resolver.modify id fun i => { i with missing } }, ()) := by
  unfold arrive
  cases p.resolver.instances[id]? with
  | none => rfl
  | some i =>
    cases count : i.missing with
    | zero => simp only [Outcome.ofIndex, bind, Except.bind, count, Outcome.pred]; rfl
    | succ missing =>
      simp only [Outcome.ofIndex, bind, Except.bind, count, Outcome.pred]
      split_ifs <;> rfl

lemma arrive_eq_ok (h : (p.arrive id).commit = .ok (next, u)) :
    ∃ i, p.resolver.instances[id]? = some i ∧ 0 < i.missing ∧
      if i.missing = 1 then
        ∃ store, Written p.store i.constituents store ∧
          next = ⟨p.resolver.modify id fun i => { i with missing := 0, stage := .resolved }, store⟩
      else
        next = { p with resolver := p.resolver.modify id fun j =>
          { j with missing := i.missing - 1 } } := by
  rw [commit_arrive] at h
  obtain ⟨i, found, h⟩ := of_bind h
  have found := ofIndex_eq_ok.mp found
  obtain ⟨missing, counted, h⟩ := of_bind h
  have count := pred_eq_ok.mp counted
  refine ⟨i, found, by omega, ?_⟩
  simp only [count, Nat.add_eq_right, Nat.add_one_sub_one]
  split_ifs at h ⊢ with last
  · subst last
    obtain ⟨j, store, again, written, rfl⟩ := trigger_eq_ok h
    simp only [Resolver.getElem?_modify, if_true, found, Option.map_some,
      Option.some.injEq] at again
    subst again
    refine ⟨store, written, ?_⟩
    simp only [Resolver.modify_modify]
    rfl
  · cases h
    rfl

lemma arrive_within (roomy : room → p.store.record.Roomy)
    (found : p.resolver.instances[id]? = some i) (pos : 0 < i.missing)
    (known : i.missing = 1 → ∀ key ∈ i.constituents, p.store.record.contains key = true) :
    (p.arrive id).Within room fun _ _ => True := by
  obtain ⟨m, count⟩ : ∃ m, i.missing = m + 1 := ⟨i.missing - 1, by omega⟩
  simp only [arrive, found, Outcome.ofIndex, bind, Except.bind, count, Outcome.pred]
  split_ifs with last
  · subst last
    refine trigger_within roomy (i := { i with missing := 0 }) ?_ (known count)
    simp [Resolver.getElem?_modify, found]
  · exact meets_ok trivial

/-- One instance fewer has to be told. -/
theorem Awaiting.arrive (awaiting : p.Awaiting (id :: rest))
    (h : (p.arrive id).commit = .ok (next, u)) :
    next.Awaiting rest := by
  obtain ⟨i, found, pos, result⟩ := arrive_eq_ok h
  obtain ⟨fresh, distinct⟩ := nodup_cons.mp awaiting.distinct
  have before := awaiting.settled found
  rw [if_pos (.head _)] at before
  -- Both outcomes change the same instance and neither changes the record.
  have step : ∀ (change : Instance → Instance) (store : Store), store.record = p.store.record →
      (change i).Settled p.store.record 0 → (∀ j, (change j).constituents = j.constituents) →
      (⟨p.resolver.modify id change, store⟩ : Progress).Awaiting rest := by
    intro change store record settled same
    refine ⟨distinct, ?_, ?_, ?_⟩
    · intro k mem
      rw [Resolver.size_modify]
      exact awaiting.present k (.tail _ mem)
    · intro k j at_k
      rw [Resolver.getElem?_modify] at at_k
      simp only [record]
      split_ifs at at_k with here
      · subst here
        rw [found] at at_k
        obtain rfl := Option.some.inj at_k
        rwa [if_neg fresh]
      · have old := awaiting.settled at_k
        have other : k ∈ id :: rest ↔ k ∈ rest := by simp [Ne.symm here]
        simpa only [other] using old
    · intro key
      rw [Resolver.size_modify]
      refine (awaiting.listed key).trans (filter_congr fun k _ => ?_)
      simp only [waitsFor, record, Resolver.getElem?_modify]
      split_ifs with here
      · simp [Option.any_map, same]
      · rfl
  split_ifs at result with last
  · obtain ⟨store, written, rfl⟩ := result
    obtain ⟨handles, tick, _, _, rfl⟩ := written
    refine step _ _ rfl ?_ fun _ => rfl
    have none_missing := before.missing
    exact ⟨before.distinct, by simp only; omega, rfl⟩
  · subst result
    refine step _ _ rfl ?_ fun _ => rfl
    have some_missing := before.missing
    have still : i.missing - 1 ≠ 0 := by omega
    have stage := before.stage
    rw [if_neg (by omega)] at stage
    exact ⟨before.distinct, by simp only; omega, by simp only [still, if_false]; exact stage⟩

lemma Awaiting.arrive_within (awaiting : p.Awaiting (id :: rest))
    (roomy : room → p.store.record.Roomy) :
    (p.arrive id).Within room fun next _ => next.Awaiting rest := by
  have inside := awaiting.present id (.head _)
  have found : p.resolver.instances[id]? = some p.resolver.instances[id] :=
    Array.getElem?_eq_getElem inside
  have before := awaiting.settled found
  rw [if_pos (.head _)] at before
  have count := before.missing
  have safe := Progress.arrive_within roomy found (by omega) (by
    intro last key mem
    have none_missing : (p.resolver.instances[id].constituents.filter
        (!p.store.record.contains ·)).length = 0 := by omega
    have empty := filter_eq_nil_iff.mp (length_eq_zero_iff.mp none_missing) key mem
    simpa using empty)
  exact safe.strengthen fun _ result _ =>
    awaiting.arrive (Attempt.commit_eq_ok.mpr ⟨rfl, result⟩)

/-! What the bookkeeping writes. -/

/-- Place in the schedule, round and outcomes of all instances. -/
def plan (p : Progress) : List (Entry × Int × List Key) :=
  p.resolver.instances.toList.map fun i => (i.entry, i.round, i.constituents)

/-- Outcomes of the instances that are written as detectors. -/
def written (p : Progress) : List (List Key) :=
  (p.resolver.instances.toList.filter (·.stage = .resolved)).map (·.constituents)

/-- An annotation is the detector of some keys, in the tick of the latest. -/
def Notes (r : Record) (keys : List Key) (e : Nat × Note) : Prop :=
  ∃ handles, e.2 = .detector handles ∧
    Forall₂ (fun key h => r.handle? key = some h) keys handles ∧ r.Latest handles e.1

/-- Some instances are added and some are written, each once and as a detector. -/
structure Extends (p : Progress) (new : List (Entry × Int × List Key)) (next : Progress) :
    Prop where
  notes : ∃ items keys, next.store = p.store.withNotes items ∧
    Forall₂ (Notes p.store.record) keys items ∧ next.written.Perm (p.written ++ keys)
  trackers : next.resolver.trackers = p.resolver.trackers
  initial : next.resolver.initial = p.resolver.initial
  plan : next.plan = p.plan ++ new

lemma Extends.refl (p : Progress) : p.Extends [] p where
  notes := ⟨[], [], rfl, .nil, by simp⟩
  trackers := rfl
  initial := rfl
  plan := by simp

lemma Extends.record {new : List (Entry × Int × List Key)} (h : p.Extends new next) :
    next.store.record = p.store.record := by
  obtain ⟨items, _, made, _⟩ := h.notes
  rw [made, Store.record_withNotes]

lemma Extends.trans {last : Progress} {new later : List (Entry × Int × List Key)}
    (h : p.Extends new next) (h' : next.Extends later last) : p.Extends (new ++ later) last where
  notes := by
    obtain ⟨items, keys, made, noted, perm⟩ := h.notes
    obtain ⟨items', keys', made', noted', perm'⟩ := h'.notes
    rw [h.record] at noted'
    refine ⟨items ++ items', keys ++ keys', ?_, rel_append noted noted', ?_⟩
    · rw [made', made, Store.withNotes_append]
    · rw [← append_assoc]
      exact perm'.trans (perm.append_right keys')
  trackers := h'.trackers.trans h.trackers
  initial := h'.initial.trans h.initial
  plan := by rw [h'.plan, h.plan, append_assoc]

lemma Written.notes {s next : Store} (h : Written s keys next) :
    ∃ e, next = s.withNotes [e] ∧ Notes s.record keys e := by
  obtain ⟨handles, tick, found, latest, rfl⟩ := h
  exact ⟨(tick, .detector handles), rfl, handles, rfl, found, latest⟩

lemma plan_modify (p : Progress) (id : Nat) (change : Instance → Instance) (store : Store)
    (entry : ∀ i, (change i).entry = i.entry) (round : ∀ i, (change i).round = i.round)
    (constituents : ∀ i, (change i).constituents = i.constituents) :
    (⟨p.resolver.modify id change, store⟩ : Progress).plan = p.plan := by
  simp only [plan, Resolver.modify, Array.toList_modify]
  refine ext_getElem? fun k => ?_
  simp only [getElem?_map, getElem?_modify]
  by_cases here : id = k
  · cases p.resolver.instances.toList[k]? with
    | none => simp [here]
    | some i => simp [here, entry, round, constituents]
  · simp [here]

lemma written_modify (change : Instance → Instance) (store : Store)
    (found : p.resolver.instances[id]? = some i) (open_before : i.stage ≠ .resolved)
    (same : (change i).constituents = i.constituents) :
    (⟨p.resolver.modify id change, store⟩ : Progress).written.Perm
      (p.written ++ if (change i).stage = .resolved then [i.constituents] else []) := by
  rw [← Array.getElem?_toList] at found
  obtain ⟨inside, at_id⟩ := List.getElem?_eq_some_iff.mp found
  obtain ⟨first, j, later, split, length, changed⟩ := exists_of_modify change inside
  have same_item : j = i := by
    rw [← at_id]
    simp [split, ← length]
  subst same_item
  have new : (⟨p.resolver.modify id change, store⟩ : Progress).written =
      ((first ++ change j :: later).filter (·.stage = .resolved)).map (·.constituents) := by
    simp only [written, Resolver.modify, Array.toList_modify, changed]
  have old : p.written =
      ((first ++ j :: later).filter (·.stage = .resolved)).map (·.constituents) := by
    simp only [written, split]
  rw [new, old]
  simp only [filter_append, filter_cons, map_append, open_before, decide_false,
    Bool.false_eq_true, if_false]
  by_cases now : (change j).stage = .resolved
  · simp only [now, decide_true, if_true, map_cons, same]
    rw [append_assoc]
    exact List.Perm.append_left _ (perm_append_singleton _ _).symm
  · simp [now]

lemma Awaiting.arrive_extends (awaiting : p.Awaiting (id :: rest))
    (h : (p.arrive id).commit = .ok (next, u)) :
    p.Extends [] next := by
  obtain ⟨i, found, pos, result⟩ := arrive_eq_ok h
  have stage := (awaiting.settled found).stage
  rw [if_neg (by omega)] at stage
  have open_before : i.stage ≠ .resolved := by
    rw [stage]
    decide
  split_ifs at result with last
  · obtain ⟨store, written, rfl⟩ := result
    obtain ⟨e, made, noted⟩ := written.notes
    refine ⟨⟨[e], _, made, .cons noted .nil, ?_⟩, rfl, rfl, ?_⟩
    · exact written_modify (fun i => { i with missing := 0, stage := .resolved }) store found
        open_before rfl
    · rw [append_nil]
      exact plan_modify p id _ _ (fun _ => rfl) (fun _ => rfl) fun _ => rfl
  · subst result
    refine ⟨⟨[], [], rfl, .nil, ?_⟩, rfl, rfl, ?_⟩
    · have perm := written_modify (fun j => { j with missing := i.missing - 1 }) p.store found
        open_before rfl
      rwa [if_neg open_before] at perm
    · rw [append_nil]
      exact plan_modify p id _ _ (fun _ => rfl) (fun _ => rfl) fun _ => rfl

/-- Detectors are written, and nothing else; observables stay as they are. -/
structure Marks (p next : Progress) : Prop where
  notes : ∃ items, next.store = p.store.withNotes items ∧
    ∀ e ∈ items, ∃ handles, e.2 = .detector handles
  trackers : next.resolver.trackers = p.resolver.trackers

lemma Marks.refl (p : Progress) {r : Resolver} (same : r.trackers = p.resolver.trackers) :
    p.Marks ⟨r, p.store⟩ := ⟨⟨[], rfl, forall_mem_nil _⟩, same⟩

lemma Marks.trans {last : Progress} (h : p.Marks next) (h' : next.Marks last) : p.Marks last := by
  obtain ⟨items, made, kinds⟩ := h.notes
  obtain ⟨more, made', kinds'⟩ := h'.notes
  refine ⟨⟨items ++ more, ?_, forall_mem_append.mpr ⟨kinds, kinds'⟩⟩, h'.trackers.trans h.trackers⟩
  rw [made', made, Store.withNotes_append]

lemma Marks.record (h : p.Marks next) : next.store.record = p.store.record := by
  obtain ⟨items, made, _⟩ := h.notes
  rw [made, Store.record_withNotes]

lemma Written.marks (h : Written p.store keys next.store)
    (trackers : next.resolver.trackers = p.resolver.trackers) : p.Marks next := by
  obtain ⟨e, made, handles, kind, _⟩ := h.notes
  exact ⟨⟨[e], made, forall_mem_singleton.mpr ⟨handles, kind⟩⟩, trackers⟩

lemma notify_marks {key : Key} (h : (p.notify key).commit = .ok (next, u)) : p.Marks next := by
  apply Attempt.forEach_keeps p.Marks ?_ h (.refl p rfl)
  intro id _ mid next v marks arrives
  apply marks.trans
  obtain ⟨i, _, _, result⟩ := arrive_eq_ok arrives
  split_ifs at result with last
  · obtain ⟨store, written, rfl⟩ := result
    exact written.marks rfl
  · subst result
    exact .refl mid rfl

lemma Awaiting.forEach {ids : List Nat} (awaiting : p.Awaiting ids)
    (roomy : room → p.store.record.Roomy) :
    (Attempt.forEach Progress.arrive p ids).Within room fun next _ =>
      next.Consistent ∧ p.Extends [] next := by
  refine Attempt.Meets.forEach (fun ids q => q.Awaiting ids ∧ p.Extends [] q) ?_ ids p
    ⟨awaiting, .refl p⟩
  rintro id rest q ⟨before, extended⟩
  have roomy : room → q.store.record.Roomy := by
    rwa [extended.record]
  refine (before.arrive_within roomy).strengthen fun _ result after => ⟨after, ?_⟩
  exact extended.trans (before.arrive_extends (Attempt.commit_eq_ok.mpr ⟨rfl, result⟩))

/-- The outcome of a key is on record and still has to be reported. -/
def Filed (p : Progress) (key : Key) : Prop :=
  ({ p with resolver :=
      { p.resolver with triggers := p.resolver.triggers.filter (·.1 ≠ key) } } :
    Progress).Awaiting (p.resolver.waiting key)

lemma notify_within {key : Key} (filed : p.Filed key) (roomy : room → p.store.record.Roomy) :
    (p.notify key).Within room fun next _ => next.Consistent ∧ p.Extends [] next := by
  refine (Awaiting.forEach filed roomy).strengthen fun _ _ => ?_
  rintro ⟨consistent, extended⟩
  exact ⟨consistent, { extended with }⟩

lemma length_filter_push (r : Record) (key : Key) (tick : Nat) (distinct : keys.Nodup) :
    (keys.filter (!r.contains ·)).length = (keys.filter (!(r.push key tick).contains ·)).length +
        if !r.contains key && key ∈ keys then 1 else 0 := by
  induction keys with
  | nil => simp
  | cons k rest ih =>
    obtain ⟨fresh, distinct⟩ := nodup_cons.mp distinct
    have others := ih distinct
    simp only [filter_cons, Record.contains_push]
    by_cases same : key = k
    · subst same
      simp only [fresh, decide_false, Bool.and_false, Bool.false_eq_true, if_false] at others
      simp only [Record.contains_push] at others
      cases known : r.contains key
      · simp [others]
      · simp [others]
    · cases known : r.contains k
      · simp only [Bool.not_false, if_true, same, decide_false, Bool.or_false, length_cons,
          mem_cons, false_or]
        simp only [Record.contains_push] at others
        omega
      · simp only [Bool.not_true, Bool.false_eq_true, if_false, same, decide_false, Bool.or_true,
          mem_cons, false_or]
        simp only [Record.contains_push] at others
        exact others

/-- Filing an outcome leaves exactly its instances to be told. -/
theorem Consistent.file (consistent : p.Consistent) {key : Key} {tick : Nat} {store : Store}
    (filed : store.record = p.store.record.push key tick) :
    (⟨p.resolver, store⟩ : Progress).Filed key := by
  have members : ∀ id, id ∈ p.resolver.waiting key ↔
      id < p.resolver.instances.size ∧ p.waitsFor key id = true := by
    intro id
    rw [consistent.listed key, mem_filter, mem_range]
  refine ⟨?_, ?_, ?_, ?_⟩
  · rw [consistent.listed key]
    exact nodup_range.filter _
  · intro id mem
    exact ((members id).mp mem).1
  · intro id i found
    have before := consistent.settled found
    rw [if_neg (not_mem_nil)] at before
    have inside : id < p.resolver.instances.size := (Array.getElem?_eq_some_iff.mp found).1
    refine ⟨before.distinct, ?_, before.stage⟩
    have count := length_filter_push p.store.record key tick before.distinct
    have same : (id ∈ p.resolver.waiting key) ↔
        (!p.store.record.contains key && decide (key ∈ i.constituents)) = true := by
      have at_id : p.resolver.instances[id]? = some i := found
      simp only [members, inside, true_and, waitsFor, at_id, Option.any_some]
    have missing := before.missing
    simp only [filed, same]
    omega
  · intro k
    simp only [Resolver.waiting, Resolver.lookup_filter_ne]
    by_cases same : k = key
    · subst same
      rw [if_pos rfl]
      refine (filter_eq_nil_iff.mpr fun id _ => ?_).symm
      simp [waitsFor, filed, Record.contains_push]
    · rw [if_neg same]
      refine (consistent.listed k).trans (filter_congr fun id _ => ?_)
      simp [waitsFor, filed, Record.contains_push, Ne.symm same]

end Progress

end SyndromeSchedule
