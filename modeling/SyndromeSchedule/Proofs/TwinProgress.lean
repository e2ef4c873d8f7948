import SyndromeSchedule.Proofs.Tracking
import SyndromeSchedule.Proofs.TwinStore

/-!
Detectors and observables in two runs that are compared. Instances opened since the comparison
starts wait for the same checks in both runs, and observables toggle the same outcomes, so that the
same annotations are written in the same order.
-/

namespace SyndromeSchedule

open List Outcome

def Instance.later (n : Nat) (i : Instance) : Instance :=
  { i with round := i.round + n, constituents := i.constituents.map (Key.later n) }

lemma Instance.later_zero (i : Instance) : i.later 0 = i := by
  unfold Instance.later
  rw [Key.later_zero, map_id, Int.natCast_zero, Int.add_zero]

def Tracker.later (n : Nat) (t : Tracker) : Tracker :=
  { t with pending := t.pending.map (· + n) }

lemma Tracker.later_zero (t : Tracker) : t.later 0 = t := by
  unfold Tracker.later
  simp

namespace Resolver

/-- Resolvers in step: what waits in one waits in the other, later by the lead. -/
structure Twin (k : Comparison) (r r' : Resolver) : Prop where
  size : r'.instances.size = r.instances.size + k.ids
  first_le : k.first ≤ r.instances.size
  instances : ∀ id, k.first ≤ id →
    r'.instances[id + k.ids]? = r.instances[id]?.map (Instance.later k.rounds)
  recent : ∀ {id : Nat} {i : Instance}, k.first ≤ id → r.instances[id]? = some i →
    ∀ key ∈ i.constituents, 0 ≤ key.round ∧ k.oldest ≤ key.round
  waiting : ∀ key, r'.waiting (key.later k.rounds) = (r.waiting key).map (· + k.ids)
  listed : ∀ key, ∀ id ∈ r.waiting key, k.first ≤ id
  initial : r'.initial = r.initial
  trackers : r'.trackers = r.trackers.map (Tracker.later k.handles)
  periodic : ∀ t ∈ r.trackers, t.logical.period ∣ k.rounds
  discarded : k.strict → r'.discarded = r.discarded

variable {k : Comparison} {r r' : Resolver}

lemma Twin.modify (h : r.Twin k r') (id : Nat) {change : Instance → Instance}
    (commutes : ∀ i, (change i).later k.rounds = change (i.later k.rounds))
    (same : ∀ i, (change i).constituents = i.constituents) :
    (r.modify id change).Twin k (r'.modify (id + k.ids) change) where
  __ := h
  size := by
    rw [size_modify, size_modify]
    exact h.size
  first_le := by
    rw [size_modify]
    exact h.first_le
  instances := by
    intro id' late'
    rw [getElem?_modify, getElem?_modify, h.instances id' late']
    by_cases here : id = id'
    · rw [if_pos here, if_pos (by omega), Option.map_map, Option.map_map]
      exact congrArg (Option.map · _) (funext fun i => (commutes i).symm)
    · rw [if_neg here, if_neg (by omega)]
  recent := by
    intro id' i late' found
    rw [getElem?_modify] at found
    split_ifs at found with here
    · obtain ⟨j, before, rfl⟩ := Option.map_eq_some_iff.mp found
      rw [same]
      exact h.recent late' before
    · exact h.recent late' found

/-- A detector that waits in both runs. -/
lemma Twin.wait (h : r.Twin k r') (entry : Entry) (round : Int) {keys missing : List Key}
    (distinct : missing.Nodup)
    (recent : ∀ key ∈ keys, 0 ≤ key.round ∧ k.oldest ≤ key.round) :
    (r.wait entry round keys missing).Twin k
      (r'.wait entry (round + k.rounds) (keys.map (Key.later k.rounds))
        (missing.map (Key.later k.rounds))) where
  __ := h
  size := by
    have size := h.size
    simp only [Resolver.wait, Array.size_push]
    omega
  first_le := by
    have le := h.first_le
    simp only [Resolver.wait, Array.size_push]
    omega
  instances := by
    intro id late
    simp only [Resolver.wait, Array.getElem?_push, h.size, h.instances id late, length_map]
    by_cases last : id = r.instances.size
    · rw [if_pos last, if_pos (by omega)]
      rfl
    · rw [if_neg last, if_neg (by omega)]
  recent := by
    intro id i late found
    simp only [Resolver.wait, Array.getElem?_push] at found
    split_ifs at found with last
    · cases found
      exact recent
    · exact h.recent late found
  waiting := by
    intro key
    have listed : key.later k.rounds ∈ missing.map (Key.later k.rounds) ↔ key ∈ missing :=
      mem_map_of_injective (Key.later_injective _)
    have before := h.waiting key
    unfold Resolver.waiting at before ⊢
    simp only [Resolver.wait]
    rw [lookup_addTriggers missing distinct,
      lookup_addTriggers _ (distinct.map (Key.later_injective _)), before, h.size, map_append]
    congr 1
    by_cases mem : key ∈ missing
    · rw [if_pos mem, if_pos (listed.mpr mem), map_singleton]
    · rw [if_neg mem, if_neg fun inside => mem (listed.mp inside), map_nil]
  listed := by
    intro key id mem
    have listed := h.listed key id
    have le := h.first_le
    unfold Resolver.waiting at listed mem
    simp only [Resolver.wait] at mem
    rw [lookup_addTriggers missing distinct, mem_append] at mem
    rcases mem with old | new
    · exact listed old
    · split_ifs at new
      · rwa [mem_singleton.mp new]
      · cases new

lemma Twin.fixes (h : r.Twin k r') (p : Product) : r'.fixes p = r.fixes p := by
  unfold Resolver.fixes initialBasis
  rw [h.initial]

end Resolver

namespace Progress

/-- Both runs have written the same and wait for the same. -/
structure Twin (k : Comparison) (top : Nat) (p p' : Progress) : Prop where
  store : p.store.Twin k top p'.store
  resolver : p.resolver.Twin k p'.resolver
  pending : ∀ t ∈ p.resolver.trackers, Reaches k p.store.record t.pending
  /-- Where there are detectors, there is a first tick for those that compare nothing. -/
  held : ¬ k.strict → k.first < p.resolver.instances.size → 0 < p.store.size

variable {k : Comparison} {top : Nat} {p p' : Progress}

/-- Progress in step, with no outcome lost. -/
def Steps (k : Comparison) (top : Nat) (p : Progress) (r r' : Progress × Unit) : Prop :=
  r.1.Twin k top r'.1 ∧ p.store.Grows r.1.store

lemma Twin.setStore (h : p.Twin k top p') {r r' : Resolver} {s s' : Store}
    (resolver : r.Twin k r') (trackers : r.trackers = p.resolver.trackers)
    (instances : r.instances.size = p.resolver.instances.size) (store : s.Twin k top s')
    (grows : p.store.Grows s) : (⟨r, s⟩ : Progress).Twin k top ⟨r', s'⟩ where
  store := store
  resolver := resolver
  pending := by
    intro t mem
    rw [trackers] at mem
    exact (h.pending t mem).mono grows.within
  held := by
    intro loose some
    rw [instances] at some
    exact (h.held loose some).trans_le grows.size_le

lemma trigger_along (h : p.Twin k top p') {id : Nat} (late : k.first ≤ id) :
    (p.trigger id).commit.Along k.strict (Steps k top p) (p'.trigger (id + k.ids)).commit := by
  rw [commit_trigger, commit_trigger, h.resolver.instances id late]
  cases found : p.resolver.instances[id]? with
  | none => exact along_error fun _ => rfl
  | some i =>
    have recent := h.resolver.recent late found
    have inside : id < p.resolver.instances.size := (Array.getElem?_eq_some_iff.mp found).1
    change (writeDetector p.store i.constituents >>= _).Along k.strict _
      (writeDetector p'.store (i.constituents.map (Key.later k.rounds)) >>= _)
    have written := writeDetector_along h.store (fun key mem => .inr (recent key mem).1)
      (fun key mem => (recent key mem).2) fun _ loose => h.held loose (by omega)
    refine written.bind ?_
    rintro s s' ⟨twin, grows⟩
    refine along_ok ⟨?_, grows⟩
    exact h.setStore (h.resolver.modify id (fun _ => rfl) fun _ => rfl) rfl
      (Resolver.size_modify ..) twin grows

lemma arrive_along (h : p.Twin k top p') {id : Nat} (late : k.first ≤ id) :
    (p.arrive id).commit.Along k.strict (Steps k top p) (p'.arrive (id + k.ids)).commit := by
  rw [commit_arrive, commit_arrive, h.resolver.instances id late]
  cases p.resolver.instances[id]? with
  | none => exact along_error fun _ => rfl
  | some i =>
    change (Outcome.pred i.missing >>= _).Along k.strict _ (Outcome.pred i.missing >>= _)
    cases Outcome.pred i.missing with
    | error halt => exact along_error fun _ => rfl
    | ok missing =>
      have counted : (p.resolver.modify id fun i => { i with missing }).Twin k
          (p'.resolver.modify (id + k.ids) fun i => { i with missing }) :=
        h.resolver.modify id (fun _ => rfl) fun _ => rfl
      have twin := h.setStore counted rfl (Resolver.size_modify ..) h.store (.refl _)
      change Outcome.Along k.strict _ (if missing = 0 then _ else _)
        (if missing = 0 then _ else _)
      split_ifs
      · exact trigger_along twin late
      · exact along_ok ⟨twin, .refl _⟩

lemma forEach_along {α α' : Type} {P : α → α' → Prop}
    {action : Progress → α → Attempt Progress Unit}
    {action' : Progress → α' → Attempt Progress Unit}
    {items : List α} {items' : List α'} (related : Forall₂ P items items')
    (step : ∀ a a' q q', P a a' → q.Twin k top q' → p.store.Grows q.store →
      (action q a).commit.Along k.strict (Steps k top q) (action' q' a').commit)
    (h : p.Twin k top p') :
    (Attempt.forEach action p items).commit.Along k.strict (Steps k top p)
      (Attempt.forEach action' p' items').commit := by
  have start : p.Twin k top p' ∧ p.store.Grows p.store := ⟨h, .refl _⟩
  refine Attempt.along_forEach (R := fun (q q' : Progress) =>
    q.Twin k top q' ∧ p.store.Grows q.store) related ?_ start
  rintro a a' q q' pair ⟨twin, grows⟩
  refine (step a a' q q' pair twin grows).imp ?_
  rintro r r' ⟨twin', grows'⟩
  exact ⟨twin', grows.trans grows'⟩

/-- Reporting an outcome resolves the same detectors. -/
lemma notify_along (h : p.Twin k top p') (key : Key) :
    (p.notify key).commit.Along k.strict (Steps k top p)
      (p'.notify (key.later k.rounds)).commit := by
  have ids : (p'.resolver.triggers.lookup (key.later k.rounds)).getD [] =
      ((p.resolver.triggers.lookup key).getD []).map (· + k.ids) := h.resolver.waiting key
  have resolver : ({ p.resolver with
      triggers := p.resolver.triggers.filter (·.1 ≠ key) } : Resolver).Twin k { p'.resolver with
        triggers := p'.resolver.triggers.filter (·.1 ≠ key.later k.rounds) } := by
    refine { h.resolver with waiting := ?_, listed := ?_ }
    · intro other
      have before := h.resolver.waiting other
      unfold Resolver.waiting at before ⊢
      rw [Resolver.lookup_filter_ne, Resolver.lookup_filter_ne]
      by_cases same : other = key
      · rw [if_pos same, if_pos (congrArg _ same), map_nil]
      · rwa [if_neg same, if_neg fun again => same (Key.later_injective _ again)]
    · intro other id mem
      have before := h.resolver.listed other id
      unfold Resolver.waiting at before mem
      rw [Resolver.lookup_filter_ne] at mem
      split_ifs at mem
      · cases mem
      · exact before mem
  have twin := h.setStore resolver rfl rfl h.store (.refl _)
  have related : Forall₂ (fun id id' => k.first ≤ id ∧ id' = id + k.ids)
      (p.resolver.waiting key) ((p.resolver.waiting key).map (· + k.ids)) :=
    forall₂_map_right_iff.mpr (forall₂_same.mpr fun id mem => ⟨h.resolver.listed key id mem, rfl⟩)
  unfold notify
  rw [ids]
  apply forEach_along related _ twin
  rintro id _ q q' ⟨late, rfl⟩ twin _
  exact arrive_along twin late

/-! New detectors. -/

lemma foldl_product_later (n : Nat) (keys : List Key) (product : Product) :
    (keys.map (Key.later n)).foldl (fun q key => q.mul key.product) product =
      keys.foldl (fun q key => q.mul key.product) product := by
  rw [foldl_map]
  rfl

/-- Opening a detector resolves or discards it in both runs. -/
lemma openInstance_along (h : p.Twin k top p') (entry : Entry) (round : Int) (cut : Bool)
    {keys : List Key} (distinct : keys.Nodup)
    (recent : ∀ key ∈ keys, 0 ≤ key.round ∧ k.oldest ≤ key.round)
    (held : ¬ k.strict → 0 < p.store.size) :
    (p.openInstance entry round cut keys).commit.Along k.strict (Steps k top p)
      (p'.openInstance entry (round + k.rounds) cut (keys.map (Key.later k.rounds))).commit := by
  have discards : p'.resolver.discards cut (keys.map (Key.later k.rounds)) =
      p.resolver.discards cut keys := by
    unfold Resolver.discards
    rw [foldl_product_later, h.resolver.fixes, isEmpty_map]
  have missing : missingKeys p'.store (keys.map (Key.later k.rounds)) =
      (missingKeys p.store keys).map (Key.later k.rounds) := by
    unfold missingKeys
    rw [filter_map]
    congr 1
    apply filter_congr
    intro key mem
    simp only [Function.comp_apply, h.store.record.contains (.inr (recent key mem).1)]
  rw [commit_openInstance, commit_openInstance, discards, missing, isEmpty_map]
  have opened := h.resolver.wait entry round (distinct.filter fun key =>
    !p.store.record.contains key) recent
  have twin : (⟨p.resolver.wait entry round keys (missingKeys p.store keys), p.store⟩ :
      Progress).Twin k top ⟨p'.resolver.wait entry (round + k.rounds)
        (keys.map (Key.later k.rounds)) ((missingKeys p.store keys).map (Key.later k.rounds)),
          p'.store⟩ :=
    ⟨h.store, opened, h.pending, fun loose _ => held loose⟩
  split_ifs
  · refine along_ok ⟨{ h with resolver := { h.resolver with discarded := ?_ } }, .refl _⟩
    exact fun strict => congrArg (· + 1) (h.resolver.discarded strict)
  · rw [h.resolver.size]
    exact trigger_along twin h.resolver.first_le
  · exact along_ok ⟨twin, .refl _⟩

end Progress

/-- Rounds that words count alike in both runs, and whose outcomes are in ticks that may be
written. -/
structure Comparison.Counts (k : Comparison) (round : Nat) : Prop where
  signed : Word.signed (round + k.rounds) = Word.signed round + k.rounds
  recent : k.strict ∨ (0 ≤ Word.signed round ∧ k.oldest ≤ Word.signed round)

lemma Comparison.Counts.key {k : Comparison} {round : Nat} (h : k.Counts round) (c : Check) :
    Key.of c (Word.signed (round + k.rounds)) = (Key.of c (Word.signed round)).later k.rounds := by
  rw [h.signed]
  rfl

namespace Progress

variable {k : Comparison} {top : Nat} {p p' : Progress}

lemma nonneg_of_mem_keys {d : Detector} {round : Int} {key : Key} (mem : key ∈ d.keys round) :
    ∃ t ∈ d.timed, key.round = round + t.offset ∧ 0 ≤ round + t.offset := by
  obtain ⟨t, kept, rfl⟩ := mem_map.mp (mem_of_mem_oddItems mem)
  obtain ⟨timed, counted⟩ := mem_filter.mp kept
  exact ⟨t, timed, rfl, of_decide_eq_true counted⟩

/-- A detector of a round. If the second run is ahead, no outcomes are cut off in either. -/
theorem openDetector_along (h : p.Twin k top p') (entryRound : Nat) {round : Int}
    (e : Detector × Nat)
    (whole : k.strict ∨ ∀ t ∈ e.1.timed, 0 ≤ round + t.offset ∧ k.oldest ≤ round + t.offset)
    (held : ¬ k.strict → 0 < p.store.size) :
    (p.openDetector entryRound round e).commit.Along k.strict (Steps k top p)
      (p'.openDetector entryRound (round + k.rounds) e).commit := by
  have recent : ∀ key ∈ e.1.keys round, 0 ≤ key.round ∧ k.oldest ≤ key.round := by
    intro key mem
    obtain ⟨t, timed, same, counted⟩ := nonneg_of_mem_keys mem
    rcases whole with strict | whole
    · have old := (k.still strict).2.2.2.2.2
      omega
    · have := whole t timed
      omega
  have later : e.1.keys (round + k.rounds) = (e.1.keys round).map (Key.later k.rounds) ∧
      e.1.isCut (round + k.rounds) = e.1.isCut round := by
    rcases whole with strict | whole
    · rw [(k.still strict).2.1]
      simp
    · refine ⟨Detector.keys_later (fun t timed => (whole t timed).1) _, ?_⟩
      rw [Detector.isCut_eq_false.mpr fun t timed => (whole t timed).1,
        Detector.isCut_eq_false.mpr fun t timed => ?_]
      have := whole t timed
      omega
  have together : (e.1.triggers round).Along k.strict (fun _ _ => True)
      (e.1.triggers (round + k.rounds)) := by
    apply along_of_eq
    · intro strict
      rw [(k.still strict).2.1]
      simp
    · exact fun _ _ _ _ => trivial
  rw [commit_openDetector, commit_openDetector, later.1, later.2]
  refine together.bind fun _ _ _ => ?_
  exact openInstance_along h _ round _ (oddItems_nodup _) recent held

lemma beginRound_along (h : p.Twin k top p') {code : Code} {round : Nat}
    (divides : code.period ∣ k.rounds) (counts : k.Counts round)
    (whole : k.strict ∨ ((code.period : Int) ≤ Word.signed round ∧
      k.oldest + code.period ≤ Word.signed round))
    (held : ¬ k.strict → code.detectorsIn round ≠ [] → 0 < p.store.size) :
    (p.beginRound code round).commit.Along k.strict (Steps k top p)
      (p'.beginRound code (round + k.rounds)).commit := by
  obtain ⟨m, same⟩ := divides
  have detectors : code.detectorsIn (round + k.rounds) = code.detectorsIn round := by
    rw [same, Nat.mul_comm]
    exact code.detectorsIn_add_mul round m
  have place : (round + k.rounds) % code.period = round % code.period := by
    rw [same, Nat.add_mul_mod_self_left]
  unfold beginRound
  rw [detectors, place, counts.signed]
  have related : Forall₂ (fun e e' => e.1 ∈ code.detectorsIn round ∧ e' = e)
      (code.detectorsIn round).zipIdx (code.detectorsIn round).zipIdx :=
    forall₂_same.mpr fun e mem =>
      ⟨mem_of_getElem? (mem_zipIdx_iff_getElem?.mp mem), rfl⟩
  apply forEach_along related _ h
  rintro e _ q q' ⟨mem, rfl⟩ twin grows
  apply openDetector_along twin
  · refine whole.imp id fun late t timed => ?_
    have back := (code.timed_scheduled mem timed).1
    omega
  · intro loose
    exact (held loose (ne_nil_of_mem mem)).trans_le grows.size_le

end Progress

/-! Observables. -/

namespace Tracker

/-- Trackers that have toggled the same outcomes, all in ticks that may be written. -/
structure Twin (k : Comparison) (r : Record) (t t' : Tracker) : Prop where
  later : t' = t.later k.handles
  reaches : Progress.Reaches k r t.pending
  periodic : t.logical.period ∣ k.rounds

variable {k : Comparison} {r r' : Record} {t t' : Tracker} {round : Nat}

lemma toggleIn_later (n handle : Nat) (pending : List Nat) :
    toggleIn (handle + n) (pending.map (· + n)) = (toggleIn handle pending).map (· + n) := by
  induction pending with
  | nil => rfl
  | cons h rest ih =>
    rw [map_cons, toggleIn, toggleIn]
    rcases Nat.lt_trichotomy handle h with below | rfl | above
    · rw [if_pos below, if_pos (by omega)]
      rfl
    · rw [if_neg (by omega), if_pos rfl, if_neg (by omega), if_pos rfl]
    · rw [if_neg (by omega), if_neg (by omega), if_neg (by omega), if_neg (by omega), ih]
      rfl

lemma Twin.toggle (h : t.Twin k r t') {handle : Nat} (reached : Progress.Reached k r handle) :
    (t.toggle handle).Twin k r (t'.toggle (handle + k.handles)) where
  later := by
    rw [h.later]
    simp only [Tracker.toggle, Tracker.later, toggleIn_later]
  reaches := by
    intro n mem
    rcases mem_toggleIn mem with rfl | old
    · exact reached
    · exact h.reaches n old
  periodic := h.periodic

lemma Twin.mono (h : t.Twin k r t') {later : Record} (within : r.Within later) :
    t.Twin k later t' :=
  ⟨h.later, h.reaches.mono within, h.periodic⟩

lemma Twin.setCurrent (h : t.Twin k r t') (current : Product) :
    ({ t with current } : Tracker).Twin k r { t' with current } where
  __ := h
  later := by
    rw [h.later]
    rfl

lemma outcome_along (record : r.Twin k r')
    (recent : ∀ {h tick : Nat} {key : Key}, r.entry? h = some (key, tick) → k.oldest ≤ key.round →
      k.low ≤ tick)
    (counts : k.Counts round) (c : Check) :
    (r.lookupMade (.of c (Word.signed round))).Along k.strict
      (fun handle handle' => handle' = handle + k.handles ∧ Progress.Reached k r handle)
      (r'.lookupMade (.of c (Word.signed (round + k.rounds)))) := by
  have covers : k.Covers (Key.of c (Word.signed round)) := counts.recent.imp id fun late => late.1
  rw [counts.key]
  refine (record.lookupMade covers).imp ?_
  rintro handle handle' ⟨same, made⟩
  obtain ⟨tick, entry⟩ := Record.entry?_of_handle? made
  refine ⟨same, _, tick, entry, ?_⟩
  rcases counts.recent with strict | late
  · rw [k.low_eq_zero strict]
    exact Nat.zero_le _
  · exact recent entry late.2

/-- An observable absorbs the same check. -/
lemma absorb_along (record : r.Twin k r')
    (recent : ∀ {h tick : Nat} {key : Key}, r.entry? h = some (key, tick) → k.oldest ≤ key.round →
      k.low ≤ tick)
    (counts : k.Counts round) (h : t.Twin k r t') (c : Check) :
    (t.absorb r round c).commit.Along k.strict (fun x x' => x.1.Twin k r x'.1)
      (t'.absorb r' (round + k.rounds) c).commit := by
  have multiplied : ({ t with current := t.current.mul c.product } : Tracker).Twin k r
      { t' with current := t'.current.mul c.product } := by
    have same : t'.current = t.current := by rw [h.later]; rfl
    rw [same]
    exact h.setCurrent _
  have found := outcome_along record recent counts c
  unfold absorb
  cases left : r.lookupMade (.of c (Word.signed round)) with
  | error halt =>
    rw [left] at found
    cases right : r'.lookupMade (.of c (Word.signed (round + k.rounds))) with
    | error halt' =>
      apply along_error
      intro strict
      rw [(k.still strict).2.1]
      rfl
    | ok handle' =>
      rwa [right] at found
  | ok handle =>
    rw [left] at found
    cases right : r'.lookupMade (.of c (Word.signed (round + k.rounds))) with
    | error halt' =>
      rwa [right] at found
    | ok handle' =>
      rw [right] at found
      obtain ⟨rfl, reached⟩ := found
      exact multiplied.toggle reached

lemma commit_advance (t : Tracker) (code : Code) (round : Nat) (record : Record) :
    (t.advance code round record).commit =
      if Word.size ≤ round + 1 then .overflow
      else if t.current.sameLetters (t.logical.before (round + 1)) then
        .ok ({ t with current := t.logical.before (round + 1) }, ())
      else
        (Attempt.forEach (absorb record round) t
          ((code.checksIn round).filter (·.product.intersects t.current))).commit >>= fun r =>
            if r.1.current.sameLetters (t.logical.before (round + 1)) then
              .ok ({ r.1 with current := t.logical.before (round + 1) }, ())
            else .fail (.observable (.drift r.1.index round r.1.current
              (t.logical.before (round + 1)))) := by
  simp only [advance]
  split_ifs
  · rfl
  · rfl
  · rw [Attempt.commit_andThen]
    congr 1
    funext r
    split_ifs <;> rfl

lemma Twin.before (h : t.Twin k r t') (round : Nat) :
    t'.logical.before (round + k.rounds) = t.logical.before round := by
  have same : t'.logical = t.logical := by rw [h.later]; rfl
  have moved := t.logical.before_add_mul h.periodic round 1
  rw [Nat.one_mul] at moved
  rw [same, moved]

/-- Observables move alike in a round. -/
lemma advance_along (record : r.Twin k r') (recent : ∀ {h tick : Nat} {key : Key},
      r.entry? h = some (key, tick) → k.oldest ≤ key.round → k.low ≤ tick)
    {code : Code} (divides : code.period ∣ k.rounds) (counts : k.Counts round)
    (h : t.Twin k r t') :
    (t.advance code round r).commit.Along k.strict (fun x x' => x.1.Twin k r x'.1)
      (t'.advance code (round + k.rounds) r').commit := by
  have current : t'.current = t.current := by rw [h.later]; rfl
  have next : t'.logical.before (round + k.rounds + 1) = t.logical.before (round + 1) := by
    rw [Nat.add_right_comm]
    exact h.before (round + 1)
  have checks : code.checksIn (round + k.rounds) = code.checksIn round := by
    obtain ⟨m, same⟩ := divides
    rw [same, Nat.mul_comm]
    exact code.checksIn_add_mul round m
  rw [commit_advance, commit_advance, current, next, checks]
  apply along_guard
  · intro strict
    rw [(k.still strict).2.1]
  · intro _ _
    split_ifs
    · exact h.setCurrent _
    · have loop : (Attempt.forEach (absorb r round) t
          ((code.checksIn round).filter (·.product.intersects t.current))).commit.Along k.strict
          (fun x x' => x.1.Twin k r x'.1) (Attempt.forEach (absorb r' (round + k.rounds)) t'
            ((code.checksIn round).filter (·.product.intersects t.current))).commit := by
        refine Attempt.along_forEach_same (fun c _ u u' twin => ?_) h
        exact absorb_along record recent counts twin c
      refine loop.bind ?_
      rintro ⟨u, _⟩ ⟨u', _⟩ twin
      obtain rfl : u' = u.later k.handles := twin.later
      change Outcome.Along k.strict _ (if u.current.sameLetters _ then _ else _)
        (if u.current.sameLetters _ then _ else _)
      split_ifs
      · exact twin.setCurrent _
      · apply along_error
        intro strict
        rw [(k.still strict).2.1]
        rfl

end Tracker

namespace Progress

variable {k : Comparison} {top : Nat} {p p' : Progress}

lemma eachTracker_along {P Q : Tracker → Tracker → Prop}
    {action action' : Tracker → Attempt Tracker Unit} {ts ts' : List Tracker}
    (related : Forall₂ P ts ts')
    (step : ∀ t t', P t t' → (action t).commit.Along k.strict (fun r r' => Q r.1 r'.1)
      (action' t').commit) :
    (eachTracker action ts).commit.Along k.strict (fun r r' => Forall₂ Q r.1 r'.1)
      (eachTracker action' ts').commit := by
  induction related with
  | nil => exact along_ok .nil
  | cons head _ ih =>
    rw [commit_eachTracker_cons, commit_eachTracker_cons]
    refine (step _ _ head).bind fun _ _ first => ?_
    exact ih.bind fun _ _ others => along_ok (.cons first others)

lemma Twin.trackers (h : p.Twin k top p') :
    Forall₂ (Tracker.Twin k p.store.record) p.resolver.trackers p'.resolver.trackers := by
  rw [h.resolver.trackers, forall₂_map_right_iff, forall₂_same]
  exact fun t mem => ⟨rfl, h.pending t mem, h.resolver.periodic t mem⟩

lemma Twin.setTrackers (h : p.Twin k top p') {ts ts' : List Tracker}
    (related : Forall₂ (Tracker.Twin k p.store.record) ts ts') :
    (p.setTrackers ts).Twin k top (p'.setTrackers ts') where
  __ := h
  resolver := by
    refine { h.resolver with trackers := ?_, periodic := ?_ }
    · change ts' = ts.map (Tracker.later k.handles)
      rw [← forall₂_eq_eq_eq, forall₂_map_right_iff]
      exact related.flip.imp fun _ _ twin => twin.later
    · intro t mem
      obtain ⟨_, _, twin⟩ := exists_right_of_forall₂ related mem
      exact twin.periodic
  pending := by
    intro t mem
    obtain ⟨_, _, twin⟩ := exists_right_of_forall₂ related mem
    exact twin.reaches

lemma endRound_along (h : p.Twin k top p') {code : Code} {round : Nat}
    (divides : code.period ∣ k.rounds) (counts : k.Counts round) :
    (p.endRound code round).commit.Along k.strict (Steps k top p)
      (p'.endRound code (round + k.rounds)).commit := by
  rw [commit_endRound, commit_endRound]
  refine (eachTracker_along h.trackers fun t t' twin => ?_).bind fun r r' related =>
    along_ok ⟨h.setTrackers related, .refl _⟩
  exact Tracker.advance_along h.store.record h.store.recent divides counts twin

lemma annotateObservable_along {s s' : Store} (h : s.Twin k top s') {tick : Nat}
    (late : k.base ≤ tick) (index : Nat) (handles : List Nat) :
    (annotateObservable s tick index handles).Along k.strict (s.Steps k top)
      (annotateObservable s' (tick + k.ticks) index (handles.map (· + k.handles))) := by
  unfold annotateObservable
  rw [isEmpty_map]
  split_ifs
  · exact along_ok ⟨h, .refl s⟩
  · exact h.annotate late (.observable index handles)

/-- Observables are written alike. -/
lemma flush_along (h : p.Twin k top p') {tick : Nat} (late : k.base ≤ tick) :
    (p.flush tick).Along k.strict
      (fun next next' => next.Twin k top next' ∧ p.store.Grows next.store)
      (p'.flush (tick + k.ticks)) := by
  have start : p.store.Twin k top p'.store ∧ p.store.Grows p.store := ⟨h.store, .refl _⟩
  have loop : (p.resolver.trackers.foldlM
      (fun s t => annotateObservable s tick t.index t.pending) p.store).Along k.strict
      (p.store.Steps k top)
      (p'.resolver.trackers.foldlM
        (fun s t => annotateObservable s (tick + k.ticks) t.index t.pending) p'.store) := by
    apply Outcome.Along.foldlM (R := p.store.Steps k top) h.trackers _ start
    rintro t t' s s' twin ⟨store, grows⟩
    rw [twin.later]
    refine (annotateObservable_along store late t.index t.pending).imp ?_
    rintro next next' ⟨store', grows'⟩
    exact ⟨store', grows.trans grows'⟩
  refine loop.bind ?_
  rintro s s' ⟨store, grows⟩
  have taken : Forall₂ (Tracker.Twin k s.record) (p.resolver.trackers.map (·.take.1))
      (p'.resolver.trackers.map (·.take.1)) := by
    rw [forall₂_map_left_iff, forall₂_map_right_iff]
    refine h.trackers.imp fun t t' twin => ⟨?_, ?_, twin.periodic⟩
    · rw [twin.later]
      rfl
    · exact forall_mem_nil _
  have written : (⟨{ p.resolver with trackers := [] }, s⟩ : Progress).Twin k top
      ⟨{ p'.resolver with trackers := [] }, s'⟩ := by
    refine ⟨store, { h.resolver with trackers := rfl, periodic := forall_mem_nil _ },
      forall_mem_nil _, fun loose some => ?_⟩
    exact (h.held loose some).trans_le grows.size_le
  exact along_ok ⟨written.setTrackers taken, grows⟩

end Progress

end SyndromeSchedule
