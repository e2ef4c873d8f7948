import SyndromeSchedule.Proofs.Faithful
import SyndromeSchedule.Proofs.Tracking

/-!
Observables of a whole compilation. With blocks written out, an observable includes each outcome
with the right parity: once for every change of its representative that the outcome takes part in,
and once if it is the final measurement of a qubit of the representative.
-/

namespace SyndromeSchedule

open List Outcome

variable {made longer : List (Check × Nat)}

/-- Handles that lead to checks with their rounds. -/
def Handles (made : List (Check × Nat)) (es : List (Check × Nat)) (handles : List Nat) : Prop :=
  Forall₂ (fun e h => made[h]? = some e) es handles

lemma Handles.mono {es : List (Check × Nat)} {handles : List Nat}
    (h : Handles made es handles) (longer_of : made <+: longer) : Handles longer es handles := by
  obtain ⟨rest, rfl⟩ := longer_of
  apply Forall₂.imp _ h
  intro e handle found
  rwa [getElem?_append_left (lt_of_getElem? found)]

lemma Code.measured_prefix (code : Code) {rounds more : Nat} (le : rounds ≤ more) :
    code.measured rounds <+: code.measured more := by
  rw [code.measured_split le]
  exact prefix_append ..

/-- Over some rounds an observable toggles the outcomes of its schedule. -/
structure Tracker.Gains (code : Code) (made : List (Check × Nat)) (start n : Nat)
    (t next : Tracker) (handles : List Nat) : Prop where
  made : Handles made (t.logical.toggledIn code start n) handles
  toggles : t.Toggles next handles

lemma Tracker.Gains.trans {code : Code} {start n m : Nat}
    {t next last : Tracker} {handles more : List Nat} (h : t.Gains code made start n next handles)
    (longer_of : made <+: longer) (h' : next.Gains code longer (start + n) m last more) :
    t.Gains code longer start (n + m) last (handles ++ more) where
  made := by
    have later := h'.made
    rw [h.toggles.logical] at later
    rw [Logical.toggledIn_add]
    exact rel_append (h.made.mono longer_of) later
  toggles := h.toggles.trans h'.toggles

/-- All observables of a request can be followed through a round. -/
def Task.Moves (task : Task) (round : Nat) : Prop :=
  ∀ l ∈ task.request.observables, l.moves task.code round = true

namespace Session

variable {task : Task} {s next : Session} {parts : List (Nat × List Nat)}
  {finals : Table (Pauli × Nat)} {made : List (Check × Nat)} {start stop tick : Nat}

lemma Complete.made_of_handle (complete : s.Complete task)
    (words : s.rounds ≤ Word.half) {c : Check} {round handle : Nat} (below : round < s.rounds)
    (scheduled : c ∈ task.code.checksIn round)
    (found : s.store.record.handle? (.of c (Word.signed round)) = some handle) :
    (task.code.measured s.rounds)[handle]? = some (c, round) := by
  obtain ⟨keys, _, account⟩ := complete.safe.account
  obtain ⟨t, entry⟩ := Record.entry?_of_handle? found
  obtain ⟨⟨d, r⟩, made, same⟩ := account.made_of_entry entry
  obtain ⟨below', scheduled'⟩ := Code.mem_measured.mp (mem_of_getElem? made)
  simp only [Key.of, Key.mk.injEq] at same
  obtain ⟨rounds, content⟩ := same
  rw [Word.signed_of_lt (by omega), Word.signed_of_lt (by simp only at below'; omega)] at rounds
  have round_eq : round = r := by omega
  subst round_eq
  rw [made, task.code.eq_of_content scheduled scheduled' content]

/-- All observables are followed, each by a tracker of its own. -/
structure Follows (task : Task) (s : Session) : Prop where
  observed : s.progress.resolver.trackers.map (fun t => (t.logical, t.index)) =
    task.request.observables.zipIdx
  current : ∀ t ∈ s.progress.resolver.trackers, t.current = t.logical.before s.rounds

section

variable (follows : s.Follows task)

include follows

lemma Follows.distinct :
    (s.progress.resolver.trackers.map (·.index)).Nodup := by
  have indices := congrArg (map Prod.snd) follows.observed
  rw [map_map, zipIdx_map_snd] at indices
  have same : s.progress.resolver.trackers.map (·.index) =
      range' 0 task.request.observables.length := indices
  rw [same]
  exact nodup_range'

lemma Follows.exists_tracker {e : Logical × Nat}
    (mem : e ∈ task.request.observables.zipIdx) :
    ∃ t ∈ s.progress.resolver.trackers, t.logical = e.1 ∧ t.index = e.2 := by
  rw [← follows.observed] at mem
  obtain ⟨t, inside, rfl⟩ := mem_map.mp mem
  exact ⟨t, inside, rfl, rfl⟩

lemma Follows.mem_observables {t : Tracker} (mem : t ∈ s.progress.resolver.trackers) :
    t.logical ∈ task.request.observables := by
  have listed : (t.logical, t.index) ∈ task.request.observables.zipIdx := by
    rw [← follows.observed]
    exact mem_map_of_mem mem
  exact mem_of_getElem? (mem_zipIdx_iff_getElem?.mp listed)

lemma Follows.moves (h : s.compileRound task = .ok next) : task.Moves s.rounds := by
  intro l mem
  obtain ⟨index, found⟩ := getElem?_of_mem mem
  have listed : (l, index) ∈ task.request.observables.zipIdx := mem_zipIdx_iff_getElem?.mpr found
  obtain ⟨t, tracked, rfl, _⟩ := follows.exists_tracker listed
  obtain ⟨t', _, advances⟩ := exists_right_of_forall₂ (compileRound_trackers h).2 tracked
  obtain ⟨_, _, _, _, moves⟩ := Tracker.advance_eq_ok (follows.current t tracked) advances
  exact moves

lemma Follows.step (h : s.compileRound task = .ok next) :
    next.Follows task := by
  obtain ⟨_, moved⟩ := compileRound_trackers h
  have each : ∀ t ∈ s.progress.resolver.trackers, ∀ t' ∈ next.progress.resolver.trackers,
      (t.advance task.code s.rounds next.store.record).commit = .ok (t', ()) →
        t'.logical = t.logical ∧ t'.index = t.index ∧
          t'.current = t.logical.before next.rounds := by
    intro t mem t' _ advances
    obtain ⟨handles, _, toggles, current, _⟩ :=
      Tracker.advance_eq_ok (follows.current t mem) advances
    rw [rounds_compileRound h]
    exact ⟨toggles.logical, toggles.index, current⟩
  have all := forall₂_of_mem moved each
  constructor
  · rw [← follows.observed]
    symm
    rw [maps_eq_iff]
    apply Forall₂.imp _ all
    rintro t t' ⟨logical, index, _⟩
    rw [logical, index]
  · intro t' mem
    obtain ⟨t, _, logical, _, current⟩ := exists_left_of_forall₂ all mem
    rw [current, logical]

lemma Follows.between (pause : s.Between next) :
    next.Follows task := by
  cases pause with
  | start tick => exact { follows with }
  | flush flushes =>
    obtain rfl := (Progress.flush_meets ..).of_ok flushes
    constructor
    · rw [← follows.observed, map_map]
      rfl
    · intro t mem
      obtain ⟨before, inside, rfl⟩ := mem_map.mp mem
      exact follows.current before inside
  | mark start stop repetitions => exact { follows with }

lemma Follows.stages {stages : List (Session × Session)}
    (h : Stages task s stages next) : next.Follows task :=
  h.keeps (fun run followed => followed.step run)
    (fun pause followed => followed.between pause) follows

lemma Follows.moves_of_stages {stages : List (Session × Session)} (h : Stages task s stages next) :
    ∀ r, s.rounds ≤ r → r < next.rounds → task.Moves r := by
  intro r from_le before
  have counted : r ∈ stages.map (·.1.rounds) := by
    rw [h.rounds.1, mem_range'_1, ← h.rounds.2]
    exact ⟨from_le, before⟩
  obtain ⟨stage, mem, rfl⟩ := mem_map.mp counted
  obtain ⟨followed, run⟩ := h.each (fun run followed => followed.step run)
    (fun pause followed => followed.between pause) follows stage mem
  exact followed.moves run

lemma Follows.layer
    (h : s.compileLayer task = .ok (next, start, stop)) : next.Follows task := by
  obtain ⟨layer, placed, _⟩ := compileLayer_stages h
  exact follows.stages placed

lemma Follows.compileRound (complete : next.Complete task)
    (words : next.rounds ≤ Word.half) (h : s.compileRound task = .ok next) :
    ∀ t' ∈ next.progress.resolver.trackers, ∃ t ∈ s.progress.resolver.trackers, ∃ handles,
      t.Gains task.code (task.code.measured next.rounds) s.rounds 1 t' handles := by
  have rounds := rounds_compileRound h
  intro t' mem
  obtain ⟨t, inside, advances⟩ := exists_left_of_forall₂ (compileRound_trackers h).2 mem
  obtain ⟨handles, found, toggles, _⟩ :=
    Tracker.advance_eq_ok (follows.current t inside) advances
  refine ⟨t, inside, handles, ?_, toggles⟩
  rw [Logical.toggledIn_one, Handles, forall₂_map_left_iff]
  apply forall₂_of_mem found
  intro c touches handle _ here
  have scheduled := (t.logical.mem_touched.mp touches).1
  exact complete.made_of_handle words (by omega) scheduled here

end

lemma Follows.compileRounds (extractable : task.Extractable) (n : Nat)
    (complete : s.Complete task) (follows : s.Follows task) (words : s.rounds + n ≤ Word.half)
    (h : s.compileRounds task n = .ok next) :
    (∀ index t, next.store.includedAt index t = s.store.includedAt index t) ∧
      ∀ t' ∈ next.progress.resolver.trackers, ∃ t ∈ s.progress.resolver.trackers, ∃ handles,
        t.Gains task.code (task.code.measured next.rounds) s.rounds n t' handles := by
  induction n generalizing s with
  | zero =>
    cases h
    exact ⟨fun _ _ => rfl, fun t mem => ⟨t, mem, [], .nil, .refl t t.current⟩⟩
  | succ n ih =>
    obtain ⟨mid, first, others⟩ := of_bind h
    obtain ⟨complete', _, rounds⟩ := (complete.compileRound_meets extractable).of_ok first
    obtain ⟨_, _, rounds'⟩ := (Complete.compileRounds_meets extractable n complete').of_ok others
    have gains := follows.compileRound complete' (by omega) first
    obtain ⟨included, gains'⟩ := ih complete' (follows.step first) (by omega) others
    refine ⟨fun index t => ?_, fun last mem => ?_⟩
    · rw [included, (compileRound_trackers first).1]
    · obtain ⟨t', inside', handles', gain'⟩ := gains' last mem
      obtain ⟨t, inside, handles, gain⟩ := gains t' inside'
      refine ⟨t, inside, handles ++ handles', ?_⟩
      rw [rounds] at gain'
      rw [Nat.add_comm n 1]
      exact gain.trans (task.code.measured_prefix (by omega)) gain'

/-- What is written into an observable: parts in some ticks. -/
def Deposits (index : Nat) (parts : List (Nat × List Nat)) (s next : Session) : Prop :=
  ∀ t, next.store.includedAt index t =
    s.store.includedAt index t ++ (parts.filter (·.1 = t)).flatMap (·.2)

lemma Deposits.trans {index : Nat} {more : List (Nat × List Nat)} {last : Session}
    (h : Deposits index parts s next) (h' : Deposits index more next last) :
    Deposits index (parts ++ more) s last := by
  intro t
  rw [h' t, h t, filter_append, flatMap_append, append_assoc]

lemma Deposits.single {index : Nat} {part : List Nat} (h : ∀ t, next.store.includedAt index t =
      s.store.includedAt index t ++ if t = tick then part else []) :
    Deposits index [(tick, part)] s next := by
  intro t
  rw [h t, filter_singleton]
  by_cases here : tick = t
  · simp [here]
  · simp [here, Ne.symm here]

/-- What some rounds add to an observable: parts of the outcomes that they toggle. -/
structure Gathers (task : Task) (s next : Session) (rounds : Nat) (e : Logical × Nat)
    (parts : List (Nat × List Nat)) (handles : List Nat) : Prop where
  deposits : Deposits e.2 parts s next
  made : Handles (task.code.measured next.rounds) (e.1.toggledIn task.code s.rounds rounds) handles
  parity : SameParity (parts.flatMap (·.2)) handles

lemma Gathers.trans {last : Session} {rounds more : Nat} {e : Logical × Nat}
    {later : List (Nat × List Nat)} {handles others : List Nat}
    (h : s.Gathers task next rounds e parts handles) (counts : next.rounds = s.rounds + rounds)
    (le : next.rounds ≤ last.rounds) (h' : next.Gathers task last more e later others) :
    s.Gathers task last (rounds + more) e (parts ++ later) (handles ++ others) where
  deposits := h.deposits.trans h'.deposits
  made := by
    have made := h'.made
    rw [counts] at made
    rw [Logical.toggledIn_add]
    exact rel_append (h.made.mono (task.code.measured_prefix le)) made
  parity := by
    rw [flatMap_append]
    exact h.parity.append h'.parity

/-- Nothing that an observable toggled is still to be written. -/
def Spent (s : Session) : Prop := ∀ t ∈ s.progress.resolver.trackers, t.pending = []

lemma Layer.tick_of_toggled (layer : s.Layer task next start stop)
    (complete : s.Complete task) {l : Logical} {handles : List Nat}
    (made : Handles (task.code.measured next.rounds)
      (l.toggledIn task.code s.rounds task.code.period) handles) {h : Nat} (mem : h ∈ handles) :
    start < stop := by
  obtain ⟨e, toggled, found⟩ := exists_left_of_forall₂ made mem
  have bound := lt_of_getElem? found
  have late : ¬ h < (task.code.measured s.rounds).length := by
    have le : s.rounds ≤ next.rounds := by
      rw [layer.rounds]
      omega
    have listed : (task.code.measured next.rounds ++ [])[h]? = some e := by
      rwa [append_nil]
    rw [task.code.lt_length_measured_iff le (by simp) listed]
    have := (l.mem_toggledIn.mp toggled).1.1
    omega
  rw [← layer.complete.size_record] at bound
  rw [← complete.size_record] at late
  obtain ⟨key, t, entry⟩ := Record.exists_entry bound
  have place := layer.placed entry (Record.entry?_eq_none (Nat.not_lt.mp late))
  omega

/-- A layer adds to an observable the outcomes that moved it, all in one tick. -/
lemma Follows.compileLayer (extractable : task.Extractable)
    (complete : s.Complete task) (follows : s.Follows task) (spent : s.Spent)
    (words : s.rounds + task.code.period ≤ Word.half)
    (h : s.compileLayer task = .ok (next, start, stop)) :
    next.Follows task ∧ next.Spent ∧ ∀ e ∈ task.request.observables.zipIdx,
      ∃ tick part handles, s.Gathers task next task.code.period e [(tick, part)] handles ∧
        (part ≠ [] → start ≤ tick ∧ tick < stop) := by
  have layer := complete.layer extractable h
  obtain ⟨_, mid, run, last, ends⟩ := compileLayer_eq_ok h
  have begun : ({ s with layerStart := start } : Session).Complete task :=
    complete.setLayerStart start
  have rounds : mid.rounds = s.rounds + task.code.period :=
    ((Complete.compileRounds_meets extractable _ begun).of_ok run).2.2
  have started : ({ s with layerStart := start } : Session).Follows task :=
    ⟨follows.observed, follows.current⟩
  obtain ⟨included, gains⟩ := started.compileRounds extractable _ begun words run
  obtain ⟨stages, placed, _⟩ := compileRounds_stages _ run
  have followed := started.stages placed
  have included : ∀ index t, mid.store.includedAt index t = s.store.includedAt index t := included
  rw [rounds, ← layer.rounds] at gains
  -- what is toggled in this layer, since nothing was left over
  have toggled : ∀ t' ∈ mid.progress.resolver.trackers, ∃ handles,
      Handles (task.code.measured next.rounds)
        (t'.logical.toggledIn task.code s.rounds task.code.period) handles ∧
      SameParity t'.pending handles ∧ (t'.pending ≠ [] → start < stop) := by
    intro t' mem
    obtain ⟨t, inside, handles, gain⟩ := gains t' mem
    have none : t.pending = [] := spent t inside
    have made := gain.made
    have parity := gain.toggles.parity
    rw [none, nil_append] at parity
    rw [← gain.toggles.logical] at made
    refine ⟨handles, made, parity, fun some_handle => ?_⟩
    obtain ⟨h, pending⟩ := exists_mem_of_ne_nil _ some_handle
    rcases gain.toggles.only h pending with old | new
    · rw [none] at old
      contradiction
    · exact layer.tick_of_toggled complete made new
  split_ifs at ends with some_tick
  · obtain ⟨flushed, flush, rfl⟩ := ends
    obtain rfl := (Progress.flush_meets ..).of_ok flush
    refine ⟨follows.layer h, ?_, ?_⟩
    · intro t mem
      obtain ⟨t', inside, rfl⟩ := mem_map.mp mem
      rfl
    · intro e mem
      obtain ⟨t', inside, logical, index⟩ := followed.exists_tracker mem
      obtain ⟨handles, made, parity, reached⟩ := toggled t' inside
      rw [logical] at made
      refine ⟨stop - 1, t'.pending, handles, ⟨.single fun t => ?_, made,
        by rwa [flatMap_singleton]⟩,
        fun _ => by omega⟩
      have distinct : ((mid.progress.resolver.trackers.map (stop - 1, ·)).map
          (·.2.index)).Nodup := by
        rw [map_map]
        exact followed.distinct
      rw [← included, ← index]
      exact Store.includedAt_allNoted _ distinct (mem_map_of_mem inside) t
  · subst ends
    have none : next.Spent := by
      intro t' mem
      by_contra some_handle
      obtain ⟨_, _, _, reached⟩ := toggled t' mem
      exact some_tick (reached some_handle)
    refine ⟨followed, none, fun e mem => ?_⟩
    obtain ⟨t', inside, logical, index⟩ := followed.exists_tracker mem
    obtain ⟨handles, made, parity, _⟩ := toggled t' inside
    rw [logical] at made
    rw [none t' inside] at parity
    refine ⟨0, [], handles, ⟨.single fun t => ?_, made, parity⟩, fun some => absurd rfl some⟩
    rw [included, ite_self, append_nil]

lemma Follows.compileLayers (extractable : task.Extractable) (n : Nat)
    (complete : s.Complete task) (follows : s.Follows task) (spent : s.Spent)
    (words : s.rounds + n * task.code.period ≤ Word.half)
    (h : s.compileLayers task n = .ok next) :
    next.Follows task ∧ next.Spent ∧ ∀ e ∈ task.request.observables.zipIdx, ∃ parts handles,
        s.Gathers task next (n * task.code.period) e parts handles := by
  induction n generalizing s with
  | zero =>
    cases h
    refine ⟨follows, spent, fun e _ => ⟨[], [], fun t => by simp, ?_, .refl []⟩⟩
    rw [Nat.zero_mul]
    exact .nil
  | succ n ih =>
    obtain ⟨mid, start, stop, first, others⟩ := compileLayers_succ_eq_ok.mp h
    have layer := complete.layer extractable first
    have count : (n + 1) * task.code.period = task.code.period + n * task.code.period := by
      rw [Nat.add_mul, Nat.one_mul, Nat.add_comm]
    rw [count] at words ⊢
    have rounds := layer.rounds
    obtain ⟨follows', spent', adds⟩ :=
      Follows.compileLayer extractable complete follows spent (by omega) first
    obtain ⟨follows'', spent'', gathers⟩ := ih layer.complete follows' spent' (by omega) others
    have later := ((Complete.compileLayers_meets extractable n layer.complete).of_ok others).2.1
    refine ⟨follows'', spent'', fun e mem => ?_⟩
    obtain ⟨_, _, _, add, _⟩ := adds e mem
    obtain ⟨parts, more, gather⟩ := gathers e mem
    exact ⟨_, _, add.trans rounds (by omega) gather⟩

/-! The end. -/

/-- An outcome that stands for the final measurement of a qubit: it is made anew, or it is that of a
check of the last round, and nothing is made anew for its qubit. -/
def Settles (made : List (Check × Nat)) (last : Nat) (s next : Session) (f : Qubit × Pauli)
    (handle : Nat) : Prop :=
  (∃ c t, s.store.record.size ≤ handle ∧ c.Reads f.1 f.2 ∧
      next.store.record.entry? handle = some (Key.of c (Word.signed s.rounds), t)) ∨
    ∃ c t, (c, last) ∈ made ∧ c.Reads f.1 f.2 ∧
      s.store.record.entry? handle = some (Key.of c (Word.signed last), t) ∧
      ∀ h key t, s.store.record.size ≤ h → next.store.record.entry? h = some (key, t) →
        key.content.keys ≠ [f.1]

/-- Final measurements so far, and qubits that are still to be measured. -/
structure Settling (made : List (Check × Nat)) (last : Nat) (s mid : Session)
    (finals : Table (Pauli × Nat)) (rest : List Qubit) : Prop where
  measured : s.Measured mid finals
  settled : ∀ (q : Qubit) (basis : Pauli) (handle : Nat), finals.get? q = some (basis, handle) →
    q ∉ rest ∧ s.Settles made last mid (q, basis) handle
  fresh : ∀ q ∈ rest, ∀ h key t, s.store.record.size ≤ h →
    mid.store.record.entry? h = some (key, t) → key.content.keys ≠ [q]

/-- One more final measurement. -/
lemma Settling.step {last : Nat} {mid after : Session}
    {more : Table (Pauli × Nat)} {q : Qubit} {basis : Pauli} {rest : List Qubit}
    (stable : s.Stable made) (h : s.Settling made last mid finals (q :: rest)) (other : q ∉ rest)
    (measures : measureFinal task last tick (mid, finals) (q, basis) = .ok (after, more)) :
    s.Settling made last after more rest := by
  have measured := h.measured.step stable measures
  rcases measureFinal_eq_ok measures with
    ⟨d, found, rfl, rfl, _, rfl, rfl⟩ | ⟨c, gate, reads, _, made', _, rfl⟩
  · refine ⟨measured, ?_, fun p inside => h.fresh p (.tail _ inside)⟩
    intro p letter handle here
    rw [Table.get?_insert] at here
    split_ifs at here with same
    · subst same
      cases here
      rw [h.measured.direct] at found
      obtain ⟨c, listed, reads, entry⟩ := stable.direct found
      refine ⟨other, .inr ⟨c, d.tick, listed, reads, entry, ?_⟩⟩
      exact h.fresh p (.head _)
    · obtain ⟨away, settled⟩ := h.settled p letter handle here
      exact ⟨fun inside => away (.tail _ inside), settled⟩
  · have record := made'.record rfl
    have added : ∀ h key t, after.store.record.entry? h = some (key, t) →
        mid.store.record.entry? h = some (key, t) ∨ key.content.keys = [q] := by
      intro h key t entry
      rw [record, Record.entry?_push] at entry
      split_ifs at entry with new
      · cases entry
        exact .inr reads.keys_content
      · exact .inl entry
    have grown := Record.Within.size_le h.measured.within
    refine ⟨measured, ?_, ?_⟩
    · intro p letter handle here
      rw [Table.get?_insert] at here
      split_ifs at here with same
      · subst same
        cases here
        refine ⟨other, .inl ⟨c, tick, grown, reads, ?_⟩⟩
        rw [record, Record.entry?_push, if_pos rfl, h.measured.rounds]
      · obtain ⟨away, settled⟩ := h.settled p letter handle here
        refine ⟨fun inside => away (.tail _ inside), ?_⟩
        rcases settled with ⟨c', t, new, reads', entry⟩ | ⟨c', t, listed, reads', entry, none⟩
        · refine .inl ⟨c', t, new, reads', ?_⟩
          rw [record]
          exact Record.entry?_push_of_some entry
        · refine .inr ⟨c', t, listed, reads', entry, ?_⟩
          intro h key t late entry
          rcases added h key t entry with old | keys
          · exact none h key t late old
          · rw [keys]
            exact fun equal => same (singleton_injective equal).symm
    · intro p inside h' key t late entry
      rcases added h' key t entry with old | keys
      · exact h.fresh p (.tail _ inside) h' key t late old
      · rw [keys]
        intro equal
        rw [singleton_injective equal] at other
        exact other inside

/-- Final measurements lead to outcomes that settle their qubits. -/
lemma settles_finals {last : Nat}
    {items : List (Qubit × Pauli)} (stable : s.Stable made) (distinct : (items.map (·.1)).Nodup)
    (h : items.foldlM (measureFinal task last tick) (s, .empty) = .ok (next, finals)) :
    s.Measured next finals ∧ ∀ (q : Qubit) (basis : Pauli) (handle : Nat),
      finals.get? q = some (basis, handle) → s.Settles made last next (q, basis) handle := by
  have run : ∀ (items : List (Qubit × Pauli)) (mid : Session) (before : Table (Pauli × Nat)),
      (items.map (·.1)).Nodup → s.Settling made last mid before (items.map (·.1)) →
      items.foldlM (measureFinal task last tick) (mid, before) = .ok (next, finals) →
      s.Settling made last next finals [] := by
    intro items
    induction items with
    | nil =>
      intro mid before _ settling h
      cases h
      exact settling
    | cons f rest ih =>
      intro mid before distinct settling h
      obtain ⟨⟨after, more⟩, here, others⟩ := foldlM_cons_eq_ok.mp h
      rw [map_cons, nodup_cons] at distinct
      exact ih after more distinct.2 (settling.step stable distinct.1 here) others
  have begin : s.Settling made last s .empty (items.map (·.1)) := by
    refine ⟨⟨?_, id, fun _ => rfl, rfl, rfl, rfl⟩, ?_, ?_⟩
    · intro q basis handle found
      simp at found
    · intro q basis handle found
      simp at found
    · intro q _ h key t late entry
      have bound := Record.lt_size entry
      omega
  have ended := run items s .empty distinct begin h
  exact ⟨ended.measured, fun q basis handle found => (ended.settled q basis handle found).2⟩

/-- The end adds the final measurements of the representative to an observable, in the tick of the
latest of them. -/
theorem Follows.measureFinals {placed : Nat} (complete : s.Complete task)
    (follows : s.Follows task) (spent : s.Spent)
    (fault : task.request.fault? task.code = none)
    (h : s.measureFinals task = .ok (next, placed)) :
    ∀ e ∈ task.request.observables.zipIdx, ∃ tick part handles, Deposits e.2 [(tick, part)] s next ∧
      (part ≠ [] → ∃ h ∈ handles, ∃ key, next.store.record.entry? h = some (key, tick)) ∧
      SameParity part handles ∧
      Forall₂ (s.Settles (task.code.measured s.rounds) (s.rounds - 1) next)
        (e.1.before s.rounds).factors.entries handles := by
  obtain ⟨_, mid, finals, closed, ended, measures, closes, ends, rfl⟩ := measureFinals_eq_ok h
  have distinct := (Request.fault?_eq_none fault).2.1
  obtain ⟨measured, settles⟩ := settles_finals complete.safe.toStable distinct measures
  have marks := Progress.finalDetectors_marks closes
  obtain ⟨lasts, each, noted⟩ := Progress.finalObservables_eq_ok ends
  have record' : ended.store.record = closed.store.record := by
    rw [noted, Store.record_withNotes]
  have record_eq : ended.store.record = mid.store.record := record'.trans marks.record
  have trackers : closed.resolver.trackers = s.progress.resolver.trackers := by
    rw [marks.trackers, measured.resolver]
  rw [trackers] at each
  have closing : ∀ t ∈ s.progress.resolver.trackers, ∀ c ∈ lasts,
      (t.close mid.rounds finals).commit = .ok (c.2, ()) ∧
        closed.store.record.Latest c.2.pending c.1 →
      ∃ handles, t.Toggles c.2 handles ∧ closed.store.record.Latest c.2.pending c.1 ∧
        Forall₂ (s.Settles (task.code.measured s.rounds) (s.rounds - 1) mid)
          (t.logical.before s.rounds).factors.entries handles := by
    rintro t mem c _ ⟨close, latest⟩
    obtain ⟨handles, found, toggles⟩ := Tracker.close_eq_ok close
    rw [follows.current t mem] at found
    refine ⟨handles, toggles, latest, ?_⟩
    exact found.imp fun f h here => settles _ _ _ here
  have all := forall₂_of_mem each closing
  have indices : lasts.map (·.2.index) = s.progress.resolver.trackers.map (·.index) := by
    symm
    rw [maps_eq_iff]
    exact all.imp fun t c h => h.choose_spec.1.index.symm
  intro e mem
  obtain ⟨t, inside, logical, index⟩ := follows.exists_tracker mem
  obtain ⟨c, listed, handles, toggles, latest, settled⟩ := exists_right_of_forall₂ all inside
  rw [logical] at settled
  have parity := toggles.parity
  have only := toggles.only
  rw [spent t inside] at parity only
  refine ⟨c.1, c.2.pending, handles, .single fun t' => ?_, fun some_handle => ?_, parity, ?_⟩
  · have distinct : (lasts.map (·.2.index)).Nodup := by
      rw [indices]
      exact follows.distinct
    have start : mid.store.includedAt c.2.index t' = s.store.includedAt c.2.index t' := by
      unfold Store.includedAt Store.included
      rw [flatMap_singleton, flatMap_singleton, measured.notes]
    rw [← toggles.index.trans index, ← start, ← (Spares.marks marks).included]
    change ended.store.includedAt _ _ = _
    rw [noted]
    exact Store.includedAt_allNoted _ distinct listed t'
  · obtain ⟨none, _⟩ | ⟨h, pending, key, entry⟩ := latest.attained
    · exact absurd none some_handle
    · rcases only h pending with old | new
      · contradiction
      · refine ⟨h, new, key, ?_⟩
        rw [← entry]
        exact congrArg (Record.entry? · h) record'
  · apply settled.imp
    intro f h settle
    unfold Settles
    have same : ({ mid with progress := ended } : Session).store.record = mid.store.record :=
      record_eq
    rwa [same]

end Session

end SyndromeSchedule
