import SyndromeSchedule.Proofs.Resolver

/-!
Observables only ever fail by drifting from the schedule of their logical operator: every outcome
they toggle is on record, so it can be written into any tick after it.
-/

namespace SyndromeSchedule

open List Outcome

variable {reasons : Halt → Prop}

namespace Tracker

variable {t : Tracker} {r : Record} {round : Nat}

/-- What an observable toggled is on record. -/
def Valid (r : Record) (t : Tracker) : Prop := ∀ h ∈ t.pending, h < r.size

lemma mem_toggleIn {handle h : Nat} {pending : List Nat} (mem : h ∈ toggleIn handle pending) :
    h = handle ∨ h ∈ pending := by
  induction pending with
  | nil => exact .inl (by simpa [toggleIn] using mem)
  | cons n rest ih =>
    simp only [toggleIn] at mem
    split_ifs at mem with before same
    · exact mem_cons.mp mem
    · exact .inr (.tail _ mem)
    · rcases mem_cons.mp mem with rfl | later
      · exact .inr (.head _)
      · rcases ih later with new | old
        · exact .inl new
        · exact .inr (.tail _ old)

variable (valid : t.Valid r)
include valid

lemma Valid.toggle {handle : Nat} (known : handle < r.size) :
    (t.toggle handle).Valid r := by
  intro h mem
  rcases mem_toggleIn mem with rfl | old
  · exact known
  · exact valid h old

lemma Valid.absorb_meets {c : Check} (made : r.contains (.of c (Word.signed round)) = true) :
    (t.absorb r round c).Meets reasons fun t _ => t.Valid r := by
  obtain ⟨handle, tick, found, _, entry⟩ := Record.lookupMade_of_contains made
  simp only [absorb, found]
  refine meets_ok ?_
  exact Valid.toggle (t := { t with current := t.current.mul c.product }) valid
    (Record.lt_size entry)

section

variable {code : Code} (made : ∀ c ∈ code.checksIn round, r.contains (.of c (Word.signed round)) =
  true)
include made

lemma Valid.absorbAll_meets (touches : Check → Bool) :
    (Attempt.forEach (absorb r round) t ((code.checksIn round).filter touches)).Meets reasons
      fun t _ => t.Valid r := by
  refine (Attempt.Meets.forEach
    (fun rest t => t.Valid r ∧ ∀ c ∈ rest, c ∈ code.checksIn round) ?_ _ t ⟨valid, ?_⟩).imp
    fun _ after => after.1
  · rintro c rest t ⟨before, scheduled⟩
    refine (before.absorb_meets (made c (scheduled c (.head _)))).imp ?_
    exact fun _ after => ⟨after, fun c mem => scheduled c (.tail _ mem)⟩
  · exact fun c mem => (mem_filter.mp mem).1

lemma Valid.advance_meets :
    (t.advance code round r).Meets Halt.IsExpected fun t _ => t.Valid r := by
  simp only [advance]
  split_ifs with large same
  · exact .inr (.inr rfl)
  · exact meets_ok valid
  · refine (valid.absorbAll_meets made _).andThen fun t _ _ after => ?_
    split_ifs
    · exact meets_ok after
    · exact meets_observable

end

lemma Valid.close_meets (rounds : Nat) {finals : Table (Pauli × Nat)}
    (made : ∀ q e, finals.get? q = some e → e.2 < r.size) :
    (t.close rounds finals).Meets Halt.IsExpected fun t _ => t.Valid r := by
  simp only [close]
  split_ifs
  · refine Attempt.Meets.forEach (fun _ t => t.Valid r) ?_ _ t valid
    intro factor rest t before
    simp only [readOut]
    split
    · next basis handle found =>
        split_ifs
        · exact meets_ok (before.toggle (made _ _ found))
        · exact meets_observable
    · exact meets_observable
  · exact meets_observable

end Tracker

namespace Progress

variable {finals : Table (Pauli × Nat)} {p : Progress}

lemma commit_eachTracker_cons (action : Tracker → Attempt Tracker Unit) (t : Tracker)
    (rest : List Tracker) :
    (eachTracker action (t :: rest)).commit = (action t).commit >>= fun r =>
      (eachTracker action rest).commit >>= fun others => .ok (r.1 :: others.1, ()) := by
  rw [eachTracker]
  cases h : action t with
  | mk state outcome =>
    cases outcome with
    | error halt => rfl
    | ok u =>
      cases h' : eachTracker action rest with
      | mk states outcome =>
        cases outcome <;> rfl

lemma eachTracker_meets {post : Tracker → Prop} {action : Tracker → Attempt Tracker Unit}
    {trackers : List Tracker} (h : ∀ t ∈ trackers, (action t).Meets reasons fun t _ => post t) :
    (eachTracker action trackers).Meets reasons fun ts _ => ∀ t ∈ ts, post t := by
  induction trackers with
  | nil => exact meets_ok (by simp [eachTracker])
  | cons t rest ih =>
    apply Attempt.Meets.of_commit
    rw [commit_eachTracker_cons]
    refine (h t (.head _)).commit.bind fun r first => ?_
    refine (ih fun t mem => h t (.tail _ mem)).commit.bind fun others all => ?_
    exact meets_ok (forall_mem_cons.mpr ⟨first, all⟩)

lemma commit_endRound (p : Progress) (code : Code) (round : Nat) :
    (p.endRound code round).commit =
      (eachTracker (·.advance code round p.store.record) p.resolver.trackers).commit >>= fun r =>
        .ok (p.setTrackers r.1, ()) := by
  unfold endRound
  cases h : eachTracker (·.advance code round p.store.record) p.resolver.trackers with
  | mk states outcome =>
    cases outcome <;> rfl

lemma endRound_eq_ok {next : Progress} {code : Code} {round : Nat} {u : Unit}
    (h : (p.endRound code round).commit = .ok (next, u)) :
    ∃ trackers, next = p.setTrackers trackers :=
  ⟨_, (Attempt.commit_eq_ok.mp h).1.symm⟩

lemma endRound_meets {code : Code} {round : Nat} (each : ∀ t ∈ p.resolver.trackers,
      (t.advance code round p.store.record).Meets reasons fun t _ => t.Valid p.store.record) :
    (p.endRound code round).Meets reasons fun next _ =>
      (∀ t ∈ next.resolver.trackers, t.Valid p.store.record) ∧
        next = p.setTrackers next.resolver.trackers :=
  (eachTracker_meets each).imp fun _ after => ⟨after, rfl⟩

end Progress

/-- Annotation of a tick with what an observable toggled, if it did. -/
def Tracker.noted (tick : Nat) (t : Tracker) : List (Nat × Note) :=
  if t.pending = [] then [] else [(tick, .observable t.index t.pending)]

/-- Annotations with what some observables toggled, each in its tick. -/
def Tracker.allNoted (items : List (Nat × Tracker)) : List (Nat × Note) :=
  items.flatMap fun e => e.2.noted e.1

lemma Tracker.allNoted_cons (tick : Nat) (t : Tracker) (rest : List (Nat × Tracker)) :
    allNoted ((tick, t) :: rest) = t.noted tick ++ allNoted rest := flatMap_cons

lemma Tracker.mem_allNoted {items : List (Nat × Tracker)} {e : Nat × Note}
    (mem : e ∈ allNoted items) :
    ∃ i ∈ items, i.2.pending ≠ [] ∧ e = (i.1, .observable i.2.index i.2.pending) := by
  obtain ⟨i, inside, mem⟩ := mem_flatMap.mp mem
  refine ⟨i, inside, ?_⟩
  unfold noted at mem
  split_ifs at mem with none
  · cases mem
  · exact ⟨none, mem_singleton.mp mem⟩

namespace Progress

variable {finals : Table (Pauli × Nat)} {p : Progress} {s next : Store} {u : Unit} {rounds : Nat}

lemma annotateObservable_meets (s : Store) (tick : Nat) (t : Tracker) :
    (annotateObservable s tick t.index t.pending).Bounded (· = s.withNotes (t.noted tick)) := by
  simp only [annotateObservable, Tracker.noted, List.isEmpty_iff]
  split_ifs
  · exact meets_ok rfl
  · exact s.annotate_meets tick _

/-- Observables are written into a tick one after the other, and toggle anew from there. -/
lemma flush_meets (p : Progress) (tick : Nat) : (p.flush tick).Bounded fun next =>
    next = ⟨{ p.resolver with trackers := p.resolver.trackers.map (·.take.1) },
      p.store.withNotes (Tracker.allNoted (p.resolver.trackers.map (tick, ·)))⟩ := by
  have run : ∀ (trackers : List Tracker) (s : Store),
      (trackers.foldlM (fun s t => annotateObservable s tick t.index t.pending) s).Bounded
        (· = s.withNotes (Tracker.allNoted (trackers.map (tick, ·)))) := by
    intro trackers
    induction trackers with
    | nil => exact fun s => meets_ok rfl
    | cons t rest ih =>
      intro s
      rw [foldlM_cons, map_cons, Tracker.allNoted_cons, Store.withNotes_append]
      refine (annotateObservable_meets ..).bind ?_
      rintro mid rfl
      exact ih _
  refine (run p.resolver.trackers p.store).bind ?_
  rintro store rfl
  exact meets_ok rfl

lemma commit_closeTracker (rounds : Nat) (finals : Table (Pauli × Nat)) (s : Store)
    (t : Tracker) :
    (closeTracker rounds finals s t).commit = (t.close rounds finals).commit >>= fun r =>
      (latestTick s r.1.pending >>= fun tick =>
        annotateObservable s tick r.1.index r.1.pending) >>= fun store =>
          .ok ((store, r.1.take.1), ()) := by
  unfold closeTracker
  generalize t.close rounds finals = closed
  cases closed with
  | mk state outcome =>
    cases outcome with
    | error halt => rfl
    | ok result =>
      simp only [Tracker.take]
      cases written : latestTick s state.pending >>= fun tick =>
          annotateObservable s tick state.index state.pending with
      | error halt | ok store =>
        change _ = (latestTick s state.pending >>= fun tick =>
          annotateObservable s tick state.index state.pending) >>= _
        rw [written]
        rfl

lemma closeTracker_eq_ok {t last : Tracker}
    (h : (closeTracker rounds finals s t).commit = .ok ((next, last), u)) :
    ∃ closed tick, (t.close rounds finals).commit = .ok (closed, ()) ∧
      s.record.Latest closed.pending tick ∧ next = s.withNotes (closed.noted tick) ∧
      last = closed.take.1 := by
  rw [commit_closeTracker] at h
  obtain ⟨closed, closes, h⟩ := of_bind h
  obtain ⟨store, writes, h⟩ := of_bind h
  cases h
  obtain ⟨tick, latest, writes⟩ := of_bind writes
  exact ⟨closed.1, tick, closes, latestTick_eq_ok latest,
    (annotateObservable_meets ..).of_ok writes, rfl⟩

lemma closeTracker_meets {t : Tracker} (full : reasons (@Halt.overflow .word))
    (closed : (t.close rounds finals).Meets reasons fun t _ => t.Valid s.record) :
    (closeTracker rounds finals s t).Meets reasons fun next _ => next.1.record = s.record := by
  apply Attempt.Meets.of_commit
  rw [commit_closeTracker]
  refine closed.commit.bind fun r known => ?_
  have written : (latestTick s r.1.pending >>= fun tick =>
      annotateObservable s tick r.1.index r.1.pending).Meets reasons
        fun store => store.record = s.record := by
    refine (latestTick_meets known).bind fun tick _ => ?_
    refine Outcome.Meets.imp ((annotateObservable_meets ..).mono full) ?_
    rintro store rfl
    exact Store.record_withNotes ..
  exact written.bind fun store same => meets_ok same

lemma commit_closeTrackers_cons (rounds : Nat) (finals : Table (Pauli × Nat)) (s : Store)
    (t : Tracker) (rest : List Tracker) :
    (closeTrackers rounds finals s (t :: rest)).commit =
      (closeTracker rounds finals s t).commit >>= fun r =>
        (closeTrackers rounds finals r.1.1 rest).commit >>= fun others =>
          .ok ((others.1.1, r.1.2 :: others.1.2), ()) := by
  rw [closeTrackers]
  generalize closeTracker rounds finals s t = first
  cases first with
  | mk state outcome =>
    cases outcome with
    | error halt => rfl
    | ok result =>
      simp only [Attempt.commit, bind, Except.bind]
      cases (closeTrackers rounds finals state.1 rest).outcome <;> rfl

lemma closeTrackers_eq_ok {trackers lasts : List Tracker}
    (h : (closeTrackers rounds finals s trackers).commit = .ok ((next, lasts), u)) :
    ∃ closed, Forall₂ (fun t (e : Nat × Tracker) =>
        (t.close rounds finals).commit = .ok (e.2, ()) ∧ s.record.Latest e.2.pending e.1)
        trackers closed ∧ next = s.withNotes (Tracker.allNoted closed) := by
  induction trackers generalizing s lasts with
  | nil =>
    cases h
    exact ⟨[], .nil, rfl⟩
  | cons t rest ih =>
    rw [commit_closeTrackers_cons] at h
    obtain ⟨first, closes, h⟩ := of_bind h
    obtain ⟨later, ends, h⟩ := of_bind h
    cases h
    obtain ⟨closed, tick, read, latest, mid, _⟩ := closeTracker_eq_ok closes
    obtain ⟨others, each, made⟩ := ih ends
    rw [mid, Store.record_withNotes] at each
    refine ⟨(tick, closed) :: others, .cons ⟨read, latest⟩ each, ?_⟩
    rw [made, mid, Tracker.allNoted_cons, Store.withNotes_append]

lemma commit_finalObservables (p : Progress) (rounds : Nat) (finals : Table (Pauli × Nat)) :
    (p.finalObservables rounds finals).commit =
      (closeTrackers rounds finals p.store p.resolver.trackers).commit >>= fun r =>
        .ok ((⟨p.resolver, r.1.1⟩ : Progress).setTrackers r.1.2, ()) := by
  unfold finalObservables
  generalize closeTrackers rounds finals p.store p.resolver.trackers = a
  cases a with
  | mk state outcome =>
    cases outcome <;> rfl

lemma finalObservables_eq_ok {next : Progress}
    (h : (p.finalObservables rounds finals).commit = .ok (next, u)) :
    ∃ closed, Forall₂ (fun t (e : Nat × Tracker) =>
        (t.close rounds finals).commit = .ok (e.2, ()) ∧ p.store.record.Latest e.2.pending e.1)
        p.resolver.trackers closed ∧ next.store = p.store.withNotes (Tracker.allNoted closed) := by
  obtain ⟨rfl, outcome⟩ := Attempt.commit_eq_ok.mp h
  exact closeTrackers_eq_ok (Attempt.commit_eq_ok.mpr ⟨rfl, outcome⟩)

lemma finalObservables_meets (full : reasons (@Halt.overflow .word))
    (each : ∀ t ∈ p.resolver.trackers,
      (t.close rounds finals).Meets reasons fun t _ => t.Valid p.store.record) :
    (p.finalObservables rounds finals).Meets reasons fun _ _ => True := by
  have run : ∀ (trackers : List Tracker) (s : Store), (∀ t ∈ trackers,
      (t.close rounds finals).Meets reasons fun t _ => t.Valid s.record) →
      (closeTrackers rounds finals s trackers).Meets reasons fun _ _ => True := by
    intro trackers
    induction trackers with
    | nil => exact fun s _ => meets_ok trivial
    | cons t rest ih =>
      intro s each
      apply Attempt.Meets.of_commit
      rw [commit_closeTrackers_cons]
      refine (closeTracker_meets full (each t (.head _))).commit.bind fun r record => ?_
      refine Outcome.Meets.bind (ih r.1.1 fun t mem => ?_).commit fun _ _ => meets_ok trivial
      rw [record]
      exact each t (.tail _ mem)
  exact (run p.resolver.trackers p.store each).imp fun _ _ => trivial

end Progress

end SyndromeSchedule
