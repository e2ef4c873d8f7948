import SyndromeSchedule.Proofs.TwinProgress

/-!
The end of two runs that are compared. The final measurements have the same letters in both, so that
they close the same detectors, and observables are read out on the same qubits.
-/

namespace SyndromeSchedule

open List Outcome

namespace Progress

variable {k : Comparison} {top : Nat} {p p' : Progress}

/-- Final measurements in both runs, in ticks that may be written. -/
structure TwinFinals (k : Comparison) (r : Record) (finals finals' : Table (Pauli × Nat)) :
    Prop where
  get : ∀ q, finals'.get? q = (finals.get? q).map fun e => (e.1, e.2 + k.handles)
  reaches : ∀ q e, finals.get? q = some e → Reached k r e.2

section Finals

variable {s s' : Store} {finals finals' : Table (Pauli × Nat)} {code : Code} {last : Nat}
  {r : Record}

lemma TwinFinals.mono {later : Record} (h : TwinFinals k r finals finals')
    (within : r.Within later) : TwinFinals k later finals finals' where
  get := h.get
  reaches := by
    intro q e found
    obtain ⟨key, t, entry, low⟩ := h.reaches q e found
    exact ⟨key, t, within entry, low⟩

lemma TwinFinals.covered (h : TwinFinals k r finals finals') (c : Check) :
    isCovered finals' c = isCovered finals c := by
  unfold Progress.isCovered
  simp only [h.get, Option.map_map]
  rfl

lemma TwinFinals.handles (h : TwinFinals k r finals finals') (c : Check) :
    (finalHandles finals c).Along k.strict
      (fun ns ns' => ns' = ns.map (· + k.handles) ∧ Reaches k r ns) (finalHandles finals' c) := by
  have each : (finalHandles finals c).Along k.strict
      (Forall₂ fun n n' => n' = n + k.handles ∧ Reached k r n) (finalHandles finals' c) := by
    have related : Forall₂ (fun q q' : Qubit => q' = q) c.qubits c.qubits :=
      forall₂_same.mpr fun _ _ => rfl
    apply Outcome.Along.mapM related
    rintro _ q rfl
    rw [h.get]
    cases found : finals.get? q with
    | none => exact along_error fun _ => rfl
    | some e => exact ⟨rfl, h.reaches q e found⟩
  refine each.imp fun ns ns' related => ⟨?_, fun n mem => ?_⟩
  · rw [← forall₂_eq_eq_eq, forall₂_map_right_iff]
    exact related.flip.imp fun _ _ pair => pair.1
  · obtain ⟨_, _, pair⟩ := exists_right_of_forall₂ related mem
    exact pair.2

lemma lastMeasured?_later (divides : code.period ∣ k.rounds) (c : Check) {steps round : Nat}
    (enough : steps ≤ round + 1) :
    lastMeasured? code c steps (round + k.rounds) =
      (lastMeasured? code c steps round).map (· + k.rounds) := by
  induction steps generalizing round with
  | zero => rfl
  | succ steps ih =>
    obtain ⟨m, same⟩ := divides
    have checks : code.checksIn (round + k.rounds) = code.checksIn round := by
      rw [same, Nat.mul_comm]
      exact code.checksIn_add_mul round m
    rw [lastMeasured?, lastMeasured?, checks]
    split_ifs
    · rfl
    · cases steps with
      | zero => rfl
      | succ steps =>
        have back : round + k.rounds - 1 = round - 1 + k.rounds := by omega
        rw [back]
        exact ih (by omega)

lemma isDisturbed_later (divides : code.period ∣ k.rounds) (c : Check) (measured last : Nat) :
    isDisturbed code c (measured + k.rounds) (last + k.rounds) =
      isDisturbed code c measured last := by
  obtain ⟨m, same⟩ := divides
  have checks : ∀ j, code.checksIn (measured + k.rounds + 1 + j) =
      code.checksIn (measured + 1 + j) := by
    intro j
    have moved : measured + k.rounds + 1 + j = measured + 1 + j + m * code.period := by
      rw [same, Nat.mul_comm]
      omega
    rw [moved]
    exact code.checksIn_add_mul _ m
  unfold isDisturbed
  rw [Nat.add_sub_add_right]
  simp only [checks]

/-- What holds after some final detectors are placed in both runs. -/
structure Placed (k : Comparison) (top : Nat) (s : Store) (x x' : Store × Nat) : Prop where
  twin : x.1.Twin k top x'.1
  count : x'.2 = x.2
  grows : s.Grows x.1

lemma placeFinal_along {x x' : Store × Nat} (h : Placed k top s x x') {handles : List Nat}
    (reaches : Reaches k x.1.record handles) :
    (placeFinal x handles).Along k.strict (Placed k top s)
      (placeFinal x' (handles.map (· + k.handles))) := by
  unfold placeFinal
  rw [isEmpty_map]
  split_ifs with empty
  · exact h
  · have nonempty : handles ≠ [] := fun none => empty (by rw [none]; rfl)
    refine (placeDetector_along h.twin reaches fun none => absurd none nonempty).bind ?_
    rintro y y' ⟨twin, grows⟩
    exact ⟨twin, congrArg (· + 1) h.count, h.grows.trans grows⟩

/-- Checks close alike in both runs. -/
lemma closeCheck_along {x x' : Store × Nat} (h : Placed k top s x x')
    (measured : TwinFinals k s.record finals finals') (divides : code.period ∣ k.rounds)
    (enough : k.strict ∨ code.period ≤ last + 1)
    (counts : ∀ r ≤ last, last < r + code.period → k.Counts r) (c : Check) :
    (closeCheck code last finals x c).commit.Along k.strict (fun r r' => Placed k top s r.1 r'.1)
      (closeCheck code (last + k.rounds) finals' x' c).commit := by
  have back : lastMeasured? code c (min code.period (last + k.rounds + 1)) (last + k.rounds) =
      (lastMeasured? code c (min code.period (last + 1)) last).map (· + k.rounds) := by
    have window : min code.period (last + k.rounds + 1) = min code.period (last + 1) := by
      rcases enough with strict | enough
      · rw [(k.still strict).2.1, Nat.add_zero]
      · omega
    rw [window]
    exact lastMeasured?_later divides c (min_le_right ..)
  rw [commit_closeCheck, commit_closeCheck, measured.covered, back]
  split_ifs
  · exact h
  · cases found : lastMeasured? code c (min code.period (last + 1)) last with
    | none => exact h
    | some r =>
      obtain ⟨le, close, _⟩ := lastMeasured?_eq_some found
      have counted := counts r le (by omega)
      simp only [Option.map_some, isDisturbed_later divides]
      split_ifs
      · exact h
      · have looked := Tracker.outcome_along h.twin.record h.twin.recent counted c
        cases left : x.1.record.lookupMade (.of c (Word.signed r)) with
        | error halt =>
          rw [left] at looked
          cases right : x'.1.record.lookupMade (.of c (Word.signed (r + k.rounds))) with
          | error halt' =>
            apply along_error
            intro strict
            rw [(k.still strict).2.1]
            rfl
          | ok handle' =>
            rw [right] at looked
            exact along_of_ok looked fun _ _ ended _ => (nomatch ended)
        | ok handle =>
          rw [left] at looked
          cases right : x'.1.record.lookupMade (.of c (Word.signed (r + k.rounds))) with
          | error halt' =>
            rw [right] at looked
            exact along_of_ok looked fun _ _ _ ended => (nomatch ended)
          | ok handle' =>
            rw [right] at looked
            obtain ⟨rfl, made⟩ := looked
            simp only
            refine ((measured.mono h.grows.within).handles c).bind ?_
            rintro ns _ ⟨rfl, reaches⟩
            have odd : oddItems ((handle + k.handles) :: ns.map (· + k.handles)) =
                (oddItems (handle :: ns)).map (· + k.handles) :=
              oddItems_map (fun _ _ => Nat.add_right_cancel) (handle :: ns)
            rw [odd]
            refine (placeFinal_along h ?_).bind fun _ _ placed => along_ok placed
            intro n mem
            rcases mem_cons.mp (mem_of_mem_oddItems mem) with rfl | old
            · exact made
            · exact reaches n old

lemma finalDetectors_along (h : p.Twin k top p')
    (measured : TwinFinals k p.store.record finals finals') (divides : code.period ∣ k.rounds)
    (enough : k.strict ∨ code.period ≤ last + 1)
    (counts : ∀ r ≤ last, last < r + code.period → k.Counts r) :
    (p.finalDetectors code last finals).commit.Along k.strict
      (fun r r' => r.1.Twin k top r'.1 ∧ p.store.Grows r.1.store ∧ r'.2 = r.2)
      (p'.finalDetectors code (last + k.rounds) finals').commit := by
  rw [commit_finalDetectors, commit_finalDetectors]
  apply along_guard
  · intro strict
    rw [(k.still strict).2.1, Nat.add_zero]
  · intro _ _
    have start : Placed k top p.store (p.store, 0) (p'.store, 0) := ⟨h.store, rfl, .refl _⟩
    have step : ∀ c ∈ code.distinctChecks, ∀ x x', Placed k top p.store x x' →
        (closeCheck code last finals x c).commit.Along k.strict
          (fun r r' => Placed k top p.store r.1 r'.1)
          (closeCheck code (last + k.rounds) finals' x' c).commit :=
      fun c _ _ _ placed => closeCheck_along placed measured divides enough counts c
    refine (Attempt.along_forEach_same step start).bind fun r r' placed => ?_
    exact ⟨h.setStore h.resolver rfl rfl placed.twin placed.grows, placed.grows, placed.count⟩

end Finals

end Progress

namespace Tracker

variable {k : Comparison} {r : Record} {t t' : Tracker} {finals finals' : Table (Pauli × Nat)}

lemma readOut_along (measured : Progress.TwinFinals k r finals finals') (h : t.Twin k r t')
    (factor : Qubit × Pauli) :
    (t.readOut finals factor).commit.Along k.strict (fun x x' => x.1.Twin k r x'.1)
      (t'.readOut finals' factor).commit := by
  obtain rfl : t' = t.later k.handles := h.later
  unfold readOut
  rw [measured.get]
  cases found : finals.get? factor.1 with
  | none => exact along_error fun _ => rfl
  | some e =>
    simp only [Option.map_some]
    split_ifs
    · exact h.toggle (measured.reaches _ e found)
    · exact along_error fun _ => rfl

lemma commit_close (t : Tracker) (rounds : Nat) (finals : Table (Pauli × Nat)) :
    (t.close rounds finals).commit =
      if t.current.sameLetters (t.logical.before rounds) then
        (Attempt.forEach (readOut finals) t t.current.factors.entries).commit
      else .fail (.observable (.wrongEnd t.index t.current (t.logical.before rounds))) := by
  unfold close
  simp only
  split_ifs <;> rfl

lemma close_along (measured : Progress.TwinFinals k r finals finals') (h : t.Twin k r t')
    (rounds : Nat) :
    (t.close rounds finals).commit.Along k.strict (fun x x' => x.1.Twin k r x'.1)
      (t'.close (rounds + k.rounds) finals').commit := by
  rw [commit_close, commit_close, h.before]
  obtain rfl : t' = t.later k.handles := h.later
  change Outcome.Along _ _ _ (if t.current.sameLetters (t.logical.before rounds) then _ else _)
  split_ifs
  · exact Attempt.along_forEach_same (R := Twin k r)
      (fun factor _ _ _ twin => readOut_along measured twin factor) h
  · exact along_error fun _ => rfl

end Tracker

namespace Progress

section Observables

variable {k : Comparison} {top : Nat} {p p' : Progress} {s s' : Store}
  {finals finals' : Table (Pauli × Nat)}

lemma annotateLatestObservable_along (h : s.Twin k top s') (index : Nat) {handles : List Nat}
    (reaches : Reaches k s.record handles) :
    (latestTick s handles >>= fun t => annotateObservable s t index handles).Along k.strict
      (s.Steps k top)
      (latestTick s' (handles.map (· + k.handles)) >>= fun t =>
        annotateObservable s' t index (handles.map (· + k.handles))) := by
  cases handles with
  | nil => exact ⟨h, .refl s⟩
  | cons first rest =>
    exact annotateLatest_along h (cons_ne_nil first rest) reaches
      (.observable index (first :: rest))

/-- What holds after some observables are closed in both runs. -/
structure Closed {α α' : Type} (k : Comparison) (top : Nat) (s : Store)
    (R : Record → α → α' → Prop) (x : Store × α) (x' : Store × α') : Prop where
  twin : x.1.Twin k top x'.1
  grows : s.Grows x.1
  trackers : R x.1.record x.2 x'.2

lemma closeTracker_along (h : s.Twin k top s')
    (measured : TwinFinals k s.record finals finals') {t t' : Tracker}
    (twin : t.Twin k s.record t') (rounds : Nat) :
    (closeTracker rounds finals s t).commit.Along k.strict
      (fun r r' => Closed k top s (Tracker.Twin k) r.1 r'.1)
      (closeTracker (rounds + k.rounds) finals' s' t').commit := by
  rw [commit_closeTracker, commit_closeTracker]
  refine (Tracker.close_along measured twin rounds).bind ?_
  rintro ⟨u, _⟩ ⟨u', _⟩ closed
  obtain rfl : u' = u.later k.handles := closed.later
  refine (annotateLatestObservable_along h u.index closed.reaches).bind ?_
  rintro next next' ⟨twin, grows⟩
  exact ⟨twin, grows, ⟨rfl, fun _ none => (nomatch none), closed.periodic⟩⟩

lemma closeTrackers_along {ts ts' : List Tracker} {r : Record}
    (related : Forall₂ (Tracker.Twin k r) ts ts') (h : s.Twin k top s')
    (within : r.Within s.record) (measured : TwinFinals k s.record finals finals')
    (rounds : Nat) :
    (closeTrackers rounds finals s ts).commit.Along k.strict
      (fun x x' => Closed k top s (fun r => Forall₂ (Tracker.Twin k r)) x.1 x'.1)
      (closeTrackers (rounds + k.rounds) finals' s' ts').commit := by
  induction related generalizing s s' with
  | nil => exact ⟨h, .refl s, .nil⟩
  | cons head _ ih =>
    rw [commit_closeTrackers_cons, commit_closeTrackers_cons]
    refine (closeTracker_along h measured (head.mono within) rounds).bind fun x x' first => ?_
    have later : s.record.Within x.1.1.record := first.grows.within
    refine (ih first.twin (fun entry => later (within entry)) (measured.mono later)).bind
      fun y y' others => ?_
    exact ⟨others.twin, first.grows.trans others.grows,
      .cons (first.trackers.mono others.grows.within) others.trackers⟩

lemma finalObservables_along (h : p.Twin k top p')
    (measured : TwinFinals k p.store.record finals finals') (rounds : Nat) :
    (p.finalObservables rounds finals).commit.Along k.strict (Steps k top p)
      (p'.finalObservables (rounds + k.rounds) finals').commit := by
  rw [commit_finalObservables, commit_finalObservables]
  refine (closeTrackers_along h.trackers h.store id measured rounds).bind fun x x' closed => ?_
  have stored := h.setStore h.resolver rfl rfl closed.twin closed.grows
  exact ⟨stored.setTrackers closed.trackers, closed.grows⟩

end Observables

end Progress

end SyndromeSchedule
