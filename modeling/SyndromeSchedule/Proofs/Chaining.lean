import SyndromeSchedule.Proofs.Chronology
import SyndromeSchedule.Schedule.Draft

/-!
Detectors that compare every outcome with the one before it. For each check of a round the schedule
is searched backwards, around the period, for the round in which the check was measured last; since
the check stands in its own round, the search ends after a period at the latest. Later in a program,
every outcome but the first of its check is compared with the outcome right before it, and no
outcome is compared twice.
-/

namespace SyndromeSchedule

open List Outcome

namespace Code

variable {code : Code} {c : Check} {round back : Nat}

/-- A check is scheduled in a round, by its content. -/
def Measures (code : Code) (c : Check) (round : Nat) : Prop :=
  ∃ other ∈ code.checksIn round, c.same other = true

lemma measures_of_mem (mem : c ∈ code.checksIn round) : code.Measures c round :=
  ⟨c, mem, by simp [Check.same]⟩

lemma getD_checks (code : Code) (round : Nat) :
    (code.checks[round % code.period]?).getD [] = code.checksIn round := by
  have inside : round % code.period < code.checks.length := Nat.mod_lt _ code.period_pos
  rw [getElem?_eq_getElem inside]
  rfl

/-- The number of rounds back, around the period, to the last round that measures a check. -/
structure Links (code : Code) (round : Nat) (c : Check) (back : Nat) : Prop where
  pos : 0 < back
  le : back ≤ code.period
  measures : code.Measures c (round + code.period - back)
  between : ∀ less, 0 < less → less < back → ¬ code.Measures c (round + code.period - less)

/-- A check that was measured before was measured last where the search ends. -/
lemma Links.last (h : code.Links round c back) {earlier : Nat} (lt : earlier < round)
    (measured : code.Measures c earlier) :
    back ≤ round ∧ code.Measures c (round - back) ∧
      ∀ r, round - back < r → r < round → ¬ code.Measures c r := by
  have around : ∀ {r : Nat}, r ≤ round →
      (code.Measures c (round + code.period - (round - r)) ↔ code.Measures c r) := by
    intro r le
    rw [show round + code.period - (round - r) = r + code.period by omega, Measures, Measures,
      code.checksIn_add_period]
  have le : back ≤ round := by
    by_contra far
    exact h.between (round - earlier) (by omega) (by omega) ((around lt.le).mpr measured)
  refine ⟨le, ?_, fun r after before measured => ?_⟩
  · have found := h.measures
    rwa [show back = round - (round - back) by omega, around (Nat.sub_le ..)] at found
  · exact h.between (round - r) (by omega) (by omega) ((around before.le).mpr measured)

lemma ofTimed?_link (le : back ≤ code.period)
    (measured : code.Measures c (round + code.period - back)) :
    CodeError.ofTimed? code.checks round ⟨-back, c⟩ = none := by
  have slot : (((round : Int) + -back) % (code.checks.length : Int)).toNat =
      (round + code.period - back) % code.period := by
    have shifted : (round : Int) + -back = ((round + code.period - back : Nat) : Int) -
        (code.period : Int) := by omega
    change (_ % (code.period : Int)).toNat = _
    rw [shifted, Int.sub_emod_right, ← Int.natCast_emod, Int.toNat_natCast]
  have scheduled : ((code.checks[(round + code.period - back) % code.period]?).getD []).any c.same =
      true := by
    rw [code.getD_checks]
    exact any_eq_true.mpr measured
  have inside : back ≤ code.checks.length := le
  simp [CodeError.ofTimed?, slot, scheduled, inside]

end Code

namespace Detector

variable {c : Check} {back ends : Nat}

lemma find?_link (c : Check) (back : Nat) :
    DetectorError.find? [⟨-(back : Int), c⟩] [⟨0, c⟩] = none := by
  have agree : (TimedCheck.product [⟨-(back : Int), c⟩]).matchesUpToSign
      (TimedCheck.product [⟨0, c⟩]) = true := by
    change (TimedCheck.product [⟨0, c⟩]).matchesUpToSign (TimedCheck.product [⟨0, c⟩]) = true
    generalize TimedCheck.product [⟨0, c⟩] = p
    simp only [Product.matchesUpToSign, Product.sameLetters, decide_true, Bool.true_and]
    cases p.phase <;> rfl
  simp [DetectorError.find?, agree]

/-- A check against its outcome some rounds earlier. -/
def link (c : Check) (back ends : Nat) : Detector :=
  ⟨[⟨-back, c⟩], [⟨0, c⟩], ends, find?_link c back⟩

lemma repeated_eq (words : back < Word.half) : repeated c back ends = .ok (link c back ends) := by
  have fits : Word.isInt64 (-(back : Int)) = true := by
    simp only [Word.isInt64, Bool.and_eq_true, decide_eq_true_eq]
    omega
  rw [repeated, Word.signed_of_lt words, if_pos fits, makeOutcome, ofExcept_eq_ok]
  unfold make
  split
  · next cause found => cases (find?_link c back).symm.trans found
  · rfl

lemma keys_link (c : Check) (ends : Nat) {round : Nat} (pos : 0 < back) (le : back ≤ round) :
    (link c back ends).keys round = [Key.of c (round - back : Nat), Key.of c round] ∧
      (link c back ends).isCut round = false := by
  have first : (0 : Int) ≤ round + -back := by omega
  have earlier : (round : Int) + -back = (round - back : Nat) := by omega
  have different : Key.of c (round : Int) ≠ Key.of c (round - back : Nat) := by
    intro same
    have rounds := congrArg Key.round same
    simp only [Key.of] at rounds
    omega
  constructor
  · simp [keys, timed, link, earlier, oddItems, eraseDups_cons, different, different.symm]
  · simp only [isCut, timed, link]
    simpa using first

end Detector

namespace Draft

variable {d : Draft} {code : Code} {c : Check} {round : Nat}

lemma build_eq_ok : d.build = .ok code ↔ firstRepeated? [] d.data = none ∧
    code.data = .ofList d.data ∧ code.checks = d.checks ∧ code.detectors = d.detectors ∧
      code.logicals = d.logicals := by
  rw [build, Code.makeOutcome, ofExcept_eq_ok]
  unfold Code.make
  obtain ⟨data, checks, detectors, logicals, sound⟩ := code
  split
  · next found => simp [found]
  · next fresh =>
    split
    · next cause found =>
      simp only [reduceCtorEq, false_iff]
      rintro ⟨-, rfl, rfl, rfl, rfl⟩
      cases sound.symm.trans found
    · simp [fresh, eq_comm]

/-- The period before a round tells when a check was measured last. -/
lemma lastMeasured_links (same : code.checks = d.checks) (measured : code.Measures c round) :
    code.Links round c (d.lastMeasured (round % code.period) c) := by
  have test : ∀ {back}, back ≤ code.period →
      (((d.checks[(round % code.period + d.checks.length - back) % d.checks.length]?).getD []).any
        c.same = true ↔ code.Measures c (round + code.period - back)) := by
    intro back le
    rw [← same, any_eq_true]
    change (∃ x ∈ (code.checks[(_ + code.period - back) % code.period]?).getD [], _) ↔ _
    rw [Nat.add_sub_assoc le, Nat.mod_add_mod, ← Nat.add_sub_assoc le, code.getD_checks]
    rfl
  have own : code.Measures c (round + code.period - code.period) := by rwa [Nat.add_sub_cancel]
  simp only [lastMeasured, find?_map]
  cases found : (List.range d.checks.length).find? _ with
  | none =>
    have pos : 0 < code.period := code.period_pos
    have length : code.period = d.checks.length := congrArg List.length same
    have last := find?_eq_none.mp found (code.period - 1) (mem_range.mpr (by omega))
    refine absurd ((test le_rfl).mpr own) ?_
    simpa [Nat.sub_add_cancel pos] using last
  | some before =>
    obtain ⟨here, inside, earlier⟩ := find?_range_eq_some.mp found
    have le : before + 1 ≤ code.period := by
      rw [Code.period, same]
      exact mem_range.mp inside
    refine ⟨by simp, le, (test le).mp here, fun back pos less measured => ?_⟩
    -- a round in between would have ended the search
    have fails := earlier (back - 1) (by simp at less; omega)
    simp only [Function.comp_apply, Nat.sub_add_cancel pos,
      (test (less.le.trans le)).mpr measured] at fails
    cases fails

/-- The detector of a check against its last outcome. -/
def chained (d : Draft) (round : Nat) (c : Check) : Detector :=
  .link c (d.lastMeasured round c) round

/-- A draft with more detectors in its rounds. -/
def gain (d : Draft) (log : Nat → List Detector) : Draft :=
  { d with detectors := d.detectors.mapIdx fun r old => old ++ log r }

lemma gain_gain (log more : Nat → List Detector) :
    (d.gain log).gain more = d.gain fun r => log r ++ more r := by
  simp [gain, mapIdx_mapIdx, Function.comp_def]

lemma gain_nil (d : Draft) : (d.gain fun _ => []) = d := by
  have same : d.detectors.mapIdx (fun _ old => old ++ []) = d.detectors := by
    simp [mapIdx_eq_zipIdx_map]
  rw [gain, same]

@[simp] lemma chained_gain (log : Nat → List Detector) : (d.gain log).chained = d.chained := rfl

lemma appendDetector_eq (d : Draft) (round : Nat) (x : Detector) :
    d.appendDetector round x = d.gain fun r => if r = round then [x] else [] := by
  simp only [appendDetector, gain]
  congr 1
  refine ext_getElem? fun r => ?_
  rw [getElem?_modify, getElem?_mapIdx]
  by_cases here : round = r
  · simp [here]
  · simp [here, Ne.symm here]

variable (words : d.checks.length < Word.half)
include words

lemma addRepeated_eq (round : Nat) (c : Check) : d.addRepeated round c =
    .ok (d.gain fun r => if r = round then [d.chained r c] else []) := by
  have bound : d.lastMeasured round c ≤ d.checks.length := by
    simp only [lastMeasured, find?_map]
    cases found : (List.range d.checks.length).find? _ with
    | none => simp
    | some before => exact mem_range.mp (mem_of_find?_eq_some found)
  simp only [addRepeated, Detector.repeated_eq (Nat.lt_of_le_of_lt bound words), bind, Except.bind,
    pure, Except.pure, appendDetector_eq]
  congr 3
  funext r
  split_ifs with here
  · rw [here, chained]
  · rfl

lemma foldlM_addRepeated (round : Nat) (checks : List Check) :
    checks.foldlM (fun d c => d.addRepeated round c) d =
      .ok (d.gain fun r => if r = round then checks.map (d.chained r) else []) := by
  induction checks generalizing d with
  | nil => simp [gain_nil, pure, Except.pure]
  | cons c rest ih =>
    have others := ih (d := d.gain fun r => if r = round then [d.chained r c] else []) words
    rw [foldlM_cons, addRepeated_eq words]
    refine others.trans (congrArg Except.ok ?_)
    rw [gain_gain]
    congr 1
    funext r
    split_ifs <;> rfl

/-- Every round gains a detector for each of its checks. -/
lemma withRepeatedDetectors_eq : d.withRepeatedDetectors =
    .ok (d.gain fun r => ((d.checks[r]?).getD []).map (d.chained r)) := by
  have general : ∀ (rounds : List (List Check)) (start : Nat) (d : Draft),
      d.checks.length < Word.half →
      (rounds.zipIdx start).foldlM (fun d e => e.1.foldlM (fun d c => d.addRepeated e.2 c) d) d =
        .ok (d.gain fun r => if start ≤ r then ((rounds[r - start]?).getD []).map (d.chained r)
          else []) := by
    intro rounds
    induction rounds with
    | nil =>
      intro start d _
      simp [gain_nil, pure, Except.pure]
    | cons checks rest ih =>
      intro start d words
      have others := ih (start + 1)
        (d.gain fun r => if r = start then checks.map (d.chained r) else []) words
      rw [zipIdx_cons, foldlM_cons, foldlM_addRepeated words]
      refine others.trans (congrArg Except.ok ?_)
      rw [gain_gain]
      congr 1
      funext r
      rcases Nat.lt_trichotomy r start with less | rfl | more
      · simp [Nat.ne_of_lt less, Nat.not_le.mpr less, show ¬ start + 1 ≤ r by omega]
      · simp
      · obtain ⟨k, rfl⟩ := Nat.exists_eq_add_of_lt more
        simp [show start + k + 1 - start = k + 1 by omega, show start + k + 1 ≠ start by omega,
          show start ≤ start + k + 1 by omega, show start + k + 1 - (start + 1) = k by omega]
  have all := general d.checks 0 d words
  simp only [Nat.zero_le, if_true, Nat.sub_zero] at all
  exact all

omit words in
lemma ofDetector?_chained (same : code.checks = d.checks) (below : round < code.period)
    (mem : c ∈ code.checksIn round) :
    CodeError.ofDetector? code.checks round (d.chained round c) = none := by
  have links := lastMeasured_links same (Code.measures_of_mem mem)
  rw [Nat.mod_eq_of_lt below] at links
  have now : CodeError.ofTimed? code.checks round ⟨-(0 : Nat), c⟩ = none := by
    refine Code.ofTimed?_link (Nat.zero_le _) ?_
    rw [Nat.sub_zero, Code.Measures, code.checksIn_add_period]
    exact Code.measures_of_mem mem
  have timed : (d.chained round c).timed = [⟨-(d.lastMeasured round c), c⟩, ⟨-(0 : Nat), c⟩] := rfl
  have ends : ¬ (d.chained round c).ends ≠ round := not_not.mpr rfl
  rw [CodeError.ofDetector?, if_neg ends, timed, findSome?_cons, findSome?_cons, now,
    Code.ofTimed?_link links.le links.measures]
  rfl

/-- The draft of a code can be completed to a code with the detectors of all checks added. -/
lemma exists_chained (built : d.build = .ok code) :
    ∃ next chained, d.withRepeatedDetectors = .ok next ∧ next.build = .ok chained ∧
      chained.data = code.data ∧ chained.checks = code.checks ∧ chained.logicals = code.logicals ∧
      ∀ round, chained.detectorsIn round = code.detectorsIn round ++
        (code.checksIn round).map (d.chained (round % code.period)) := by
  obtain ⟨fresh, data, checks, detectors, logicals⟩ := build_eq_ok.mp built
  obtain ⟨some_round, lengths, rounds, known, sound⟩ := Code.find?_eq_none_iff.mp code.sound
  let more := code.detectors.mapIdx fun r old =>
    old ++ ((code.checks[r]?).getD []).map (d.chained r)
  have length : more.length = code.checks.length := by simpa [more] using lengths
  have sound : CodeError.find? code.data code.checks more code.logicals = none := by
    refine Code.find?_eq_none_iff.mpr ⟨some_round, length, rounds, ?_, sound⟩
    rintro ⟨_, r⟩ listed x mem
    obtain ⟨old, found, rfl⟩ : ∃ old, code.detectors[r]? = some old ∧ _ = _ := by
      simpa [more] using mem_zipIdx_iff_getElem?.mp listed
    rcases mem_append.mp mem with mem | mem
    · exact known (old, r) (mem_zipIdx_iff_getElem?.mpr found) x mem
    · obtain ⟨c, scheduled, rfl⟩ := mem_map.mp mem
      have below : r < code.period := by
        rw [← code.detectors_length]
        exact (List.getElem?_eq_some_iff.mp found).1
      rw [← Nat.mod_eq_of_lt below, code.getD_checks] at scheduled
      exact ofDetector?_chained checks below scheduled
  refine ⟨_, ⟨code.data, code.checks, more, code.logicals, sound⟩, withRepeatedDetectors_eq words,
    build_eq_ok.mpr ⟨fresh, data, checks, ?_, logicals⟩, rfl, rfl, rfl, fun round => ?_⟩
  · simp only [more, gain, detectors, checks]
  · simp only [Code.detectorsIn, ← code.getD_checks]
    simp [more, Code.period]

end Draft

namespace Code

/-- A detector, by round and index, that was added to those of another code and that has an outcome
in its lid. -/
def AddedLid (code chained : Code) (key : Key) (place : Nat × Nat) : Prop :=
  (code.detectorsIn place.1).length ≤ place.2 ∧
    ∃ x, (chained.detectorsIn place.1)[place.2]? = some x ∧
      ∃ t ∈ x.lid, Key.of t.check (place.1 + t.offset) = key

variable {code chained : Code} {link : Nat → Check → Detector} {round : Nat} {c : Check}
  (detectors : ∀ round, chained.detectorsIn round =
    code.detectorsIn round ++ (code.checksIn round).map (link round))
  (lids : ∀ round c, (link round c).lid = [⟨0, c⟩])
include detectors lids

lemma addedLid_iff (place : Nat × Nat) {n : Nat} (scheduled : (code.checksIn round)[n]? = some c) :
    code.AddedLid chained (Key.of c round) place ↔
      place = (round, (code.detectorsIn round).length + n) := by
  constructor
  · rintro ⟨late, x, found, t, lid, same⟩
    rw [detectors, getElem?_append_right late, getElem?_map] at found
    obtain ⟨e, listed, rfl⟩ := Option.map_eq_some_iff.mp found
    rw [lids, mem_singleton] at lid
    subst lid
    obtain ⟨rounds, contents⟩ := Key.mk.inj same
    have here : place.1 = round := by
      simp only [Int.add_zero] at rounds
      omega
    rw [here] at listed late
    -- no check stands twice in a round
    have unique : e = c := inj_on_of_nodup_map (code.contents_nodup round)
      (mem_of_getElem? listed) (mem_of_getElem? scheduled) contents
    have index := (getElem?_inj (List.getElem?_eq_some_iff.mp listed).1
      (.of_map _ (code.contents_nodup round))).mp (listed.trans (unique ▸ scheduled.symm))
    exact Prod.ext here (by omega)
  · rintro rfl
    refine ⟨Nat.le_add_right .., link round c, ?_, ⟨0, c⟩, by simp [lids], by simp⟩
    rw [detectors, getElem?_append_right (Nat.le_add_right ..)]
    simp [scheduled]

end Code

/-- Detectors of checks that are compared with their last outcome chain all outcomes of a check.
They can be added to every draft of a code, one for each check of each round. Its lid is the check,
and its floor the same check in the last round before, around the period, that measures it. In what
is compiled every outcome that is not the first of its check is in the lid of one of them, against
the outcome of the check right before it, and in the lid of no other. -/
theorem Draft.repeated_detectors_chain {d : Draft} {code : Code} (built : d.build = .ok code)
    (words : d.checks.length < Word.half) :
    ∃ next chained, d.withRepeatedDetectors = .ok next ∧ next.build = .ok chained ∧
      chained.data = code.data ∧ chained.checks = code.checks ∧ chained.logicals = code.logicals ∧
      (∀ round, ∃ added, chained.detectorsIn round = code.detectorsIn round ++ added ∧
        Forall₂ (fun c x => ∃ back, code.Links round c back ∧ x.floor = [⟨-back, c⟩] ∧
          x.lid = [⟨0, c⟩]) (code.checksIn round) added) ∧
      ∀ (compiler : Compiler) (request : Request) (result : Compilation),
        compiler.compile chained request = .ok result → result.report.rounds < Word.half →
        ∃ labels, request.Accounts chained result.store labels ∧
          Forall₂ (fun e outcome => e.1.MeasuredAs result.store.qubits outcome) labels
            (Instruction.outcomesOf result.program.unrolled) ∧
          request.Detects chained labels
            ((Instruction.readings 0 result.program.unrolled).filter (· ≠ []))
            result.report.finalDetectors ∧
          ∀ round < request.layers * code.period, ∀ c ∈ code.checksIn round,
            (∃ earlier < round, code.Measures c earlier) →
            ∃ last < round, code.Measures c last ∧
              (∀ r, last < r → r < round → ¬ code.Measures c r) ∧
              ∃ place, (∀ other, code.AddedLid chained (Key.of c round) other ↔ other = place) ∧
                request.Expects chained place [Key.of c last, Key.of c round] := by
  obtain ⟨next, chained, adds, builds, data, checks, logicals, detectors⟩ :=
    exists_chained words built
  obtain ⟨_, _, same, _⟩ := build_eq_ok.mp built
  have links : ∀ round, ∀ c ∈ code.checksIn round,
      code.Links round c (d.lastMeasured (round % code.period) c) :=
    fun round c mem => lastMeasured_links same (Code.measures_of_mem mem)
  refine ⟨next, chained, adds, builds, data, checks, logicals,
    fun round => ⟨_, detectors round, ?_⟩, fun compiler request result compiled few => ?_⟩
  · rw [forall₂_map_right_iff, forall₂_same]
    exact fun c mem => ⟨_, links round c mem, rfl, rfl⟩
  · obtain ⟨_, _, _, runs⟩ := Compiler.compile_eq_ok compiled
    obtain ⟨labels, accounts, measured, detects⟩ := runs.faithful few
    refine ⟨labels, accounts, measured, detects, fun round _ c mem earlier => ?_⟩
    obtain ⟨r, lt, before⟩ := earlier
    have link := links round c mem
    obtain ⟨le, here, between⟩ := link.last lt before
    obtain ⟨n, found⟩ := mem_iff_getElem?.mp mem
    have added (other) := Code.addedLid_iff detectors (fun _ _ => rfl) other found
    refine ⟨round - _, Nat.sub_lt_of_pos_le link.pos le, here, between, _, added, ?_⟩
    obtain ⟨keys, whole⟩ := Detector.keys_link c (round % code.period) link.pos le
    refine ⟨_, ?_, keys.symm, by simp, fun cut => ?_⟩
    · rw [detectors, getElem?_append_right (Nat.le_add_right ..)]
      simp only [Nat.add_sub_cancel_left, getElem?_map, found]
      rfl
    · cases whole.symm.trans cut

namespace PairCode

/-- A check that is measured in two of three rounds, at unequal distances. -/
def uneven : Draft :=
  (((Draft.empty.addData [left, right]).addRound [check]).addRound []).addRound [check]

/-- Four layers, with the third round compared with the second one of the check. -/
theorem repeated_detectors_chain_uneven :
    ∃ code next chained result, uneven.build = .ok code ∧ uneven.checks.length < Word.half ∧
      uneven.withRepeatedDetectors = .ok next ∧ next.build = .ok chained ∧
      (∀ round, ∃ added, chained.detectorsIn round = code.detectorsIn round ++ added ∧
        Forall₂ (fun c x => ∃ back, code.Links round c back ∧ x.floor = [⟨-back, c⟩] ∧
          x.lid = [⟨0, c⟩]) (code.checksIn round) added) ∧
      (compiler {}).compile chained { layers := 4 } = .ok result ∧
      result.report.repeated = true ∧ result.report.rounds < Word.half ∧
      ∃ labels, ({ layers := 4 } : Request).Accounts chained result.store labels ∧
        ({ layers := 4 } : Request).Detects chained labels
          ((Instruction.readings 0 result.program.unrolled).filter (· ≠ []))
          result.report.finalDetectors ∧
        ∃ place, (∀ other, code.AddedLid chained (Key.of check 3) other ↔ other = place) ∧
          ({ layers := 4 } : Request).Expects chained place [Key.of check 2, Key.of check 3] := by
  have words : uneven.checks.length < Word.half := by decide
  obtain ⟨code, built⟩ : ∃ code, uneven.build = .ok code := ⟨_, rfl⟩
  have measured : uneven.build.toOption.any (fun code => check ∈ code.checksIn 3 &&
      check ∈ code.checksIn 2 && code.period = 3) = true := by
    decide +kernel
  have compiles : (uneven.withRepeatedDetectors.toOption.bind fun next => next.build.toOption.bind
      fun chained => ((compiler {}).compile chained { layers := 4 }).toOption.map fun r =>
        (r.report.rounds, r.report.repeated)) = some (9, true) := by
    decide +kernel
  obtain ⟨next, chained, adds, builds, _, _, _, detectors, chains⟩ :=
    Draft.repeated_detectors_chain built words
  rw [built] at measured
  rw [adds] at compiles
  simp only [Except.toOption, Option.bind_some, builds] at compiles
  obtain ⟨result, compiled, same⟩ := Outcome.exists_ok_of_map compiles
  obtain ⟨rounds, repeated⟩ := Prod.mk.inj same
  have few : result.report.rounds < Word.half := by
    rw [rounds]
    decide
  obtain ⟨⟨third, second⟩, period⟩ : (check ∈ code.checksIn 3 ∧ check ∈ code.checksIn 2) ∧
      code.period = 3 := by simpa [Except.toOption] using measured
  obtain ⟨labels, accounts, _, detects, each⟩ := chains _ _ result compiled few
  obtain ⟨last, below, _, between, place, lid, expects⟩ :=
    each 3 (by rw [period]; decide) check third
    ⟨2, by decide, Code.measures_of_mem second⟩
  obtain rfl : last = 2 := by
    by_contra other
    exact between 2 (by omega) (by decide) (Code.measures_of_mem second)
  exact ⟨code, next, chained, result, built, words, adds, builds, detectors, compiled, repeated,
    few, labels, accounts, detects, place, lid, expects⟩

end PairCode

end SyndromeSchedule
