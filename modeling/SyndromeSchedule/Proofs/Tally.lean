import SyndromeSchedule.Proofs.Solvable

/-!
Counts of detectors. Every detector of a round is opened or discarded, so with those that are
discarded a program has as many detectors as the schedule lists, and those that close on the final
measurements. A detector whose outcomes cancel is written into the first tick, whatever its round.
It is not repeated with the layers in between, and is missing from the count of all but three
layers.
-/

namespace SyndromeSchedule

open List Outcome

variable {result : Compilation} {task : Task}

/-! Detectors that are opened or discarded. -/

namespace Progress

variable {p next : Progress} {u : Unit}

/-- Detectors that were opened or discarded. -/
def tally (p : Progress) : Nat := p.resolver.discarded + p.resolver.instances.size

lemma tally_trigger {id : Nat} (h : (p.trigger id).commit = .ok (next, u)) :
    next.tally = p.tally := by
  obtain ⟨i, store, _, _, rfl⟩ := trigger_eq_ok h
  simp [tally, Resolver.modify]

lemma tally_arrive {id : Nat} (h : (p.arrive id).commit = .ok (next, u)) :
    next.tally = p.tally := by
  rw [commit_arrive] at h
  obtain ⟨i, _, h⟩ := of_bind h
  obtain ⟨missing, _, h⟩ := of_bind h
  have kept : ({ p with resolver := p.resolver.modify id fun i => { i with missing } } :
      Progress).tally = p.tally := by
    simp [tally, Resolver.modify]
  split_ifs at h
  · exact (tally_trigger h).trans kept
  · cases h
    exact kept

lemma tally_notify {key : Key} (h : (p.notify key).commit = .ok (next, u)) :
    next.tally = p.tally := by
  apply Attempt.forEach_keeps (·.tally = p.tally) ?_ h rfl
  exact fun id _ before after _ kept run => (tally_arrive run).trans kept

lemma tally_openDetector {entryRound : Nat} {round : Int} {e : Detector × Nat}
    (h : (p.openDetector entryRound round e).commit = .ok (next, u)) :
    next.tally = p.tally + 1 := by
  rw [commit_openDetector] at h
  obtain ⟨_, _, h⟩ := of_bind h
  have result := openInstance_eq_ok h
  unfold tally
  split_ifs at result
  · subst result
    exact Nat.add_right_comm ..
  · obtain ⟨store, _, rfl⟩ := result
    rw [Array.size_push, Nat.add_assoc]
  · subst result
    simp only [Resolver.wait, Array.size_push, Nat.add_assoc]

lemma tally_beginRound {code : Code} {round : Nat}
    (h : (p.beginRound code round).commit = .ok (next, u)) :
    next.tally = p.tally + (code.detectorsIn round).length := by
  rw [← length_zipIdx (l := code.detectorsIn round) (i := 0)]
  unfold beginRound at h
  generalize (code.detectorsIn round).zipIdx = all at h ⊢
  induction all generalizing p with
  | nil =>
    obtain rfl := Attempt.forEach_nil_eq_ok.mp h
    rfl
  | cons e rest ih =>
    obtain ⟨mid, _, here, others⟩ := Attempt.forEach_cons_eq_ok.mp h
    rw [ih others, tally_openDetector here, length_cons]
    omega

end Progress

def Code.detectorsBefore (code : Code) (rounds : Nat) : List Detector :=
  (List.range rounds).flatMap code.detectorsIn

lemma Code.detectorsBefore_succ (code : Code) (rounds : Nat) :
    code.detectorsBefore (rounds + 1) = code.detectorsBefore rounds ++ code.detectorsIn rounds := by
  simp [detectorsBefore, range_succ]

namespace Session

variable {task : Task} {s next : Session}

/-- All detectors of the rounds so far were opened or discarded. -/
def Tallied (task : Task) (s : Session) : Prop :=
  s.progress.tally = (task.code.detectorsBefore s.rounds).length

lemma stepwise_tally (n : Nat) : Stepwise task (·.progress.tally = n) := by
  refine .of_quiet (fun quiet h => ?_) (fun measures h => ?_) (fun told h => ?_)
  · unfold Progress.tally at h ⊢
    rwa [quiet.resolver]
  · unfold Progress.tally at h ⊢
    rwa [measures.resolver]
  · obtain ⟨⟨progress, u⟩, notes, rfl⟩ := of_bind_pure told
    exact (Progress.tally_notify notes).trans h

lemma Tallied.compileRound (h : s.Tallied task) (run : s.compileRound task = .ok next) :
    next.Tallied task := by
  obtain ⟨begun, third, ended, begins, steps, ends, rfl⟩ := (stepwise_tally
    (s.progress.tally + (task.code.detectorsIn s.rounds).length)).compileRound run
  have placed : third.progress.tally = _ := steps (Progress.tally_beginRound begins)
  obtain ⟨trackers, rfl⟩ := Progress.endRound_eq_ok ends
  refine placed.trans ?_
  rw [Code.detectorsBefore_succ, length_append]
  exact congrArg (· + _) h

lemma Tallied.between (h : s.Tallied task) (pause : s.Between next) : next.Tallied task := by
  cases pause with
  | start tick => exact h
  | flush written =>
    obtain ⟨store, _, written⟩ := of_bind written
    cases written
    exact h
  | mark start stop repetitions => exact h

lemma tally_measureFinals {placed : Nat} (h : s.measureFinals task = .ok (next, placed)) :
    next.progress.tally = s.progress.tally := by
  obtain ⟨_, mid, finals, closed, ended, measures, closes, observes, rfl⟩ := measureFinals_eq_ok h
  have answers := answers_measureAll (s.answers_start s.barrier) measures
  rw [Progress.commit_finalObservables] at observes
  obtain ⟨r, _, observes⟩ := of_bind observes
  cases observes
  have same : closed.resolver = s.progress.resolver := by
    rw [resolver_finalDetectors closes, answers.ends.resolver]
  change closed.tally = _
  rw [Progress.tally, same, Progress.tally]

end Session

namespace Task

variable {task : Task} {result : Compilation} {prepared layered ended : Session}

lemma Runs.discarded_add (h : task.Runs result prepared layered ended) :
    result.report.discarded + (task.planned result.report.rounds).length =
      (task.code.detectorsBefore result.report.rounds).length := by
  obtain ⟨⟨begun, none, _⟩, layers⟩ := h.complete
  obtain ⟨stages, placed⟩ := Session.placed_stages h.placed
  have first : prepared.Tallied task := by
    unfold Session.Tallied
    rw [none]
    exact (Session.stepwise_tally 0).initialise h.prepares rfl
  have tallied : layered.Tallied task := placed.keeps (fun run tallied => tallied.compileRound run)
      (fun pause tallied => tallied.between pause) first
  have last := (Session.tally_measureFinals h.measures).trans tallied
  have plan : ended.progress.resolver.instances.size = (task.planned layered.rounds).length := by
    rw [h.finished.2.instances, ← layers.complete.plan]
    simp [Progress.plan]
  rw [h.rounds_eq, ← plan, ← last, h.report]
  rfl

lemma length_planned {rounds : Nat} (le : task.code.period ≤ rounds)
    (words : rounds ≤ Word.half) :
    (task.planned rounds).length + (task.code.detectorsBefore task.code.period).length =
      (task.planned task.code.period).length + (task.code.detectorsBefore rounds).length := by
  induction rounds, le using Nat.le_induction with
  | base => rfl
  | succ r late ih =>
    have all : (({ initial := task.request.initial } : Resolver).openedIn task.code r).length =
        (task.code.detectorsIn r).length := by
      rw [Resolver.openedIn, Word.signed_of_lt words]
      have each : ∀ e ∈ (task.code.detectorsIn r).zipIdx,
          (({ initial := task.request.initial } : Resolver).opened (r % task.code.period) r
            e).length = 1 := by
        intro e listed
        have whole : e.1.isCut r = false := Detector.isCut_eq_false.mpr
          (task.code.timed_nonneg late (fst_mem_of_mem_zipIdx listed))
        rw [Resolver.opened, whole]
        rfl
      rw [length_flatMap, map_congr_left each]
      simp
    rw [planned_succ, Code.detectorsBefore_succ, length_append, length_append, all]
    have := ih (Nat.le_of_succ_le words)
    omega

lemma Runs.discarded_first (h : task.Runs result prepared layered ended)
    (words : task.request.layers * task.code.period ≤ Word.half) :
    result.report.discarded + (task.planned task.code.period).length =
      (task.code.detectorsBefore task.code.period).length := by
  have pos := (Request.fault?_eq_none h.fault).1
  obtain ⟨⟨complete, none, _⟩, layers⟩ := h.complete
  have rounds : task.code.period ≤ layered.rounds ∧
      layered.rounds ≤ task.request.layers * task.code.period := by
    generalize result.report.repeated = repeated at layers
    cases layers with
    | flat _ count =>
      rw [count, none, Nat.zero_add]
      exact ⟨Nat.le_mul_of_pos_left _ pos, le_rfl⟩
    | @folded s₁ s₂ _ _ _ _ _ _ _ enough first second _ _ third =>
      have marked : layered.rounds = s₂.rounds + task.code.period := third.rounds
      have := Nat.mul_le_mul_right task.code.period enough
      rw [marked, second.rounds, first.rounds, none]
      omega
  have tally := h.discarded_add
  rw [h.rounds_eq] at tally
  have planned := length_planned rounds.1 (rounds.2.trans words)
  omega

end Task

/-! Instructions that are counted. -/

def Word.hold? (n : Nat) : Option Nat := if n < Word.size then some n else none

namespace Word

lemma add?_hold (a b : Nat) :
    ((hold? a).bind fun x => (hold? b).bind fun y => add? x y) = hold? (a + b) := by
  unfold hold? add?
  by_cases small : a + b < size
  · rw [if_pos (show a < size by omega), if_pos (show b < size by omega)]
    rfl
  · rw [if_neg small]
    split_ifs
    · exact if_neg small
    all_goals rfl

lemma mul?_hold {n : Nat} (pos : 0 < n) (a : Nat) :
    ((hold? a).bind fun x => mul? n x) = hold? (n * a) := by
  unfold hold? mul?
  have le : a ≤ n * a := Nat.le_mul_of_pos_left a pos
  by_cases small : n * a < size
  · rw [if_pos (show a < size by omega)]
    rfl
  · rw [if_neg small]
    split_ifs
    · exact if_neg small
    · rfl

end Word

namespace Instruction

/-- Whether an instruction is a detector. -/
def isDetector : Instruction → Bool
  | detector _ => true
  | _ => false

lemma length_readings (before : Nat) (is : List Instruction) :
    (readings before is).length = is.countP isDetector := by
  induction is generalizing before with
  | nil => rfl
  | cons i rest ih =>
    cases i with
    | detector offsets =>
      rw [readings, length_cons, ih, countP_cons_of_pos rfl]
    | _ => exact ih _

variable {weight : Instruction → Nat} {is rest body : List Instruction} {n : Nat}
  (detects : ∀ i, weight i = if i.isDetector then 1 else 0)
include detects

lemma weighList_append (plain : ∀ i ∈ is, i.isPlain = true)
    (h : weighList weight rest = Word.hold? n) :
    weighList weight (is ++ rest) = Word.hold? (is.countP isDetector + n) := by
  induction is with
  | nil => simpa using h
  | cons i others ih =>
    have single : weigh weight i = Word.hold? (weight i) := by
      have small : weight i < Word.size := by
        rw [detects]
        split_ifs <;> decide
      rw [Word.hold?, if_pos small]
      have flat := plain i (.head _)
      cases i with
      | loop _ _ => cases flat
      | _ => rfl
    have later := ih fun j mem => plain j (.tail _ mem)
    simp only [cons_append, weighList, single, later, Option.bind_eq_bind]
    rw [Word.add?_hold, countP_cons, detects i]
    congr 1
    omega

lemma weighList_plain (plain : ∀ i ∈ is, i.isPlain = true) :
    weighList weight is = Word.hold? (is.countP isDetector) := by
  have all : weighList weight (is ++ []) = Word.hold? (is.countP isDetector + 0) :=
    weighList_append detects plain rfl
  rwa [append_nil, Nat.add_zero] at all

lemma weighList_loop (plain : ∀ i ∈ body, i.isPlain = true) {k : Nat} (pos : 0 < k)
    (h : weighList weight rest = Word.hold? n) :
    weighList weight (loop k body :: rest) = Word.hold? (k * body.countP isDetector + n) := by
  simp only [weighList, weigh, weighList_plain detects plain, h, Option.bind_eq_bind]
  rw [Word.mul?_hold pos, Word.add?_hold]

lemma weighList_tick : weighList weight (is ++ [tick]) = weighList weight is := by
  induction is with
  | nil => simp [weighList, weigh, detects, isDetector, Word.add?, Word.size]
  | cons i others ih => simp [weighList, ih]

end Instruction

open Instruction in
/-- Detectors are counted as if blocks were written out. -/
theorem Store.detectorCount_program (s : Store) (layout : Layout)
    (pos : ∀ region, s.region = some region → 0 < region.repetitions) :
    (s.program layout).detectorCount =
      Word.hold? (readings 0 (s.program layout).unrolled).length := by
  -- The weight is the one that the count is made of.
  suffices counted : ∀ weight : Instruction → Nat, (∀ i, weight i = if i.isDetector then 1 else 0) →
      weighList weight (s.program layout).instructions =
        Word.hold? (readings 0 (unrollAll s.bodyInstructions)).length by
    rw [(s.program_unrolled layout).2]
    exact counted _ fun i => by cases i <;> rfl
  intro weight detects
  have flat : ∀ {start stop : Nat}, ∀ i ∈ s.stretch start stop, i.isPlain = true :=
    fun i mem => isPlain_ticksInstructions i mem
  have tail : ∀ start, weighList weight (s.stretch start s.size) =
      Word.hold? ((s.stretch start s.size).countP isDetector) :=
    fun start => weighList_plain detects flat
  have body : weighList weight s.bodyInstructions =
      Word.hold? (readings 0 (unrollAll s.bodyInstructions)).length := by
    rw [length_readings, unrollAll_body, bodyInstructions]
    cases marked : s.region with
    | none => exact tail 0
    | some region =>
      have loop := weighList_loop detects (@flat region.start region.stop)
        (pos region marked) (tail region.stop)
      have blocks : (replicate region.repetitions
          (s.stretch region.start region.stop)).flatten.countP isDetector =
          region.repetitions * (s.stretch region.start region.stop).countP isDetector := by
        simp [countP_flatten]
      simp [weighList_append detects flat loop, blocks]
  obtain ⟨places, coords, ends⟩ := s.program_cases layout
  have plain : ∀ i ∈ places, i.isPlain = true := by
    intro i mem
    obtain ⟨_, _, rfl⟩ := coords i mem
    rfl
  have none : places.countP isDetector = 0 := by
    refine countP_eq_zero.mpr fun i mem => ?_
    obtain ⟨_, _, rfl⟩ := coords i mem
    exact Bool.false_ne_true
  have all := weighList_append detects plain body
  rw [none, Nat.zero_add] at all
  rcases ends with same | same
  · rw [same, all]
  · rw [← weighList_tick detects, same, all]

/-! Detectors without outcomes. -/

namespace Store

open Instruction

variable {made : List (Check × Nat)} {keys : List (List Key)} {s : Store}

lemma Account.empty_stretch (account : Account made keys s) {start stop : Nat}
    (ordered : start ≤ stop) (δ : Nat) :
    (readings ((s.orderBelow start).length + δ) (s.stretch start stop)).countP (·.isEmpty) =
      keys.countP fun k => k.isEmpty && (start = 0 && 0 < stop) := by
  have whole : s.orderBelow start ++ (s.between start stop).flatMap handlesIn <+:
      s.orderBelow stop := by
    rw [s.orderBelow_append ordered]
    exact prefix_rfl
  have readings := readings_ticks (account.sound.regular_between start stop)
    (account.sound.dated_between start stop) whole δ
  obtain ⟨log, writes, adds⟩ := account
  have alike : ∀ k e, s.record.Refers k e → (k.isEmpty && (start = 0 && 0 < stop)) =
      (e.2.handles.isEmpty && (start ≤ e.1 && e.1 < start + (stop - start))) := by
    rintro k ⟨t, _⟩ ⟨handles, rfl, entries, latest⟩
    cases entries with
    | nil =>
      rcases latest.attained with ⟨_, rfl⟩ | ⟨_, mem, _⟩
      · rw [Bool.eq_iff_iff]
        simp [Note.handles]
        omega
      · cases mem
    | cons => rfl
  have related := (forall₂_filter adds.detectors alike).length_eq
  rw [stretch, readings, countP_map, countP_eq_length_filter, countP_eq_length_filter, related]
  have listed := ((detected_perm writes start stop).filter isEmpty).length_eq
  simp only [Function.comp_def, isEmpty_map]
  rw [listed, filter_map, length_map, filter_filter]
  rfl

lemma Account.empty_flat (account : Account made keys s) (region : s.region = none)
    (pos : ∀ k ∈ keys, k.isEmpty = true → 0 < s.size) :
    (readings 0 (unrollAll s.bodyInstructions)).countP (·.isEmpty) = keys.countP (·.isEmpty) := by
  have body : unrollAll s.bodyInstructions = s.stretch 0 s.size := by
    rw [unrollAll_body, region]
  rw [body]
  refine (account.empty_stretch (Nat.zero_le s.size) 0).trans (countP_congr fun k mem => ?_)
  simpa using pos k mem

lemma Repeats.empty_folded {period start stop n : Nat}
    (h : s.Repeats made period start stop n) (account : Account made keys s)
    (pos : ∀ k ∈ keys, k.isEmpty = true → 0 < start) :
    (readings 0 (unrollAll s.bodyInstructions)).countP (·.isEmpty) = keys.countP (·.isEmpty) := by
  have ordered := h.ordered
  have first : (readings 0 (s.stretch 0 start)).countP (·.isEmpty) = keys.countP (·.isEmpty) := by
    refine (account.empty_stretch (Nat.zero_le start) 0).trans (countP_congr fun k mem => ?_)
    simpa using pos k mem
  have later : ∀ {low high : Nat}, start ≤ low → low ≤ high → ∀ δ,
      (readings ((s.orderBelow low).length + δ) (s.stretch low high)).countP (·.isEmpty) = 0 := by
    intro low high le range δ
    rw [account.empty_stretch range]
    refine countP_eq_zero.mpr fun k mem => ?_
    simp only [Bool.and_eq_true, decide_eq_true_eq]
    rintro ⟨blank, zero, _⟩
    have := pos k mem blank
    omega
  have middle : ((range (n + 1)).flatMap fun j => readings ((s.orderBelow start).length +
      j * (s.orderBelow start).length) (s.stretch start stop)).countP (·.isEmpty) = 0 := by
    refine countP_eq_zero.mpr fun k mem => ?_
    obtain ⟨j, _, inside⟩ := mem_flatMap.mp mem
    exact countP_eq_zero.mp (later (Nat.le_refl start) ordered _) k inside
  rw [readings_eq, h.annotations_body account]
  simp only [filterMap_append, filterMap_flatMap, ← readings_eq, countP_append,
    middle, first, later ordered h.bounded, Nat.add_zero]

end Store

/-! Detectors of a period. -/

/-- Every outcome of a detector is referred to an even number of times. -/
def Detector.cancels (d : Detector) : Bool :=
  d.timed.all fun t => (d.timed.countP fun t' =>
    t'.offset = t.offset && t'.check.content = t.check.content) % 2 = 0

lemma Detector.keys_eq_nil {d : Detector} {round : Int}
    (whole : ∀ t ∈ d.timed, 0 ≤ round + t.offset) : d.keys round = [] ↔ d.cancels = true := by
  have all : d.timed.filter (fun t => 0 ≤ round + t.offset) = d.timed :=
    filter_eq_self.mpr fun t mem => by simpa using whole t mem
  have count : ∀ t : TimedCheck, ((d.timed.map fun t => Key.of t.check (round + t.offset)).count
      (Key.of t.check (round + t.offset))) = d.timed.countP fun t' =>
        t'.offset = t.offset && t'.check.content = t.check.content := by
    intro t
    rw [count, countP_map]
    refine countP_congr fun t' _ => ?_
    simp [Key.of]
  rw [keys, all, eq_nil_iff_forall_not_mem, cancels, all_eq_true]
  simp only [mem_oddItems, decide_eq_true_eq, ← count]
  constructor
  · intro even t mem
    have := even (Key.of t.check (round + t.offset))
    omega
  · intro even key odd
    obtain ⟨t, mem, rfl⟩ := mem_map.mp (count_pos_iff.mp
      (show 0 < (d.timed.map fun t => Key.of t.check (round + t.offset)).count key by omega))
    have := even t mem
    omega

namespace Code

variable (code : Code)

lemma detectorsBefore_period : code.detectorsBefore code.period = code.detectors.flatten := by
  rw [detectorsBefore, flatMap_def]
  congr 1
  refine ext_getElem ?_ fun i bound _ => ?_
  · rw [length_map, length_range, code.detectors_length]
  · rw [length_map, length_range] at bound
    simp [detectorsIn, Nat.mod_eq_of_lt bound]

lemma length_detectorsBefore (n : Nat) :
    (code.detectorsBefore (n * code.period)).length = n * code.detectors.flatten.length := by
  rw [detectorsBefore, flatMap_range_mul]
  simp only [code.detectorsIn_add_mul]
  rw [← code.detectorsBefore_period, detectorsBefore]
  simp [length_flatMap]

end Code

namespace Request

variable (request : Request) (code : Code)

lemma length_expectedIn {round : Nat} (late : code.period ≤ round) :
    (request.expectedIn code round).length + (code.detectorsIn round).countP Detector.cancels =
      (code.detectorsIn round).length := by
  have whole : ∀ e ∈ (code.detectorsIn round).zipIdx, ∀ t ∈ e.1.timed,
      0 ≤ (round : Int) + t.offset :=
    fun e listed => code.timed_nonneg late (fst_mem_of_mem_zipIdx listed)
  have listed : code.detectorsIn round = (code.detectorsIn round).zipIdx.map (·.1) :=
    (zipIdx_map_fst ..).symm
  rw [listed, countP_map, length_map, expectedIn]
  generalize (code.detectorsIn round).zipIdx = all at whole
  induction all with
  | nil => rfl
  | cons e rest ih =>
    have here := whole e (.head _)
    have later := ih fun e mem => whole e (.tail _ mem)
    have cut : e.1.isCut round = false := Detector.isCut_eq_false.mpr here
    have appears : (e.1.keys round ≠ [] ∧
        (e.1.isCut round = true → request.Fixes (e.1.keys round))) ↔ ¬ e.1.cancels = true := by
      simp [Detector.keys_eq_nil here, cut]
    rw [flatMap_cons, length_append, countP_cons, length_cons, Function.comp]
    by_cases blank : e.1.cancels = true
    · rw [if_neg (fun h => appears.mp h blank), if_pos blank, length_nil]
      omega
    · rw [if_pos (appears.mpr blank), if_neg blank, length_singleton]
      omega

lemma length_expectedNext :
    (request.expectedNext code).length + code.detectors.flatten.countP Detector.cancels =
      code.detectors.flatten.length := by
  rw [← code.detectorsBefore_period, Code.detectorsBefore, expectedNext]
  generalize range code.period = rounds
  induction rounds with
  | nil => rfl
  | cons r rest ih =>
    have here := request.length_expectedIn code (Nat.le_add_left code.period r)
    have same := code.detectorsIn_add_mul r 1
    rw [Nat.one_mul] at same
    rw [same] at here
    simp only [flatMap_cons, length_append, countP_append, length_map]
    omega

lemma length_expected (n : Nat) : (request.expected code ((n + 1) * code.period)).length =
      (request.expected code code.period).length + n * (request.expectedNext code).length := by
  have all := congrArg length (request.expected_mul code n)
  simpa [length_flatMap] using all

end Request

lemma Code.measured_ne_nil (code : Code) {round : Nat} {d : Detector}
    (mem : d ∈ code.detectorsIn round) : code.measured code.period ≠ [] := by
  obtain ⟨c, inside⟩ := exists_mem_of_ne_nil _ (code.checksIn_ne_nil mem)
  have early : round % code.period < code.period := Nat.mod_lt _ code.period_pos
  have here : (c, round % code.period) ∈ code.measured code.period := by
    refine Code.mem_measured.mpr ⟨early, ?_⟩
    rwa [← code.checksIn_add_mul _ (round / code.period), Nat.mod_add_div']
  exact ne_nil_of_mem here

lemma Request.Detects.length_eq {request : Request} {code : Code} {labels : List (Check × Nat)}
    {detectors : List (List Int)} {others : Nat}
    (h : request.Detects code labels detectors others) :
    detectors.length = (request.expected code (request.layers * code.period)).length + others := by
  obtain ⟨places, regular, final, nodup, known, perm, count, pairs⟩ := h
  have listed : places.Perm ((request.expected code (request.layers * code.period)).map (·.1)) := by
    refine (perm_ext_iff_of_nodup nodup (expected_places_nodup _)).mpr fun place => ?_
    rw [known, mem_map]
    constructor
    · rintro ⟨below, k, expects⟩
      exact ⟨(place, k), mem_expected.mpr ⟨below, expects⟩, rfl⟩
    · rintro ⟨e, mem, rfl⟩
      obtain ⟨below, expects⟩ := mem_expected.mp mem
      exact ⟨below, e.2, expects⟩
  rw [perm.length_eq, length_append, count, ← pairs.length_eq, listed.length_eq, length_map]

lemma countP_isEmpty_add {α : Type} [DecidableEq α] (items : List (List α)) :
    items.countP (·.isEmpty) + (items.filter (· ≠ [])).length = items.length := by
  rw [← countP_eq_length_filter, items.length_eq_countP_add_countP (·.isEmpty)]
  simp only [List.isEmpty_iff, ne_eq]

lemma Task.measured_of_planned {rounds : Nat} {e : Entry × Int × List Key}
    (mem : e ∈ task.planned rounds) : task.code.measured task.code.period ≠ [] := by
  obtain ⟨r, _, inside⟩ := mem_flatMap.mp mem
  obtain ⟨d, listed, _⟩ := mem_flatMap.mp inside
  exact task.code.measured_ne_nil (fst_mem_of_mem_zipIdx listed)

/-- Detectors of all rounds are in the program, discarded, or cancelled in a block. -/
lemma Task.Runs.detectors_add
    {prepared layered ended : Session} (h : task.Runs result prepared layered ended)
    (words : result.report.rounds < Word.half) :
    (Instruction.readings 0 (Instruction.unrollAll ended.store.bodyInstructions)).length +
        result.report.discarded +
        (if result.report.repeated then
          (task.request.layers - 3) * task.code.detectors.flatten.countP Detector.cancels else 0) =
      task.request.layers * task.code.detectors.flatten.length + result.report.finalDetectors := by
  obtain ⟨_, _, keys, closing, ledger⟩ := h.finished.2.account
  have tally := h.discarded_add
  rw [h.rounds_eq] at words tally
  have found := (h.reading words ledger).2.length_eq
  have shape := h.shape words ledger
  obtain ⟨_, _, _, planned, _, kinds, account⟩ := ledger
  have shown := countP_isEmpty_add
    (Instruction.readings 0 (Instruction.unrollAll ended.store.bodyInstructions))
  have opened := countP_isEmpty_add ((task.planned layered.rounds).map (·.2.2))
  rw [task.planned_keys (words.le), length_map, length_map] at opened
  have closed : (keys ++ closing).countP (·.isEmpty) =
      ((task.planned layered.rounds).map (·.2.2)).countP (·.isEmpty) := by
    have none : closing.countP (·.isEmpty) = 0 :=
      countP_eq_zero.mpr fun k mem => by simpa using (kinds k mem).1
    rw [countP_append, none, Nat.add_zero, planned.countP_eq]
  -- The first outcome comes before all that a detector without outcomes could be repeated with.
  have outcome : ∀ k ∈ keys ++ closing, k.isEmpty = true → task.code.period ≤ layered.rounds →
      0 < (task.code.measured task.code.period).length ∧
        ∃ key t, ended.store.record.entry? 0 = some (key, t) := by
    intro k mem blank long
    rcases mem_append.mp mem with early | late
    · obtain ⟨e, inside, _⟩ := mem_map.mp (planned.mem_iff.mp early)
      have pos := length_pos_iff.mpr (task.measured_of_planned inside)
      refine ⟨pos, ?_⟩
      obtain ⟨t, entry⟩ := account.exists_entry (h := 0) (getElem?_eq_getElem (by
        rw [task.code.measured_split long, append_assoc, length_append]
        omega))
      exact ⟨_, t, entry⟩
    · exact absurd (isEmpty_iff.mp blank) (kinds k late).1
  have pos := (Request.fault?_eq_none h.fault).1
  rcases shape with ⟨repeated, region, all⟩ | ⟨repeated, start, stop, n, many, three, folded⟩
  · have blank := account.empty_flat region fun k mem blank => by
      obtain ⟨_, key, t, entry⟩ := outcome k mem blank
        (by rw [all]; exact Nat.le_mul_of_pos_left _ pos)
      exact Nat.lt_of_le_of_lt (Nat.zero_le t) (account.sound.tick_lt_size entry)
    rw [all] at opened closed tally
    rw [Code.length_detectorsBefore] at tally
    rw [repeated, if_neg Bool.false_ne_true]
    omega
  · rw [three] at account opened closed tally
    have blank := folded.toRepeats.empty_folded account fun k mem blank => by
      obtain ⟨some_outcome, key, t, entry⟩ := outcome k mem blank (by omega)
      exact Nat.lt_of_le_of_lt (Nat.zero_le t) ((folded.first entry).mp some_outcome)
    rw [Code.length_detectorsBefore] at tally
    have placed : (task.request.expected task.code (3 * task.code.period)).length = _ :=
      task.request.length_expected task.code 2
    have wanted : (task.request.expected task.code ((n + 3) * task.code.period)).length = _ :=
      task.request.length_expected task.code (n + 2)
    have period := task.request.length_expectedNext task.code
    have blanks := congrArg (n * ·) period
    simp only [Nat.mul_add] at blanks
    rw [many] at found
    rw [Nat.add_mul n 2] at wanted
    rw [repeated, if_pos rfl, many, Nat.add_sub_cancel, Nat.add_mul n 3]
    omega

/-- A program has the detectors of all layers that are not discarded, and those that close on the
final measurements. This fails only if layers are repeated and the outcomes of a detector cancel:
such a detector is there for three layers, however many there are. -/
theorem Compiler.detectors_tallied {c : Compiler} {code : Code} {request : Request}
    {result : Compilation} (run : c.compile code request = .ok result)
    (words : result.report.rounds < Word.half) :
    ∃ total, total = result.program.unrolled.countP Instruction.isDetector ∧
      result.program.detectorCount = (if total < Word.size then some total else none) ∧
      total + result.report.discarded +
          (if result.report.repeated then
            (request.layers - 3) * code.detectors.flatten.countP Detector.cancels else 0) =
        request.layers * code.detectors.flatten.length + result.report.finalDetectors ∧
      (total + result.report.discarded =
          request.layers * code.detectors.flatten.length + result.report.finalDetectors ↔
        (result.report.repeated = true → request.layers ≤ 3 ∨
          ∀ d ∈ code.detectors.flatten, d.cancels = false)) := by
  obtain ⟨prepared, layered, ended, runs⟩ := compile_eq_ok run
  have counted := runs.detectors_add words
  have program := runs.program_eq
  have positive : ∀ region, ended.store.region = some region → 0 < region.repetitions :=
    fun _ marked => (runs.repetitions marked).1
  refine ⟨_, rfl, ?_, ?_, ?_⟩
  · rw [program, Store.detectorCount_program _ _ positive, Instruction.length_readings]
    rfl
  · rw [← Instruction.length_readings 0, program, (ended.store.program_unrolled _).2]
    exact counted
  · rw [← Instruction.length_readings 0, program, (ended.store.program_unrolled _).2, ← counted]
    cases result.report.repeated with
    | false => simp
    | true =>
      have blank : (∀ d ∈ code.detectors.flatten, d.cancels = false) ↔
          code.detectors.flatten.countP Detector.cancels = 0 := by
        simp only [List.countP_eq_zero, Bool.not_eq_true]
      rw [if_pos rfl, Nat.left_eq_add, Nat.mul_eq_zero, Nat.sub_eq_zero_iff_le, blank]
      simp only [forall_const]

namespace PairCode

/-- A detector that refers to an outcome twice, and the usual one. -/
def doubled : Detector := ⟨[], [⟨0, check⟩, ⟨0, check⟩], 0, by decide⟩

def doubling : Code := ⟨.ofList [left, right], [[check]], [[doubled, detector]], [], by decide⟩

theorem detectors_tallied_five :
    ∃ result, (compiler {}).compile doubling { layers := 5 } = .ok result ∧
      result.report.rounds < Word.half ∧ result.report.repeated = true ∧
      result.program.detectorCount = some 9 ∧
      result.program.unrolled.countP Instruction.isDetector + result.report.discarded + 2 =
        5 * 2 + result.report.finalDetectors := by
  have report : ((compiler {}).compile doubling { layers := 5 }).toOption.map
      (fun r => (r.report.rounds, r.report.repeated, r.program.detectorCount)) =
      some (3, true, some 9) := by
    decide +kernel
  obtain ⟨result, compiled, same⟩ := Outcome.exists_ok_of_map report
  obtain ⟨rounds, same⟩ := Prod.mk.inj same
  obtain ⟨repeated, count⟩ := Prod.mk.inj same
  have words : result.report.rounds < Word.half := by
    rw [rounds]
    decide
  obtain ⟨_, rfl, _, total, _⟩ := Compiler.detectors_tallied compiled words
  rw [repeated] at total
  exact ⟨result, compiled, words, repeated, count, total⟩

/-- Two layers lack their detector without outcomes. -/
theorem detectors_missing :
    ((compiler {}).compile doubling { layers := 5 }).toOption.map (fun r =>
        (r.report.repeated, r.program.detectorCount,
          5 * doubling.detectors.flatten.length - r.report.discarded + r.report.finalDetectors)) =
      some (true, some 9, 11) := by
  decide +kernel

end PairCode

end SyndromeSchedule
