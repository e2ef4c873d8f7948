import Mathlib.Data.List.Count
import Mathlib.Data.List.Flatten
import SyndromeSchedule.Proofs.Rounds

/-!
The detectors that a request should lead to, written down without a session. A detector closes in
each of its rounds, refers to the outcomes that are left over from its floor and lid, and is dropped
if there are none or if the initial state would have to stand in for outcomes and does not. From the
second period on, nothing changes from one period to the next but the rounds.
-/

namespace SyndromeSchedule

open List

lemma eraseDups_map {α β : Type} [DecidableEq α] [DecidableEq β] {f : α → β}
    (injective : Function.Injective f) : ∀ items : List α,
    (items.map f).eraseDups = items.eraseDups.map f
  | [] => by simp
  | a :: rest => by
    have others : (rest.map f).filter (fun b => !b == f a) =
        (rest.filter fun b => !b == a).map f := by
      rw [filter_map]
      congr 1
      refine filter_congr fun b _ => ?_
      by_cases same : b = a
      · simp [same]
      · simp [same, injective.ne same]
    rw [map_cons, eraseDups_cons, eraseDups_cons, map_cons, others, eraseDups_map injective]
termination_by items => items.length
decreasing_by
  exact Nat.lt_succ_of_le (length_filter_le ..)

lemma oddItems_map {α β : Type} [DecidableEq α] [DecidableEq β] {f : α → β}
    (injective : Function.Injective f) (items : List α) :
    oddItems (items.map f) = (oddItems items).map f := by
  simp only [oddItems, eraseDups_map injective, filter_map]
  congr 1
  refine filter_congr fun a _ => ?_
  simp [count_map_of_injective items f injective]

def Key.later (rounds : Nat) (key : Key) : Key := { key with round := key.round + rounds }

namespace Key

lemma later_injective (rounds : Nat) : Function.Injective (later rounds) := by
  rintro ⟨r, c⟩ ⟨r', c'⟩ same
  simp only [later, mk.injEq] at same ⊢
  exact ⟨by omega, same.2⟩

@[simp] lemma later_zero : later 0 = id := by
  funext key
  simp [later]

lemma later_later (m n : Nat) (key : Key) : (key.later m).later n = key.later (m + n) := by
  simp [later, Int.add_assoc]

lemma later_of (c : Check) (round m : Nat) :
    (Key.of c (round : Int)).later m = Key.of c ((round + m : Nat) : Int) := rfl

end Key

namespace Detector

lemma keys_later {d : Detector} {round : Int} (whole : ∀ t ∈ d.timed, 0 ≤ round + t.offset)
    (m : Nat) : d.keys (round + m) = (d.keys round).map (Key.later m) := by
  have all : d.timed.filter (fun t => 0 ≤ round + t.offset) = d.timed := by
    rw [filter_eq_self]
    exact fun t mem => by simpa using whole t mem
  have all' : d.timed.filter (fun t => 0 ≤ round + m + t.offset) = d.timed := by
    rw [filter_eq_self]
    intro t mem
    have := whole t mem
    simp only [decide_eq_true_eq]
    omega
  rw [keys, keys, all, all', ← oddItems_map (Key.later_injective m), map_map]
  congr 1
  refine map_congr_left fun t _ => ?_
  simp only [Function.comp, Key.later, Key.of, Key.mk.injEq, and_true]
  omega

lemma isCut_eq_false {d : Detector} {round : Int} :
    d.isCut round = false ↔ ∀ t ∈ d.timed, 0 ≤ round + t.offset := by
  simp [isCut]

end Detector

lemma Code.timed_nonneg (code : Code) {round : Nat} (late : code.period ≤ round) {d : Detector}
    (mem : d ∈ code.detectorsIn round) : ∀ t ∈ d.timed, 0 ≤ (round : Int) + t.offset := by
  intro t timed
  have back := (code.timed_scheduled mem timed).1
  omega

namespace Request

/-- Whether the initial states fix the product of some outcomes: on every qubit of its support it
has the letter of the basis in which the qubit starts. -/
def Fixes (request : Request) (keys : List Key) : Prop :=
  ∀ e ∈ (keys.foldl (fun q key => q.mul key.product) Product.identity).factors.entries,
    (request.initialState e.1).basis = e.2

instance (request : Request) (keys : List Key) : Decidable (request.Fixes keys) :=
  List.decidableBAll _ _

/-- A detector of the schedule, by round and index, has to appear with some outcomes. -/
def Expects (request : Request) (code : Code) (place : Nat × Nat) (keys : List Key) : Prop :=
  ∃ d, (code.detectorsIn place.1)[place.2]? = some d ∧ keys = d.keys place.1 ∧ keys ≠ [] ∧
    (d.isCut place.1 = true → request.Fixes keys)

/-- The detectors that have to appear in a round, with their outcomes. -/
def expectedIn (request : Request) (code : Code) (round : Nat) :
    List ((Nat × Nat) × List Key) :=
  (code.detectorsIn round).zipIdx.flatMap fun e =>
    if e.1.keys round ≠ [] ∧ (e.1.isCut round = true → request.Fixes (e.1.keys round)) then
      [((round, e.2), e.1.keys round)]
    else []

/-- The detectors that have to appear in the first rounds. -/
def expected (request : Request) (code : Code) (rounds : Nat) : List ((Nat × Nat) × List Key) :=
  (List.range rounds).flatMap (request.expectedIn code)

variable {request : Request} {code : Code} {e : (Nat × Nat) × List Key}

lemma mem_expectedIn {round : Nat} :
    e ∈ request.expectedIn code round ↔ e.1.1 = round ∧ request.Expects code e.1 e.2 := by
  obtain ⟨⟨r, index⟩, keys⟩ := e
  simp only [expectedIn, mem_flatMap]
  constructor
  · rintro ⟨⟨d, i⟩, listed, mem⟩
    split_ifs at mem with expects
    · cases mem_singleton.mp mem
      exact ⟨rfl, d, mem_zipIdx_iff_getElem?.mp listed, rfl, expects.1, expects.2⟩
    · simp at mem
  · rintro ⟨rfl, d, found, rfl, nonempty, fixes⟩
    refine ⟨(d, index), mem_zipIdx_iff_getElem?.mpr found, ?_⟩
    rw [if_pos ⟨nonempty, fixes⟩]
    exact mem_singleton_self _

lemma mem_expected {rounds : Nat} :
    e ∈ request.expected code rounds ↔ e.1.1 < rounds ∧ request.Expects code e.1 e.2 := by
  simp only [expected, mem_flatMap, mem_range, mem_expectedIn]
  constructor
  · rintro ⟨r, below, rfl, expects⟩
    exact ⟨below, expects⟩
  · rintro ⟨below, expects⟩
    exact ⟨_, below, rfl, expects⟩

lemma expectedIn_places_nodup (round : Nat) :
    ((request.expectedIn code round).map (·.1)).Nodup := by
  have sublist : ((request.expectedIn code round).map (·.1)).Sublist
      ((code.detectorsIn round).zipIdx.map fun e => (round, e.2)) := by
    rw [expectedIn]
    generalize (code.detectorsIn round).zipIdx = es
    induction es with
    | nil => exact .slnil
    | cons e rest ih =>
      rw [flatMap_cons, map_append, map_cons]
      split_ifs
      · exact ih.cons_cons _
      · exact ih.cons _
  have distinct : ((code.detectorsIn round).zipIdx.map fun e => (round, e.2)).Nodup := by
    have indices : ((code.detectorsIn round).zipIdx.map fun e => (round, e.2)) =
        (range (code.detectorsIn round).length).map fun i => (round, i) := by
      rw [range_eq_range', ← zipIdx_map_snd 0, map_map]
      rfl
    rw [indices]
    exact nodup_range.map fun i j same => (Prod.mk.inj same).2
  exact distinct.sublist sublist

lemma expected_places_nodup (rounds : Nat) :
    ((request.expected code rounds).map (·.1)).Nodup := by
  rw [expected, map_flatMap, nodup_flatMap]
  refine ⟨fun r _ => expectedIn_places_nodup r, ?_⟩
  refine nodup_range.imp ?_
  intro r r' different place here there
  obtain ⟨e, mem, rfl⟩ := mem_map.mp here
  obtain ⟨e', member', same⟩ := mem_map.mp there
  have first := (mem_expectedIn.mp mem).1
  have second := (mem_expectedIn.mp member').1
  rw [same] at second
  exact different (first.symm.trans second)

end Request

lemma Word.signed_of_lt {n : Nat} (h : n < Word.half) : Word.signed n = n := if_pos h

lemma Task.planned_keys (task : Task) {rounds : Nat} (words : rounds ≤ Word.half) :
    ((task.planned rounds).map (·.2.2)).filter (· ≠ []) =
      (task.request.expected task.code rounds).map (·.2) := by
  rw [planned, Request.expected, map_flatMap, filter_flatMap, map_flatMap]
  refine flatMap_congr fun r below => ?_
  have signed : Word.signed r = r := Word.signed_of_lt ((mem_range.mp below).trans_le words)
  rw [Resolver.openedIn, Request.expectedIn, map_flatMap, filter_flatMap, map_flatMap]
  refine flatMap_congr fun e _ => ?_
  simp only [Resolver.opened, signed, Resolver.discards]
  by_cases none : e.1.keys r = []
  · split_ifs <;> simp_all
  · have fixes : (({ initial := task.request.initial } : Resolver).fixes
        ((e.1.keys r).foldl (fun q key => q.mul key.product) .identity)) =
          decide (task.request.Fixes (e.1.keys r)) := by
      rw [Bool.eq_iff_iff, decide_eq_true_iff]
      exact all_eq_true.trans (by simp only [decide_eq_true_eq]; exact Iff.rfl)
    rw [fixes]
    cases e.1.isCut r with
    | false => simp [none]
    | true => by_cases fixed : task.request.Fixes (e.1.keys r) <;> simp [none, fixed]

lemma flatMap_range_mul {α : Type} (f : Nat → List α) (n period : Nat) :
    (List.range (n * period)).flatMap f =
      (List.range n).flatMap fun j => (List.range period).flatMap fun r => f (r + j * period) := by
  induction n with
  | zero => simp
  | succ n ih =>
    rw [Nat.succ_mul, range_add, flatMap_append, ih, range_succ,
      flatMap_append, flatMap_singleton, flatMap_map]
    simp only [Nat.add_comm]

def postpone (rounds : Nat) (e : Check × Nat) : Check × Nat := (e.1, e.2 + rounds)

lemma postpone_postpone (m n : Nat) (e : Check × Nat) :
    postpone n (postpone m e) = postpone (m + n) e := by
  simp [postpone, Nat.add_assoc]

@[simp] lemma postpone_zero : postpone 0 = id := rfl

namespace Code

variable (code : Code)

lemma checksIn_add_mul (round m : Nat) :
    code.checksIn (round + m * code.period) = code.checksIn round := by
  simp [checksIn]

lemma detectorsIn_add_mul (round m : Nat) :
    code.detectorsIn (round + m * code.period) = code.detectorsIn round := by
  simp [detectorsIn]

lemma measured_mul (n : Nat) : code.measured (n * code.period) = (List.range n).flatMap fun j =>
      (code.measured code.period).map (postpone (j * code.period)) := by
  rw [measured, flatMap_range_mul]
  refine flatMap_congr fun j _ => ?_
  rw [measured, map_flatMap]
  refine flatMap_congr fun r _ => ?_
  rw [measuredIn, measuredIn, code.checksIn_add_mul, map_map]
  rfl

end Code

namespace Request

variable (request : Request) (code : Code)

/-- Outcomes of the detectors that have to appear in the second period. -/
def expectedNext : List (List Key) :=
  (List.range code.period).flatMap fun r =>
    (request.expectedIn code (r + code.period)).map (·.2)

lemma expectedIn_add_mul {round : Nat} (late : code.period ≤ round) (m : Nat) :
    (request.expectedIn code (round + m * code.period)).map (·.2) =
      ((request.expectedIn code round).map (·.2)).map (List.map (Key.later (m * code.period))) := by
  rw [expectedIn, expectedIn, map_flatMap, map_flatMap, map_flatMap, code.detectorsIn_add_mul]
  refine flatMap_congr fun e listed => ?_
  have mem : e.1 ∈ code.detectorsIn round := mem_of_getElem? (mem_zipIdx_iff_getElem?.mp listed)
  have whole := code.timed_nonneg late mem
  have keys := Detector.keys_later whole (m * code.period)
  have cut : e.1.isCut round = false := Detector.isCut_eq_false.mpr whole
  have cut' : e.1.isCut ((round + m * code.period : Nat) : Int) = false := by
    refine Detector.isCut_eq_false.mpr fun t timed => ?_
    have := whole t timed
    omega
  have cast : ((round + m * code.period : Nat) : Int) = round + (m * code.period : Nat) := rfl
  rw [cut, cut', cast, keys]
  by_cases none : e.1.keys round = []
  · simp [none]
  · simp [none]

/-- From the second period on, the detectors are those of the period before, one period later. -/
theorem expected_mul (n : Nat) : (request.expected code ((n + 1) * code.period)).map (·.2) =
      (request.expected code code.period).map (·.2) ++ (List.range n).flatMap fun j =>
          (request.expectedNext code).map (List.map (Key.later (j * code.period))) := by
  rw [expected, flatMap_range_mul, range_succ_eq_map, flatMap_cons, map_append, flatMap_map]
  congr 1
  · simp only [Nat.zero_mul, Nat.add_zero]
    rfl
  · rw [map_flatMap]
    refine flatMap_congr fun j _ => ?_
    rw [map_flatMap, expectedNext, map_flatMap]
    refine flatMap_congr fun r _ => ?_
    have moved : r + Nat.succ j * code.period = r + code.period + j * code.period := by
      rw [Nat.succ_mul]
      omega
    rw [moved, request.expectedIn_add_mul code (by omega)]

end Request

end SyndromeSchedule
