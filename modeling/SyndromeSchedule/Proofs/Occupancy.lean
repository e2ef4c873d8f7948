import Mathlib.Tactic.SplitIfs
import SyndromeSchedule.Timeline.Occupancy

/-!
The growing table of ticks behaves like an unbounded timeline: growing it changes neither which
qubits are free nor which hold a state, taking a qubit changes one tick, and a change of state lasts
until the next one. The search for a free tick finds the first.
-/

namespace SyndromeSchedule.Occupancy

open List

variable (n : Nat) (moments : Array Moment) (t : Nat) (o : Occupancy) (tick : Nat) (q : Qubit)
  (live : Bool) (p : Qubit) (qubits : List Qubit) (steps start : Nat)

/-- Qubits that hold a state at the end of the table. -/
def lastLive (moments : Array Moment) : List Qubit :=
  (moments.back?.map (·.live)).getD []

lemma size_grow : (grow n moments).size = moments.size + n := by
  induction n generalizing moments with
  | zero => rfl
  | succ n ih =>
    rw [grow, ih, Array.size_push]
    omega

lemma lastLive_grow : lastLive (grow n moments) = lastLive moments := by
  induction n generalizing moments with
  | zero => rfl
  | succ n ih =>
    rw [grow, ih]
    simp [lastLive]

lemma getElem?_grow : (grow n moments)[t]? =
      if t < moments.size then moments[t]?
      else if t < moments.size + n then some { live := lastLive moments }
      else none := by
  induction n generalizing moments with
  | zero =>
    simp only [grow, Nat.add_zero]
    by_cases h : t < moments.size
    · simp [h]
    · simp [h]
  | succ n ih =>
    rw [grow, ih]
    simp only [Array.size_push]
    by_cases h : t < moments.size
    · have hsucc : t < moments.size + 1 := by omega
      simp only [h, hsucc, if_true, if_false, Array.getElem?_push, Nat.ne_of_lt h]
    · by_cases hlast : t = moments.size
      · subst hlast
        simp [lastLive]
      · have hnext : ¬ t < moments.size + 1 := by omega
        have hbound : t < moments.size + 1 + n ↔ t < moments.size + (n + 1) := by omega
        simp [h, hnext, hbound, lastLive]

@[simp] lemma size_extendTo :
    (o.extendTo tick).size = max o.size (tick + 1) := by
  simp only [size, extendTo, size_grow]
  omega

@[simp] lemma size_occupy :
    (o.occupy tick q).size = max o.size (tick + 1) := by
  rw [← size_extendTo]
  simp [size, occupy]

@[simp] lemma size_setLive :
    (o.setLive tick q live).size = max o.size (tick + 1) := by
  rw [← size_extendTo]
  simp [size, setLive]

lemma isFree_of_size_le {o : Occupancy} {t : Nat} (h : o.size ≤ t) (q : Qubit) :
    o.isFree t q = true := by
  have past : o.moments[t]? = none := by simpa [size] using h
  simp [isFree, past]

@[simp] lemma isFree_extendTo (t : Nat) (q : Qubit) :
    (o.extendTo tick).isFree t q = o.isFree t q := by
  simp only [isFree, extendTo, getElem?_grow]
  by_cases h : t < o.moments.size
  · simp [h]
  · have past : o.moments[t]? = none := by simpa using h
    by_cases hnew : t < o.moments.size + (tick + 1 - o.size)
    · simp [h, hnew]
    · simp [h, hnew]

lemma isFree_occupy (t : Nat) (q p : Qubit) :
    (o.occupy tick q).isFree t p = (o.isFree t p && !(t = tick && p = q)) := by
  rw [← isFree_extendTo o tick]
  simp only [occupy, isFree, Array.getElem?_modify]
  by_cases h : tick = t
  · subst h
    have inside : tick < (o.extendTo tick).moments.size := by
      have grown := size_extendTo o tick
      simp only [size] at grown
      omega
    simp [Array.getElem?_eq_getElem inside, Bool.and_comm]
  · simp [h, Ne.symm h]

@[simp] lemma isFree_setLive (t : Nat) (q p : Qubit) (live : Bool) :
    (o.setLive tick q live).isFree t p = o.isFree t p := by
  rw [← isFree_extendTo o tick]
  simp only [setLive, isFree, Array.getElem?_mapIdx]
  cases h : (o.extendTo tick).moments[t]? with
  | none => rfl
  | some m =>
    simp only [Option.map_some]
    split_ifs <;> rfl

lemma isFree_occupyAll (t : Nat) (p : Qubit) (qubits : List Qubit) (o : Occupancy) :
    (qubits.foldl (fun o q => o.occupy tick q) o).isFree t p =
      (o.isFree t p && !(t = tick && p ∈ qubits)) := by
  induction qubits generalizing o with
  | nil => simp
  | cons q rest ih =>
    rw [foldl_cons, ih, isFree_occupy]
    cases o.isFree t p
    · simp
    · by_cases h : t = tick
      · simp [h]
      · simp [h]

lemma size_occupyAll (o : Occupancy) : (qubits.foldl (fun o q => o.occupy tick q) o).size =
      if qubits = [] then o.size else max o.size (tick + 1) := by
  induction qubits generalizing o with
  | nil => simp
  | cons q rest ih =>
    rw [foldl_cons, ih, if_neg (cons_ne_nil _ _), size_occupy]
    split_ifs
    · rfl
    · omega

/-! States. -/

lemma isLive_eq (t : Nat) (q : Qubit) : o.isLive t q =
      if h : t < o.moments.size then decide (q ∈ o.moments[t].live)
      else decide (q ∈ lastLive o.moments) := by
  simp only [isLive]
  by_cases h : t < o.moments.size
  · simp [h]
  · have past : o.moments[t]? = none := by simpa using h
    simp only [past, Option.none_or, h, dite_false, lastLive]
    obtain hback | ⟨m, hback⟩ := Option.eq_none_or_eq_some o.moments.back?
    · simp [hback]
    · simp [hback]

lemma isLive_extendTo (t : Nat) (q : Qubit) : (o.extendTo tick).isLive t q = o.isLive t q := by
  have found : (o.extendTo tick).moments[t]? = _ := getElem?_grow _ _ t
  rw [isLive_eq, isLive_eq]
  have last : lastLive (o.extendTo tick).moments = lastLive o.moments := lastLive_grow _ _
  by_cases h : t < o.moments.size
  · have inside : t < (o.extendTo tick).moments.size := by
      have grown := size_extendTo o tick
      simp only [size] at grown
      omega
    simp only [inside, h, dite_true, if_true] at found ⊢
    rw [Array.getElem?_eq_getElem inside, Array.getElem?_eq_getElem h] at found
    rw [Option.some.inj found]
  · by_cases inside : t < (o.extendTo tick).moments.size
    · have new : t < o.moments.size + (tick + 1 - o.size) := by
        have grown := size_grow (tick + 1 - o.size) o.moments
        simp only [extendTo] at inside
        omega
      simp only [h, new, if_true, if_false] at found
      rw [Array.getElem?_eq_getElem inside] at found
      simp only [inside, h, dite_true, dite_false]
      rw [Option.some.inj found]
    · simp [inside, h, last]

@[simp] lemma isLive_occupy (t : Nat) (q p : Qubit) :
    (o.occupy tick q).isLive t p = o.isLive t p := by
  rw [← isLive_extendTo o tick, isLive_eq, isLive_eq]
  have back : lastLive (o.occupy tick q).moments = lastLive (o.extendTo tick).moments := by
    simp only [lastLive, occupy, Array.back?_eq_getElem?, Array.size_modify, Array.getElem?_modify]
    split_ifs
    · cases (o.extendTo tick).moments[(o.extendTo tick).moments.size - 1]? <;> rfl
    · rfl
  have sizes : (o.occupy tick q).moments.size = (o.extendTo tick).moments.size := by
    simp [occupy]
  by_cases h : t < (o.extendTo tick).moments.size
  · have inside : t < (o.occupy tick q).moments.size := by omega
    simp only [h, inside, dite_true]
    simp only [occupy, Array.getElem_modify]
    split_ifs
    · rfl
    · rfl
  · have outside : ¬ t < (o.occupy tick q).moments.size := by omega
    simp [h, outside, back]

lemma mem_live_setState (live : Bool) (m : Moment) :
    (p ∈ (setState q live m).live) ↔ if p = q then live = true else p ∈ m.live := by
  cases live with
  | true | false =>
    by_cases h : p = q
    · simp [setState, h]
    · simp [setState, h]

/-- A change of state holds from its tick on, also past the end of the table. -/
lemma isLive_occupyAll (t : Nat) (o : Occupancy) :
    (qubits.foldl (fun o q => o.occupy tick q) o).isLive t p = o.isLive t p := by
  induction qubits generalizing o with
  | nil => rfl
  | cons q rest ih => rw [foldl_cons, ih, isLive_occupy]

theorem isLive_setLive (t : Nat) (q p : Qubit) (live : Bool) : (o.setLive tick q live).isLive t p =
      if tick ≤ t ∧ p = q then live else o.isLive t p := by
  rw [← isLive_extendTo o tick, isLive_eq, isLive_eq]
  have sizes : (o.setLive tick q live).moments.size = (o.extendTo tick).moments.size := by
    simp [setLive]
  have reached : tick < (o.extendTo tick).moments.size := by
    have grown := size_extendTo o tick
    simp only [size] at grown
    omega
  have back : ∃ m, (o.extendTo tick).moments.back? = some m ∧
      (o.setLive tick q live).moments.back? = some (setState q live m) := by
    have last : (o.extendTo tick).moments.size - 1 < (o.extendTo tick).moments.size := by omega
    have after : tick ≤ (o.extendTo tick).moments.size - 1 := by omega
    refine ⟨(o.extendTo tick).moments[(o.extendTo tick).moments.size - 1], ?_, ?_⟩
    · rw [Array.back?_eq_getElem?, Array.getElem?_eq_getElem last]
    · rw [Array.back?_eq_getElem?, sizes]
      simp [setLive, Array.getElem?_mapIdx, Array.getElem?_eq_getElem last, after]
  by_cases h : t < (o.extendTo tick).moments.size
  · have inside : t < (o.setLive tick q live).moments.size := by omega
    simp only [h, inside, dite_true]
    simp only [setLive, Array.getElem_mapIdx]
    by_cases reach : tick ≤ t
    · simp only [reach, if_true, true_and, mem_live_setState]
      by_cases same : p = q
      · simp [same]
      · simp [same]
    · simp [reach]
  · have outside : ¬ t < (o.setLive tick q live).moments.size := by omega
    have reach : tick ≤ t := by omega
    obtain ⟨m, old, new⟩ := back
    simp only [h, outside, dite_false, lastLive, old, new, Option.map_some, Option.getD_some,
      reach, true_and, mem_live_setState]
    by_cases same : p = q
    · simp [same]
    · simp [same]

/-! Search for a free tick. -/

lemma le_searchFree (tick : Nat) : tick ≤ o.searchFree qubits steps tick := by
  induction steps generalizing tick with
  | zero => exact Nat.le_refl _
  | succ steps ih =>
    rw [searchFree]
    split_ifs
    · exact Nat.le_refl _
    · exact Nat.le_trans (Nat.le_succ _) (ih (tick + 1))

lemma allFree_searchFree (tick : Nat) (past : o.size ≤ tick + steps) :
    o.allFree (o.searchFree qubits steps tick) qubits = true := by
  induction steps generalizing tick with
  | zero =>
    simp only [searchFree, allFree, all_eq_true]
    intro q _
    exact isFree_of_size_le (by omega) q
  | succ steps ih =>
    rw [searchFree]
    split_ifs with h
    · exact h
    · exact ih (tick + 1) (by omega)

lemma not_allFree_of_lt_searchFree
    (tick t : Nat) (from_le : tick ≤ t) (before : t < o.searchFree qubits steps tick) :
    o.allFree t qubits = false := by
  induction steps generalizing tick with
  | zero =>
    simp only [searchFree] at before
    omega
  | succ steps ih =>
    rw [searchFree] at before
    split_ifs at before with h
    · omega
    · by_cases here : t = tick
      · subst here
        simpa using h
      · exact ih (tick + 1) (by omega) before

lemma le_earliestFree (qubits : List Qubit) : start ≤ o.earliestFree start qubits :=
  o.le_searchFree qubits _ start

lemma isFree_earliestFree (qubits : List Qubit) {q : Qubit}
    (mem : q ∈ qubits) : o.isFree (o.earliestFree start qubits) q = true := by
  have free := o.allFree_searchFree qubits (o.size - start) start (by omega)
  exact all_eq_true.mp free q mem

lemma not_allFree_of_lt_earliestFree (t : Nat) (qubits : List Qubit)
    (from_le : start ≤ t) (before : t < o.earliestFree start qubits) :
    o.allFree t qubits = false :=
  o.not_allFree_of_lt_searchFree qubits _ start t from_le before

/-! Sequences of calls. -/

/-- A call that changes the table. -/
inductive Call where
  | occupy (tick : Nat) (q : Qubit)
  | setLive (tick : Nat) (q : Qubit) (live : Bool)

namespace Call

/-- An occupancy after a call. -/
def apply (o : Occupancy) : Call → Occupancy
  | occupy tick q => o.occupy tick q
  | setLive tick q live => o.setLive tick q live

/-- The state that a call gives a qubit in a tick, if it gives it one. -/
def state? (t : Nat) (p : Qubit) : Call → Option Bool
  | occupy _ _ => none
  | setLive tick q live => if tick ≤ t ∧ p = q then some live else none

variable (call : Call)

lemma isFree_apply :
    (call.apply o).isFree t p = true ↔ o.isFree t p = true ∧ occupy t p ≠ call := by
  cases call with
  | occupy tick q => simp [apply, isFree_occupy, Decidable.imp_iff_not_or]
  | setLive tick q live => simp [apply]

lemma isLive_apply :
    (call.apply o).isLive t p = (call.state? t p).getD (o.isLive t p) := by
  cases call with
  | occupy tick q => simp [apply, state?]
  | setLive tick q live =>
    rw [apply, state?, isLive_setLive]
    split_ifs <;> rfl

end Call

/-- The table after some calls, in their order. -/
def after (calls : List Call) : Occupancy := calls.foldl Call.apply empty

variable (calls : List Call)

lemma isFree_foldl (o : Occupancy) : (calls.foldl Call.apply o).isFree t p = true ↔
    o.isFree t p = true ∧ Call.occupy t p ∉ calls := by
  induction calls generalizing o with
  | nil => simp
  | cons call calls ih =>
    rw [foldl_cons, ih, Call.isFree_apply, mem_cons, not_or, and_assoc]

lemma isLive_foldl (o : Occupancy) : (calls.foldl Call.apply o).isLive t p =
    (calls.reverse.findSome? (Call.state? t p)).getD (o.isLive t p) := by
  induction calls generalizing o with
  | nil => rfl
  | cons call calls ih =>
    rw [foldl_cons, ih, Call.isLive_apply, reverse_cons, findSome?_append, Option.getD_or,
      findSome?_singleton]

/-- The table is an unbounded timeline, whatever the order of the calls that made it. A qubit is
free in a tick unless it was taken there, and its state is that of the last call that set it from
this tick or an earlier one on. For every start that has a tick after it, the search gives the first
tick in which all qubits are free. -/
theorem timeline_of_calls (calls : List Call) :
    (∀ t q, (after calls).isFree t q = true ↔ Call.occupy t q ∉ calls) ∧
      (∀ t q, (after calls).isLive t q =
        (calls.reverse.findSome? (Call.state? t q)).getD false) ∧
      ∀ start qubits, start + 1 < Word.size →
        ∃ t, (after calls).earliestFree? start qubits = .ok t ∧ start ≤ t ∧
          (∀ q ∈ qubits, (after calls).isFree t q = true) ∧
          ∀ t', start ≤ t' → (∀ q ∈ qubits, (after calls).isFree t' q = true) → t ≤ t' := by
  have free_iff : ∀ t q, (after calls).isFree t q = true ↔ Call.occupy t q ∉ calls := by
    intro t q
    exact (isFree_foldl t q calls empty).trans (and_iff_right rfl)
  refine ⟨free_iff, fun t q => isLive_foldl t q calls empty, fun start qubits bound => ?_⟩
  refine ⟨_, if_pos bound, le_earliestFree .., fun q => isFree_earliestFree _ _ _, ?_⟩
  intro t' late free
  apply Nat.le_of_not_lt
  intro before
  have taken := not_allFree_of_lt_earliestFree _ _ t' qubits late before
  rw [allFree, all_eq_true.mpr free] at taken
  contradiction

/-- A qubit that is given a state after it was said to lose it later. -/
def backwards : List Call := [.setLive 3 ⟨[0]⟩ false, .occupy 1 ⟨[0]⟩, .setLive 1 ⟨[0]⟩ true]

theorem timeline_of_calls_backwards : (after backwards).isLive 5 ⟨[0]⟩ = true ∧
    ∃ t, (after backwards).earliestFree? 1 [⟨[0]⟩] = .ok t ∧ 1 ≤ t ∧
      (∀ q ∈ [⟨[0]⟩], (after backwards).isFree t q = true) ∧
      ∀ t', 1 ≤ t' → (∀ q ∈ [⟨[0]⟩], (after backwards).isFree t' q = true) → t ≤ t' := by
  obtain ⟨_, state, search⟩ := timeline_of_calls backwards
  exact ⟨state 5 ⟨[0]⟩, search 1 [⟨[0]⟩] (by decide)⟩

/-- A search from the last tick that a word holds fails, though it is free. -/
theorem earliestFree?_of_last_word :
    ¬ ∃ t, (after []).earliestFree? (Word.size - 1) [] = .ok t := by
  rintro ⟨t, found⟩
  rw [earliestFree?, if_neg (by decide)] at found
  contradiction

end SyndromeSchedule.Occupancy
