import SyndromeSchedule.Proofs.Labels
import SyndromeSchedule.Proofs.Safety

/-!
Detectors refer to the right outcomes. With its blocks written out, a program measures every check
in every round in which it is scheduled, and nothing else but the data qubits at the end; its
detectors are those of the schedule that the initial state does not rule out, and each of them
refers to its own outcomes.
-/

namespace SyndromeSchedule

open List

/-! Copies of labels, each some periods after the first. -/

/-- Labels of the first periods, if those of the first are given. -/
def copies (period : Nat) (first : List (Check × Nat)) (n : Nat) : List (Check × Nat) :=
  (List.range n).flatMap fun j => first.map (postpone (j * period))

section Copies

variable {period : Nat} {first last : List (Check × Nat)}

lemma length_copies (period : Nat) (first : List (Check × Nat)) (n : Nat) :
    (copies period first n).length = n * first.length := by
  induction n with
  | zero => simp [copies]
  | succ n ih =>
    have step : copies period first (n + 1) =
        copies period first n ++ first.map (postpone (n * period)) := by
      simp [copies, range_succ]
    rw [step, length_append, ih, length_map, Nat.succ_mul]

lemma copies_add (period : Nat) (first : List (Check × Nat)) (m n : Nat) :
    copies period first (m + n) =
      copies period first m ++ (copies period first n).map (postpone (m * period)) := by
  rw [copies, range_add, flatMap_append, flatMap_map, copies, copies, map_flatMap]
  congr 1
  refine flatMap_congr fun j _ => ?_
  rw [map_map]
  refine map_congr_left fun e _ => ?_
  rw [Function.comp, postpone_postpone, ← Nat.add_mul, Nat.add_comm]

lemma copies_one (period : Nat) (first : List (Check × Nat)) : copies period first 1 = first := by
  simp [copies]

lemma copies_two (period : Nat) (first : List (Check × Nat)) :
    copies period first 2 = first ++ first.map (postpone period) := by
  simp [copies, range_succ]

/-- The labels of a program whose block is written out a number of times and once more. -/
def unfolded (period : Nat) (first last : List (Check × Nat)) (n : Nat) : List (Check × Nat) :=
  copies period first n ++ (copies period first 2 ++ last).map (postpone (n * period))

lemma unfolded_eq (period : Nat) (first last : List (Check × Nat)) (n : Nat) :
    unfolded period first last n =
      copies period first (n + 2) ++ last.map (postpone (n * period)) := by
  rw [unfolded, map_append, ← append_assoc, ← copies_add]

lemma getElem_unfolded {n j i : Nat} (le : j ≤ n) {e : Check × Nat}
    (found : (first ++ first.map (postpone period))[i]? = some e) :
    (unfolded period first last n)[i + j * first.length]? = some (postpone (j * period) e) := by
  obtain ⟨rest, rfl⟩ := Nat.exists_eq_add_of_le le
  have inside : i < (copies period first 2).length := by
    rw [copies_two]
    exact lt_of_getElem? found
  have split : copies period first (j + rest + 2) = copies period first j ++
      (copies period first 2 ++ (copies period first rest).map (postpone (2 * period))).map
        (postpone (j * period)) := by
    rw [← copies_add, ← copies_add, Nat.add_assoc, Nat.add_comm rest 2]
  have here : i + j * first.length = (copies period first j).length + i := by
    rw [length_copies, Nat.add_comm]
  rw [unfolded_eq, split, append_assoc, here, getElem?_append_right (by omega),
    Nat.add_sub_cancel_left, map_append, append_assoc,
    getElem?_append_left (by rw [length_map]; exact inside), getElem?_map,
    copies_two, found]
  rfl

lemma getElem_unfolded_last {n i : Nat} {e : Check × Nat}
    (found : (first ++ first.map (postpone period) ++ last)[i]? = some e) :
    (unfolded period first last n)[i + n * first.length]? = some (postpone (n * period) e) := by
  have here : i + n * first.length = (copies period first n).length + i := by
    rw [length_copies, Nat.add_comm]
  rw [unfolded, here, getElem?_append_right (by omega), Nat.add_sub_cancel_left,
    getElem?_map, copies_two, found]
  rfl

lemma forall₂_unfolded {β : Type} {R : Check × Nat → β → Prop} {one body rest : List β}
    (any : ∀ m e b, R e b → R (postpone m e) b) (h₁ : Forall₂ R first one)
    (h₂ : Forall₂ R (first.map (postpone period)) body) (h₃ : Forall₂ R last rest)
    (n : Nat) :
    Forall₂ R (unfolded period first last n)
      (one ++ (List.replicate (n + 1) body).flatten ++ rest) := by
  have moved : ∀ {es : List (Check × Nat)} {bs : List β} (m : Nat), Forall₂ R es bs →
      Forall₂ R (es.map (postpone m)) bs := by
    intro es bs m h
    rw [forall₂_map_left_iff]
    exact h.imp fun e b => any m e b
  have blocks : ∀ k, Forall₂ R (copies period first (k + 1))
      (one ++ (replicate k body).flatten) := by
    intro k
    induction k with
    | zero => simpa [copies_one] using h₁
    | succ k ih =>
      have step : copies period first (k + 1 + 1) = copies period first (k + 1) ++
          (first.map (postpone period)).map (postpone (k * period)) := by
        rw [copies_add, copies_one, map_map]
        congr 1
        refine map_congr_left fun e _ => ?_
        rw [Function.comp, postpone_postpone, Nat.succ_mul, Nat.add_comm]
      rw [step, replicate_succ', flatten_append, flatten_singleton, ← append_assoc]
      exact rel_append ih (moved _ h₂)
  rw [unfolded_eq]
  exact rel_append (blocks (n + 1)) (moved _ h₃)

end Copies

namespace Store

open Instruction

variable {made : List (Check × Nat)} {keys : List (List Key)} {s : Store}

/-- Labels of the outcomes of a store with its block written out. -/
def labels (made : List (Check × Nat)) (period : Nat) (s : Store) : List (Check × Nat) :=
  match s.region with
  | none => labelsOf made (s.orderBelow s.size)
  | some region =>
    unfolded period (labelsOf made (s.orderBelow region.start))
      (labelsOf made (s.orderIn region.stop s.size)) (region.repetitions - 1)

lemma labels_flat (region : s.region = none) (period : Nat) :
    s.labels made period = labelsOf made (s.orderBelow s.size) := by
  simp only [labels, region]

/-- The labels of a store with a block whose labels are those before it, one period later: by their
places before, in and after the block. -/
structure Repeats (made : List (Check × Nat)) (period start stop n : Nat) (s : Store) : Prop where
  region : s.region = some ⟨start, stop, n + 1⟩
  ordered : start ≤ stop
  bounded : stop ≤ s.size
  same : labelsOf made (s.orderIn start stop) =
    (labelsOf made (s.orderBelow start)).map (postpone period)

lemma Account.length_labels (account : Account made keys s) (n : Nat) :
    (labelsOf made (s.orderBelow n)).length = (s.orderBelow n).length :=
  length_labelsOf fun _ inside => account.lt_length inside

section Repeats

variable {period start stop n i j : Nat} {e : Check × Nat}
  (h : s.Repeats made period start stop n)
include h

lemma Repeats.upTo : labelsOf made (s.orderBelow stop) = labelsOf made (s.orderBelow start) ++
      (labelsOf made (s.orderBelow start)).map (postpone period) := by
  rw [s.orderBelow_append h.ordered, labelsOf_append, h.same]

lemma Repeats.labels_eq :
    s.labels made period = unfolded period (labelsOf made (s.orderBelow start))
      (labelsOf made (s.orderIn stop s.size)) n := by
  simp [labels, h.region]

variable (account : Account made keys s)
include account

lemma Repeats.even : (s.orderIn start stop).length = (s.orderBelow start).length := by
  have first := account.length_labels start
  have both := account.length_labels stop
  rw [h.upTo, length_append, length_map, s.orderBelow_append h.ordered, length_append] at both
  omega

lemma Repeats.annotations_body :
    annotations 0 (unrollAll s.bodyInstructions) = annotations 0 (s.stretch 0 start) ++
      ((List.range (n + 1)).flatMap fun j =>
        annotations ((s.orderBelow start).length + j * (s.orderBelow start).length)
          (s.stretch start stop)) ++
      annotations ((s.orderBelow stop).length + n * (s.orderBelow start).length)
        (s.stretch stop s.size) := by
  have even := h.even account
  have first : (outcomesOf (s.stretch 0 start)).length = (s.orderBelow start).length := by
    rw [account.sound.length_outcomes]
    exact congrArg length (s.orderBelow_append (Nat.zero_le start)).symm
  have block : (outcomesOf (s.stretch start stop)).length = (s.orderBelow start).length := by
    rw [account.sound.length_outcomes, even]
  have after : (outcomesOf (s.stretch 0 start ++
      (replicate (n + 1) (s.stretch start stop)).flatten)).length =
      (s.orderBelow stop).length + n * (s.orderBelow start).length := by
    have repeated : (replicate (n + 1) (outcomesOf (s.stretch start stop))).flatten.length =
        (n + 1) * (s.orderBelow start).length := by
      simp [block]
    rw [outcomesOf_append, outcomesOf_replicate, length_append, repeated, first,
      s.orderBelow_append h.ordered, length_append, even, Nat.succ_mul]
    omega
  rw [unrollAll_body, h.region, annotations_append, annotations_append, annotations_replicate,
    after, first, block, Nat.zero_add, Nat.zero_add]

lemma Repeats.getElem_middle (le : j ≤ n)
    (here : (labelsOf made (s.orderBelow stop))[i]? = some e) :
    (s.labels made period)[i + j * (s.orderBelow start).length]? =
      some (postpone (j * period) e) := by
  rw [h.upTo] at here
  rw [h.labels_eq, ← account.length_labels]
  exact getElem_unfolded le here

lemma Repeats.getElem_first (here : (labelsOf made (s.orderBelow start))[i]? = some e) :
    (s.labels made period)[i + 0]? = some (postpone 0 e) := by
  have inside := lt_of_getElem? here
  have middle := h.getElem_middle account (i := i) (e := e) (Nat.zero_le n)
    (by rw [h.upTo, getElem?_append_left inside]; exact here)
  simpa only [Nat.zero_mul] using middle

lemma Repeats.getElem_last (here : (labelsOf made (s.orderBelow s.size))[i]? = some e) :
    (s.labels made period)[i + n * (s.orderBelow start).length]? =
      some (postpone (n * period) e) := by
  rw [s.orderBelow_append h.bounded, labelsOf_append, h.upTo] at here
  rw [h.labels_eq, ← account.length_labels]
  exact getElem_unfolded_last here

end Repeats

lemma Account.reading_flat (account : Account made keys s)
    (words : ∀ e ∈ made, e.2 < Word.half) (region : s.region = none) (period : Nat) :
    Forall₂ (fun e outcome => e.1.MeasuredAs s.qubits outcome)
        (s.labels made period) (outcomesOf (unrollAll s.bodyInstructions)) ∧
      ∃ found : List (List Key), found.Perm (keys.filter (· ≠ [])) ∧
        Forall₂ (Reads (s.labels made period)) found
          ((readings 0 (unrollAll s.bodyInstructions)).filter (· ≠ [])) := by
  rw [labels_flat region]
  have body : unrollAll s.bodyInstructions = s.stretch 0 s.size := by
    rw [unrollAll_body, region]
  have whole : s.orderIn 0 s.size = s.orderBelow s.size :=
    (s.orderBelow_append (Nat.zero_le s.size)).symm
  have outcomes := account.outcomes_stretch 0 s.size
  rw [whole] at outcomes
  have inside : ∀ k e, s.record.Refers k e → k ≠ [] →
      ((fun _ => true : List Key → Bool) k = true ↔ 0 ≤ e.1 ∧ e.1 < s.size) := by
    intro k e refers some_key
    obtain ⟨⟨_, _, _, entry⟩, _⟩ := refers.attained some_key
    have below := account.sound.tick_lt_size entry
    simp [below]
  obtain ⟨found, same, reads⟩ := account.readings_stretch words (Nat.zero_le s.size) _ inside
    (labelsOf made (s.orderBelow s.size)) 0 0 fun i e here => here
  rw [body]
  refine ⟨outcomes, found, ?_, ?_⟩
  · simpa using same
  · simpa [orderBelow] using reads

/-- Outcomes and detectors of a store with a region whose labels are those of the ticks before it,
one period later. The detectors before, in and after the region are told apart by their keys. -/
theorem Account.reading_folded (account : Account made keys s)
    (words : ∀ e ∈ made, e.2 < Word.half) {start stop n period : Nat}
    (repeats : s.Repeats made period start stop n) {early middle late : List Key → Bool}
    (places : ∀ k e, s.record.Refers k e → k ≠ [] →
      (early k = true ↔ e.1 < start) ∧ (middle k = true ↔ start ≤ e.1 ∧ e.1 < stop) ∧
        (late k = true ↔ stop ≤ e.1)) :
    Forall₂ (fun e outcome => e.1.MeasuredAs s.qubits outcome) (s.labels made period)
        (outcomesOf (unrollAll s.bodyInstructions)) ∧
      ∃ found : List (List Key), found.Perm ((keys.filter fun k => k ≠ [] && early k) ++
          ((List.range (n + 1)).flatMap fun j =>
            (keys.filter fun k => k ≠ [] && middle k).map (List.map (Key.later (j * period)))) ++
          (keys.filter fun k => k ≠ [] && late k).map (List.map (Key.later (n * period)))) ∧
        Forall₂ (Reads (s.labels made period)) found
          ((readings 0 (unrollAll s.bodyInstructions)).filter (· ≠ [])) := by
  obtain ⟨found₁, same₁, reads₁⟩ := account.readings_stretch words (Nat.zero_le start) early
    (fun k e refers some_key => by simpa using (places k e refers some_key).1)
    (s.labels made period) 0 0 fun i e => repeats.getElem_first account
  have blocks : ∀ j, ∃ found : List (List Key), j ≤ n →
      found.Perm (keys.filter fun k => k ≠ [] && middle k) ∧
        Forall₂ (Reads (s.labels made period)) (found.map (map (Key.later (j * period))))
          ((readings ((s.orderBelow start).length + j * (s.orderBelow start).length)
            (s.stretch start stop)).filter (· ≠ [])) := by
    intro j
    by_cases copy : j ≤ n
    · obtain ⟨found, rest⟩ := account.readings_stretch words repeats.ordered middle
        (fun k e refers some_key => (places k e refers some_key).2.1) (s.labels made period)
        (j * (s.orderBelow start).length) (j * period)
        fun i e => repeats.getElem_middle account copy
      exact ⟨found, fun _ => rest⟩
    · exact ⟨[], fun le => absurd le copy⟩
  choose found₂ block using blocks
  obtain ⟨found₃, same₃, reads₃⟩ := account.readings_stretch words repeats.bounded late
    (fun k e refers some_key => by
      obtain ⟨⟨_, _, _, entry⟩, _⟩ := refers.attained some_key
      have below := account.sound.tick_lt_size entry
      simpa [below] using (places k e refers some_key).2.2) (s.labels made period)
    (n * (s.orderBelow start).length) (n * period) fun i e => repeats.getElem_last account
  refine ⟨?_, found₁ ++ ((range (n + 1)).flatMap fun j =>
    (found₂ j).map (map (Key.later (j * period)))) ++
      found₃.map (map (Key.later (n * period))), ?_, ?_⟩
  · have before : s.orderIn 0 start = s.orderBelow start :=
      (s.orderBelow_append (Nat.zero_le start)).symm
    have outcomes₁ := account.outcomes_stretch 0 start
    have outcomes₂ := account.outcomes_stretch start stop
    have outcomes₃ := account.outcomes_stretch stop s.size
    rw [before] at outcomes₁
    rw [repeats.same] at outcomes₂
    rw [unrollAll_body, repeats.region, repeats.labels_eq]
    simp only [outcomesOf_append, outcomesOf_replicate]
    exact forall₂_unfolded (fun _ _ _ h => h) outcomes₁ outcomes₂ outcomes₃ n
  · refine (same₁.append (List.Perm.flatMap_left _ fun j mem => ?_)).append (same₃.map _)
    exact (block j (Nat.le_of_lt_succ (mem_range.mp mem))).1.map _
  · rw [readings_eq, repeats.annotations_body account]
    simp only [filterMap_append, filterMap_flatMap, ← readings_eq, filter_append, filter_flatMap]
    refine rel_append (rel_append ?_ ?_) reads₃
    · simpa [orderBelow] using reads₁
    · refine forall₂_flatMap fun j mem => ?_
      exact (block j (Nat.le_of_lt_succ (mem_range.mp mem))).2

end Store

end SyndromeSchedule
