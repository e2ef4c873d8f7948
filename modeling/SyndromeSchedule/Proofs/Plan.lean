import Mathlib.Data.Option.Defs
import Mathlib.Data.List.Perm.Basic
import SyndromeSchedule.Extraction.Plan
import SyndromeSchedule.Proofs.Code
import SyndromeSchedule.Proofs.Outcome

/-!
Plans meet every member of their check once. An order of members puts each of them into one slot and
leaves the other slots idle, and a plan has one step per slot, which joins the ancilla with the
member of the slot.
-/

namespace SyndromeSchedule

open List Outcome

def Gate.isUnitary (gate : Gate) : Bool := !gate.isMeasurement && !gate.isReset

lemma Gate.isMeasurement_of_isUnitary {gate : Gate} (h : gate.isUnitary = true) :
    gate.isMeasurement = false := by
  cases gate <;> first | rfl | cases h

/-- An interaction without measurement or reset. -/
structure Interaction.Unitary (i : Interaction) : Prop where
  gate : i.gate.isUnitary = true
  before : ∀ g ∈ i.before, g.isUnitary = true
  after : ∀ g ∈ i.after, g.isUnitary = true

lemma filterMap_set_perm {α : Type} {filled : List (Option α)} {n : Nat}
    (free : filled[n]? = some none) (a : α) :
    ((filled.set n (some a)).filterMap id).Perm (a :: filled.filterMap id) := by
  obtain ⟨inside, at_n⟩ := List.getElem?_eq_some_iff.mp free
  have split : filled = filled.take n ++ none :: filled.drop (n + 1) := by
    rw [← at_n]
    simp
  have changed : filled.set n (some a) = filled.take n ++ some a :: filled.drop (n + 1) :=
    set_eq_take_append_cons_drop .. |>.trans (if_pos inside)
  rw [changed]
  conv_rhs => rw [split]
  simp only [filterMap_append, filterMap_cons_some (show id (some a) = some a from rfl),
    filterMap_cons_none (show id (none : Option α) = none from rfl)]
  exact perm_middle

lemma Check.pureLetter?_eq_some_iff {check : Check} {letter : Pauli} :
    check.pureLetter? = some letter ↔ ∀ m ∈ check.members, m.operator.letter = letter := by
  unfold pureLetter? word
  cases members : check.members with
  | nil => exact absurd members check.members_ne_nil
  | cons first rest =>
    simp only [map_cons, all_map, all_eq_true, Function.comp_apply, decide_eq_true_eq,
      Option.ite_none_right_eq_some, Option.some.injEq, forall_mem_cons]
    constructor
    · rintro ⟨same, rfl⟩
      exact ⟨rfl, same⟩
    · rintro ⟨rfl, same⟩
      exact ⟨same, rfl⟩

namespace Order

/-- The slot into which an order puts a member, if it looks at offsets. -/
def Puts : Order → Member → Nat → Prop
  | declared, _, _ => True
  | rotated slots, m, n => slot? slots m.operator.letter m.offset = some n

lemma slot?_lt {slots : List Slot} {letter : Pauli} {offset : Coordinates} {n : Nat}
    (h : slot? slots letter offset = some n) : n < slotCount slots letter := by
  obtain ⟨s, found, rfl⟩ := Option.map_eq_some_iff.mp h
  have alike := find?_some found
  simp only [Bool.and_eq_true, decide_eq_true_eq] at alike
  have mem : s.slot + 1 ∈ (slots.filter (·.letter = letter)).map (·.slot + 1) :=
    mem_map.mpr ⟨s, mem_filter.mpr ⟨mem_of_find?_eq_some found, by simpa using alike.1⟩, rfl⟩
  exact (foldl_max_spec _ 0).2.1 _ mem

lemma place_meets {slots : List Slot} {letter : Pauli} {check : Check}
    {filled : List (Option Member)} (length : filled.length = slotCount slots letter) (m : Member) :
    (place slots letter check filled m).Meets Halt.IsExpected fun next =>
      next.length = slotCount slots letter ∧ (next.filterMap id).Perm (m :: filled.filterMap id) ∧
        ∀ k a, next[k]? = some (some a) →
          filled[k]? = some (some a) ∨ slot? slots letter a.offset = some k := by
  simp only [place]
  split
  · exact meets_extraction
  · next n found =>
      have inside : n < filled.length := by
        rw [length]
        exact slot?_lt found
      rw [getElem?_eq_getElem inside]
      cases at_n : filled[n] with
      | none =>
        refine meets_ok ⟨by simpa using length, filterMap_set_perm ?_ m, ?_⟩
        · rw [getElem?_eq_getElem inside, at_n]
        · intro k a put
          rw [getElem?_set] at put
          split_ifs at put with here
          · simp only [Option.some.injEq] at put
            rw [← put, ← here]
            exact .inr found
          · exact .inl put
      | some other => exact meets_extraction

lemma arrange_meets (slots : List Slot) (letter : Pauli) (check : Check) :
    (arrange slots letter check).Meets Halt.IsExpected fun filled =>
      filled.length = slotCount slots letter ∧ (filled.filterMap id).Perm check.members ∧
        ∀ k a, filled[k]? = some (some a) → slot? slots letter a.offset = some k := by
  simp only [arrange]
  split_ifs
  · exact .inr (.inr rfl)
  · refine (Outcome.Meets.foldlM (fun rest filled => filled.length = slotCount slots letter ∧
      (filled.filterMap id ++ rest).Perm check.members ∧
      ∀ k a, filled[k]? = some (some a) → slot? slots letter a.offset = some k) ?_ _ _
      ⟨by simp, by simp, fun k a put => ?_⟩).imp ?_
    · rintro m rest filled ⟨length, perm, known⟩
      refine (place_meets length m).imp ?_
      rintro next ⟨length', perm', put⟩
      refine ⟨length', (perm'.append_right rest).trans ?_, fun k a here => ?_⟩
      · exact perm_middle.symm.trans perm
      · exact (put k a here).elim (known k a) id
    · rw [getElem?_replicate] at put
      split_ifs at put
      cases Option.some.inj put
    · rintro filled ⟨length, perm, put⟩
      exact ⟨length, by simpa using perm, put⟩

lemma members_meets (order : Order) (check : Check) :
    (order.members check).Meets Halt.IsExpected fun slots =>
      (slots.filterMap id).Perm check.members ∧
        ∀ k m, slots[k]? = some (some m) → order.Puts m k := by
  cases order with
  | declared => exact meets_ok ⟨by simp, fun _ _ _ => trivial⟩
  | rotated slots =>
    have table : ∀ letter, check.pureLetter? = some letter →
        (arrange slots letter check).Meets Halt.IsExpected fun filled =>
          (filled.filterMap id).Perm check.members ∧
            ∀ k m, filled[k]? = some (some m) → (rotated slots).Puts m k := by
      intro letter pure
      refine (arrange_meets slots letter check).imp fun filled ⟨_, perm, put⟩ => ⟨perm, ?_⟩
      intro k m here
      have mem := perm.mem_iff.mp (mem_filterMap.mpr ⟨_, mem_of_getElem? here, rfl⟩)
      rw [Puts, Check.pureLetter?_eq_some_iff.mp pure m mem]
      exact put k m here
    simp only [members]
    split
    · next pure => exact table .X pure
    · next pure => exact table .Z pure
    · exact meets_extraction

end Order

namespace Extractor

variable {plan : Plan} {m : Member} {i : Interaction} {check : Check}

/-- How an interaction joins the ancilla of a plan with a member. -/
inductive Joins : Plan → Member → Interaction → Prop where
  | controlled {steps : List (Option Interaction)} {m : Member} {gate : Gate}
      (found : Gate.controlled m.operator.letter = .ok gate) :
      Joins ⟨.plus, .X, steps⟩ m ⟨m.qubit, gate, true, none, none⟩
  | pureX {steps : List (Option Interaction)} {m : Member} (letter : m.operator.letter = .X) :
      Joins ⟨.plus, .X, steps⟩ m ⟨m.qubit, .CX, true, none, none⟩
  | pureZ {steps : List (Option Interaction)} {m : Member} (letter : m.operator.letter = .Z) :
      Joins ⟨.zero, .Z, steps⟩ m ⟨m.qubit, .CX, false, none, none⟩
  | rotated {steps : List (Option Interaction)} {m : Member} :
      Joins ⟨.zero, .Z, steps⟩ m
        ⟨m.qubit, .CX, false, rotation m.operator.letter, rotation m.operator.letter⟩

/-- A plan has a step for each slot, idle if the slot is, and each member of the check in one
slot. -/
def Follows (plan : Plan) (check : Check) : Prop :=
  ∃ slots : List (Option Member), (slots.filterMap id).Perm check.members ∧
    Forall₂ (Option.Rel (Joins plan)) slots plan.steps

lemma Joins.data (h : Joins plan m i) : i.data = m.qubit := by
  cases h <;> rfl

lemma Joins.unitary (h : Joins plan m i) : i.Unitary := by
  have turn : ∀ letter, ∀ g ∈ rotation letter, g.isUnitary = true := by
    intro letter g found
    cases letter <;> cases found <;> rfl
  cases h with
  | controlled found =>
    refine ⟨?_, by simp, by simp⟩
    cases letter : m.operator.letter <;> rw [letter] at found <;> cases found <;> rfl
  | pureX | pureZ => exact ⟨rfl, by simp, by simp⟩
  | rotated => exact ⟨rfl, turn _, turn _⟩

lemma Follows.joins (h : Follows plan check) (step : some i ∈ plan.steps) :
    ∃ m ∈ check.members, Joins plan m i := by
  obtain ⟨slots, perm, related⟩ := h
  obtain ⟨slot, mem, rel⟩ := exists_left_of_forall₂ related step
  cases rel with
  | some joins =>
    exact ⟨_, perm.mem_iff.mp (mem_filterMap.mpr ⟨_, mem, rfl⟩), joins⟩

lemma Follows.steps_ne_nil (h : Follows plan check) : plan.steps ≠ [] := by
  obtain ⟨slots, perm, related⟩ := h
  intro none
  rw [none] at related
  cases related
  exact check.members_ne_nil (nil_perm.mp perm)

lemma forall₂_map_step {slots : List (Option Member)} {step : Option Member → Option Interaction}
    (joins : ∀ slot ∈ slots, Option.Rel (Joins plan) slot (step slot)) :
    Forall₂ (Option.Rel (Joins plan)) slots (slots.map step) := by
  rwa [forall₂_map_right_iff, forall₂_same]

lemma controlStep_joins (steps : List (Option Interaction)) {slot : Option Member}
    {step : Option Interaction} (h : controlStep slot = .ok step) :
    Option.Rel (Joins ⟨.plus, .X, steps⟩) slot step := by
  cases slot with
  | none =>
    cases h
    exact .none
  | some m =>
    obtain ⟨gate, found, h⟩ := of_bind h
    cases h
    exact .some (.controlled found)

/-- A plan has one interaction for each member of its check, in the slot the order puts it in. -/
lemma plan_meets (e : Extractor) (check : Check) :
    (e.plan check).Meets Halt.IsExpected fun plan =>
      (∃ slots : List (Option Member), (∀ k m, slots[k]? = some (some m) → e.order.Puts m k) ∧
        (slots.filterMap id).Perm check.members ∧
        Forall₂ (Option.Rel (Joins plan)) slots plan.steps) ∧
      (plan.ancillaState = .plus ∧ plan.basis = .X ∨
        plan.ancillaState = .zero ∧ plan.basis = .Z) := by
  refine (e.order.members_meets check).bind fun slots ⟨perm, put⟩ => ?_
  have known : ∀ m, some m ∈ slots → m ∈ check.members := by
    intro m mem
    exact perm.mem_iff.mp (mem_filterMap.mpr ⟨some m, mem, rfl⟩)
  cases e.style with
  | controlledPauli =>
    cases steps : slots.mapM controlStep with
    | error cause => exact meets_extraction
    | ok found =>
      refine meets_ok ⟨⟨slots, put, perm, ?_⟩, .inl ⟨rfl, rfl⟩⟩
      exact (mapM_eq_ok.mp steps).imp fun _ _ => controlStep_joins found
  | pureCnot =>
    dsimp only
    split
    · next pure_x =>
        refine meets_ok ⟨⟨slots, put, perm, forall₂_map_step fun slot mem => ?_⟩, .inl ⟨rfl, rfl⟩⟩
        cases slot with
        | none => exact .none
        | some m => exact .some (.pureX (Check.pureLetter?_eq_some_iff.mp pure_x m (known m mem)))
    · next pure_z =>
        refine meets_ok ⟨⟨slots, put, perm, forall₂_map_step fun slot mem => ?_⟩, .inr ⟨rfl, rfl⟩⟩
        cases slot with
        | none => exact .none
        | some m => exact .some (.pureZ (Check.pureLetter?_eq_some_iff.mp pure_z m (known m mem)))
    · exact meets_extraction
  | rotatedCnot =>
    refine meets_ok ⟨⟨slots, put, perm, forall₂_map_step fun slot _ => ?_⟩, .inr ⟨rfl, rfl⟩⟩
    cases slot with
    | none => exact .none
    | some m => exact .some .rotated

end Extractor

end SyndromeSchedule
