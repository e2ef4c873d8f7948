import SyndromeSchedule.Proofs.Plan

/-!
Orders and plans neither lose nor repeat a member. A table of slots is searched twice: the first
entry that fits a member gives its slot, and the largest entry of the letter gives the number of
slots, so every slot that is found is there. A member is lost only with the whole order: if its
offset is not in the table or another member has its slot.
-/

namespace SyndromeSchedule

open List Outcome

namespace Order

variable {slots : List Slot} {letter : Pauli} {check : Check} {filled next : List (Option Member)}

lemma isSome_slot?_iff {offset : Coordinates} : (slot? slots letter offset).isSome = true ↔
    ∃ s ∈ slots, s.letter = letter ∧ s.offset = offset := by
  simp [slot?, find?_isSome]

lemma slotCount_spec (slots : List Slot) (letter : Pauli) :
    (∀ s ∈ slots, s.letter = letter → s.slot < slotCount slots letter) ∧
      (slotCount slots letter = 0 ∨
        ∃ s ∈ slots, s.letter = letter ∧ slotCount slots letter = s.slot + 1) := by
  obtain ⟨_, above, attained⟩ :=
    foldl_max_spec ((slots.filter (·.letter = letter)).map (·.slot + 1)) 0
  refine ⟨fun s mem same => ?_, attained.imp id fun attained => ?_⟩
  · exact above _ (mem_map_of_mem (mem_filter.mpr ⟨mem, by simpa using same⟩))
  · obtain ⟨s, mem, size⟩ := mem_map.mp attained
    obtain ⟨mem, same⟩ := mem_filter.mp mem
    exact ⟨s, mem, by simpa using same, size.symm⟩

lemma slotCount_lt_iff {n : Nat} (pos : 0 < n) : slotCount slots letter < n ↔
    ∀ s ∈ slots, s.letter = letter → s.slot + 1 < n := by
  obtain ⟨below, attained⟩ := slotCount_spec slots letter
  constructor
  · intro fits s mem same
    exact Nat.lt_of_le_of_lt (below s mem same) fits
  · intro all
    rcases attained with none | ⟨s, mem, same, size⟩
    · rwa [none]
    · rw [size]
      exact all s mem same

lemma place_eq_ok {m : Member} : place slots letter check filled m = .ok next ↔
    ∃ n, slot? slots letter m.offset = some n ∧ filled[n]? = some none ∧
      next = filled.set n (some m) := by
  simp only [place]
  cases slot? slots letter m.offset with
  | none => simp [fail]
  | some n =>
    rcases at_n : filled[n]? with _ | _ | _
    · simp [outside, at_n]
    · simp [at_n, eq_comm]
    · simp [fail, at_n]

/-- Members are placed if they find their slots free, each a slot of its own. -/
theorem foldlM_place_eq_ok (members : List Member) :
    (∃ next, members.foldlM (place slots letter check) filled = .ok next) ↔
      (∀ m ∈ members, ∃ n, slot? slots letter m.offset = some n ∧ filled[n]? = some none) ∧
        members.Pairwise fun m m' =>
          slot? slots letter m.offset ≠ slot? slots letter m'.offset := by
  induction members generalizing filled with
  | nil => simp [pure, Except.pure]
  | cons m rest ih =>
    simp only [foldlM_cons_eq_ok, exists_comm (β := List (Option Member)), exists_and_left, ih,
      place_eq_ok, forall_mem_cons, pairwise_cons]
    constructor
    · rintro ⟨mid, ⟨n, found, free, rfl⟩, others, apart⟩
      refine ⟨⟨⟨n, found, free⟩, fun m' mem => ?_⟩, fun m' mem same => ?_, apart⟩
      · obtain ⟨k, found', free'⟩ := others m' mem
        rw [getElem?_set] at free'
        split_ifs at free' with here
        · cases Option.some.inj free'
        · exact ⟨k, found', free'⟩
      · obtain ⟨k, found', free'⟩ := others m' mem
        obtain rfl : n = k := Option.some.inj (found.symm.trans (same.trans found'))
        rw [getElem?_set_self (lt_of_getElem? free)] at free'
        cases Option.some.inj free'
    · rintro ⟨⟨⟨n, found, free⟩, others⟩, own, apart⟩
      refine ⟨_, ⟨n, found, free, rfl⟩, fun m' mem => ?_, apart⟩
      obtain ⟨k, found', free'⟩ := others m' mem
      have different : n ≠ k := by
        rintro rfl
        exact own m' mem (found.trans found'.symm)
      exact ⟨k, found', by rwa [getElem?_set_ne different]⟩

/-- A table has, for every member of a check of one letter, a slot of its own, and there is room for
all slots of the letter. -/
structure Fits (slots : List Slot) (letter : Pauli) (check : Check) : Prop where
  letters : ∀ m ∈ check.members, m.operator.letter = letter
  basis : letter = .X ∨ letter = .Z
  listed : ∀ m ∈ check.members, ∃ s ∈ slots, s.letter = letter ∧ s.offset = m.offset
  apart : check.members.Pairwise fun m m' =>
    slot? slots letter m.offset ≠ slot? slots letter m'.offset
  room : ∀ s ∈ slots, s.letter = letter → s.slot + 1 < maxSlots

lemma arrange_eq_ok : (∃ filled, arrange slots letter check = .ok filled) ↔
    slotCount slots letter < maxSlots ∧
      (∀ m ∈ check.members, ∃ s ∈ slots, s.letter = letter ∧ s.offset = m.offset) ∧
      check.members.Pairwise fun m m' =>
        slot? slots letter m.offset ≠ slot? slots letter m'.offset := by
  simp only [arrange]
  split_ifs with full
  · simp [overflow, Nat.not_lt.mpr full]
  · rw [foldlM_place_eq_ok, and_iff_right (Nat.lt_of_not_le full)]
    refine and_congr_left fun _ => forall₂_congr fun m _ => ?_
    rw [← isSome_slot?_iff, Option.isSome_iff_exists]
    refine exists_congr fun n => and_iff_left_of_imp fun found => ?_
    simp [slot?_lt found]

lemma members_rotated (slots : List Slot) (check : Check) :
    (∃ letter, (letter = .X ∨ letter = .Z) ∧ check.pureLetter? = some letter ∧
      (rotated slots).members check = arrange slots letter check) ∨
    (∀ letter, check.pureLetter? = some letter → ¬(letter = .X ∨ letter = .Z)) ∧
      (rotated slots).members check = .fail (.extraction (.mixedOrder check.word)) := by
  simp only [members]
  split
  · next pure => exact .inl ⟨.X, .inl rfl, pure, rfl⟩
  · next pure => exact .inl ⟨.Z, .inr rfl, pure, rfl⟩
  · next not_x not_z =>
    refine .inr ⟨fun letter pure basis => ?_, rfl⟩
    rcases basis with rfl | rfl
    · exact not_x pure
    · exact not_z pure

lemma rotated_eq_ok : (∃ filled, (rotated slots).members check = .ok filled) ↔
    ∃ letter, Fits slots letter check := by
  have some_slots : 0 < maxSlots := by decide
  constructor
  · rintro ⟨filled, ordered⟩
    rcases members_rotated slots check with ⟨letter, basis, pure, same⟩ | ⟨_, fails⟩
    · obtain ⟨room, listed, apart⟩ := arrange_eq_ok.mp ⟨filled, same ▸ ordered⟩
      exact ⟨letter, Check.pureLetter?_eq_some_iff.mp pure, basis, listed, apart,
        (slotCount_lt_iff some_slots).mp room⟩
    · cases fails.symm.trans ordered
  · rintro ⟨letter, fits⟩
    have pure := Check.pureLetter?_eq_some_iff.mpr fits.letters
    rcases members_rotated slots check with ⟨letter', _, pure', same⟩ | ⟨mixed, _⟩
    · obtain rfl : letter = letter' := Option.some.inj (pure.symm.trans pure')
      rw [same]
      exact arrange_eq_ok.mpr ⟨(slotCount_lt_iff some_slots).mpr fits.room, fits.listed, fits.apart⟩
    · exact absurd fits.basis (mixed letter pure)

lemma Fits.holds (fits : Fits slots letter check)
    (ordered : (rotated slots).members check = .ok filled) :
    filled.length = slotCount slots letter ∧ (filled.filterMap id).Perm check.members ∧
      ∀ k m, filled[k]? = some (some m) ↔
        m ∈ check.members ∧ slot? slots letter m.offset = some k := by
  have pure := Check.pureLetter?_eq_some_iff.mpr fits.letters
  rcases members_rotated slots check with ⟨letter', _, pure', same⟩ | ⟨_, fails⟩
  · obtain rfl : letter = letter' := Option.some.inj (pure.symm.trans pure')
    obtain ⟨length, perm, put⟩ := (arrange_meets slots letter check).of_ok (same.symm.trans ordered)
    refine ⟨length, perm, fun k m => ⟨fun here => ?_, fun ⟨mem, found⟩ => ?_⟩⟩
    · exact ⟨perm.mem_iff.mp (mem_filterMap.mpr ⟨_, mem_of_getElem? here, rfl⟩), put k m here⟩
    · obtain ⟨_, inside, rfl⟩ := mem_filterMap.mp (perm.mem_iff.mpr mem)
      obtain ⟨j, here⟩ := mem_iff_getElem?.mp inside
      obtain rfl : j = k := Option.some.inj ((put j m here).symm.trans found)
      exact here
  · cases fails.symm.trans ordered

/-- The number of slots is one more than the largest slot of the letter. -/
theorem Fits.count (fits : Fits slots letter check) :
    (∃ s ∈ slots, s.letter = letter ∧ slotCount slots letter = s.slot + 1) ∧
      ∀ s ∈ slots, s.letter = letter → s.slot < slotCount slots letter := by
  obtain ⟨below, attained⟩ := slotCount_spec slots letter
  refine ⟨attained.resolve_left fun none => ?_, below⟩
  -- a check has members, and each of them has an entry
  obtain ⟨m, mem⟩ := exists_mem_of_ne_nil _ check.members_ne_nil
  obtain ⟨s, listed, same, _⟩ := fits.listed m mem
  have := below s listed same
  omega

end Order

namespace Extractor

variable {slots : List (Option Member)}

lemma mapM_controlStep (letters : ∀ m, some m ∈ slots → m.operator.letter ≠ .I) :
    ∃ steps, slots.mapM controlStep = .ok steps ∧
      steps.map (Option.map (·.data)) = slots.map (Option.map (·.qubit)) := by
  induction slots with
  | nil => exact ⟨[], rfl, rfl⟩
  | cons slot rest ih =>
    obtain ⟨steps, all, same⟩ := ih fun m mem => letters m (.tail _ mem)
    obtain ⟨step, first, data⟩ : ∃ step, controlStep slot = .ok step ∧
        step.map (·.data) = slot.map (·.qubit) := by
      cases slot with
      | none => exact ⟨none, rfl, rfl⟩
      | some m =>
        have letter := letters m (.head _)
        simp only [controlStep]
        cases known : m.operator.letter with
        | I => contradiction
        | X | Y | Z => exact ⟨_, rfl, rfl⟩
    refine ⟨step :: steps, ?_, by rw [map_cons, map_cons, data, same]⟩
    rw [mapM_cons, first, all]
    rfl

/-- With its members in order, a check can be planned, unless it is of mixed letters and the gates
are of one kind. -/
theorem plan_cases {e : Extractor} {check : Check} (ordered : e.order.members check = .ok slots) :
    (∃ plan, e.plan check = .ok plan ∧
      plan.steps.map (Option.map (·.data)) = slots.map (Option.map (·.qubit))) ∧
        (e.style = .pureCnot → check.pureLetter? = some .X ∨ check.pureLetter? = some .Z) ∨
    e.plan check = .fail (.extraction (.mixedWord check.word)) ∧ e.style = .pureCnot ∧
      ¬(check.pureLetter? = some .X ∨ check.pureLetter? = some .Z) := by
  have perm := ((e.order.members_meets check).of_ok ordered).1
  have planned : e.plan check = _ := congrArg (· >>= _) ordered
  have data : ∀ {step : Option Member → Option Interaction},
      (∀ slot, (step slot).map (·.data) = slot.map (·.qubit)) →
      (slots.map step).map (Option.map (·.data)) = slots.map (Option.map (·.qubit)) := by
    intro step same
    rw [map_map]
    exact map_congr_left fun slot _ => same slot
  rw [planned]
  simp only [bind, Except.bind]
  cases style : e.style with
  | controlledPauli =>
    obtain ⟨steps, all, same⟩ := mapM_controlStep fun m mem =>
      check.letter_ne_I (perm.mem_iff.mp (mem_filterMap.mpr ⟨some m, mem, rfl⟩))
    simp only [all]
    exact .inl ⟨⟨_, rfl, same⟩, by simp⟩
  | pureCnot =>
    simp only []
    split
    · next pure => exact .inl ⟨⟨_, rfl, data fun slot => by cases slot <;> rfl⟩, fun _ => .inl pure⟩
    · next pure => exact .inl ⟨⟨_, rfl, data fun slot => by cases slot <;> rfl⟩, fun _ => .inr pure⟩
    · next not_x not_z => exact .inr ⟨rfl, trivial, fun pure => pure.elim not_x not_z⟩
  | rotatedCnot => exact .inl ⟨⟨_, rfl, data fun slot => by cases slot <;> rfl⟩, by simp⟩

/-- Orders and plans neither lose nor repeat a member. By a table, members are put in order exactly
if the table fits the check; then there is one slot more than the largest of the letter, every
member is in its slot, and the other slots are idle. No slot is out of range. A plan meets the
members slot by slot, and fails only if the order does or if a check of mixed letters should be
measured with gates of one kind. -/
theorem orders_and_plans (check : Check) :
    (∀ slots, ((∃ filled, (Order.rotated slots).members check = .ok filled) ↔
        ∃ letter, Order.Fits slots letter check) ∧
      (Order.rotated slots).members check ≠ .outside ∧
      ∀ filled letter, (Order.rotated slots).members check = .ok filled →
        Order.Fits slots letter check →
        (∃ s ∈ slots, s.letter = letter ∧ filled.length = s.slot + 1) ∧
        (∀ s ∈ slots, s.letter = letter → s.slot < filled.length) ∧
        (filled.filterMap id).Perm check.members ∧
        ∀ k m, filled[k]? = some (some m) ↔
          m ∈ check.members ∧ Order.slot? slots letter m.offset = some k) ∧
    ∀ e : Extractor,
      (∀ plan, e.plan check = .ok plan → ∃ slots, e.order.members check = .ok slots ∧
        plan.steps.map (Option.map (·.data)) = slots.map (Option.map (·.qubit))) ∧
      ∀ halt, e.plan check = .error halt ↔ e.order.members check = .error halt ∨
        (∃ slots, e.order.members check = .ok slots) ∧ e.style = .pureCnot ∧
          ¬(∃ letter, (letter = .X ∨ letter = .Z) ∧
            ∀ m ∈ check.members, m.operator.letter = letter) ∧
          halt = .fault (.extraction (.mixedWord check.word)) := by
  refine ⟨fun slots => ⟨Order.rotated_eq_ok, fun outside => ?_, ?_⟩, fun e => ?_⟩
  · have expected := (Order.rotated slots).members_meets check
    rw [outside] at expected
    rcases expected with ⟨_, halt⟩ | ⟨_, halt⟩ | halt <;> cases halt
  · intro filled letter ordered fits
    obtain ⟨length, perm, put⟩ := fits.holds ordered
    rw [length]
    exact ⟨fits.count.1, fits.count.2, perm, put⟩
  · have mixed : (∃ letter, (letter = .X ∨ letter = .Z) ∧
        ∀ m ∈ check.members, m.operator.letter = letter) ↔
        check.pureLetter? = some .X ∨ check.pureLetter? = some .Z := by
      simp [← Check.pureLetter?_eq_some_iff]
    rw [mixed]
    cases ordered : e.order.members check with
    | error halt =>
      have stops : e.plan check = .error halt := congrArg (· >>= _) ordered
      simp [stops]
    | ok slots =>
      rcases plan_cases ordered with ⟨⟨plan, planned, same⟩, pure⟩ | ⟨fails, style, impure⟩
      · refine ⟨fun _ here => ⟨slots, rfl, ?_⟩, fun halt => ?_⟩
        · cases planned.symm.trans here
          exact same
        · simp only [planned, reduceCtorEq, false_or, false_iff, not_and]
          exact fun _ style mixed => absurd (pure style) mixed
      · simp only [fails, fail, reduceCtorEq, false_implies, implies_true, Except.error.injEq,
          Except.ok.injEq, exists_eq', style, impure, not_false_eq_true, true_and, false_or]
        exact fun halt => eq_comm

/-- A check with two members, in the first and the last of the four slots of its letter. -/
theorem orders_and_plans_corners : ∃ (check : Check) (filled : List (Option Member))
    (slots : List Slot),
    Order.standard = .rotated slots ∧ Order.Fits slots .Z check ∧
      (Order.rotated slots).members check = .ok filled ∧ filled.map Option.isSome =
        [true, false, false, true] ∧ (filled.filterMap id).Perm check.members := by
  let check : Check := ⟨[⟨Order.southEast, ⟨[2, 2]⟩, ⟨.Z, .one⟩⟩,
    ⟨Order.northWest, ⟨[0, 0]⟩, ⟨.Z, .minusOne⟩⟩], some ⟨[1, 1]⟩, none, rfl⟩
  obtain ⟨ordered, _⟩ := orders_and_plans check
  obtain ⟨slots, standard⟩ : ∃ slots, Order.standard = .rotated slots := ⟨_, rfl⟩
  cases standard
  obtain ⟨filled, found⟩ : ∃ filled, Order.standard.members check = .ok filled := ⟨_, rfl⟩
  obtain ⟨letter, fits⟩ := (ordered _).1.mp ⟨filled, found⟩
  obtain rfl : Pauli.Z = letter := fits.letters _ (.head _)
  refine ⟨check, filled, _, rfl, fits, found, ?_, ((ordered _).2.2 filled .Z found fits).2.2.1⟩
  cases found
  rfl

end Extractor

end SyndromeSchedule
