import Mathlib.Algebra.Group.Nat.Even
import SyndromeSchedule.Proofs.Clifford
import SyndromeSchedule.Proofs.Rounds

/-!
What the ancillas of a round measure. Each meeting of an ancilla with a data qubit multiplies the
letter of the check into the product that the ancilla measures. Where two checks clash on a data
qubit, the one that comes later leaves a letter on the ancilla of the other; these letters cancel if
the checks clash, and one comes first, an even number of times.
-/

namespace SyndromeSchedule

open List

variable {ancilla : Qubit}

namespace Pauli

/-- Power of a letter without its phase. -/
def power (a : Pauli) (n : Nat) : Pauli := if Even n then .I else a

lemma power_of_even {a : Pauli} {n : Nat} (even : Even n) : a.power n = .I := if_pos even

lemma power_succ (a : Pauli) (n : Nat) : a.power (n + 1) = (a.power n).times a := by
  by_cases even : Even n
  · have odd : ¬ Even (n + 1) := by simpa [Nat.even_add_one] using even
    rw [power, if_neg odd, power_of_even even]
    rfl
  · have next : Even (n + 1) := Nat.even_add_one.mpr even
    rw [power_of_even next, power, if_neg even]
    cases a <;> rfl

lemma commutes_power (a : Pauli) (n : Nat) : (a.power n).commutes a = true := by
  rw [power]
  split_ifs
  · rfl
  · simp [commutes]

end Pauli

/-- Letter that an ancilla takes up where it meets a clashing one. -/
def Plan.control (plan : Plan) : Pauli := if plan.basis = .X then .Z else .X

/-- Letters pulled back through one meeting of an ancilla with a data qubit. -/
def meet (control : Pauli) (ancilla data : Qubit) (letter : Pauli) (letters : Qubit → Pauli)
    (q : Qubit) : Pauli :=
  if q = ancilla then
    if (letters data).commutes letter then letters ancilla else (letters ancilla).times control
  else if q = data then
    if (letters ancilla).commutes control then letters data else (letters data).times letter
  else letters q

lemma pull_into {data : Qubit} (apart : ancilla ≠ data) (letters : Qubit → Pauli) :
    Gate.pull .CX [data, ancilla] letters = meet .X ancilla data .Z letters := by
  have controlled : Gate.controlled .X = .ok .CX := rfl
  funext q
  rw [Gate.pull_controlled controlled, meet]
  by_cases here : q = ancilla
  · subst here
    rw [if_neg apart, if_pos rfl, if_pos rfl]
  · rw [if_neg here, if_neg here]

lemma pull_turned {gate : Gate} {letter : Pauli} (rotates : Extractor.rotation letter = some gate)
    {data : Qubit} (apart : ancilla ≠ data) (letters : Qubit → Pauli) :
    gate.pull [data] (meet .X ancilla data .Z (gate.pull [data] letters)) =
      meet .X ancilla data letter letters := by
  have single : gate.images? = none := by cases letter <;> cases rotates <;> rfl
  have turned : ∀ a b : Pauli, ((gate.turn b).commutes .Z = b.commutes letter) ∧
        gate.turn (if a.commutes .X then gate.turn b else (gate.turn b).times .Z) =
          if a.commutes .X then b else b.times letter := by
    intro a b
    cases letter <;> cases rotates <;> cases a <;> cases b <;> exact ⟨rfl, rfl⟩
  funext q
  simp only [Gate.pull_single single, meet, if_neg apart, if_neg apart.symm, if_true]
  by_cases here : q = ancilla
  · subst here
    simp [if_neg apart, (turned .I (letters data)).1]
  · by_cases there : q = data
    · subst there
      simp [if_neg here, (turned (letters ancilla) (letters q)).2]
    · simp only [if_neg here, if_neg there]

open Session in
lemma pullBack_meetingMoves {plan : Plan} {m : Member} {i : Interaction}
    (joins : Extractor.Joins plan m i) (letter : m.operator.letter ≠ .I) (apart : ancilla ≠ m.qubit)
    (tick : Nat) (letters : Qubit → Pauli) :
    pullBack ((meetingMoves ancilla tick i).map Move.application) letters =
      meet plan.control ancilla m.qubit m.operator.letter letters := by
  cases joins with
  | controlled found =>
    funext q
    exact Gate.pull_controlled found ancilla m.qubit letters q
  | pureX same =>
    have controlled : Gate.controlled .X = .ok .CX := rfl
    funext q
    rw [same]
    exact Gate.pull_controlled controlled ancilla m.qubit letters q
  | pureZ same =>
    rw [same]
    exact pull_into apart letters
  | rotated =>
    cases rotates : Extractor.rotation m.operator.letter with
    | none =>
      have same : m.operator.letter = .Z := by
        revert letter rotates
        cases m.operator.letter <;> simp [Extractor.rotation]
      rw [same]
      exact pull_into apart letters
    | some gate =>
      refine Eq.trans ?_ (pull_turned rotates apart letters)
      rw [← pull_into apart]
      rfl

/-! Meetings of a round. -/

lemma filterMap_eq_of_forall₂ {α β γ : Type} {R : α → β → Prop} {f : α → γ} {g : β → γ}
    (same : ∀ a b, R a b → f a = g b) {as : List (Option α)} {bs : List (Option β)}
    (related : Forall₂ (Option.Rel R) as bs) :
    as.filterMap (Option.map f) = bs.filterMap (Option.map g) := by
  induction related with
  | nil => rfl
  | cons rel _ ih =>
    cases rel with
    | none => simpa using ih
    | some holds => simp [same _ _ holds, ih]

namespace Extracted

variable {e f : Extracted} {q : Qubit} {a b : Extracted × Nat × Interaction}

/-- Slot in which a check meets a data qubit. -/
def slotOf (e : Extracted) (q : Qubit) : Nat :=
  e.plan.steps.findIdx fun step => step.any (·.data = q)

/-- Data qubits on which two checks carry different letters. -/
def clashes (e f : Extracted) : List Qubit :=
  e.check.qubits.filter fun q =>
    f.check.actsOn q && e.check.product.letter q ≠ f.check.product.letter q

/-- Clashes at which the first check comes first. -/
def firstClashes (e f : Extracted) : List Qubit :=
  (clashes e f).filter fun q => e.slotOf q < f.slotOf q

/-- Two checks that clash, with the first of them first, an even number of times. -/
def Balanced (e f : Extracted) : Prop :=
  Even (clashes e f).length ∧ Even (firstClashes e f).length

instance (e f : Extracted) : Decidable (Balanced e f) :=
  inferInstanceAs (Decidable (_ ∧ _))

section

variable (follows : Extractor.Follows e.plan e.check)

include follows

lemma data_interactions :
    (e.interactions.map (·.2.data)).Perm e.check.qubits := by
  obtain ⟨slots, perm, related⟩ := follows
  have steps : e.interactions.map (·.2.data) = e.plan.steps.filterMap (Option.map (·.data)) := by
    have indexed : e.plan.steps = e.plan.steps.zipIdx.map (·.1) := by simp
    conv_rhs => rw [indexed, filterMap_map]
    rw [interactions, map_filterMap]
    refine filterMap_congr fun step _ => ?_
    rw [Option.map_map]
    rfl
  have members : slots.filterMap (Option.map (·.qubit)) = (slots.filterMap id).map (·.qubit) := by
    rw [map_filterMap]
    rfl
  rw [steps, ← filterMap_eq_of_forall₂ (fun _ _ joins => joins.data.symm) related, members]
  exact perm.map _

lemma data_nodup :
    (e.interactions.map (·.2.data)).Nodup :=
  (data_interactions follows).nodup_iff.mpr e.check.qubits_nodup

lemma slotOf_data {step : Nat × Interaction}
    (mem : step ∈ e.interactions) :
    e.slotOf step.2.data = step.1 := by
  obtain ⟨slot, i⟩ := step
  have found := mem_interactions.mp mem
  obtain ⟨inside, here⟩ := List.getElem?_eq_some_iff.mp found
  rw [slotOf, findIdx_eq inside]
  refine ⟨by simp [here], ?_⟩
  intro j before
  cases earlier : e.plan.steps[j] with
  | none => rfl
  | some i' =>
    have member' : (j, i') ∈ e.interactions :=
      mem_interactions.mpr (List.getElem?_eq_some_iff.mpr ⟨by omega, earlier⟩)
    rw [Option.any_some, decide_eq_false_iff_not]
    intro same
    have equal := inj_on_of_nodup_map (data_nodup follows) member' mem same
    have slots : j = slot := congrArg Prod.fst equal
    omega

lemma exists_interaction
    (acted : q ∈ e.check.qubits) : ∃ step ∈ e.interactions, step.2.data = q :=
  mem_map.mp ((data_interactions follows).mem_iff.mpr acted)

end

lemma mem_clashes : q ∈ clashes e f ↔ q ∈ e.check.qubits ∧ q ∈ f.check.qubits ∧
      e.check.product.letter q ≠ f.check.product.letter q := by
  simp [clashes, Check.actsOn, Check.qubits]

lemma mem_firstClashes : q ∈ firstClashes e f ↔ q ∈ clashes e f ∧ e.slotOf q < f.slotOf q := by
  simp [firstClashes]

variable {code : Code} {es : List Extracted}

lemma Compatible.slots_ne (compatible : Compatible code es)
    (follows : ∀ e ∈ es, Extractor.Follows e.plan e.check) :
    es.Pairwise fun e f => e.ancilla ≠ f.ancilla ∧
      ∀ q ∈ e.check.qubits, q ∈ f.check.qubits → e.slotOf q ≠ f.slotOf q := by
  refine List.Pairwise.imp_of_mem ?_ compatible.apart
  rintro e f he hf ⟨ancillas, slots⟩
  refine ⟨ancillas, fun q acted acted' => ?_⟩
  obtain ⟨a, ha, rfl⟩ := exists_interaction (follows e he) acted
  obtain ⟨b, hb, same⟩ := exists_interaction (follows f hf) acted'
  have first := slotOf_data (follows e he) ha
  have second := slotOf_data (follows f hf) hb
  rw [same] at second
  rw [first, second]
  exact slots a ha b hb same.symm

lemma Balanced.symm (balanced : Balanced e f)
    (slots : ∀ q ∈ e.check.qubits, q ∈ f.check.qubits → e.slotOf q ≠ f.slotOf q) :
    Balanced f e := by
  have members : ∀ q, q ∈ clashes f e ↔ q ∈ clashes e f := by
    intro q
    rw [mem_clashes, mem_clashes]
    exact ⟨fun h => ⟨h.2.1, h.1, h.2.2.symm⟩, fun h => ⟨h.2.1, h.1, h.2.2.symm⟩⟩
  have perm : (clashes f e).Perm (clashes e f) :=
    (perm_ext_iff_of_nodup (f.check.qubits_nodup.filter _)
      (e.check.qubits_nodup.filter _)).mpr members
  have later : firstClashes f e =
      (clashes f e).filter fun q => decide ¬ decide (e.slotOf q < f.slotOf q) = true := by
    refine filter_congr fun q clash => ?_
    have different := slots q (mem_clashes.mp clash).2.1 (mem_clashes.mp clash).1
    rw [decide_eq_decide, decide_eq_true_iff]
    omega
  have total : (clashes e f).length = (firstClashes e f).length + (firstClashes f e).length := by
    rw [later, ((perm.filter _).length_eq), firstClashes, ← countP_eq_length_filter,
      ← countP_eq_length_filter]
    exact length_eq_countP_add_countP _
  obtain ⟨all, first⟩ := balanced
  refine ⟨perm.length_eq ▸ all, ?_⟩
  rw [total, Nat.even_add] at all
  exact all.mp first

/-- Meetings of ancillas with data qubits, each with its slot. -/
def meetings (extracted : List Extracted) : List (Extracted × Nat × Interaction) :=
  extracted.flatMap fun e => e.interactions.map fun step => (e, step)

def inSlots (extracted : List Extracted) : List (Extracted × Nat × Interaction) :=
  (meetings extracted).mergeSort fun a b => a.2.1 ≤ b.2.1

lemma mem_meetings {m : Extracted × Nat × Interaction} :
    m ∈ meetings es ↔ m.1 ∈ es ∧ m.2 ∈ m.1.interactions := by
  obtain ⟨e, step⟩ := m
  simp only [meetings, mem_flatMap, mem_map, Prod.mk.injEq]
  constructor
  · rintro ⟨e', mem, step', inside, rfl, rfl⟩
    exact ⟨mem, inside⟩
  · rintro ⟨mem, inside⟩
    exact ⟨e, mem, step, inside, rfl, rfl⟩

/-- Two meetings of a round: with one data qubit they are of different checks, and in one slot they
share no qubit. -/
structure Apart (a b : Extracted × Nat × Interaction) : Prop where
  check : a.2.2.data = b.2.2.data → a.1.ancilla ≠ b.1.ancilla
  slot : a.2.1 = b.2.1 → a.1.ancilla ≠ b.1.ancilla ∧ a.2.2.data ≠ b.2.2.data

lemma Apart.symm (h : Apart a b) : Apart b a := ⟨fun same => (h.check same.symm).symm,
    fun same => ⟨(h.slot same.symm).1.symm, (h.slot same.symm).2.symm⟩⟩

lemma Compatible.pairwise_meetings (compatible : Compatible code es)
    (follows : ∀ e ∈ es, Extractor.Follows e.plan e.check) :
    (meetings es).Pairwise Apart := by
  rw [meetings, pairwise_flatMap]
  refine ⟨fun e he => ?_, ?_⟩
  · have distinct : e.interactions.Pairwise fun a b => a.2.data ≠ b.2.data :=
      pairwise_map.mp (data_nodup (follows e he))
    rw [pairwise_map]
    refine (distinct.and e.slots_lt).imp ?_
    rintro a b ⟨data, slots⟩
    exact ⟨fun same => absurd same data, fun same => absurd same (ne_of_lt slots)⟩
  · refine compatible.apart.imp ?_
    rintro e f ⟨ancillas, slots⟩ a ha b hb
    obtain ⟨step, inside, rfl⟩ := mem_map.mp ha
    obtain ⟨step', inside', rfl⟩ := mem_map.mp hb
    exact ⟨fun _ => ancillas,
      fun same => ⟨ancillas, fun data => slots step inside step' inside' data same⟩⟩

lemma perm_inSlots (es : List Extracted) : (inSlots es).Perm (meetings es) := mergeSort_perm ..

lemma ordered_inSlots (es : List Extracted) : (inSlots es).Pairwise fun a b => a.2.1 ≤ b.2.1 := by
  have sorted : (inSlots es).Pairwise fun a b => decide (a.2.1 ≤ b.2.1) = true :=
    pairwise_mergeSort (by simp; omega) (by simp; omega) (meetings es)
  exact sorted.imp fun le => by simpa using le

lemma Compatible.pairwise_inSlots (compatible : Compatible code es)
    (follows : ∀ e ∈ es, Extractor.Follows e.plan e.check) :
    (inSlots es).Pairwise fun a b => a.2.1 ≤ b.2.1 ∧ Apart a b :=
  (ordered_inSlots es).and (((perm_inSlots es).pairwise_iff fun apart => apart.symm).mpr
      (compatible.pairwise_meetings follows))

lemma Apart.slot_lt (h : a.2.1 ≤ b.2.1 ∧ Apart a b)
    (same : a.2.2.data = b.2.2.data) : a.2.1 < b.2.1 :=
  Nat.lt_of_le_of_ne h.1 fun slots => (h.2.slot slots).2 same

lemma Compatible.ancilla_inj (compatible : Compatible code es) (he : e ∈ es)
    (hf : f ∈ es) (same : e.ancilla = f.ancilla) : e = f := by
  have distinct : (es.map (·.ancilla)).Nodup := pairwise_map.mpr (compatible.apart.imp And.left)
  exact inj_on_of_nodup_map distinct he hf same

/-! What one ancilla measures, pulled back meeting by meeting. -/

/-- Letters pulled back through one of the meetings of a round. -/
def meet (m : Extracted × Nat × Interaction) : (Qubit → Pauli) → Qubit → Pauli :=
  SyndromeSchedule.meet m.1.plan.control m.1.ancilla m.2.2.data
    (m.1.check.product.letter m.2.2.data)

/-- Whether a check meets a data qubit in some meetings. -/
def hasMet (e : Extracted) (met : List (Extracted × Nat × Interaction)) (q : Qubit) : Bool :=
  met.any fun m => m.1.ancilla = e.ancilla && m.2.2.data = q

/-- Number of meetings of a check that leave a letter on its ancilla, since it clashes there with a
check that comes later. -/
def strays (e f : Extracted) (met : List (Extracted × Nat × Interaction)) : Nat :=
  met.countP fun m => m.1.ancilla = f.ancilla && m.2.2.data ∈ firstClashes f e

/-- What a check measures, pulled back through the last meetings of a round: its letters on the data
qubits it has met, and strays on other ancillas. -/
structure Carries (code : Code) (extracted : List Extracted) (e : Extracted)
    (met : List (Extracted × Nat × Interaction)) (letters : Qubit → Pauli) : Prop where
  own : letters e.ancilla = e.plan.basis
  data : ∀ q, code.isData q = true →
    letters q = if e.hasMet met q then e.check.product.letter q else .I
  stray : ∀ f ∈ extracted, f.ancilla ≠ e.ancilla →
    letters f.ancilla = f.plan.control.power (strays e f met)
  elsewhere : ∀ q, code.isData q = false → (∀ f ∈ extracted, q ≠ f.ancilla) → letters q = .I

/-- The letter measured on an ancilla. -/
def measuredLetter (e : Extracted) (q : Qubit) : Pauli :=
  if q = e.ancilla then e.plan.basis else .I

lemma Compatible.carries_nil (compatible : Compatible code es) (he : e ∈ es) :
    Carries code es e [] e.measuredLetter where
  own := if_pos rfl
  data := by
    intro q data
    have other : q ≠ e.ancilla := by
      rintro rfl
      rw [compatible.ancilla e he] at data
      contradiction
    exact if_neg other
  stray := fun f _ other => if_neg other
  elsewhere := fun q _ other => if_neg (other e he)

lemma commutes_control (basis : e.plan.basis ≠ .I) :
    e.plan.basis.commutes e.plan.control = false := by
  simp only [Plan.control]
  revert basis
  cases e.plan.basis <;> decide

section Step

variable {e : Extracted} {m : Extracted × Nat × Interaction}
  {met : List (Extracted × Nat × Interaction)} {letters : Qubit → Pauli}

lemma hasMet_cons_of_ne (other : ¬ (m.1.ancilla = e.ancilla ∧ m.2.2.data = q)) :
    e.hasMet (m :: met) q = e.hasMet met q := by
  rw [hasMet, any_cons, ← Bool.decide_and, decide_eq_false other, Bool.false_or]
  rfl

lemma strays_cons_of_ne (other : ¬ (m.1.ancilla = f.ancilla ∧ m.2.2.data ∈ firstClashes f e)) :
    strays e f (m :: met) = strays e f met :=
  countP_cons_of_neg (by simpa using other)

lemma meet_of_ne (other : q ≠ m.1.ancilla) (elsewhere : q ≠ m.2.2.data) :
    meet m letters q = letters q := by
  rw [meet, SyndromeSchedule.meet, if_neg other, if_neg elsewhere]

lemma meet_ancilla (m : Extracted × Nat × Interaction) (letters : Qubit → Pauli) :
    meet m letters m.1.ancilla =
      if (letters m.2.2.data).commutes (m.1.check.product.letter m.2.2.data) then
        letters m.1.ancilla
      else (letters m.1.ancilla).times m.1.plan.control := by
  rw [meet, SyndromeSchedule.meet, if_pos rfl]

lemma meet_data (apart : m.2.2.data ≠ m.1.ancilla) (letters : Qubit → Pauli) :
    meet m letters m.2.2.data =
      if (letters m.1.ancilla).commutes m.1.plan.control then letters m.2.2.data
      else (letters m.2.2.data).times (m.1.check.product.letter m.2.2.data) := by
  rw [meet, SyndromeSchedule.meet, if_neg apart, if_pos rfl]

lemma Compatible.data_ne_ancilla (compatible : Compatible code es)
    (mem : m ∈ meetings es) (hf : f ∈ es) :
    m.2.2.data ≠ f.ancilla := by
  obtain ⟨inside, step⟩ := mem_meetings.mp mem
  intro same
  have data := compatible.data m.1 inside m.2 step
  rw [same, compatible.ancilla f hf] at data
  contradiction

/-- A meeting of the check itself adds its letter. -/
theorem Carries.own_meeting (carries : Carries code es e met letters)
    (compatible : Compatible code es) (mem : m ∈ meetings es)
    (he : e ∈ es) (same : m.1 = e) (fresh : e.hasMet met m.2.2.data = false) :
    Carries code es e (m :: met) (meet m letters) := by
  subst same
  have apart := compatible.data_ne_ancilla mem he
  have before : letters m.2.2.data = .I := by
    have data := compatible.data m.1 he m.2 (mem_meetings.mp mem).2
    rw [carries.data _ data, fresh]
    rfl
  refine ⟨?_, ?_, ?_, ?_⟩
  · rw [meet_ancilla, before]
    exact carries.own
  · intro q data
    have not_ancilla : q ≠ m.1.ancilla := by
      rintro rfl
      rw [compatible.ancilla m.1 he] at data
      contradiction
    by_cases here : q = m.2.2.data
    · rw [here, meet_data apart, carries.own, commutes_control (compatible.basis m.1 he), before]
      simp [hasMet, Pauli.times, Pauli.mul]
    · rw [meet_of_ne not_ancilla here, carries.data q data,
        hasMet_cons_of_ne fun both => here both.2.symm]
  · intro f hf other
    rw [meet_of_ne other (compatible.data_ne_ancilla mem hf).symm, carries.stray f hf other,
      strays_cons_of_ne fun both => other both.1.symm]
  · intro q data other
    have elsewhere : q ≠ m.2.2.data := by
      rintro rfl
      rw [compatible.data m.1 he m.2 (mem_meetings.mp mem).2] at data
      contradiction
    rw [meet_of_ne (other m.1 he) elsewhere]
    exact carries.elsewhere q data other

/-- A meeting of another check leaves a letter on its ancilla if it clashes with what is on the data
qubit. -/
theorem Carries.other_meeting (carries : Carries code es e met letters)
    (compatible : Compatible code es) (mem : m ∈ meetings es)
    (he : e ∈ es) (other : m.1.ancilla ≠ e.ancilla)
    (clash : (letters m.2.2.data).commutes (m.1.check.product.letter m.2.2.data) =
      !decide (m.2.2.data ∈ firstClashes m.1 e)) :
    Carries code es e (m :: met) (meet m letters) := by
  obtain ⟨inside, step⟩ := mem_meetings.mp mem
  have apart := compatible.data_ne_ancilla mem inside
  have quiet : (letters m.1.ancilla).commutes m.1.plan.control = true := by
    rw [carries.stray m.1 inside other]
    exact Pauli.commutes_power ..
  refine ⟨?_, ?_, ?_, ?_⟩
  · rw [meet_of_ne other.symm (compatible.data_ne_ancilla mem he).symm]
    exact carries.own
  · intro q data
    have not_ancilla : q ≠ m.1.ancilla := by
      rintro rfl
      rw [compatible.ancilla m.1 inside] at data
      contradiction
    have unchanged : meet m letters q = letters q := by
      by_cases here : q = m.2.2.data
      · rw [here, meet_data apart, quiet, if_pos rfl]
      · exact meet_of_ne not_ancilla here
    rw [unchanged, carries.data q data, hasMet_cons_of_ne fun both => other both.1]
  · intro f hf apart_e
    by_cases same : f.ancilla = m.1.ancilla
    · obtain rfl := compatible.ancilla_inj hf inside same
      rw [meet_ancilla, clash, carries.stray _ hf apart_e]
      by_cases stray : m.2.2.data ∈ firstClashes m.1 e
      · have count : strays e m.1 (m :: met) = strays e m.1 met + 1 :=
          countP_cons_of_pos (by simp [stray])
        rw [count, Pauli.power_succ, decide_eq_true stray]
        rfl
      · rw [strays_cons_of_ne fun both => stray both.2, decide_eq_false stray]
        rfl
    · rw [meet_of_ne same (compatible.data_ne_ancilla mem hf).symm, carries.stray f hf apart_e,
        strays_cons_of_ne fun both => same both.1.symm]
  · intro q data others
    have elsewhere : q ≠ m.2.2.data := by
      rintro rfl
      rw [compatible.data m.1 inside m.2 step] at data
      contradiction
    rw [meet_of_ne (others m.1 inside) elsewhere]
    exact carries.elsewhere q data others

end Step

section Run

variable {e : Extracted} {m : Extracted × Nat × Interaction}
  {earlier later : List (Extracted × Nat × Interaction)}

lemma hasMet_iff :
    e.hasMet later q = true ↔ ∃ n ∈ later, n.1.ancilla = e.ancilla ∧ n.2.2.data = q := by
  simp [hasMet]

/-- Ancillas meet a shared qubit in the order of their slots. -/
lemma Compatible.hasMet_later (compatible : Compatible code es)
    (follows : ∀ e ∈ es, Extractor.Follows e.plan e.check) (he : e ∈ es)
    (split : earlier ++ m :: later = inSlots es) (other : m.1.ancilla ≠ e.ancilla) :
    e.hasMet later m.2.2.data = true ↔
      m.2.2.data ∈ e.check.qubits ∧ m.1.slotOf m.2.2.data < e.slotOf m.2.2.data := by
  have ordered := compatible.pairwise_inSlots follows
  have listed : ∀ n ∈ earlier ++ m :: later, n.1 ∈ es ∧ n.2 ∈ n.1.interactions := by
    intro n mem
    rw [split] at mem
    exact mem_meetings.mp ((perm_inSlots es).mem_iff.mp mem)
  rw [← split, pairwise_append, pairwise_cons] at ordered
  obtain ⟨_, ⟨after, _⟩, before⟩ := ordered
  obtain ⟨inside, step⟩ := listed m (by simp)
  have slot := slotOf_data (follows m.1 inside) step
  constructor
  · intro met
    obtain ⟨n, mem, ancilla, data⟩ := hasMet_iff.mp met
    obtain ⟨known, step'⟩ := listed n (by simp [mem])
    obtain rfl := compatible.ancilla_inj known he ancilla
    have slot' := slotOf_data (follows n.1 known) step'
    rw [← data] at slot ⊢
    refine ⟨(data_interactions (follows n.1 known)).mem_iff.mp (mem_map_of_mem step'), ?_⟩
    rw [slot, slot']
    exact Apart.slot_lt (after n mem) data.symm
  · rintro ⟨acted, less⟩
    obtain ⟨step', known, data⟩ := exists_interaction (follows e he) acted
    have slot' := slotOf_data (follows e he) known
    rw [data] at slot'
    rw [slot, slot'] at less
    have mem : (e, step') ∈ earlier ++ m :: later := by
      rw [split]
      exact (perm_inSlots es).mem_iff.mpr (mem_meetings.mpr ⟨he, known⟩)
    rcases mem_append.mp mem with first | rest
    · have wrong := Apart.slot_lt (before _ first m (.head _)) data
      simp only at wrong
      omega
    · rcases mem_cons.mp rest with same | rest
      · exact absurd (congrArg (·.1.ancilla) same).symm other
      · exact hasMet_iff.mpr ⟨_, rest, rfl, data⟩

/-- What remains of an ancilla's letters after the meetings from one on. -/
lemma Compatible.carries (compatible : Compatible code es)
    (follows : ∀ e ∈ es, Extractor.Follows e.plan e.check) (he : e ∈ es)
    (split : earlier ++ later = inSlots es) :
    Carries code es e later (later.foldr meet e.measuredLetter) := by
  induction later generalizing earlier with
  | nil => exact compatible.carries_nil he
  | cons m rest ih =>
    have carries : Carries code es e rest (rest.foldr meet e.measuredLetter) := by
      apply ih
      rw [← split, append_cons]
    have mem : m ∈ meetings es := by
      rw [← (perm_inSlots es).mem_iff, ← split]
      simp
    obtain ⟨inside, step⟩ := mem_meetings.mp mem
    rw [foldr_cons]
    by_cases same : m.1.ancilla = e.ancilla
    · obtain rfl := compatible.ancilla_inj inside he same
      refine carries.own_meeting compatible mem he rfl ?_
      have ordered := compatible.pairwise_inSlots follows
      rw [← split, pairwise_append, pairwise_cons] at ordered
      rw [← Bool.not_eq_true, hasMet_iff]
      rintro ⟨n, later, ancilla, data⟩
      exact (ordered.2.1.1 n later).2.check data.symm ancilla.symm
    · refine carries.other_meeting compatible mem he same ?_
      have met := compatible.hasMet_later follows he split same
      have data := compatible.data m.1 inside m.2 step
      have acted : m.2.2.data ∈ m.1.check.qubits :=
        (data_interactions (follows m.1 inside)).mem_iff.mp (mem_map_of_mem step)
      rw [carries.data _ data]
      by_cases known : e.hasMet rest m.2.2.data = true
      · obtain ⟨acted', less⟩ := met.mp known
        have letter := m.1.check.letter_product_ne_I acted
        have letter' := e.check.letter_product_ne_I acted'
        rw [if_pos known]
        simp [Pauli.commutes, letter, letter', mem_firstClashes, mem_clashes, acted, acted', less,
          eq_comm]
      · have none : m.2.2.data ∉ firstClashes m.1 e := by
          intro first
          obtain ⟨clash, less⟩ := mem_firstClashes.mp first
          exact known (met.mpr ⟨(mem_clashes.mp clash).2.1, less⟩)
        rw [if_neg known, decide_eq_false none]
        rfl

end Run

variable (compatible : Compatible code es)
include compatible

lemma Compatible.filter_meetings (hf : f ∈ es) :
    (meetings es).filter (fun m => m.1.ancilla = f.ancilla) =
      f.interactions.map fun step => (f, step) := by
  obtain ⟨earlier, later, rfl⟩ := append_of_mem hf
  have apart := compatible.apart
  rw [pairwise_append, pairwise_cons] at apart
  obtain ⟨_, ⟨after, _⟩, before⟩ := apart
  have others : ∀ rest : List Extracted, (∀ g ∈ rest, g.ancilla ≠ f.ancilla) →
      (meetings rest).filter (fun m => m.1.ancilla = f.ancilla) = [] := by
    intro rest different
    rw [filter_eq_nil_iff]
    intro m mem
    simpa using different m.1 (mem_meetings.mp mem).1
  have own : (f.interactions.map fun step => (f, step)).filter (fun m => m.1.ancilla = f.ancilla) =
      f.interactions.map fun step => (f, step) := by
    rw [filter_eq_self]
    intro m mem
    obtain ⟨step, _, rfl⟩ := mem_map.mp mem
    simp
  have first := others earlier fun g hg => (before g hg f (.head _)).1
  have last := others later fun g hg => (after g hg).1.symm
  rw [meetings] at first last ⊢
  rw [flatMap_append, flatMap_cons, filter_append, filter_append, first, last,
    own, nil_append, append_nil]

lemma Compatible.strays_inSlots (follows : ∀ e ∈ es, Extractor.Follows e.plan e.check) (hf : f ∈ es)
    (e : Extracted) : strays e f (inSlots es) = (firstClashes f e).length := by
  have members : ∀ q ∈ f.check.qubits, decide (q ∈ firstClashes f e) =
      (decide (f.slotOf q < e.slotOf q) && (e.check.actsOn q &&
        decide (f.check.product.letter q ≠ e.check.product.letter q))) := by
    intro q acted
    rw [firstClashes, clashes, filter_filter]
    simp [acted]
  calc strays e f (inSlots es)
      = strays e f (meetings es) := (perm_inSlots es).countP_eq _
    _ = ((f.interactions.map fun step => (f, step)).filter
          fun m => decide (m.2.2.data ∈ firstClashes f e)).length := by
        rw [strays, countP_eq_length_filter, ← compatible.filter_meetings hf, filter_filter]
        simp only [Bool.and_comm]
    _ = ((f.interactions.map (·.2.data)).filter (· ∈ firstClashes f e)).length := by
        rw [filter_map, filter_map, length_map, length_map]
        rfl
    _ = (f.check.qubits.filter (· ∈ firstClashes f e)).length :=
        ((data_interactions (follows f hf)).filter _).length_eq
    _ = (firstClashes f e).length := by
        rw [filter_congr members, firstClashes, clashes, filter_filter]

/-- What a check measures: the letter of its ancilla's state, and its own. -/
def target (e : Extracted) (q : Qubit) : Pauli :=
  if q = e.ancilla then e.plan.ancillaState.basis else e.check.product.letter q

lemma Compatible.isData_of_mem (follows : ∀ e ∈ es, Extractor.Follows e.plan e.check) (he : e ∈ es)
    (acted : q ∈ e.check.qubits) : code.isData q = true := by
  obtain ⟨step, inside, rfl⟩ := exists_interaction (follows e he) acted
  exact compatible.data e he step inside

/-- Balanced checks measure what they declare. -/
theorem Compatible.foldr_meet (follows : ∀ e ∈ es, Extractor.Follows e.plan e.check)
    (balanced : es.Pairwise Balanced) (he : e ∈ es)
    (state : e.plan.ancillaState.basis = e.plan.basis) :
    (inSlots es).foldr meet e.measuredLetter = e.target := by
  have carries := compatible.carries follows he (nil_append (inSlots es))
  have cancels : ∀ f ∈ es, f.ancilla ≠ e.ancilla → Even (firstClashes f e).length := by
    have both := balanced.and (compatible.slots_ne follows)
    have all := List.Pairwise.forall_of_forall_of_flip
      (R := fun f g : Extracted => f.ancilla ≠ g.ancilla → Even (firstClashes f g).length)
      (fun _ _ different => absurd rfl different) (both.imp fun h _ => h.1.2)
      (both.imp fun h _ => (h.1.symm h.2.2).2)
    exact fun f hf => all hf he
  funext q
  by_cases own : q = e.ancilla
  · rw [own, carries.own, target, if_pos rfl, state]
  rw [target, if_neg own]
  by_cases data : code.isData q = true
  · rw [carries.data q data]
    split_ifs with met
    · rfl
    · refine (e.check.letter_product_of_not_mem fun acted => met ?_).symm
      obtain ⟨step, inside, same⟩ := exists_interaction (follows e he) acted
      exact hasMet_iff.mpr ⟨(e, step), (perm_inSlots es).mem_iff.mpr
        (mem_meetings.mpr ⟨he, inside⟩), rfl, same⟩
  · have outside : q ∉ e.check.qubits := fun acted =>
      data (compatible.isData_of_mem follows he acted)
    rw [e.check.letter_product_of_not_mem outside]
    by_cases ancilla : ∃ f ∈ es, q = f.ancilla
    · obtain ⟨f, hf, rfl⟩ := ancilla
      rw [carries.stray f hf own, compatible.strays_inSlots follows hf]
      exact Pauli.power_of_even (cancels f hf own)
    · exact carries.elsewhere q (by simpa using data) fun f hf same => ancilla ⟨f, hf, same⟩

end Extracted

end SyndromeSchedule
