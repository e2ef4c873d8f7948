import Mathlib.Data.List.Nodup
import Mathlib.Tactic.SplitIfs
import SyndromeSchedule.Proofs.Table
import SyndromeSchedule.Schedule.Code

/-!
What the faultlessness of checks and codes says: members are distinct and not the identity, checks
act on data qubits and their ancillas are none, no check stands twice in a round, and whatever a
detector refers to is measured in the round it refers to.
-/

namespace SyndromeSchedule

open List

namespace Product

lemma letter_mulOperator (p : Product) (q r : Qubit) (op : Operator) :
    (p.mulOperator q op).letter r =
      if r = q then ((p.letter q).mul op.letter).1 else p.letter r := by
  have found : (p.mulOperator q op).factors.get? r =
      if r = q then if ((p.letter q).mul op.letter).1 = .I then none
        else some ((p.letter q).mul op.letter).1
      else p.factors.get? r := by
    simp only [mulOperator]
    by_cases cancels : ((p.letter q).mul op.letter).1 = .I
    · rw [if_pos cancels, if_pos cancels, Table.get?_erase]
    · rw [if_neg cancels, if_neg cancels, Table.get?_insert]
  rw [letter, found]
  split_ifs with here cancels
  · exact cancels.symm
  · rfl
  · rfl

lemma letter_foldl_of_not_mem {q : Qubit} (operators : List (Qubit × Operator))
    (outside : q ∉ operators.map (·.1)) (p : Product) :
    (operators.foldl (fun p e => p.mulOperator e.1 e.2) p).letter q = p.letter q := by
  induction operators generalizing p with
  | nil => rfl
  | cons e rest ih =>
    simp only [map_cons, mem_cons, not_or] at outside
    rw [foldl_cons, ih outside.2, letter_mulOperator, if_neg outside.1]

lemma letter_ofOperators {operators : List (Qubit × Operator)}
    (distinct : (operators.map (·.1)).Nodup) {e : Qubit × Operator} (mem : e ∈ operators) :
    (ofOperators operators).letter e.1 = e.2.letter := by
  obtain ⟨before, after, rfl⟩ := append_of_mem mem
  simp only [map_append, map_cons, nodup_append, nodup_cons] at distinct
  obtain ⟨_, ⟨not_after, _⟩, apart⟩ := distinct
  have not_before : e.1 ∉ before.map (·.1) := fun inside => apart e.1 inside e.1 (.head _) rfl
  rw [ofOperators, foldl_append, foldl_cons, letter_foldl_of_not_mem after not_after,
    letter_mulOperator, if_pos rfl, letter_foldl_of_not_mem before not_before]
  rfl

end Product

namespace Check

variable {members : List Member} {q : Qubit}
variable (c : Check)

lemma member_fault?_eq_none {seen : List Qubit} (h : Member.fault? seen members = none) :
    (members.map (·.qubit)).Nodup ∧ (∀ m ∈ members, m.qubit ∉ seen) ∧
      ∀ m ∈ members, m.operator.letter ≠ .I := by
  induction members generalizing seen with
  | nil => simp
  | cons m rest ih =>
    simp only [Member.fault?] at h
    split at h
    · contradiction
    · next fresh =>
        split at h
        · contradiction
        · next letter =>
            obtain ⟨distinct, apart, letters⟩ := ih h
            refine ⟨?_, ?_, ?_⟩
            · rw [map_cons, nodup_cons]
              refine ⟨fun mem => ?_, distinct⟩
              obtain ⟨m', inside, same⟩ := mem_map.mp mem
              exact apart m' inside (by rw [same]; exact .head _)
            · intro m' mem
              rcases mem_cons.mp mem with rfl | mem
              · exact fresh
              · exact fun old => apart m' mem (.tail _ old)
            · intro m' mem
              rcases mem_cons.mp mem with rfl | mem
              · exact letter
              · exact letters m' mem

lemma fault?_eq_none {ancilla : Option Qubit} (h : CheckError.find? members ancilla = none) :
    members ≠ [] ∧ Member.fault? [] members = none ∧
      Member.ancillaFault? members ancilla = none := by
  unfold CheckError.find? at h
  split at h
  · contradiction
  · next some_members =>
      rw [Option.or_eq_none_iff, Option.or_eq_none_iff] at h
      exact ⟨by simpa using some_members, h.1, h.2.1⟩

lemma members_ne_nil : c.members ≠ [] := (fault?_eq_none c.sound).1

lemma qubits_nodup : c.qubits.Nodup := (member_fault?_eq_none (fault?_eq_none c.sound).2.1).1

lemma letter_ne_I {m : Member} (mem : m ∈ c.members) : m.operator.letter ≠ .I :=
  (member_fault?_eq_none (fault?_eq_none c.sound).2.1).2.2 m mem

lemma letter_product {m : Member} (mem : m ∈ c.members) :
    c.product.letter m.qubit = m.operator.letter := by
  have distinct : ((c.members.map fun m => (m.qubit, m.operator)).map (·.1)).Nodup := by
    rw [map_map]
    exact c.qubits_nodup
  exact Product.letter_ofOperators distinct (mem_map_of_mem mem)

lemma letter_product_of_not_mem (outside : q ∉ c.qubits) : c.product.letter q = .I := by
  have absent : q ∉ (c.members.map fun m => (m.qubit, m.operator)).map (·.1) := by
    simpa [qubits] using outside
  exact Product.letter_foldl_of_not_mem _ absent .identity

lemma letter_product_ne_I (inside : q ∈ c.qubits) : c.product.letter q ≠ .I := by
  obtain ⟨m, mem, rfl⟩ := mem_map.mp inside
  rw [c.letter_product mem]
  exact c.letter_ne_I mem

lemma isSmall_zipWith_self (values : List Int) :
    (⟨List.zipWith (· - ·) values values⟩ : Coordinates).isSmall = true := by
  simp only [Coordinates.isSmall]
  induction values with
  | nil => rfl
  | cons z rest ih =>
    rw [zipWith_cons_cons, all_cons, ih, Int.sub_self]
    rfl

/-- A check that reads one qubit by itself. -/
def Reads (c : Check) (q : Qubit) (basis : Pauli) : Prop :=
  c.ancilla = none ∧ ∃ m, c.members = [m] ∧ m.qubit = q ∧ m.operator.letter = basis

lemma ofLetters_single {letter : Pauli} (not_I : letter ≠ .I) :
    ∃ c, ofLetters [(q, letter)] none = .ok c ∧ c.Reads q letter := by
  let offset : Coordinates := ⟨zipWith (· - ·) q.values q.values⟩
  have mem : memberAround q q (.positive letter) = .ok ⟨offset, q, .positive letter⟩ := by
    simp only [memberAround, Coordinates.difference]
    exact if_pos (isSmall_zipWith_self q.values)
  have faultless : CheckError.find? [⟨offset, q, .positive letter⟩] none = none := by
    cases letter with
    | I => contradiction
    | X | Y | Z => rfl
  refine ⟨⟨_, some q, none, faultless⟩, ?_, rfl, _, rfl, rfl, rfl⟩
  simp only [ofLetters, around, map_cons, map_nil, head?_cons, Option.map_some,
    Option.none_or, mapM_cons, mapM_nil, mem, bind, Except.bind, pure, Except.pure,
    makeOutcome, make]
  split
  · next cause found => exact absurd (found.symm.trans faultless) (by simp)
  · rfl

end Check

lemma DetectorError.find?_eq_none {floor lid : List TimedCheck} :
    find? floor lid = none ↔ (∀ t ∈ floor ++ lid, t.offset ≤ 0) ∧ (∃ t ∈ lid, t.offset = 0) ∧
      (TimedCheck.product floor).matchesUpToSign (TimedCheck.product lid) = true := by
  unfold find?
  split
  · next t late =>
    have future := find?_some late
    simp only [decide_eq_true_eq] at future
    simp only [reduceCtorEq, false_iff, not_and]
    intro past
    exact absurd (past t (mem_of_find?_eq_some late)) (Int.not_le.mpr future)
  · next past =>
    simp only [List.find?_eq_none, decide_eq_true_eq, Int.not_lt] at past
    rw [and_iff_right past]
    split_ifs with fresh agree <;> simp_all

namespace Code

variable {round : Nat}
variable (code : Code)

/-- What is known of a round of checks without a fault. -/
lemma ofRound?_eq_none {data : QubitSet} {seen : List (Table Operator)}
    {checks : List Check} (h : CodeError.ofRound? data round seen checks = none) :
    (∀ c ∈ checks, ∀ q ∈ c.qubits, data.contains q = true) ∧
      (∀ c ∈ checks, ∀ a, c.ancilla = some a → data.contains a = false) ∧
      (checks.map (·.content)).Nodup ∧ ∀ c ∈ checks, c.content ∉ seen := by
  induction checks generalizing seen with
  | nil => simp
  | cons c rest ih =>
    simp only [CodeError.ofRound?] at h
    split at h
    · contradiction
    · next inside =>
        split at h
        · contradiction
        · next apart =>
            split at h
            · contradiction
            · next fresh =>
                obtain ⟨members, ancillas, distinct, unseen⟩ := ih h
                rw [find?_eq_none] at inside
                refine ⟨?_, ?_, ?_, ?_⟩
                · intro c' mem q acted
                  rcases mem_cons.mp mem with rfl | mem
                  · simpa using inside q acted
                  · exact members c' mem q acted
                · intro c' mem a has
                  rcases mem_cons.mp mem with rfl | mem
                  · rw [has] at apart
                    simpa [Option.filter] using apart
                  · exact ancillas c' mem a has
                · rw [map_cons, nodup_cons]
                  refine ⟨fun again => ?_, distinct⟩
                  obtain ⟨c', mem, same⟩ := mem_map.mp again
                  exact unseen c' mem (by rw [same]; exact .head _)
                · intro c' mem
                  rcases mem_cons.mp mem with rfl | mem
                  · exact fresh
                  · exact fun old => unseen c' mem (.tail _ old)

lemma find?_eq_none_iff {data : QubitSet} {checks : List (List Check)}
    {detectors : List (List Detector)} {logicals : List Logical} :
    CodeError.find? data checks detectors logicals = none ↔
      checks ≠ [] ∧ detectors.length = checks.length ∧
      (∀ e ∈ checks.zipIdx, CodeError.ofRound? data e.2 [] e.1 = none) ∧
      (∀ e ∈ detectors.zipIdx, ∀ d ∈ e.1, CodeError.ofDetector? checks e.2 d = none) ∧
      ∀ l ∈ logicals, CodeError.ofLogical? data checks.length l = none := by
  unfold CodeError.find?
  split_ifs with empty lengths
  · simp_all
  · simp [lengths]
  · simp only [Option.or_eq_none_iff, findSome?_eq_none_iff]
    exact ⟨fun all => ⟨by simpa using empty, Decidable.not_not.mp lengths, all⟩, fun all => all.2.2⟩

lemma checksIn_sound (round : Nat) :
    CodeError.ofRound? code.data (round % code.period) [] (code.checksIn round) = none := by
  refine (find?_eq_none_iff.mp code.sound).2.2.1 (code.checksIn round, round % code.period) ?_
  rw [mem_zipIdx_iff_getElem?]
  simp [checksIn, period]

lemma isData_of_mem {c : Check} (mem : c ∈ code.checksIn round)
    {q : Qubit} (acted : q ∈ c.qubits) : code.isData q = true :=
  (ofRound?_eq_none (code.checksIn_sound round)).1 c mem q acted

lemma isData_ancilla {c : Check} (mem : c ∈ code.checksIn round)
    {a : Qubit} (has : c.ancilla = some a) : code.isData a = false :=
  (ofRound?_eq_none (code.checksIn_sound round)).2.1 c mem a has

lemma contents_nodup (round : Nat) : ((code.checksIn round).map (·.content)).Nodup :=
  (ofRound?_eq_none (code.checksIn_sound round)).2.2.1

lemma checksIn_add_period (round : Nat) :
    code.checksIn (round + code.period) = code.checksIn round := by
  simp [checksIn]

lemma checksIn_mod (round : Nat) :
    code.checksIn (round % code.period) = code.checksIn round := by
  simp [checksIn]

variable {d : Detector} (mem : d ∈ code.detectorsIn round)
include mem

lemma detectorsIn_sound : CodeError.ofDetector? code.checks (round % code.period) d = none := by
  refine (find?_eq_none_iff.mp code.sound).2.2.2.1
    (code.detectorsIn round, round % code.period) ?_ d mem
  rw [mem_zipIdx_iff_getElem?]
  simp [detectorsIn]

/-- A detector looks back at most one period, and what it refers to is measured in the round it
refers to. -/
theorem timed_scheduled {t : TimedCheck} (timed : t ∈ d.timed) :
    -(code.period : Int) ≤ t.offset ∧ t.offset ≤ 0 ∧ ∀ r : Nat, (r : Int) = round + t.offset →
        ∃ c ∈ code.checksIn r, t.check.content = c.content := by
  have sound := code.detectorsIn_sound mem
  unfold CodeError.ofDetector? at sound
  split at sound
  · contradiction
  · have faultless := findSome?_eq_none_iff.mp sound t timed
    simp only [CodeError.ofTimed?] at faultless
    split at faultless
    · contradiction
    · next inside =>
        simp only [Bool.or_eq_true, decide_eq_true_eq, not_or, Int.not_lt] at inside
        refine ⟨inside.1, inside.2, ?_⟩
        intro r same
        have slot : (((round % code.period : Nat) : Int) + t.offset) % (code.period : Int) =
            ((r % code.period : Nat) : Int) := by
          rw [Int.natCast_emod, Int.emod_add_emod, ← same, Int.natCast_emod]
        simp only [ite_eq_left_iff, reduceCtorEq, imp_false, not_not, any_eq_true]
          at faultless
        have length : (code.checks.length : Int) = (code.period : Int) := rfl
        rw [length, slot, Int.toNat_natCast] at faultless
        obtain ⟨c, scheduled, alike⟩ := faultless
        have bound : r % code.period < code.checks.length := Nat.mod_lt _ code.period_pos
        refine ⟨c, ?_, by simpa [Check.same] using alike⟩
        simpa [checksIn, getElem?_eq_getElem bound] using scheduled

/-- A detector closes on an outcome of its own round. -/
theorem checksIn_ne_nil : code.checksIn round ≠ [] := by
  obtain ⟨_, ⟨t, closing, now⟩, _⟩ := DetectorError.find?_eq_none.mp d.sound
  obtain ⟨c, listed, _⟩ :=
    (code.timed_scheduled mem (mem_append_right _ closing)).2.2 round (by omega)
  exact ne_nil_of_mem listed

end Code

end SyndromeSchedule
