import Mathlib.Data.List.Perm.Basic
import SyndromeSchedule.Proofs.Expansion
import SyndromeSchedule.Proofs.Expected

/-!
Labels of the outcomes of a store: which check each of them belongs to, in the order of the program.
What is measured is the check of the label, and detectors refer to outcomes whose labels are those
of their keys.
-/

namespace SyndromeSchedule

open List

variable {α β : Type} {R : α → β → Prop} {xs : List α} {ys : List β}

/-- How an outcome comes from a check: on its ancilla, on its only qubit, or as the product of its
letters. Qubits are given by their numbers. -/
def Check.MeasuredAs (c : Check) (numbering : List Qubit) (outcome : Gate × Target) : Prop :=
  match c.ancilla, c.members with
  | some a, _ => (∃ basis, Gate.measuring basis = .ok outcome.1) ∧
      ∃ n, outcome.2 = .qubit n ∧ numbering[n]? = some a
  | none, [m] => Gate.measuring m.operator.letter = .ok outcome.1 ∧
      ∃ n, outcome.2 = .qubit n ∧ numbering[n]? = some m.qubit
  | none, members => outcome.1 = .MPP ∧ ∃ factors, outcome.2 = .product factors ∧
      Forall₂ (fun f m => f.1 = m.operator.letter ∧ numbering[f.2]? = some m.qubit)
        factors members

lemma forall₂_and {S : α → β → Prop} (h : Forall₂ R xs ys) (h' : Forall₂ S xs ys) :
    Forall₂ (fun x y => R x y ∧ S x y) xs ys := by
  induction h with
  | nil => exact .nil
  | cons first _ ih =>
    cases h' with
    | cons first' rest' => exact .cons ⟨first, first'⟩ (ih rest')

namespace Store

variable {made : List (Check × Nat)} {keys : List (List Key)} {s : Store} {order : List Nat}
  {handle t : Nat}

lemma Account.made_of_entry (account : Account made keys s) {key : Key}
    (entry : s.record.entry? handle = some (key, t)) :
    ∃ e, made[handle]? = some e ∧ key = Key.of e.1 (Word.signed e.2) := by
  have listed := congrArg (·[handle]?) account.record
  simp only [getElem?_map] at listed
  rw [← Record.entry_eq_reverse, entry] at listed
  obtain ⟨e, found, same⟩ := Option.map_eq_some_iff.mp listed.symm
  exact ⟨e, found, same.symm⟩

lemma Account.length_made (account : Account made keys s) : made.length = s.record.size := by
  have lengths := congrArg length account.record
  simpa [Record.size] using lengths.symm

lemma Writes.size_record {log : List Write} (writes : Writes {} log s) :
    s.record.size = (outcomes log).length := by
  induction writes with
  | refl => rfl
  | number _ _ _ ih => exact ih
  | @put log mid w _ _ ih =>
    rw [record_put, outcomes_append, length_append, ← ih]
    cases w with
    | gate u =>
      cases filed : u.key with
      | none | some key => simp [Write.file, outcomes, uses, filed]
    | noise _ _ _ | note _ _ => simp [Write.file, outcomes, uses]

lemma Writes.outcome_of_mem {log : List Write} (writes : Writes {} log s)
    {op : GateOp} (mem : op ∈ (s.tickAt t).gates) (has : op.handle = some handle) :
    ∃ u, (outcomes log)[handle]? = some u ∧ op = u.op handle := by
  induction writes with
  | refl => simp [tickAt] at mem
  | number _ _ _ ih => exact ih mem
  | @put log mid w before _ ih =>
    rcases mem_gates_put.mp mem with old | ⟨u, rfl, here, rfl⟩
    · obtain ⟨u, found, same⟩ := ih old
      refine ⟨u, ?_, same⟩
      rwa [outcomes_append, getElem?_append_left (lt_of_getElem? found)]
    · simp only [Use.op, Option.map_eq_some_iff] at has
      obtain ⟨key, filed, rfl⟩ := has
      refine ⟨u, ?_, rfl⟩
      have single : outcomes [.gate u] = [u] := by simp [outcomes, uses, filed]
      rw [outcomes_append, single, before.size_record]
      simp

/-- The instruction of a gate measures the product of its check. -/
lemma measuredAs_of_measuredBy {c : Check} {u : Use} {numbering : List Qubit} {target : Target}
    (by_gate : c.MeasuredBy u.move) (names : Names numbering u.target.indices u.qubits)
    (found : measured u.target = .ok target) : c.MeasuredAs numbering (u.gate, target) := by
  have single : ∀ q, u.qubits = [q] → u.target.letters = [] →
      ∃ n, target = .qubit n ∧ numbering[n]? = some q := by
    intro q qubits letters
    rw [qubits] at names
    cases kind : u.target with
    | qubits indices =>
      rw [kind] at names found
      cases names with
      | cons named rest =>
        cases rest
        cases found
        exact ⟨_, rfl, named⟩
    | product factors =>
      rw [kind] at names letters
      have empty : factors = [] := by simpa [GateTarget.letters] using letters
      rw [empty] at names
      cases names
  simp only [Check.MeasuredBy, Session.Directly, Use.move] at by_gate
  cases has : c.ancilla with
  | some a =>
    rw [has] at by_gate
    obtain ⟨qubits, letters, basis⟩ := by_gate
    simp only [Check.MeasuredAs, has]
    exact ⟨basis, single a qubits letters⟩
  | none =>
    rw [has] at by_gate
    obtain ⟨qubits, how⟩ := by_gate
    cases members : c.members with
    | nil => exact absurd members c.members_ne_nil
    | cons m others =>
      cases others with
      | nil =>
        simp only [members] at how
        simp only [Check.MeasuredAs, has, members]
        exact ⟨how.1, single m.qubit (by simp [qubits, Check.qubits, members]) how.2⟩
      | cons m' rest =>
        simp only [members] at how
        simp only [Check.MeasuredAs, has, members]
        refine ⟨how.1, ?_⟩
        cases kind : u.target with
        | qubits indices =>
          rw [kind] at how
          simp [GateTarget.letters, Check.word, members] at how
        | product factors =>
          rw [kind] at names found how
          cases found
          have letters : factors.map (·.1) = (m :: m' :: rest).map (·.operator.letter) := by
            simpa [GateTarget.letters, Check.word, members] using how.2
          rw [qubits, Check.qubits, members] at names
          simp only [Names, GateTarget.indices, forall₂_map_left_iff,
            forall₂_map_right_iff] at names
          rw [maps_eq_iff] at letters
          exact ⟨factors, rfl, forall₂_and letters names⟩

/-- Checks and rounds that handles lead to. -/
def labelsOf (made : List (Check × Nat)) (order : List Nat) : List (Check × Nat) :=
  order.filterMap fun h => made[h]?

lemma labelsOf_append (made : List (Check × Nat)) (order later : List Nat) :
    labelsOf made (order ++ later) = labelsOf made order ++ labelsOf made later :=
  filterMap_append

lemma forall₂_labelsOf {R : Nat → β → Prop} {S : Check × Nat → β → Prop} {items : List β}
    (h : Forall₂ R order items) (labelled : ∀ n b, R n b → ∃ e, made[n]? = some e ∧ S e b) :
    Forall₂ S (labelsOf made order) items := by
  induction h with
  | nil => exact .nil
  | cons first _ ih =>
    obtain ⟨e, found, here⟩ := labelled _ _ first
    rw [labelsOf, filterMap_cons_some found]
    exact .cons here ih

lemma Account.outcomes_stretch (account : Account made keys s) (start stop : Nat) :
    Forall₂ (fun e outcome => e.1.MeasuredAs s.qubits outcome)
      (labelsOf made (s.orderIn start stop)) (Instruction.outcomesOf (s.stretch start stop)) := by
  have performed := outcomesOf_ticks (s.orderBelow start) (account.sound.regular_between start stop)
  obtain ⟨log, writes, adds⟩ := account
  refine forall₂_labelsOf performed ?_
  rintro handle ⟨gate, target⟩ ⟨_, ticked, op, mem, has, rfl, found⟩
  obtain ⟨t, _, rfl⟩ := mem_map.mp ticked
  obtain ⟨u, listed, rfl⟩ := writes.outcome_of_mem mem has
  obtain ⟨bound, same⟩ := List.getElem?_eq_some_iff.mp listed
  have used : u ∈ outcomes log := mem_of_getElem? listed
  have named := writes.named (.gate u) (mem_uses.mp (mem_filter.mp used).1)
  have length := adds.made.length_eq
  have files : Use.Files (made.get ⟨handle, by omega⟩) u := by
    rw [← same]
    exact adds.made.get (by omega) bound
  exact ⟨_, getElem?_eq_getElem (by omega), measuredAs_of_measuredBy files.2 named found⟩

lemma getElem_labelsOf (known : ∀ h ∈ order, h < made.length) (i : Nat) :
    (labelsOf made order)[i]? = order[i]?.bind fun h => made[h]? := by
  induction order generalizing i with
  | nil => rfl
  | cons h rest ih =>
    obtain ⟨e, found⟩ : ∃ e, made[h]? = some e := ⟨_, getElem?_eq_getElem (known h (by simp))⟩
    rw [labelsOf, filterMap_cons_some found]
    cases i with
    | zero => simp [found]
    | succ i =>
      rw [getElem?_cons_succ, getElem?_cons_succ]
      exact ih (fun k mem => known k (.tail _ mem)) i

lemma length_labelsOf (known : ∀ h ∈ order, h < made.length) :
    (labelsOf made order).length = order.length := by
  induction order with
  | nil => rfl
  | cons h rest ih =>
    obtain ⟨e, found⟩ : ∃ e, made[h]? = some e := ⟨_, getElem?_eq_getElem (known h (by simp))⟩
    have others := ih fun k mem => known k (.tail _ mem)
    rw [labelsOf, filterMap_cons_some found, length_cons, length_cons, ← others]
    rfl

lemma Account.lt_length (account : Account made keys s) {n h : Nat}
    (mem : h ∈ s.orderBelow n) : h < made.length := by
  obtain ⟨key, t, entry, _⟩ := account.sound.mem_orderBelow.mp mem
  obtain ⟨e, found, _⟩ := account.made_of_entry entry
  exact lt_of_getElem? found

lemma Account.label_of_entry (account : Account made keys s)
    (words : ∀ e ∈ made, e.2 < Word.half) {n : Nat} {key : Key}
    (entry : s.record.entry? handle = some (key, t)) (below : t < n) :
    ∃ e, (labelsOf made (s.orderBelow n))[(s.orderBelow n).idxOf handle]? = some e ∧
      key = Key.of e.1 e.2 := by
  obtain ⟨e, found, same⟩ := account.made_of_entry entry
  have mem : handle ∈ s.orderBelow n := account.sound.mem_orderBelow.mpr ⟨key, t, entry, below⟩
  refine ⟨e, ?_, ?_⟩
  · rwa [getElem_labelsOf fun h inside => account.lt_length inside, getElem?_idxOf mem]
  · rw [same, Word.signed_of_lt (words e (mem_of_getElem? found))]

end Store

/-- Outcomes, by number, are those of some keys. -/
def Reads (labels : List (Check × Nat)) (keys : List Key) (reading : List Int) : Prop :=
  Forall₂ (fun key (i : Int) => ∃ (n : Nat) (e : Check × Nat), i = n ∧
    labels[n]? = some e ∧ key = Key.of e.1 e.2) keys reading

lemma filter_section_perm (f : α → Nat) (items : List α) (start n : Nat) :
    ((List.range' start n).flatMap fun t => items.filter (f · = t)).Perm
      (items.filter fun a => start ≤ f a && f a < start + n) := by
  induction n with
  | zero =>
    have none : items.filter (fun a => start ≤ f a && f a < start + 0) = [] := by
      rw [filter_eq_nil_iff]
      intro a _
      simp only [Bool.and_eq_true, decide_eq_true_eq]
      omega
    rw [none]
    exact .refl _
  | succ n ih =>
    have split := filter_append_perm (f · < start + n)
      (items.filter fun a => start ≤ f a && f a < start + (n + 1))
    rw [filter_filter, filter_filter] at split
    rw [range'_1_concat, flatMap_append, flatMap_singleton]
    refine (ih.append_right _).trans (.trans (.of_eq ?_) split)
    congr 1
    · refine filter_congr fun a _ => ?_
      rw [Bool.eq_iff_iff]
      simp only [Bool.and_eq_true, decide_eq_true_eq]
      omega
    · refine filter_congr fun a _ => ?_
      rw [Bool.eq_iff_iff]
      simp only [Bool.and_eq_true, Bool.not_eq_true', decide_eq_true_eq, decide_eq_false_iff_not]
      omega

lemma forall₂_of_mem {S : α → β → Prop}
    (h : Forall₂ R xs ys) (step : ∀ x ∈ xs, ∀ y ∈ ys, R x y → S x y) :
    Forall₂ S xs ys := by
  induction h with
  | nil => exact .nil
  | cons first _ ih =>
    exact .cons (step _ (.head _) _ (mem_cons_self ..) first) (ih fun x inside y mem =>
        step x (.tail _ inside) y (.tail _ mem))

lemma forall₂_filter {p : α → Bool} {q : β → Bool} (h : Forall₂ R xs ys)
    (same : ∀ x y, R x y → p x = q y) :
    Forall₂ (fun x y => R x y ∧ q y = true) (xs.filter p) (ys.filter q) := by
  induction h with
  | nil => exact .nil
  | @cons x y _ _ first _ ih =>
    rw [filter_cons, filter_cons, same x y first]
    split_ifs with kept
    · exact .cons ⟨first, kept⟩ ih
    · exact ih

namespace Store

variable {made : List (Check × Nat)} {keys : List (List Key)} {s : Store}

lemma detected_perm {log : List Write} (writes : Writes {} log s.unmarked) (start stop : Nat) :
    (detected (s.between start stop)).Perm
      (((detectors log).filter fun e => start ≤ e.1 && e.1 < start + (stop - start)).map
        (·.2.handles)) := by
  have notes_of : ∀ t, (s.tickAt t).notes = ((notes log).filter (·.1 = t)).map (·.2) := by
    intro t
    have noted := writes.notes_eq t
    have blank : (({} : Store).tickAt t).notes = [] := by simp [tickAt]
    rwa [blank, nil_append] at noted
  have handles_of : ∀ es : List (Nat × Note), (es.map (·.2)).filterMap Note.detected? =
        (es.filter (·.2.isDetector)).map (·.2.handles) := by
    intro es
    induction es with
    | nil => rfl
    | cons e rest ih =>
      obtain ⟨t, note⟩ := e
      cases note with
      | detector handles =>
        exact congrArg (handles :: ·) ih
      | observable index handles =>
        exact ih
  have each : detected (s.between start stop) = ((range' start (stop - start)).flatMap fun t =>
        (detectors log).filter (·.1 = t)).map (·.2.handles) := by
    rw [detected, between, flatMap_map, map_flatMap]
    refine flatMap_congr fun t _ => ?_
    rw [notes_of, handles_of, detectors, filter_filter, filter_filter]
    simp only [Bool.and_comm]
  rw [each]
  exact (filter_section_perm (·.1) (detectors log) start (stop - start)).map _

/-- The detectors of some ticks, read where the ticks stand in a program: their outcomes have the
labels of their keys, moved by as many rounds as the labels are. -/
theorem Account.readings_stretch (account : Account made keys s)
    (words : ∀ e ∈ made, e.2 < Word.half) {start stop : Nat} (ordered : start ≤ stop)
    (p : List Key → Bool)
    (places : ∀ k e, s.record.Refers k e → k ≠ [] → (p k = true ↔ start ≤ e.1 ∧ e.1 < stop))
    (labels : List (Check × Nat)) (δ rounds : Nat)
    (moved : ∀ i e, (labelsOf made (s.orderBelow stop))[i]? = some e →
      labels[i + δ]? = some (postpone rounds e)) :
    ∃ found : List (List Key), found.Perm (keys.filter fun k => k ≠ [] && p k) ∧
      Forall₂ (Reads labels) (found.map (List.map (Key.later rounds)))
        ((Instruction.readings ((s.orderBelow start).length + δ) (s.stretch start stop)).filter
          (· ≠ [])) := by
  have whole : s.orderBelow start ++ (s.between start stop).flatMap handlesIn <+:
      s.orderBelow stop := by
    rw [s.orderBelow_append ordered]
    exact prefix_rfl
  have readings := readings_ticks (account.sound.regular_between start stop)
    (account.sound.dated_between start stop) whole δ
  have label : ∀ handle t key, s.record.entry? handle = some (key, t) → t < stop →
      ∃ e, (labelsOf made (s.orderBelow stop))[(s.orderBelow stop).idxOf handle]? = some e ∧
        key = Key.of e.1 e.2 := fun _ _ _ => account.label_of_entry words
  obtain ⟨log, writes, adds⟩ := account
  -- keys and detectors are told apart in the same way
  have apart : ∀ k e, s.record.Refers k e →
      (k ≠ [] && p k) = (e.2.handles ≠ [] && (start ≤ e.1 && e.1 < start + (stop - start))) := by
    rintro k ⟨t, _⟩ ⟨handles, rfl, entries, latest⟩
    have both : k = [] ↔ handles = [] := by
      rw [← length_eq_zero_iff, ← length_eq_zero_iff, entries.length_eq]
    by_cases none : k = []
    · simp [none, both.mp none, Note.handles]
    · have here := places k (t, .detector handles) ⟨handles, rfl, entries, latest⟩ none
      have some_handle : handles ≠ [] := fun h => none (both.mpr h)
      rw [Bool.eq_iff_iff]
      simp only [none, some_handle, Note.handles, Bool.and_eq_true, decide_eq_true_eq, ne_eq,
        not_false_eq_true, true_and, here]
      omega
  have related := forall₂_filter adds.detectors apart
  have entries : Forall₂ (Forall₂ fun key h => ∃ t < stop,
      s.record.entry? h = some (key, t)) (keys.filter fun k => k ≠ [] && p k)
      (((detectors log).filter fun e => e.2.handles ≠ [] &&
        (start ≤ e.1 && e.1 < start + (stop - start))).map (·.2.handles)) := by
    rw [forall₂_map_right_iff]
    refine related.imp ?_
    rintro k ⟨t, _⟩ ⟨⟨handles, rfl, found, latest⟩, inside⟩
    simp only [Bool.and_eq_true, decide_eq_true_eq] at inside
    refine forall₂_of_mem found fun key _ h mem entry => ?_
    obtain ⟨t', entry⟩ := entry
    have before := latest.le_of_entry mem entry
    exact ⟨t', by omega, entry⟩
  have listed : ((detected (s.between start stop)).filter (· ≠ [])).Perm
      (((detectors log).filter fun e => e.2.handles ≠ [] &&
        (start ≤ e.1 && e.1 < start + (stop - start))).map (·.2.handles)) := by
    refine ((detected_perm writes start stop).filter _).trans (.of_eq ?_)
    rw [filter_map, filter_filter]
    rfl
  obtain ⟨found, aligned, same⟩ := perm_comp_forall₂ listed entries.flip
  refine ⟨found, same, ?_⟩
  have kept : ((detected (s.between start stop)).map fun handles =>
      handles.map fun h => (((s.orderBelow stop).idxOf h + δ : Nat) : Int)).filter (· ≠ []) =
      ((detected (s.between start stop)).filter (· ≠ [])).map fun handles =>
        handles.map fun h => (((s.orderBelow stop).idxOf h + δ : Nat) : Int) := by
    rw [filter_map]
    congr 1
    refine filter_congr fun handles _ => ?_
    simp
  rw [stretch, readings, kept, forall₂_map_left_iff, forall₂_map_right_iff]
  refine aligned.flip.imp fun k handles referred => ?_
  rw [Reads, forall₂_map_left_iff, forall₂_map_right_iff]
  refine Forall₂.imp ?_ referred
  rintro key h ⟨t, below, entry⟩
  obtain ⟨e, found, rfl⟩ := label h t key entry below
  exact ⟨_, postpone rounds e, rfl, moved _ e found, rfl⟩

end Store

end SyndromeSchedule
