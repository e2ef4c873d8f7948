import SyndromeSchedule.Proofs.Plan
import SyndromeSchedule.Proofs.Session

/-!
The common grid of a round. Checks that need no qubit twice in a slot share the grid without a
collision: gates in one slot act on different qubits, and the ticks between slots leave room for the
rotations. A start that fits is found, at the latest past the end of everything.
-/

namespace SyndromeSchedule

open List Outcome

/-! Slots of a round. -/

namespace Extracted

variable {e : Extracted} {es : List Extracted} {step : Nat × Interaction}

lemma conflictIn?_eq_none {seen uses : List ((Nat × Qubit) × Product)}
    (h : conflictIn? seen uses = none) :
    (uses.map (·.1)).Nodup ∧ ∀ u ∈ uses, seen.lookup u.1 = none := by
  induction uses generalizing seen with
  | nil => simp
  | cons use rest ih =>
    obtain ⟨place, product⟩ := use
    simp only [conflictIn?] at h
    split at h
    · contradiction
    · next fresh =>
        obtain ⟨distinct, unseen⟩ := ih h
        have later : ∀ u ∈ rest, u.1 ≠ place ∧ seen.lookup u.1 = none := by
          intro u mem
          have lookup := unseen u mem
          rw [lookup_cons] at lookup
          split at lookup
          · contradiction
          · next different => exact ⟨by simpa using different, lookup⟩
        refine ⟨?_, ?_⟩
        · rw [map_cons, nodup_cons]
          refine ⟨fun again => ?_, distinct⟩
          obtain ⟨u, mem, same⟩ := mem_map.mp again
          exact (later u mem).1 same
        · exact forall_mem_cons.mpr ⟨fresh, fun u mem => (later u mem).2⟩

lemma mem_interactions {slot : Nat} {i : Interaction} :
    (slot, i) ∈ e.interactions ↔ e.plan.steps[slot]? = some (some i) := by
  simp only [interactions, mem_filterMap, Option.map_eq_some_iff, Prod.mk.injEq]
  constructor
  · rintro ⟨⟨step, n⟩, mem, j, found, rfl, rfl⟩
    rw [mem_zipIdx_iff_getElem?] at mem
    simp only at found mem
    rw [mem, found]
  · intro found
    exact ⟨(some i, slot), mem_zipIdx_iff_getElem?.mpr found, i, rfl, rfl, rfl⟩

lemma slots_lt (e : Extracted) : e.interactions.Pairwise fun a b => a.1 < b.1 := by
  have ordered : e.plan.steps.zipIdx.Pairwise fun a b => a.2 < b.2 := by
    have indices : (e.plan.steps.zipIdx.map (·.2)).Pairwise (· < ·) := by
      rw [zipIdx_map_snd, ← range_eq_range']
      exact pairwise_lt_range
    exact pairwise_map.mp indices
  refine List.Pairwise.filterMap _ ?_ ordered
  intro a b before x hx y hy
  simp only [Option.map_eq_some_iff] at hx hy
  obtain ⟨_, _, rfl⟩ := hx
  obtain ⟨_, _, rfl⟩ := hy
  exact before

lemma mem_uses_ancilla (slot : Nat) (inside : slot < e.plan.steps.length) :
    ((slot, e.ancilla), e.check.product) ∈ e.uses := by
  simp only [uses, mem_flatMap, mem_map]
  refine ⟨(e.plan.steps[slot], slot), ?_, e.ancilla, .head _, rfl⟩
  rw [mem_zipIdx_iff_getElem?]
  exact getElem?_eq_getElem inside

lemma mem_uses_data {slot : Nat} {i : Interaction} (mem : (slot, i) ∈ e.interactions) :
    ((slot, i.data), e.check.product) ∈ e.uses := by
  have found := mem_interactions.mp mem
  simp only [uses, mem_flatMap, mem_map]
  refine ⟨(some i, slot), mem_zipIdx_iff_getElem?.mpr found, i.data, ?_, rfl⟩
  exact .tail _ (mem_singleton_self _)

/-- Checks of a round that can be measured together. -/
structure Compatible (code : Code) (extracted : List Extracted) : Prop where
  ancilla : ∀ e ∈ extracted, code.isData e.ancilla = false
  data : ∀ e ∈ extracted, ∀ step ∈ e.interactions, code.isData step.2.data = true
  unitary : ∀ e ∈ extracted, ∀ step ∈ e.interactions, step.2.Unitary
  steps : ∀ e ∈ extracted, e.plan.steps ≠ []
  basis : ∀ e ∈ extracted, e.plan.basis ≠ .I
  conflict : conflict? extracted = none

lemma Compatible.apart {code : Code} (h : Compatible code es) :
    es.Pairwise fun e f => e.ancilla ≠ f.ancilla ∧
      ∀ a ∈ e.interactions, ∀ b ∈ f.interactions, a.2.data = b.2.data → a.1 ≠ b.1 := by
  have distinct := (conflictIn?_eq_none h.conflict).1
  rw [map_flatMap, nodup_flatMap] at distinct
  refine List.Pairwise.imp_of_mem ?_ distinct.2
  intro e f he hf disjoint
  have different : ∀ u ∈ e.uses, ∀ v ∈ f.uses, u.1 ≠ v.1 := by
    intro u hu v hv same
    exact disjoint (mem_map_of_mem hu) (mem_map.mpr ⟨v, hv, same.symm⟩)
  refine ⟨?_, ?_⟩
  · intro same
    have first := mem_uses_ancilla (e := e) 0 (length_pos_iff.mpr (h.steps e he))
    have second := mem_uses_ancilla (e := f) 0 (length_pos_iff.mpr (h.steps f hf))
    exact different _ first _ second (by simp [same])
  · rintro ⟨slot, i⟩ ha ⟨slot', j⟩ hb same slots
    simp only at same slots
    exact different _ (mem_uses_data ha) _ (mem_uses_data hb) (by simp [same, slots])

def lead (extracted : List Extracted) : Nat :=
  if (extracted.flatMap interactions).any (·.2.before.isSome) then 1 else 0

def trail (extracted : List Extracted) : Nat :=
  if (extracted.flatMap interactions).any (·.2.after.isSome) then 1 else 0

lemma stride_eq (es : List Extracted) : stride es = 1 + lead es + trail es := rfl

lemma lead_of_before (mem : e ∈ es)
    (inside : step ∈ e.interactions) (rotates : step.2.before.isSome = true) :
    lead es = 1 := by
  have any : (es.flatMap interactions).any (·.2.before.isSome) = true :=
    any_eq_true.mpr ⟨step, mem_flatMap.mpr ⟨e, mem, inside⟩, rotates⟩
  simp [lead, any]

lemma trail_of_after (mem : e ∈ es)
    (inside : step ∈ e.interactions) (rotates : step.2.after.isSome = true) :
    trail es = 1 := by
  have any : (es.flatMap interactions).any (·.2.after.isSome) = true :=
    any_eq_true.mpr ⟨step, mem_flatMap.mpr ⟨e, mem, inside⟩, rotates⟩
  simp [trail, any]

end Extracted

namespace Session

open Extracted

variable {reasons : Halt → Prop} {tick start : Nat} {q ancilla : Qubit} {m : Move} {i : Interaction}
  {es : List Extracted} {o : Occupancy}

/-! Gates on the grid. -/

/-- Gates of a check on a grid. -/
def gridMoves (stride start : Nat) (e : Extracted) : List Move :=
  e.interactions.flatMap fun step => meetingMoves e.ancilla (start + step.1 * stride) step.2

lemma mem_rotationMoves {gate : Option Gate} (mem : m ∈ rotationMoves tick gate q) :
    gate.isSome = true ∧ m.tick = tick ∧ m.qubits = [q] := by
  simp only [rotationMoves, mem_map, Option.mem_toList] at mem
  obtain ⟨g, found, rfl⟩ := mem
  exact ⟨by simp [found], rfl, rfl⟩

lemma mem_meetingMoves (mem : m ∈ meetingMoves ancilla tick i) :
    (m.tick = tick ∧ ∀ q ∈ m.qubits, q = ancilla ∨ q = i.data) ∨
      (i.before.isSome = true ∧ m.tick = tick - 1 ∧ m.qubits = [i.data]) ∨
      (i.after.isSome = true ∧ m.tick = tick + 1 ∧ m.qubits = [i.data]) := by
  rw [meetingMoves, mem_append, mem_cons] at mem
  rcases mem with before | rfl | after
  · exact .inr (.inl (mem_rotationMoves before))
  · refine .inl ⟨rfl, fun q acted => ?_⟩
    simp only at acted
    split_ifs at acted
    · simpa using acted
    · simpa [or_comm] using acted
  · exact .inr (.inr (mem_rotationMoves after))

lemma unitary_of_mem_meetingMoves (unitary : i.Unitary) (mem : m ∈ meetingMoves ancilla tick i) :
    m.key = none ∧ m.gate.isUnitary = true := by
  have rotation : ∀ {t : Nat} {gate : Option Gate} {q : Qubit},
      (∀ g ∈ gate, g.isUnitary = true) → m ∈ rotationMoves t gate q →
        m.key = none ∧ m.gate.isUnitary = true := by
    intro t gate q harmless inside
    simp only [rotationMoves, mem_map, Option.mem_toList] at inside
    obtain ⟨g, found, rfl⟩ := inside
    exact ⟨rfl, harmless g found⟩
  rw [meetingMoves, mem_append, mem_cons] at mem
  rcases mem with before | rfl | after
  · exact rotation unitary.before before
  · exact ⟨rfl, unitary.gate⟩
  · exact rotation unitary.after after

lemma plain_of_mem_meetingMoves (unitary : i.Unitary) (mem : m ∈ meetingMoves ancilla tick i) :
    m.Plain := by
  obtain ⟨key, gate⟩ := unitary_of_mem_meetingMoves unitary mem
  exact ⟨key, Gate.isMeasurement_of_isUnitary gate⟩

lemma qubit_of_mem_meetingMoves (mem : m ∈ meetingMoves ancilla tick i) (acted : q ∈ m.qubits) :
    q = ancilla ∨ q = i.data := by
  rcases mem_meetingMoves mem with ⟨_, qubits⟩ | ⟨_, _, qubits⟩ | ⟨_, _, qubits⟩
  · exact qubits q acted
  · rw [qubits] at acted
    exact .inr (mem_singleton.mp acted)
  · rw [qubits] at acted
    exact .inr (mem_singleton.mp acted)

lemma tick_of_mem_meetingMoves {e : Extracted} (mem : e ∈ es) {step : Nat × Interaction}
    (inside : step ∈ e.interactions) (placed : m ∈ meetingMoves e.ancilla tick step.2) :
    tick ≤ m.tick + lead es ∧ m.tick ≤ tick + trail es := by
  rcases mem_meetingMoves placed with ⟨here, _⟩ | ⟨rotates, here, _⟩ | ⟨rotates, here, _⟩
  · omega
  · have room := lead_of_before mem inside rotates
    omega
  · have room := trail_of_after mem inside rotates
    omega

lemma tick_lt_of_slot_lt {e f : Extracted} (he : e ∈ es) (hf : f ∈ es)
    {a b : Nat × Interaction} (ha : a ∈ e.interactions) (hb : b ∈ f.interactions)
    (slots : a.1 < b.1) {n : Move}
    (hm : m ∈ meetingMoves e.ancilla (start + a.1 * stride es) a.2)
    (hn : n ∈ meetingMoves f.ancilla (start + b.1 * stride es) b.2) :
    m.tick < n.tick := by
  have first := (tick_of_mem_meetingMoves he ha hm).2
  have second := (tick_of_mem_meetingMoves hf hb hn).1
  have wide : (a.1 + 1) * stride es ≤ b.1 * stride es := Nat.mul_le_mul_right _ slots
  rw [Nat.add_mul, Nat.one_mul] at wide
  have room := stride_eq es
  omega

lemma pairwise_meetingMoves (ancilla : Qubit) (pos : i.before.isSome = true → 0 < tick) :
    (meetingMoves ancilla tick i).Pairwise fun a b => a.tick < b.tick := by
  have single : ∀ t gate q, (rotationMoves t gate q).Pairwise fun a b => a.tick < b.tick := by
    intro t gate q
    cases gate with
    | none => exact .nil
    | some g => exact pairwise_singleton ..
  rw [meetingMoves, pairwise_append, pairwise_cons]
  refine ⟨single .., ⟨?_, single ..⟩, ?_⟩
  · intro m after
    have here := (mem_rotationMoves after).2.1
    simp only
    omega
  · intro m before n later
    obtain ⟨rotates, here, _⟩ := mem_rotationMoves before
    have room := pos rotates
    rcases mem_cons.mp later with rfl | after
    · simp only
      omega
    · have there := (mem_rotationMoves after).2.1
      omega

/-- The gates of a round on its grid do not collide. -/
theorem pairwise_gridMoves {code : Code} (compatible : Compatible code es) (pos : 0 < start) :
    (es.flatMap (gridMoves (stride es) start)).Pairwise
      fun a b => ∀ q ∈ a.qubits, q ∈ b.qubits → a.tick ≠ b.tick := by
  rw [pairwise_flatMap]
  refine ⟨fun e he => ?_, ?_⟩
  · rw [gridMoves, pairwise_flatMap]
    refine ⟨fun step _ => ?_, ?_⟩
    · refine (pairwise_meetingMoves e.ancilla fun _ => by omega).imp ?_
      intro a b less _ _ _
      exact ne_of_lt less
    · refine List.Pairwise.imp_of_mem ?_ e.slots_lt
      intro a b ha hb slots m hm n hn _ _ _
      exact ne_of_lt (tick_lt_of_slot_lt he he ha hb slots hm hn)
  · refine List.Pairwise.imp_of_mem ?_ compatible.apart
    rintro e f he hf ⟨ancillas, data⟩ m hm n hn q acted acted' same
    obtain ⟨a, ha, hm⟩ := mem_flatMap.mp hm
    obtain ⟨b, hb, hn⟩ := mem_flatMap.mp hn
    -- gates in one tick belong to one slot, in which the checks share no qubit
    have slots : a.1 = b.1 := by
      rcases Nat.lt_trichotomy a.1 b.1 with lt | eq | lt
      · exact absurd same (ne_of_lt (tick_lt_of_slot_lt he hf ha hb lt hm hn))
      · exact eq
      · exact absurd same.symm (ne_of_lt (tick_lt_of_slot_lt hf he hb ha lt hn hm))
    have data_e := compatible.data e he a ha
    have data_f := compatible.data f hf b hb
    have ancilla_e := compatible.ancilla e he
    have ancilla_f := compatible.ancilla f hf
    rcases qubit_of_mem_meetingMoves hm acted with rfl | rfl <;>
      rcases qubit_of_mem_meetingMoves hn acted' with here | here
    · exact ancillas here
    · rw [here, data_f] at ancilla_e
      contradiction
    · rw [← here, data_e] at ancilla_f
      contradiction
    · exact data a ha b hb here slots

/-! Where the grid starts. -/

lemma allM_eq_ok {α : Type} {f : α → Outcome Bool} {items : List α} :
    items.allM f = .ok true ↔ ∀ a ∈ items, f a = .ok true := by
  induction items with
  | nil => simp [allM, pure, Except.pure]
  | cons a rest ih =>
    simp only [allM, bind_eq_ok, forall_mem_cons, ← ih]
    constructor
    · rintro ⟨b, first, others⟩
      cases b with
      | true => exact ⟨first, others⟩
      | false => cases others
    · rintro ⟨first, others⟩
      exact ⟨true, first, others⟩

lemma allM_meets {α : Type} {f : α → Outcome Bool} {items : List α}
    (h : ∀ a ∈ items, (f a).Meets reasons fun _ => True) :
    (items.allM f).Meets reasons fun _ => True := by
  induction items with
  | nil => exact meets_ok trivial
  | cons a rest ih =>
    simp only [allM]
    refine (h a (.head _)).bind fun b _ => ?_
    cases b with
    | true => exact ih fun b mem => h b (.tail _ mem)
    | false => exact meets_ok trivial

lemma fits_meets (o : Occupancy) (ancilla : Qubit) (i : Interaction) (pos : 0 < tick) :
    (fits o ancilla tick i).Meets reasons fun _ => True := by
  simp only [fits]
  split_ifs
  · have room : (freeBefore o tick i).Meets reasons fun _ => True := by
      simp only [freeBefore]
      split
      · exact meets_ok trivial
      · exact (meets_pred pos trivial).bind fun _ (_ : True) => meets_ok trivial
    exact room.bind fun _ _ => meets_ok trivial
  · exact meets_ok trivial

lemma freeBefore_eq_ok (h : freeBefore o tick i = .ok true) (rotates : i.before.isSome = true) :
    o.isFree (tick - 1) i.data = true := by
  obtain ⟨g, found⟩ := Option.isSome_iff_exists.mp rotates
  simp only [freeBefore, found] at h
  obtain ⟨t, before, h⟩ := of_bind h
  cases tick with
  | zero => cases before
  | succ n =>
    cases before
    exact pure_eq_ok.mp h

lemma fits_eq_ok (h : fits o ancilla tick i = .ok true) (mem : m ∈ meetingMoves ancilla tick i)
    (acted : q ∈ m.qubits) : o.isFree m.tick q = true := by
  simp only [fits] at h
  split_ifs at h with both
  · obtain ⟨free_before, before, h⟩ := of_bind h
    have all := pure_eq_ok.mp h
    simp only [Bool.and_eq_true, Bool.or_eq_true] at both all
    rcases mem_meetingMoves mem with ⟨here, qubits⟩ | ⟨rotates, here, qubits⟩ |
      ⟨rotates, here, qubits⟩
    · rw [here]
      rcases qubits q acted with rfl | rfl
      · exact both.1
      · exact both.2
    · rw [here]
      rw [qubits, mem_singleton] at acted
      rw [all.1] at before
      rw [acted]
      exact freeBefore_eq_ok before rotates
    · rw [here]
      rw [qubits, mem_singleton] at acted
      rw [acted]
      rcases all.2 with none | free
      · rw [Option.isNone_iff_eq_none] at none
        rw [none] at rotates
        contradiction
      · exact free
  · cases h

/-- Every qubit of a grid is free in its tick. -/
def GridFree (o : Occupancy) (extracted : List Extracted) (stride start : Nat) : Prop :=
  ∀ m ∈ extracted.flatMap (gridMoves stride start), ∀ q ∈ m.qubits, o.isFree m.tick q = true

lemma gridFits_eq_ok {stride : Nat} (h : gridFits o es stride start = .ok true) :
    GridFree o es stride start := by
  intro m mem q acted
  obtain ⟨e, he, mem⟩ := mem_flatMap.mp mem
  obtain ⟨step, inside, mem⟩ := mem_flatMap.mp mem
  have all := allM_eq_ok.mp h (e.ancilla, step) (mem_flatMap.mpr ⟨e, he, mem_map_of_mem inside⟩)
  exact fits_eq_ok all mem acted

lemma gridFits_meets (o : Occupancy) (es : List Extracted) (stride : Nat)
    (pos : 0 < start) : (gridFits o es stride start).Meets reasons fun _ => True := by
  refine allM_meets fun use _ => fits_meets o _ _ ?_
  omega

lemma gridFree_of_size_lt (past : o.size < start) : GridFree o es (stride es) start := by
  intro m mem q _
  obtain ⟨e, he, mem⟩ := mem_flatMap.mp mem
  obtain ⟨step, inside, mem⟩ := mem_flatMap.mp mem
  have room := (tick_of_mem_meetingMoves he inside mem).1
  have narrow : lead es ≤ 1 := by
    simp only [lead]
    split_ifs <;> omega
  exact Occupancy.isFree_of_size_le (by omega) q

lemma searchStart_eq_ok {steps found : Nat} (enough : o.size < start + steps)
    (h : searchStart o es (stride es) steps start = .ok found) :
    start ≤ found ∧ GridFree o es (stride es) found := by
  induction steps generalizing start with
  | zero =>
    cases h
    exact ⟨le_rfl, gridFree_of_size_lt enough⟩
  | succ steps ih =>
    obtain ⟨b, tried, h⟩ := of_bind h
    cases b with
    | true =>
      cases h
      exact ⟨le_rfl, gridFits_eq_ok tried⟩
    | false =>
      obtain ⟨later, free⟩ := ih (by omega) h
      exact ⟨by omega, free⟩

lemma gridStart_eq_ok {found : Nat} (h : gridStart o es (stride es) start = .ok found) :
    start ≤ found ∧ GridFree o es (stride es) found :=
  searchStart_eq_ok (by omega) h

lemma searchStart_meets (o : Occupancy) (es : List Extracted) (stride steps : Nat)
    (pos : 0 < start) :
    (searchStart o es stride steps start).Meets reasons fun _ => True := by
  induction steps generalizing start with
  | zero => exact meets_ok trivial
  | succ steps ih =>
    refine (gridFits_meets o es stride pos).bind fun b _ => ?_
    cases b with
    | true => exact meets_ok trivial
    | false => exact ih (by omega)

lemma gridStart_meets (o : Occupancy) (es : List Extracted) (pos : 0 < start) :
    (gridStart o es (stride es) start).Meets reasons fun found =>
      start ≤ found ∧ GridFree o es (stride es) found :=
  (searchStart_meets o es _ _ pos).strengthen fun _ result _ => gridStart_eq_ok result

end Session

end SyndromeSchedule
