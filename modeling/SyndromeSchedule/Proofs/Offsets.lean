import SyndromeSchedule.Proofs.Calls
import SyndromeSchedule.Proofs.Expansion
import SyndromeSchedule.Proofs.Layers

/-!
Offsets of stores that are written in any order. Outcomes are filed as they are asked for, emitted
tick by tick and grouped within a tick, so their place in a program is not their place in the
record. A store is emitted exactly if its annotations look back, and every offset then leads to the
outcome that was meant; entries of the record that no gate has stay out of the program.
-/

namespace SyndromeSchedule

open List

namespace Instruction

def isTick : Instruction → Bool
  | tick => true
  | _ => false

lemma isTick_of_isInner {i : Instruction} (inner : i.isInner = true) : i.isTick = false := by
  cases i with
  | tick => cases inner
  | _ => rfl

/-- Outcomes with the ticks in which they are given. -/
def timed : Nat → List Instruction → List (Nat × Gate × Target)
  | _, [] => []
  | t, i :: rest =>
    i.yields.map (fun outcome => (t, outcome)) ++ timed (if i.isTick then t + 1 else t) rest

lemma timed_append {first : List Instruction} (within : ∀ i ∈ first, i.isTick = false) (t : Nat)
    (later : List Instruction) :
    timed t (first ++ later) =
      (outcomesOf first).map (fun outcome => (t, outcome)) ++ timed t later := by
  induction first with
  | nil => rfl
  | cons i rest ih =>
    have here := within i (.head _)
    have others := ih fun j mem => within j (.tail _ mem)
    simp [timed, here, others, outcomesOf]

lemma timed_concat_tick (t : Nat) (is : List Instruction) :
    timed t (is ++ [tick]) = timed t is := by
  induction is generalizing t with
  | nil => rfl
  | cons i rest ih => rw [cons_append, timed, ih, timed]

end Instruction

namespace Store

open Instruction

variable {op : GateOp} {s : Store} {t h : Nat} {calls : List Call} {order : List Nat}
  {ticks : List Tick}

/-! Gates that calls write. -/

/-- Gates that measure are added as measurements and no others are. -/
def Call.IsProper : Call → Bool
  | gate _ g _ => !g.isMeasurement
  | measure _ g _ _ _ => g.isMeasurement
  | _ => true

/-- What a call can put into a tick. -/
def Call.Makes (op : GateOp) : Call → Prop
  | gate _ g qubits => op.gate = g ∧ op.flip = none ∧ op.handle = none ∧
      ∃ indices, op.target = .qubits indices ∧ indices.length = qubits.length
  | measure _ g _ flip _ => op.gate = g ∧ op.flip = flip ∧ op.handle.isSome ∧
      ∃ n, op.target = .qubits [n]
  | product _ _ flip _ => op.gate = .MPP ∧ op.flip = flip ∧ op.handle.isSome ∧
      ∃ factors, op.target = .product factors
  | _ => False

lemma Call.Makes.regular {call : Call} (makes : call.Makes op) (proper : call.IsProper = true) :
    Regular op := by
  cases call with
  | gate tick g qubits =>
    obtain ⟨rfl, _, unfiled, _⟩ := makes
    have quiet : op.gate.isMeasurement = false := by simpa [IsProper] using proper
    exact ⟨by rw [quiet, unfiled]; rfl, by simp [quiet]⟩
  | measure tick g q flip key =>
    obtain ⟨rfl, _, filed, n, target⟩ := makes
    exact ⟨by rw [filed]; exact proper, fun _ => ⟨.qubit n, by rw [target]; rfl⟩⟩
  | product tick factors flip key =>
    obtain ⟨is_product, _, filed, letters, target⟩ := makes
    exact ⟨by rw [filed, is_product]; rfl, fun _ => ⟨.product letters, by rw [target]; rfl⟩⟩
  | _ => exact absurd makes id

lemma tickAt_indexAll (s : Store) (qubits : List Qubit) (t : Nat) :
    (s.indexAll qubits).1.tickAt t = s.tickAt t := by
  rw [indexAll_eq]
  rfl

lemma mem_gates_addGate {tick : Nat} {gate : Gate} {qubits : List Qubit}
    (mem : op ∈ ((s.addGate tick gate qubits).state.tickAt t).gates) :
    op ∈ (s.tickAt t).gates ∨ op = (s.gateUse tick gate qubits).op 0 := by
  rw [addGate_eq] at mem
  rcases (s.indexAll qubits).1.claim_cases tick (s.gateUse tick gate qubits).target with
    ⟨_, overflows⟩ | ⟨q, refused⟩ | ⟨_, claimed⟩
  · rw [overflows] at mem
    exact .inl (by rw [← s.tickAt_indexAll qubits]; exact mem)
  · rw [refused] at mem
    exact .inl (by rw [← s.tickAt_indexAll qubits]; exact mem)
  · rw [claimed] at mem
    have written : op ∈ (((s.indexAll qubits).1.put
        (.gate (s.gateUse tick gate qubits))).tickAt t).gates := mem
    rcases mem_gates_put.mp written with old | ⟨u, same, _, rfl⟩
    · exact .inl (by rw [← s.tickAt_indexAll qubits]; exact old)
    · cases same
      exact .inr rfl

lemma mem_gates_addOutcome (s : Store) (qubits : List Qubit) (u : Use) {key : Key}
    (files : u.key = some key) (t : Nat) (op : GateOp)
    (mem : op ∈ (((s.indexAll qubits).1.addOutcome
      u.tick u.gate u.target u.flip key).state.tickAt t).gates) :
    op ∈ (s.tickAt t).gates ∨ ∃ handle, op = u.op handle := by
  rcases (s.indexAll qubits).1.addOutcome_cases files with
    ⟨_, overflows⟩ | ⟨q, refused⟩ | ⟨_, made⟩
  · rw [overflows, tickAt_indexAll] at mem
    exact .inl mem
  · rw [refused, tickAt_indexAll] at mem
    exact .inl mem
  · rw [made] at mem
    rcases mem_gates_put.mp mem with old | ⟨_, same, _, rfl⟩
    · rw [tickAt_indexAll] at old
      exact .inl old
    · cases same
      exact .inr ⟨_, rfl⟩

/-- Gates of a tick were there before the call or are made by it. -/
lemma mem_gates_run {call : Call} (mem : op ∈ ((call.run s).state.tickAt t).gates) :
    op ∈ (s.tickAt t).gates ∨ call.Makes op := by
  cases call with
  | number q => exact .inl (by rw [← s.tickAt_indexAll [q]]; exact mem)
  | gate tick g qubits =>
    refine (mem_gates_addGate mem).imp id ?_
    rintro rfl
    have names := (indexAll_numbering qubits s).2
    exact ⟨rfl, rfl, rfl, _, rfl, names.length_eq⟩
  | measure tick g q flip key =>
    refine (s.mem_gates_addOutcome [q] (s.measureUse tick g q flip key) rfl t op mem).imp id ?_
    rintro ⟨handle, rfl⟩
    exact ⟨rfl, rfl, rfl, _, rfl⟩
  | product tick factors flip key =>
    have written := s.mem_gates_addOutcome (factors.map (·.1))
      (s.productUse tick factors flip key) rfl t op
    simp only [Call.run, addProduct] at mem
    refine (written mem).imp id ?_
    rintro ⟨handle, rfl⟩
    exact ⟨rfl, rfl, rfl, _, rfl⟩
  | file key tick => exact .inl mem
  | noise tick placement channel parameters qubits =>
    simp only [Call.run, addNoise, ensure] at mem
    split_ifs at mem
    · exact .inl (by rw [← s.tickAt_indexAll qubits]; exact mem)
    · have written : op ∈ (((s.indexAll qubits).1.put
          (.noise tick placement ⟨channel, parameters, (s.indexAll qubits).2⟩)).tickAt t).gates :=
        mem
      rcases mem_gates_put.mp written with old | ⟨_, same, _⟩
      · exact .inl (by rw [← s.tickAt_indexAll qubits]; exact old)
      · cases same
  | note tick n =>
    simp only [Call.run, annotate, ensure] at mem
    split_ifs at mem
    · exact .inl mem
    · have written : op ∈ ((s.put (.note tick n)).tickAt t).gates := mem
      rcases mem_gates_put.mp written with old | ⟨_, same, _⟩
      · exact .inl old
      · cases same
  | mark start stop repetitions =>
    simp only [Call.run, markRepeat] at mem
    split_ifs at mem <;> exact .inl mem

lemma mem_gates_after (mem : op ∈ ((s.after calls).tickAt t).gates) :
    op ∈ (s.tickAt t).gates ∨ ∃ call ∈ calls, call.Makes op := by
  induction calls generalizing s with
  | nil => exact .inl mem
  | cons call rest ih =>
    rcases ih mem with old | ⟨later, inside, makes⟩
    · refine (mem_gates_run old).imp id fun makes => ⟨call, .head _, makes⟩
    · exact .inr ⟨later, .tail _ inside, makes⟩

lemma exists_makes (mem : op ∈ ((empty.after calls).tickAt t).gates) :
    ∃ call ∈ calls, call.Makes op := by
  refine (mem_gates_after mem).resolve_left ?_
  simp [tickAt, empty]

lemma regular_after (proper : ∀ call ∈ calls, call.IsProper = true)
    (mem : op ∈ ((empty.after calls).tickAt t).gates) : Regular op := by
  obtain ⟨call, inside, makes⟩ := exists_makes mem
  exact makes.regular (proper call inside)

lemma Intact.nodup_handles (intact : s.Intact) (t : Nat) :
    ((s.tickAt t).gates.filterMap (·.handle)).Nodup := by
  rw [List.Nodup, pairwise_filterMap, pairwise_iff_getElem]
  rintro i j hi hj before h has _ has' rfl
  have same := (intact.unshared t i t j h _ _ (getElem?_eq_getElem hi)
    (getElem?_eq_getElem hj) has has').2
  omega

lemma Intact.nodup_orderBelow (intact : s.Intact) (n : Nat) : (s.orderBelow n).Nodup := by
  refine Store.nodup_orderBelow intact.nodup_handles (fun here there => ?_) n
  obtain ⟨op, inside, has⟩ := mem_handlesIn_iff.mp here
  obtain ⟨op', inside', has'⟩ := mem_handlesIn_iff.mp there
  obtain ⟨i, found⟩ := mem_iff_getElem?.mp inside
  obtain ⟨i', found'⟩ := mem_iff_getElem?.mp inside'
  exact (intact.unshared _ i _ i' _ op op' found found' has has').1

lemma Intact.arranged (intact : s.Intact) (n : Nat) : s.Arranged (s.orderBelow n) := by
  refine ⟨intact.nodup_orderBelow n, fun h mem => ?_⟩
  obtain ⟨t, _, here⟩ := mem_flatMap.mp mem
  obtain ⟨op, inside, has⟩ := mem_handlesIn_iff.mp here
  exact (intact.filed t op inside h has).1

lemma Intact.emit_cases (intact : s.Intact)
    (regular : ∀ t, ∀ op ∈ (s.tickAt t).gates, Regular op) (layout : Layout) :
    (s.LooksBack ∧ s.emit layout = .ok (s.program layout)) ∨
      ∃ halt, s.Blocked 0 s.size halt ∧ s.emit layout = .error halt :=
  Store.emit_cases intact.arranged regular
    (fun region marked => (intact.region region marked).imp le_of_lt id) layout

/-! Where offsets lead. -/

/-- An offset is negative and leads, from a number of outcomes, to the place of a handle in an
order. -/
def LeadsTo (order : List Nat) (count h : Nat) (offset : Int) : Prop :=
  offset < 0 ∧ ∃ n : Nat, (count : Int) + offset = n ∧ order[n]? = some h

/-- An annotation of a program is a note whose offsets lead to its handles. -/
def Refers (order : List Nat) (note : Note) (a : Nat × Option Nat × List Int) : Prop :=
  a.2.1 = note.subject ∧ Forall₂ (LeadsTo order a.1) note.handles a.2.2

lemma refers_of_counts {full : List Nat} {note : Note} {a : Nat × Option Nat × List Int}
    (h : Counts full 0 note a) : Refers full note a := by
  refine ⟨h.1, h.2.imp ?_⟩
  rintro handle offset ⟨negative, inside, place⟩
  exact ⟨negative, full.idxOf handle, place, getElem?_idxOf inside⟩

lemma timed_ticks (order : List Nat) (regular : ∀ t ∈ ticks, ∀ op ∈ t.gates, Regular op)
    (start : Nat) :
    Forall₂ (fun h e => ∃ i t, ticks[i]? = some t ∧ e.1 = start + i ∧ Performs t h e.2)
      (ticks.flatMap handlesIn) (timed start (ticksInstructions order ticks)) := by
  induction ticks generalizing order start with
  | nil => exact .nil
  | cons t rest ih =>
    have first := outcomesOf_tick (order ++ handlesIn t) (regular t (.head _))
    have others := ih (order ++ handlesIn t) (fun u mem => regular u (.tail _ mem)) (start + 1)
    rw [ticksInstructions, timed_append fun i mem => isTick_of_isInner
      (isInner_tickInstructions i mem), flatMap_cons]
    refine rel_append ?_ (others.imp ?_)
    · rw [forall₂_map_right_iff]
      exact first.imp fun h outcome performed => ⟨0, t, rfl, rfl, performed⟩
    · rintro h e ⟨i, u, found, at_tick, performed⟩
      exact ⟨i + 1, u, found, by omega, performed⟩

lemma timed_program (s : Store) (layout : Layout) :
    timed 0 (s.program layout).instructions = timed 0 s.bodyInstructions := by
  obtain ⟨places, coords, ends⟩ := s.program_cases layout
  have within : ∀ i ∈ places, i.isTick = false := by
    intro i mem
    obtain ⟨_, _, rfl⟩ := coords i mem
    rfl
  have whole : timed 0 (places ++ s.bodyInstructions) = timed 0 s.bodyInstructions := by
    rw [timed_append within, (silent_of_coords coords).outcomes]
    rfl
  rcases ends with same | same
  · rw [same, whole]
  · rw [← timed_concat_tick, same, whole]

lemma counted_program (s : Store) (layout : Layout) :
    counted 0 (s.program layout).instructions = counted 0 s.bodyInstructions := by
  obtain ⟨places, coords, ends⟩ := s.program_cases layout
  exact ((silent_of_coords coords).framed ends).2

/-- A store that is reached by calls of some kind. -/
def Reached (allowed : Call → Bool) (s : Store) : Prop :=
  ∃ calls, (∀ call ∈ calls, allowed call = true) ∧ empty.after calls = s

lemma Reached.intact {allowed : Call → Bool} (reached : s.Reached allowed) : s.Intact := by
  obtain ⟨calls, _, rfl⟩ := reached
  exact Intact.empty.after calls

lemma Reached.regular (reached : s.Reached Call.IsProper) :
    ∀ t, ∀ op ∈ (s.tickAt t).gates, Regular op := by
  obtain ⟨calls, proper, rfl⟩ := reached
  exact fun t op => regular_after proper

lemma absence_eq (filed : h < s.record.size) : ∃ key t, s.record.entry? h = some (key, t) ∧
      s.absence h = .fault (.notYetMeasured (.outcome key.product key.round)) := by
  obtain ⟨key, t, entry⟩ := Record.exists_entry filed
  refine ⟨key, t, entry, ?_⟩
  simp only [absence, entry]

lemma ticks_eq_between (s : Store) : s.ticks.toList = s.between 0 s.size := by
  rw [ticks_eq, between, range_eq_range', Nat.sub_zero]

/-- Offsets of a store without a repeated region that calls in any order have written. It is emitted
exactly if its annotations look back. Otherwise, if they refer to entries of the record, an outcome
is not yet measured. The outcomes of a program are those of the handles in order, each in the tick
of its gate, and every annotation counts back to the outcomes of its handles. -/
theorem offsets_lead_to_outcomes (s : Store) (reached : s.Reached Call.IsProper)
    (whole : s.region = none) (layout : Layout) :
    ((∃ p, s.emit layout = .ok p) ↔ s.LooksBack) ∧
    (¬ s.LooksBack →
      (∀ t, ∀ note ∈ (s.tickAt t).notes, ∀ h ∈ note.handles, h < s.record.size) →
      ∃ t, ∃ note ∈ (s.tickAt t).notes, ∃ h ∈ note.handles, ¬ s.MeasuredBy t h ∧
        ∃ key t', s.record.entry? h = some (key, t') ∧
          s.emit layout = .fail (.notYetMeasured (.outcome key.product key.round))) ∧
    ∀ p, s.emit layout = .ok p → ∃ order, s.order 0 s.size = .ok order ∧ order.Nodup ∧
      List.Forall₂ (fun h e => Performs (s.tickAt e.1) h e.2) order (timed 0 p.instructions) ∧
      List.Forall₂ (Refers order) (s.ticks.toList.flatMap (·.notes))
        (counted 0 p.instructions) := by
  rcases reached.intact.emit_cases reached.regular layout with
    ⟨back, emitted⟩ | ⟨halt, ⟨t, _, _, note, noted, h, member, absent, rfl⟩, stops⟩
  · refine ⟨⟨fun _ => back, fun _ => ⟨_, emitted⟩⟩, fun ahead => absurd back ahead, ?_⟩
    intro p given
    obtain rfl : s.program layout = p := by
      rw [emitted] at given
      exact Except.ok.inj given
    have body : s.bodyInstructions = ticksInstructions [] (s.between 0 s.size) := by
      simp only [bodyInstructions, whole]
      rfl
    have regular := regular_between reached.regular 0 s.size
    have distinct := reached.intact.nodup_orderBelow s.size
    rw [s.orderBelow_append (Nat.zero_le _)] at distinct
    refine ⟨s.orderIn 0 s.size, s.order_eq (Nat.zero_le _) (Nat.le_refl _), distinct, ?_, ?_⟩
    · rw [timed_program, body]
      refine (timed_ticks [] regular 0).imp ?_
      rintro h ⟨_, outcome⟩ ⟨i, t, found, rfl, performed⟩
      obtain ⟨_, rfl⟩ := getElem?_between.mp found
      exact performed
    · rw [counted_program, body, ticks_eq_between]
      exact (counted_ticks regular (back.dated 0 s.size) List.prefix_rfl 0).imp
        fun _ _ => refers_of_counts
  · have ahead : ¬ s.LooksBack := fun back => absent (back t note noted h member)
    refine ⟨⟨?_, fun back => absurd back ahead⟩, ?_, ?_⟩
    · rintro ⟨p, given⟩
      rw [stops] at given
      cases given
    · intro _ filed
      obtain ⟨key, t', entry, cause⟩ := absence_eq (filed t note noted h member)
      exact ⟨t, note, noted, h, member, absent, key, t', entry, by rw [stops, cause]; rfl⟩
    · intro p given
      rw [stops] at given
      cases given

/-- A measurement that is filed first and made last, an entry that no gate has, and three
measurements of one tick that take two instructions. -/
def outOfOrder : List Call :=
  [.measure 2 .M ⟨[0]⟩ none ⟨0, .empty⟩, .file ⟨1, .empty⟩ 0, .measure 1 .MX ⟨[1]⟩ none ⟨0, .empty⟩,
    .measure 1 .M ⟨[2]⟩ none ⟨0, .empty⟩, .measure 1 .MX ⟨[3]⟩ none ⟨0, .empty⟩,
    .note 1 (.detector [3, 4]), .note 2 (.observable 0 [0, 2])]

theorem offsets_lead_to_outcomes_outOfOrder :
    (∀ call ∈ outOfOrder, call.IsProper = true) ∧ (empty.after outOfOrder).region = none ∧
    ∃ p, (empty.after outOfOrder).emit {} = .ok p ∧
      counted 0 p.instructions = [(3, none, [-1, -2]), (4, some 0, [-1, -4])] ∧
      List.Forall₂ (Refers [2, 4, 3, 0]) [.detector [3, 4], .observable 0 [0, 2]]
        (counted 0 p.instructions) := by
  have proper : ∀ call ∈ outOfOrder, call.IsProper = true := by decide
  have unmarked : (empty.after outOfOrder).region = none := by decide +kernel
  have offsets : (((empty.after outOfOrder).emit {}).toOption.map fun p =>
      counted 0 p.instructions) = some [(3, none, [-1, -2]), (4, some 0, [-1, -4])] := by
    decide +kernel
  obtain ⟨p, emitted, counts⟩ := Outcome.exists_ok_of_map offsets
  obtain ⟨_, _, sound⟩ := offsets_lead_to_outcomes (empty.after outOfOrder)
    ⟨outOfOrder, proper, rfl⟩ unmarked {}
  obtain ⟨order, ordered, _, _, refers⟩ := sound p emitted
  have known : (empty.after outOfOrder).order 0 (empty.after outOfOrder).size =
      .ok [2, 4, 3, 0] := by decide +kernel
  have notes : (empty.after outOfOrder).ticks.toList.flatMap (·.notes) =
      [.detector [3, 4], .observable 0 [0, 2]] := by decide +kernel
  rw [ordered] at known
  rw [Except.ok.inj known, notes] at refers
  exact ⟨proper, unmarked, p, emitted, counts, refers⟩

end Store

end SyndromeSchedule
