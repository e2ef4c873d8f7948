import SyndromeSchedule.Proofs.Emission

/-!
Programs with their blocks written out: the outcomes they give, in order, and what their detectors
and observables refer to. An offset counts back from the outcomes given before its instruction, so
the same block refers to later outcomes each time it is repeated.
-/

namespace SyndromeSchedule

open List

variable {is : List Instruction}
variable (first later : List Instruction) (before : Nat)

namespace Instruction

mutual
/-- An instruction with its blocks written out. -/
def unroll : Instruction → List Instruction
  | loop n body => (List.replicate n (unrollAll body)).flatten
  | coords q vs => [coords q vs]
  | gate g ts => [gate g ts]
  | noise c ps ts => [noise c ps ts]
  | measure g f ts => [measure g f ts]
  | detector os => [detector os]
  | observable i os => [observable i os]
  | tick => [tick]
termination_by structural i => i

/-- Instructions with their blocks written out. -/
def unrollAll : List Instruction → List Instruction
  | [] => []
  | i :: rest => unroll i ++ unrollAll rest
termination_by structural is => is
end

lemma unrollAll_append : unrollAll (first ++ later) = unrollAll first ++ unrollAll later := by
  induction first with
  | nil => rfl
  | cons i rest ih => rw [cons_append, unrollAll, unrollAll, ih, append_assoc]

def isPlain : Instruction → Bool
  | loop _ _ => false
  | _ => true

lemma unrollAll_of_plain (plain : ∀ i ∈ is, i.isPlain = true) : unrollAll is = is := by
  induction is with
  | nil => rfl
  | cons i rest ih =>
    have single : unroll i = [i] := by
      have here := plain i (.head _)
      cases i with
      | loop n body => contradiction
      | _ => rfl
    rw [unrollAll, single, ih fun j mem => plain j (mem_cons_of_mem _ mem)]
    rfl

/-- What can stand within a tick. -/
def isInner : Instruction → Bool
  | coords _ _ => false
  | tick => false
  | loop _ _ => false
  | _ => true

lemma isPlain_of_isInner {i : Instruction} (inner : i.isInner = true) : i.isPlain = true := by
  cases i with
  | loop n body => cases inner
  | _ => rfl

/-- Outcomes of an instruction, each with its gate and what it measures. -/
def yields : Instruction → List (Gate × Target)
  | measure g _ ts => ts.map fun t => (g, t)
  | _ => []

/-- Outcomes of instructions without blocks. -/
def outcomesOf (is : List Instruction) : List (Gate × Target) := is.flatMap yields

/-- Outcomes that the detectors refer to, by number, if some were given before. -/
def readings : Nat → List Instruction → List (List Int)
  | _, [] => []
  | before, detector offsets :: rest =>
    offsets.map (fun offset => before + offset) :: readings before rest
  | before, i :: rest => readings (before + i.yields.length) rest

lemma outcomesOf_append : outcomesOf (first ++ later) = outcomesOf first ++ outcomesOf later :=
  flatMap_append

/-- What a detector or a part of an observable names: the observable, if it is one, and offsets. -/
def annotation? : Instruction → Option (Option Nat × List Int)
  | detector offsets => some (none, offsets)
  | observable index offsets => some (some index, offsets)
  | _ => none

/-- All annotations, each with the number of outcomes given before it. -/
def counted : Nat → List Instruction → List (Nat × Option Nat × List Int)
  | _, [] => []
  | before, i :: rest =>
    (i.annotation?.map fun a => (before, a)).toList ++ counted (before + i.yields.length) rest

/-- All annotations with the numbers of the outcomes they refer to, if some outcomes were given
before. -/
def annotations : Nat → List Instruction → List (Option Nat × List Int)
  | _, [] => []
  | before, i :: rest =>
    (i.annotation?.map fun a => (a.1, a.2.map fun offset => (before : Int) + offset)).toList ++
      annotations (before + i.yields.length) rest

/-- Numbers of the outcomes that an observable includes, in order. -/
def inclusions (index before : Nat) (is : List Instruction) : List Int :=
  (annotations before is).flatMap fun a => if a.1 = some index then a.2 else []

lemma annotations_eq (is : List Instruction) :
    annotations before is = (counted before is).map fun a =>
      (a.2.1, a.2.2.map fun offset => (a.1 : Int) + offset) := by
  induction is generalizing before with
  | nil => rfl
  | cons i rest ih =>
    rw [annotations, counted, ih, map_append, Option.toList_map, Option.toList_map, map_map]
    rfl

lemma readings_eq (is : List Instruction) : readings before is =
      (annotations before is).filterMap fun a => if a.1 = none then some a.2 else none := by
  induction is generalizing before with
  | nil => rfl
  | cons i rest ih =>
    cases i with
    | _ => simp [readings, annotations, annotation?, yields, ih]

lemma counted_append (first later : List Instruction) : counted before (first ++ later) =
      counted before first ++ counted (before + (outcomesOf first).length) later := by
  induction first generalizing before with
  | nil => rfl
  | cons i rest ih =>
    have count : (outcomesOf (i :: rest)).length = i.yields.length + (outcomesOf rest).length := by
      simp [outcomesOf]
    rw [cons_append, counted, counted, ih, count, Nat.add_assoc, append_assoc]

lemma annotations_append (first later : List Instruction) : annotations before (first ++ later) =
      annotations before first ++ annotations (before + (outcomesOf first).length) later := by
  simp [annotations_eq, counted_append]

lemma counted_eq_nil (h : ∀ i ∈ is, i.annotation? = none) (before : Nat) :
    counted before is = [] := by
  induction is generalizing before with
  | nil => rfl
  | cons i rest ih =>
    rw [counted, h i (.head _), ih fun j mem => h j (mem_cons_of_mem _ mem)]
    rfl

/-- Instructions that neither measure nor refer to outcomes. -/
structure Silent (is : List Instruction) : Prop where
  outcomes : outcomesOf is = []
  counted : ∀ before, counted before is = []

lemma silent_of_coords (h : ∀ i ∈ is, ∃ q values, i = coords q values) : Silent is := by
  refine ⟨flatMap_eq_nil_iff.mpr fun i mem => ?_, counted_eq_nil fun i mem => ?_⟩
  · obtain ⟨_, _, rfl⟩ := h i mem
    rfl
  · obtain ⟨_, _, rfl⟩ := h i mem
    rfl

lemma Silent.framed {places body : List Instruction} (silent : Silent places)
    (ends : is = places ++ body ∨ is ++ [tick] = places ++ body) :
    outcomesOf is = outcomesOf body ∧ Instruction.counted 0 is = Instruction.counted 0 body := by
  have whole : outcomesOf (places ++ body) = outcomesOf body ∧
      Instruction.counted 0 (places ++ body) = Instruction.counted 0 body := by
    rw [outcomesOf_append, counted_append, silent.outcomes, silent.counted]
    exact ⟨rfl, rfl⟩
  rcases ends with same | same
  · rwa [same]
  · rw [← same, outcomesOf_append, counted_append] at whole
    rw [← whole.1, ← whole.2]
    exact ⟨(append_nil _).symm, (append_nil _).symm⟩

lemma outcomesOf_replicate (count : Nat) (body : List Instruction) :
    outcomesOf (List.replicate count body).flatten =
      (List.replicate count (outcomesOf body)).flatten := by
  induction count with
  | zero => rfl
  | succ count ih =>
    rw [replicate_succ, flatten_cons, outcomesOf_append, ih, replicate_succ, flatten_cons]

lemma annotations_replicate (count : Nat) (body : List Instruction) :
    annotations before (List.replicate count body).flatten = (List.range count).flatMap fun j =>
        annotations (before + j * (outcomesOf body).length) body := by
  induction count with
  | zero => rfl
  | succ count ih =>
    have length : (outcomesOf (replicate count body).flatten).length =
        count * (outcomesOf body).length := by
      simp [outcomesOf_replicate]
    rw [replicate_succ', flatten_append, flatten_singleton, annotations_append,
      ih, length, range_succ, flatMap_append, flatMap_singleton]

end Instruction

/-- The instructions of a program with its blocks written out. -/
def Program.unrolled (p : Program) : List Instruction := Instruction.unrollAll p.instructions

def Note.detected? : Note → Option (List Nat)
  | .detector handles => some handles
  | .observable _ _ => none

/-- The observable that a note is a part of. -/
def Note.subject : Note → Option Nat
  | .detector _ => none
  | .observable index _ => some index

def Note.part (index : Nat) (note : Note) : List Nat :=
  if note.subject = some index then note.handles else []

lemma Note.detected?_eq (note : Note) :
    note.detected? = if note.subject = none then some note.handles else none := by
  cases note <;> rfl

namespace Store

open Instruction

variable {ticks : List Tick} {order full : List Nat} {s : Store} {ops : List GateOp} {t : Tick}
variable (layout : Layout)

/-- A gate of a tick gives an outcome. -/
def Performs (t : Tick) (handle : Nat) (outcome : Gate × Target) : Prop :=
  ∃ op ∈ t.gates, op.handle = some handle ∧ op.gate = outcome.1 ∧
    measured op.target = .ok outcome.2

lemma shape_emitNoise {ops : List NoiseOp} {i : Instruction} (mem : i ∈ emitNoise ops) :
    ∃ channel parameters targets, i = .noise channel parameters targets := by
  obtain ⟨g, _, made⟩ := mem_filterMap.mp mem
  obtain ⟨op, _, rfl⟩ := Option.map_eq_some_iff.mp made
  exact ⟨_, _, _, rfl⟩

lemma shape_groupInstructions {i : Instruction} (mem : i ∈ groupInstructions ops) :
    (∃ gate targets, i = .gate gate targets) ∨
      ∃ gate flip targets, i = .measure gate flip targets := by
  cases ops with
  | nil => cases mem
  | cons op rest =>
    simp only [groupInstructions] at mem
    split_ifs at mem
    · exact .inr ⟨_, _, _, mem_singleton.mp mem⟩
    · exact .inl ⟨_, _, mem_singleton.mp mem⟩

lemma outcomesOf_emitNoise (ops : List NoiseOp) : outcomesOf (emitNoise ops) = [] := by
  refine flatMap_eq_nil_iff.mpr fun i mem => ?_
  obtain ⟨_, _, _, rfl⟩ := shape_emitNoise mem
  rfl

lemma outcomesOf_targets {gate : Gate} (measures : gate.isMeasurement = true)
    (gates : ∀ op ∈ ops, op.gate = gate) (regular : ∀ op ∈ ops, Regular op) :
    Forall₂ (fun handle outcome => ∃ op ∈ ops, op.handle = some handle ∧
        op.gate = outcome.1 ∧ measured op.target = .ok outcome.2)
      (ops.filterMap (·.handle)) ((targetsOf ops).map fun target => (gate, target)) := by
  induction ops with
  | nil => exact .nil
  | cons op rest ih =>
    have same := gates op (.head _)
    obtain ⟨handled, target⟩ := regular op (.head _)
    rw [same, measures] at handled target
    obtain ⟨handle, has⟩ := Option.isSome_iff_exists.mp handled.symm
    obtain ⟨target, found⟩ := target rfl
    have others := ih (fun o mem => gates o (.tail _ mem)) fun o mem => regular o (.tail _ mem)
    have targets : targetsOf (op :: rest) = target :: targetsOf rest := by
      simp [targetsOf, found, Except.toOption]
    rw [filterMap_cons_some has, targets, map_cons]
    refine .cons ⟨op, .head _, has, same, found⟩ (others.imp ?_)
    rintro h o ⟨op', mem, rest⟩
    exact ⟨op', .tail _ mem, rest⟩

lemma outcomesOf_group (alike : Alike (fun a b => a.gate = b.gate && a.flip = b.flip) ops)
    (regular : ∀ op ∈ ops, Regular op) :
    Forall₂ (fun handle outcome => ∃ op ∈ ops, op.handle = some handle ∧
        op.gate = outcome.1 ∧ measured op.target = .ok outcome.2)
      (ops.filterMap (·.handle)) (outcomesOf (groupInstructions ops)) := by
  cases ops with
  | nil => exact absurd alike id
  | cons op rest =>
    by_cases measures : op.gate.isMeasurement = true
    · have single : outcomesOf (groupInstructions (op :: rest)) =
          (targetsOf (op :: rest)).map fun target => (op.gate, target) := by
        simp [groupInstructions, measures, outcomesOf, yields]
      rw [single]
      exact outcomesOf_targets measures (fun o => gate_of_alike alike) regular
    · have none : outcomesOf (groupInstructions (op :: rest)) = [] := by
        simp [groupInstructions, measures, outcomesOf, yields]
      have quiet : (op :: rest).filterMap (·.handle) = [] := by
        rw [filterMap_eq_nil_iff]
        intro o mem
        have same := (regular o mem).1
        rw [gate_of_alike alike mem] at same
        simpa [measures] using same
      rw [none, quiet]
      exact .nil

lemma outcomesOf_notes (order : List Nat) (notes : List Note) :
    outcomesOf (notes.map (noteInstruction order)) = [] := by
  rw [outcomesOf, flatMap_eq_nil_iff]
  intro i mem
  obtain ⟨note, _, rfl⟩ := mem_map.mp mem
  cases note <;> rfl

lemma outcomesOf_tick (order : List Nat) (regular : ∀ op ∈ t.gates, Regular op) :
    Forall₂ (Performs t) (handlesIn t) (outcomesOf (tickInstructions order t)) := by
  have notes := outcomesOf_notes order t.notes
  have gates : outcomesOf (tickInstructions order t) =
      (gateGroups t.gates).flatMap fun ops => outcomesOf (groupInstructions ops) := by
    rw [tickInstructions, outcomesOf_append, outcomesOf_append, outcomesOf_append, notes,
      outcomesOf_emitNoise, outcomesOf_emitNoise, nil_append,
      append_nil, append_nil, outcomesOf, flatMap_assoc]
    rfl
  have each : ∀ ops ∈ gateGroups t.gates, Forall₂ (Performs t) (ops.filterMap (·.handle))
      (outcomesOf (groupInstructions ops)) := by
    intro ops mem
    have inside : ∀ op ∈ ops, op ∈ t.gates := fun op here =>
      (flatten_groups_perm t.gates).mem_iff.mp (mem_flatten.mpr ⟨ops, mem, here⟩)
    refine (outcomesOf_group (alike_groups t.gates ops mem) fun op here =>
      regular op (inside op here)).imp ?_
    rintro h o ⟨op, here, rest⟩
    exact ⟨op, inside op here, rest⟩
  rw [gates]
  exact forall₂_flatMap each

lemma outcomesOf_ticks (order : List Nat) (regular : ∀ t ∈ ticks, ∀ op ∈ t.gates, Regular op) :
    Forall₂ (fun handle outcome => ∃ t ∈ ticks, Performs t handle outcome)
      (ticks.flatMap handlesIn) (outcomesOf (ticksInstructions order ticks)) := by
  induction ticks generalizing order with
  | nil => exact .nil
  | cons t rest ih =>
    have split : outcomesOf (ticksInstructions order (t :: rest)) =
        outcomesOf (tickInstructions (order ++ handlesIn t) t) ++
          outcomesOf (ticksInstructions (order ++ handlesIn t) rest) := by
      rw [ticksInstructions, outcomesOf_append]
      rfl
    rw [split, flatMap_cons]
    refine rel_append ?_ ((ih _ fun u mem =>
      regular u (.tail _ mem)).imp ?_)
    · exact (outcomesOf_tick _ (regular t (.head _))).imp fun h o performed =>
        ⟨t, .head _, performed⟩
    · rintro h o ⟨u, mem, performed⟩
      exact ⟨u, .tail _ mem, performed⟩

lemma Sound.length_outcomes (sound : s.Sound) (start stop : Nat) :
    (outcomesOf (s.stretch start stop)).length = (s.orderIn start stop).length :=
  (outcomesOf_ticks (s.orderBelow start) (sound.regular_between start stop)).length_eq.symm

def detected (ticks : List Tick) : List (List Nat) :=
  ticks.flatMap fun t => t.notes.filterMap Note.detected?

lemma counted_notes (before : Nat) (order : List Nat) (notes : List Note) :
    counted before (notes.map (noteInstruction order)) =
      notes.map fun note => (before, note.subject, note.handles.map (Cursor.offsetIn order)) := by
  induction notes with
  | nil => rfl
  | cons note rest ih =>
    cases note with
    | _ => simp [noteInstruction, counted, annotation?, yields, Note.subject, Note.handles, ih]

lemma counted_tick (before : Nat) (order : List Nat) (regular : ∀ op ∈ t.gates, Regular op) :
    counted before (tickInstructions order t) =
      t.notes.map fun note => (before + (handlesIn t).length, note.subject,
        note.handles.map (Cursor.offsetIn order)) := by
  have count := (outcomesOf_tick order regular).length_eq
  rw [tickInstructions, outcomesOf_append, outcomesOf_notes, append_nil] at count
  have quiet : ∀ i ∈ emitNoise t.before ++ (gateGroups t.gates).flatMap groupInstructions ++
      emitNoise t.after, i.annotation? = none := by
    simp only [mem_append, mem_flatMap]
    rintro i ((noise | ⟨ops, _, gate⟩) | noise)
    · obtain ⟨_, _, _, rfl⟩ := shape_emitNoise noise
      rfl
    · obtain ⟨_, _, rfl⟩ | ⟨_, _, _, rfl⟩ := shape_groupInstructions gate
      · rfl
      · rfl
    · obtain ⟨_, _, _, rfl⟩ := shape_emitNoise noise
      rfl
  rw [tickInstructions, counted_append, counted_eq_nil quiet, nil_append, counted_notes, count]

/-- An annotation of a program is a note whose offsets are negative and lead to the places of its
handles in the order of all outcomes, moved by as many outcomes as come before without being in that
order. -/
def Counts (full : List Nat) (δ : Nat) (note : Note) (a : Nat × Option Nat × List Int) : Prop :=
  a.2.1 = note.subject ∧ Forall₂ (fun h offset => offset < 0 ∧ h ∈ full ∧
    (a.1 : Int) + offset = ((full.idxOf h + δ : Nat) : Int)) note.handles a.2.2

lemma counts_offsetIn (longer : order <+: full) (δ : Nat) {note : Note}
    (known : ∀ h ∈ note.handles, h ∈ order) :
    Counts full δ note
      (order.length + δ, note.subject, note.handles.map (Cursor.offsetIn order)) := by
  refine ⟨rfl, ?_⟩
  rw [forall₂_map_right_iff, forall₂_same]
  intro h mem
  have here := idxOf_lt_length_of_mem (known h mem)
  obtain ⟨rest, rfl⟩ := longer
  rw [idxOf_append_of_mem (known h mem), Cursor.offsetIn]
  exact ⟨by omega, mem_append_left _ (known h mem), by omega⟩

section Annotations

variable (regular : ∀ t ∈ ticks, ∀ op ∈ t.gates, Regular op) (dated : Dated order ticks)
  (whole : order ++ ticks.flatMap handlesIn <+: full) (δ : Nat)
include regular dated whole

lemma counted_ticks : Forall₂ (Counts full δ) (ticks.flatMap (·.notes))
      (counted (order.length + δ) (ticksInstructions order ticks)) := by
  induction ticks generalizing order with
  | nil => exact .nil
  | cons t rest ih =>
    rw [flatMap_cons, ← append_assoc] at whole
    have here : order ++ handlesIn t <+: full := (prefix_append ..).trans whole
    have regular_here := regular t (.head _)
    have others := ih (fun u mem => regular u (.tail _ mem)) dated.tail whole
    have count := (outcomesOf_tick (order ++ handlesIn t) regular_here).length_eq
    have moved : order.length + δ + (handlesIn t).length = (order ++ handlesIn t).length + δ := by
      rw [length_append]
      omega
    rw [ticksInstructions, counted_append, counted_tick _ _ regular_here, ← count, moved,
      flatMap_cons]
    refine rel_append ?_ others
    rw [forall₂_map_right_iff, forall₂_same]
    intro note noted
    exact counts_offsetIn here δ fun h mem => by
      simpa using dated 0 t rfl note noted h mem

lemma annotations_ticks : annotations (order.length + δ) (ticksInstructions order ticks) =
      (ticks.flatMap (·.notes)).map fun note =>
        (note.subject, note.handles.map fun h => ((full.idxOf h + δ : Nat) : Int)) := by
  symm
  rw [annotations_eq, maps_eq_iff]
  refine (counted_ticks regular dated whole δ).imp ?_
  rintro note ⟨count, subject, offsets⟩ ⟨same, counts⟩
  refine Prod.ext same.symm ?_
  rw [maps_eq_iff]
  exact counts.imp fun h offset place => place.2.2.symm

lemma readings_ticks : readings (order.length + δ) (ticksInstructions order ticks) =
      (detected ticks).map fun handles =>
        handles.map fun h => ((full.idxOf h + δ : Nat) : Int) := by
  rw [readings_eq, annotations_ticks regular dated whole δ, detected, ← filterMap_flatMap,
    filterMap_map, map_filterMap]
  apply filterMap_congr
  intro note _
  rw [Note.detected?_eq, Function.comp_apply]
  cases note <;> rfl

/-- Handles that an observable includes in some ticks. -/
def included (index : Nat) (ticks : List Tick) : List Nat :=
  (ticks.flatMap (·.notes)).flatMap (Note.part index)

lemma inclusions_ticks (index : Nat) :
    inclusions index (order.length + δ) (ticksInstructions order ticks) =
      (included index ticks).map fun h => ((full.idxOf h + δ : Nat) : Int) := by
  rw [inclusions, annotations_ticks regular dated whole δ, included, flatMap_map, map_flatMap]
  apply flatMap_congr
  intro note _
  unfold Note.part
  split_ifs <;> rfl

end Annotations

lemma isInner_tickInstructions : ∀ i ∈ tickInstructions order t, i.isInner = true := by
  intro i mem
  simp only [tickInstructions, mem_append, mem_flatMap, mem_map] at mem
  rcases mem with ((noise | ⟨ops, _, gate⟩) | noise) | ⟨note, _, rfl⟩
  · obtain ⟨_, _, _, rfl⟩ := shape_emitNoise noise
    rfl
  · obtain ⟨_, _, rfl⟩ | ⟨_, _, _, rfl⟩ := shape_groupInstructions gate
    · rfl
    · rfl
  · obtain ⟨_, _, _, rfl⟩ := shape_emitNoise noise
    rfl
  · cases note <;> rfl

lemma isPlain_ticksInstructions : ∀ i ∈ ticksInstructions order ticks, i.isPlain = true := by
  induction ticks generalizing order with
  | nil => simp [ticksInstructions]
  | cons t rest ih =>
    intro i mem
    simp only [ticksInstructions, mem_append, mem_cons] at mem
    rcases mem with here | rfl | later
    · exact isPlain_of_isInner (isInner_tickInstructions i here)
    · rfl
    · exact ih i later

lemma unrollAll_ticks (order : List Nat) (ticks : List Tick) :
    unrollAll (ticksInstructions order ticks) = ticksInstructions order ticks :=
  unrollAll_of_plain isPlain_ticksInstructions

lemma unrollAll_body (s : Store) : unrollAll s.bodyInstructions =
      match s.region with
      | none => s.stretch 0 s.size
      | some region =>
        s.stretch 0 region.start ++
          (List.replicate region.repetitions (s.stretch region.start region.stop)).flatten ++
          s.stretch region.stop s.size := by
  simp only [bodyInstructions]
  cases s.region with
  | none => exact unrollAll_ticks ..
  | some region =>
    simp [stretch, unrollAll_append, unrollAll, unroll, unrollAll_ticks]

lemma unrollAll_coords (s : Store) : unrollAll s.emitCoords = s.emitCoords := by
  refine unrollAll_of_plain fun i mem => ?_
  obtain ⟨e, _, rfl⟩ := mem_map.mp mem
  rfl

lemma dropLastTick_eq (is : List Instruction) :
    dropLastTick is = is ∨ is = dropLastTick is ++ [.tick] := by
  simp only [dropLastTick]
  split
  · next last =>
      refine .inr ?_
      obtain ⟨nonempty, last⟩ := getLast?_eq_some_iff.mp last
      rw [last]
      simp
  · exact .inl rfl

lemma program_cases (s : Store) (layout : Layout) :
    ∃ places : List Instruction, (∀ i ∈ places, ∃ q values, i = .coords q values) ∧
      ((s.program layout).instructions = places ++ s.bodyInstructions ∨
        (s.program layout).instructions ++ [.tick] = places ++ s.bodyInstructions) := by
  refine ⟨if layout.coords then s.emitCoords else [], ?_, ?_⟩
  · intro i mem
    split_ifs at mem
    · obtain ⟨e, _, rfl⟩ := mem_map.mp mem
      exact ⟨_, _, rfl⟩
    · cases mem
  · simp only [program]
    split_ifs
    · exact .inl rfl
    · exact .inl rfl
    · exact (dropLastTick_eq _).imp id Eq.symm
    · exact (dropLastTick_eq _).imp id Eq.symm

lemma program_annotations (s : Store) (layout : Layout) :
    outcomesOf (s.program layout).unrolled = outcomesOf (unrollAll s.bodyInstructions) ∧
      annotations 0 (s.program layout).unrolled = annotations 0 (unrollAll s.bodyInstructions) := by
  obtain ⟨places, coords, ends⟩ := s.program_cases layout
  have plain : unrollAll places = places := by
    refine unrollAll_of_plain fun i mem => ?_
    obtain ⟨_, _, rfl⟩ := coords i mem
    rfl
  have unrolled : (s.program layout).unrolled = places ++ unrollAll s.bodyInstructions ∨
      (s.program layout).unrolled ++ [.tick] = places ++ unrollAll s.bodyInstructions := by
    have split : unrollAll (places ++ s.bodyInstructions) =
        places ++ unrollAll s.bodyInstructions := by
      rw [unrollAll_append, plain]
    rcases ends with same | same
    · exact .inl (by rw [Program.unrolled, same, split])
    · rw [← same, unrollAll_append] at split
      exact .inr split
  obtain ⟨outcomes, counts⟩ := (silent_of_coords coords).framed unrolled
  exact ⟨outcomes, by rw [annotations_eq, counts, annotations_eq]⟩

lemma program_unrolled (s : Store) (layout : Layout) :
    outcomesOf (s.program layout).unrolled = outcomesOf (unrollAll s.bodyInstructions) ∧
      readings 0 (s.program layout).unrolled = readings 0 (unrollAll s.bodyInstructions) := by
  obtain ⟨outcomes, annotations⟩ := s.program_annotations layout
  exact ⟨outcomes, by rw [readings_eq, annotations, readings_eq]⟩

end Store

end SyndromeSchedule
