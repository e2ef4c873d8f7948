import SyndromeSchedule.Proofs.TwinEmission

/-!
Ticks that are written again. Offsets count back from the latest outcome, so ticks that hold the
same gates and annotations with later handles have the same instructions, apart from detectors that
compare nothing. If the ticks of one store are those of another with a section copied several times,
its instructions are those of the other with a block.
-/

namespace SyndromeSchedule

open List

def GateOp.later (n : Nat) (op : GateOp) : GateOp :=
  { op with handle := op.handle.map (· + n) }

lemma GateOp.later_later (m n : Nat) (op : GateOp) : (op.later m).later n = op.later (m + n) := by
  unfold later
  cases op.handle with
  | none => rfl
  | some h => simp only [Option.map_some, Nat.add_assoc]

lemma GateOp.later_zero (op : GateOp) : op.later 0 = op := by
  obtain ⟨gate, flip, target, handle⟩ := op
  cases handle <;> rfl

lemma Note.later_later (m n : Nat) (note : Note) :
    (note.later m).later n = note.later (m + n) := by
  cases note with
  | detector handles | observable index handles =>
    simp only [later, map_map, Function.comp_def, Nat.add_assoc]

namespace Tick

variable {t t' : Tick}

/-- The second tick is the first with later handles, but for detectors that compare nothing. -/
structure Copies (n : Nat) (t t' : Tick) : Prop where
  before : t'.before = t.before
  gates : t'.gates = t.gates.map (GateOp.later n)
  after : t'.after = t.after
  told : t'.told = t.told.map (Note.later n)

lemma Copies.trans {m n : Nat} {t'' : Tick} (h : t.Copies m t') (h' : t'.Copies n t'') :
    t.Copies (m + n) t'' where
  before := h'.before.trans h.before
  gates := by
    rw [h'.gates, h.gates, map_map]
    exact map_congr_left fun op _ => op.later_later m n
  after := h'.after.trans h.after
  told := by
    rw [h'.told, h.told, map_map]
    exact map_congr_left fun note _ => note.later_later m n

lemma Like.copies (h : t.Like t') : t.Copies 0 t' where
  before := h.before.symm
  gates := by
    rw [map_congr_left fun op _ => op.later_zero, map_id', h.gates]
  after := h.after.symm
  told := by
    rw [map_congr_left fun note _ => note.later_zero, map_id', h.told]

lemma Like.symm (h : t.Like t') : t'.Like t :=
  ⟨h.before.symm, h.gates.symm, h.after.symm, h.told.symm⟩

lemma Twin.copies {k : Comparison} (h : t.Twin k t') (loose : ¬ k.strict) :
    t.Copies k.handles t' where
  before := (h.noise loose).1
  gates := by
    rw [← forall₂_eq_eq_eq, forall₂_map_right_iff]
    apply h.gates.flip.imp
    rintro ⟨gate', flip', target', handle'⟩ ⟨gate, flip, target, handle⟩ same
    obtain rfl : gate' = gate := same.gate
    obtain rfl : target' = target := same.target
    obtain rfl : handle' = handle.map (· + k.handles) := same.handle
    have flips : flip' = flip := by
      have left : flip = handle.bind fun _ => k.flip := same.flip
      have right : flip' = handle.bind fun _ => k.flip' := same.flip'
      rw [left, right, k.flip_eq loose]
    rw [flips]
    rfl
  after := (h.noise loose).2
  told := h.told

end Tick

/-! Instructions. -/

namespace Instruction

/-- Instructions that are no detectors without outcomes. -/
def isSaid : Instruction → Bool
  | detector offsets => !offsets.isEmpty
  | _ => true

/-- Instructions without detectors that compare nothing. -/
def spoken (is : List Instruction) : List Instruction := is.filter isSaid

lemma spoken_append (first later : List Instruction) :
    spoken (first ++ later) = spoken first ++ spoken later :=
  filter_append ..

lemma spoken_flatten (parts : List (List Instruction)) :
    spoken parts.flatten = (parts.map spoken).flatten :=
  filter_flatten

end Instruction

lemma idxOf_map {α β : Type} [DecidableEq α] [DecidableEq β] {f : α → β}
    (injective : Function.Injective f) (a : α) (items : List α) :
    (items.map f).idxOf (f a) = items.idxOf a := by
  induction items with
  | nil => rfl
  | cons b rest ih =>
    rw [map_cons]
    by_cases here : b = a
    · rw [here, idxOf_cons_self, idxOf_cons_self]
    · rw [idxOf_cons_ne _ here, idxOf_cons_ne _ (fun same => here (injective same)), ih]

lemma Cursor.offsetIn_later {n : Nat} {old : List Nat} (before : ∀ h ∈ old, h < n)
    (order : List Nat) (handle : Nat) :
    offsetIn (old ++ order.map (· + n)) (handle + n) = offsetIn order handle := by
  have absent : handle + n ∉ old := by
    intro mem
    have small := before _ mem
    omega
  have found : (order.map (· + n)).idxOf (handle + n) = order.idxOf handle :=
    idxOf_map (f := (· + n)) (fun _ _ same => Nat.add_right_cancel same) handle order
  unfold offsetIn
  rw [idxOf_append_of_notMem absent, length_append, length_map, found]
  omega

namespace Store

open Instruction

variable {n start stop lead : Nat} {old : List Nat}
variable (order : List Nat)

lemma eq_map_of_forall₂ {α β : Type} {f : α → β} {items : List α} {images : List β}
    (h : Forall₂ (fun a b => b = f a) items images) : images = items.map f := by
  induction h with
  | nil => rfl
  | cons here _ ih => rw [map_cons, here, ih]

lemma gateGroups_later (n : Nat) (gates : List GateOp) : gateGroups (gates.map (GateOp.later n)) =
      (gateGroups gates).map (List.map (GateOp.later n)) := by
  have groups : Forall₂ (Forall₂ fun op op' => op' = op.later n) (gateGroups gates)
      (gateGroups (gates.map (GateOp.later n))) := by
    refine forall₂_groups ?_ (forall₂_map_right_iff.mpr (forall₂_same.mpr fun _ _ => rfl))
    rintro a b _ _ rfl rfl
    rfl
  exact eq_map_of_forall₂ (groups.imp fun _ _ => eq_map_of_forall₂)

lemma groupInstructions_later (n : Nat) (ops : List GateOp) :
    groupInstructions (ops.map (GateOp.later n)) = groupInstructions ops := by
  have targets : ∀ ops : List GateOp, targetsOf (ops.map (GateOp.later n)) = targetsOf ops := by
    intro ops
    exact filterMap_map ..
  have indices : ∀ ops : List GateOp, (ops.map (GateOp.later n)).flatMap (·.target.indices) =
      ops.flatMap (·.target.indices) := by
    intro ops
    exact flatMap_map ..
  cases ops with
  | nil => rfl
  | cons op rest =>
    have same := targets (op :: rest)
    have numbers := indices (op :: rest)
    rw [map_cons] at same numbers ⊢
    simp only [groupInstructions, same, numbers]
    rfl

lemma handlesIn_later {t t' : Tick} (h : t.Copies n t') :
    handlesIn t' = (handlesIn t).map (· + n) := by
  unfold handlesIn
  rw [h.gates, gateGroups_later, flatMap_map, map_flatMap]
  apply flatMap_congr
  intro ops _
  rw [filterMap_map, map_filterMap]
  rfl

lemma noteInstruction_later (before : ∀ h ∈ old, h < n) (order : List Nat) (note : Note) :
    noteInstruction (old ++ order.map (· + n)) (note.later n) = noteInstruction order note := by
  have offsets : ∀ handles : List Nat,
      (handles.map (· + n)).map (Cursor.offsetIn (old ++ order.map (· + n))) =
        handles.map (Cursor.offsetIn order) := by
    intro handles
    rw [map_map]
    exact map_congr_left fun h _ => Cursor.offsetIn_later before order h
  cases note with
  | detector handles => exact congrArg Instruction.detector (offsets handles)
  | observable index handles => exact congrArg (Instruction.observable index) (offsets handles)

lemma isSaid_note (note : Note) : (noteInstruction order note).isSaid = !note.isEmpty := by
  cases note with
  | detector handles =>
    cases handles with
    | nil | cons h rest => rfl
  | observable index handles => rfl

lemma spoken_notes (t : Tick) :
    spoken (t.notes.map (noteInstruction order)) = t.told.map (noteInstruction order) := by
  unfold spoken Tick.told
  rw [filter_map]
  congr 1
  apply filter_congr
  exact fun note _ => isSaid_note order note

lemma spoken_tick (before : ∀ h ∈ old, h < n) (order : List Nat) {t t' : Tick} (h : t.Copies n t') :
    spoken (tickInstructions (old ++ order.map (· + n)) t') =
      spoken (tickInstructions order t) := by
  have gates : (gateGroups t'.gates).flatMap groupInstructions =
      (gateGroups t.gates).flatMap groupInstructions := by
    rw [h.gates, gateGroups_later, flatMap_map]
    exact flatMap_congr fun ops _ => groupInstructions_later n ops
  have notes : t'.told.map (noteInstruction (old ++ order.map (· + n))) =
      t.told.map (noteInstruction order) := by
    rw [h.told, map_map]
    exact map_congr_left fun note _ => noteInstruction_later before order note
  unfold tickInstructions
  simp only [spoken_append, spoken_notes, notes, gates, h.before, h.after]

lemma spoken_ticks (before : ∀ h ∈ old, h < n) {ts ts' : List Tick}
    (copies : Forall₂ (Tick.Copies n) ts ts') (order : List Nat) :
    spoken (ticksInstructions (old ++ order.map (· + n)) ts') =
      spoken (ticksInstructions order ts) := by
  induction copies generalizing order with
  | nil => rfl
  | @cons t t' rest rest' first _ ih =>
    have moved : old ++ order.map (· + n) ++ handlesIn t' =
        old ++ (order ++ handlesIn t).map (· + n) := by
      rw [handlesIn_later first, map_append, append_assoc]
    have said : ∀ is : List Instruction, spoken (.tick :: is) = .tick :: spoken is := fun _ => rfl
    simp only [ticksInstructions, spoken_append, said, moved]
    rw [spoken_tick before _ first, ih]

/-! Stores. -/

variable {s s' : Store}

lemma between_append (s : Store) {mid : Nat} (le : start ≤ mid) (le' : mid ≤ stop) :
    s.between start stop = s.between start mid ++ s.between mid stop := by
  obtain ⟨m, rfl⟩ := Nat.exists_eq_add_of_le le
  obtain ⟨n, rfl⟩ := Nat.exists_eq_add_of_le le'
  unfold between
  rw [← map_append, show start + m + n - start = m + n by omega, Nat.add_sub_cancel_left,
    Nat.add_sub_cancel_left, range'_append_1]

lemma ticksInstructions_append (first later : List Tick) :
    ticksInstructions order (first ++ later) = ticksInstructions order first ++
      ticksInstructions (order ++ first.flatMap handlesIn) later := by
  induction first generalizing order with
  | nil => rw [nil_append, flatMap_nil, append_nil]; rfl
  | cons t rest ih =>
    simp [ticksInstructions, ih]

lemma stretch_append (s : Store) {mid : Nat} (le : start ≤ mid) (le' : mid ≤ stop) :
    s.stretch start stop = s.stretch start mid ++ s.stretch mid stop := by
  unfold stretch
  rw [s.between_append le le', ticksInstructions_append, s.orderBelow_append le]
  rfl

/-- The ticks of a section are copied some ticks later. -/
def CopiesIn (n lead start stop : Nat) (s s' : Store) : Prop :=
  ∀ t, start ≤ t → t < stop → (s.tickAt t).Copies n (s'.tickAt (t + lead))

lemma CopiesIn.between (h : CopiesIn n lead start stop s s') :
    Forall₂ (Tick.Copies n) (s.between start stop) (s'.between (start + lead) (stop + lead)) := by
  rw [between_later, Store.between, forall₂_map_left_iff, forall₂_map_right_iff, forall₂_same]
  intro t mem
  have range := mem_range'_1.mp mem
  exact h t range.1 (by omega)

/-- Outcomes below a tick are those of the other store, after some older ones. -/
structure Continues (n lead start : Nat) (s s' : Store) : Prop where
  order : ∃ old, (∀ h ∈ old, h < n) ∧
    s'.orderBelow (start + lead) = old ++ (s.orderBelow start).map (· + n)

lemma Continues.stretch (h : Continues n lead start s s')
    (copies : CopiesIn n lead start stop s s') :
    spoken (s'.stretch (start + lead) (stop + lead)) = spoken (s.stretch start stop) := by
  obtain ⟨old, before, order⟩ := h.order
  unfold Store.stretch
  rw [order]
  exact spoken_ticks before copies.between _

lemma CopiesIn.orderIn (h : CopiesIn n lead start stop s s') :
    s'.orderIn (start + lead) (stop + lead) = (s.orderIn start stop).map (· + n) := by
  have copies := h.between
  unfold Store.orderIn
  generalize s.between start stop = ts, s'.between (start + lead) (stop + lead) = ts' at copies ⊢
  induction copies with
  | nil => rfl
  | cons first _ ih =>
    rw [flatMap_cons, flatMap_cons, map_append, ih, handlesIn_later first]

lemma Continues.onward (h : Continues n lead start s s') (ordered : start ≤ stop)
    (copies : CopiesIn n lead start stop s s') :
    Continues n lead stop s s' := by
  obtain ⟨old, before, order⟩ := h.order
  refine ⟨old, before, ?_⟩
  rw [s'.orderBelow_append (Nat.add_le_add_right ordered lead), order, copies.orderIn,
    s.orderBelow_append ordered, map_append, append_assoc]

/-- Two stores, the second of which has a section of the first several times. -/
structure Unfolds (start stop count each : Nat) (s s' : Store) : Prop where
  ordered : start ≤ stop
  first : CopiesIn 0 0 0 start s s'
  middle : ∀ i ≤ count, CopiesIn (i * each) (i * (stop - start)) start stop s s'
  last : CopiesIn (count * each) (count * (stop - start)) stop s.size s s'
  size : s'.size = s.size + count * (stop - start)
  inside : stop ≤ s.size
  same : s.orderIn start stop = (s.orderBelow start).map (· + each)
  few : ∀ h ∈ s.orderBelow start, h < each

namespace Unfolds

variable {start stop count each : Nat}
variable {i : Nat}

variable (h : Unfolds start stop count each s s')
include h

/-- The order of outcomes continues from one copy to the next. -/
lemma continues (le : i ≤ count) : Continues (i * each) (i * (stop - start)) start s s' := by
  have ordered := h.ordered
  induction i with
  | zero =>
    have none : Continues 0 0 0 s s' := ⟨[], forall_mem_nil _, rfl⟩
    have begun := none.onward (Nat.zero_le start) h.first
    rwa [Nat.zero_mul, Nat.zero_mul]
  | succ i ih =>
    -- one more copy of the section is older than what comes next
    obtain ⟨old, before, order⟩ := (ih (by omega)).order
    have done := (ih (by omega)).onward ordered (h.middle i (by omega))
    obtain ⟨old', _, order'⟩ := done.order
    have lead : start + (i + 1) * (stop - start) = stop + i * (stop - start) := by
      rw [Nat.succ_mul]
      omega
    refine ⟨old ++ (s.orderBelow start).map (· + i * each), ?_, ?_⟩
    · intro handle mem
      rw [Nat.succ_mul]
      rcases mem_append.mp mem with early | late
      · have small := before handle early
        omega
      · obtain ⟨x, listed, rfl⟩ := mem_map.mp late
        have small := h.few x listed
        omega
    · rw [lead, s'.orderBelow_append (Nat.add_le_add_right ordered _), order,
        (h.middle i (by omega)).orderIn, h.same, map_map]
      congr 1
      apply map_congr_left
      intro x _
      rw [Function.comp_apply, Nat.succ_mul]
      omega

lemma stretch_copy (le : i ≤ count) :
    spoken (s'.stretch (start + i * (stop - start)) (stop + i * (stop - start))) =
      spoken (s.stretch start stop) :=
  (h.continues le).stretch (h.middle i le)

lemma stretch_below (le : i ≤ count + 1) :
    spoken (s'.stretch 0 (start + i * (stop - start))) = spoken (s.stretch 0 start) ++
      (List.replicate i (spoken (s.stretch start stop))).flatten := by
  have ordered := h.ordered
  induction i with
  | zero =>
    have none : Continues 0 0 0 s s' := ⟨[], forall_mem_nil _, rfl⟩
    have begun := none.stretch h.first
    rwa [Nat.zero_mul, replicate_zero, flatten_nil, append_nil]
  | succ i ih =>
    have lead : start + (i + 1) * (stop - start) = stop + i * (stop - start) := by
      rw [Nat.succ_mul]
      omega
    rw [lead, s'.stretch_append (Nat.zero_le _) (Nat.add_le_add_right ordered _),
      spoken_append, ih (by omega), h.stretch_copy (by omega), replicate_succ',
      flatten_append, flatten_singleton, append_assoc]

lemma stretch_all :
    spoken (s'.stretch 0 s'.size) = spoken (s.stretch 0 start) ++
      (List.replicate (count + 1) (spoken (s.stretch start stop))).flatten ++
        spoken (s.stretch stop s.size) := by
  have ordered := h.ordered
  have lead : start + (count + 1) * (stop - start) = stop + count * (stop - start) := by
    rw [Nat.succ_mul]
    omega
  have below := h.stretch_below (Nat.le_refl (count + 1))
  have ends := ((h.continues (Nat.le_refl count)).onward ordered
    (h.middle count (Nat.le_refl count))).stretch h.last
  have inside := h.inside
  rw [h.size, s'.stretch_append (Nat.zero_le (stop + count * (stop - start))) (by omega),
    spoken_append, ends, ← lead, below]

end Unfolds

/-! Programs. -/

lemma ends_ticksInstructions {ticks : List Tick} (some : ticks ≠ []) :
    ∃ is, ticksInstructions order ticks = is ++ [.tick] := by
  induction ticks generalizing order with
  | nil => exact absurd rfl some
  | cons t rest ih =>
    cases rest with
    | nil => exact ⟨_, rfl⟩
    | cons t' rest =>
      obtain ⟨is, ends⟩ := ih (order ++ handlesIn t) (cons_ne_nil t' rest)
      refine ⟨tickInstructions (order ++ handlesIn t) t ++ .tick :: is, ?_⟩
      rw [ticksInstructions, ends, append_assoc, cons_append]

lemma ends_stretch (s : Store) (some : start < stop) :
    ∃ is, s.stretch start stop = is ++ [.tick] := by
  apply ends_ticksInstructions
  intro none
  have length := congrArg length none
  rw [between, length_map, length_range', length_nil] at length
  omega

lemma dropLastTick_concat (is : List Instruction) : dropLastTick (is ++ [.tick]) = is := by
  simp [dropLastTick]

lemma spoken_dropLastTick {is is' : List Instruction} (h : ∃ start, is = start ++ [.tick])
    (h' : ∃ start, is' = start ++ [.tick]) (same : spoken (unrollAll is) = spoken is') :
    spoken (unrollAll (dropLastTick is)) = spoken (dropLastTick is') := by
  obtain ⟨start, rfl⟩ := h
  obtain ⟨start', rfl⟩ := h'
  rw [unrollAll_append, spoken_append, spoken_append] at same
  rw [dropLastTick_concat, dropLastTick_concat]
  exact append_cancel_right same

/-- The program with a block says what the one without says. -/
theorem Unfolds.program {count each : Nat} (h : Unfolds start stop count each s s')
    (region : s.region = some ⟨start, stop, count + 1⟩) (region' : s'.region = none)
    (qubits : s'.qubits = s.qubits) (more : stop < s.size) (layout : Layout) :
    spoken (s.program layout).unrolled = spoken (s'.program layout).instructions := by
  have coords : s'.emitCoords = s.emitCoords := by
    unfold emitCoords
    rw [qubits]
  have body : s.bodyInstructions = s.stretch 0 start ++
      .loop (count + 1) (s.stretch start stop) :: s.stretch stop s.size := by
    unfold bodyInstructions
    rw [region]
  have body' : s'.bodyInstructions = s'.stretch 0 s'.size := by
    unfold bodyInstructions
    rw [region']
  have plain : unrollAll (if layout.coords then s.emitCoords else []) =
      if layout.coords then s.emitCoords else [] := by
    split_ifs
    · exact s.unrollAll_coords
    · rfl
  simp only [Program.unrolled, Store.program, coords]
  generalize (if layout.coords then s.emitCoords else []) = first at plain ⊢
  have same : spoken (unrollAll (first ++ s.bodyInstructions)) =
      spoken (first ++ s'.bodyInstructions) := by
    rw [unrollAll_append, plain, unrollAll_body, region, body']
    simp [spoken_append, spoken_flatten, h.stretch_all]
  have ends : ∃ is, first ++ s.bodyInstructions = is ++ [.tick] := by
    obtain ⟨is, ends⟩ := s.ends_stretch more
    refine ⟨first ++ s.stretch 0 start ++ .loop (count + 1) (s.stretch start stop) :: is, ?_⟩
    rw [body, ends]
    simp only [append_assoc, cons_append]
  have ends' : ∃ is, first ++ s'.bodyInstructions = is ++ [.tick] := by
    have size := h.size
    obtain ⟨is, ends⟩ := s'.ends_stretch (show 0 < s'.size by omega)
    exact ⟨first ++ is, by rw [body', ends, append_assoc]⟩
  split_ifs
  · exact same
  · exact spoken_dropLastTick ends ends' same

end Store

end SyndromeSchedule
