import Mathlib.Data.List.Induction
import Mathlib.Data.List.Nodup
import SyndromeSchedule.Proofs.Writes
import SyndromeSchedule.Timeline.Emission

/-!
The program of a store, written down directly. A tick whose gates are regular and whose annotations
refer to outcomes that are already emitted is always emitted, and what is emitted depends only on
the tick and on the order of the outcomes so far.
-/

namespace SyndromeSchedule

open List

namespace Cursor

variable {n : Nat} {order : List Nat} {handle : Nat}

/-- The cursor after outcomes of some entries in a given order. -/
def of (entries : Nat) (order : List Nat) : Cursor := order.foldl placed (start entries)

lemma of_concat (n : Nat) (order : List Nat) (handle : Nat) :
    of n (order ++ [handle]) = (of n order).placed handle := by
  simp [of, foldl_append]

@[simp] lemma emitted_of (n : Nat) (order : List Nat) : (of n order).emitted = order.length := by
  induction order using reverseRecOn with
  | nil => rfl
  | append_singleton order handle ih => simp [of_concat, placed, ih]

@[simp] lemma size_positions_of (n : Nat) (order : List Nat) :
    (of n order).positions.size = n := by
  induction order using reverseRecOn with
  | nil => simp [of, start]
  | append_singleton order handle ih => simp [of_concat, placed, ih]

/-- The handles of entries can be placed. -/
lemma place_of (inside : handle < n) :
    (of n order).place handle = .ok (of n (order ++ [handle])) := by
  rw [place, size_positions_of, if_pos inside, of_concat]

/-- Offset of a handle from the end of an order. -/
def offsetIn (order : List Nat) (handle : Nat) : Int :=
  (order.idxOf handle : Int) - order.length

lemma position?_of (distinct : order.Nodup) (inside : handle < n) :
    (of n order).position? handle =
      some (if handle ∈ order then some (order.idxOf handle) else none) := by
  induction order using reverseRecOn with
  | nil => simp [position?, of, start, inside]
  | append_singleton order last ih =>
    rw [nodup_append] at distinct
    obtain ⟨distinct, _, apart⟩ := distinct
    have before := ih distinct
    rw [position?] at before
    rw [of_concat, position?, placed, emitted_of, Array.getElem?_setIfInBounds, size_positions_of]
    by_cases same : last = handle
    · subst same
      have fresh : last ∉ order := fun old => apart last old last (by simp) rfl
      simp [inside, idxOf_append_of_notMem fresh]
    · rw [if_neg same, before]
      by_cases old : handle ∈ order
      · simp [old, idxOf_append_of_mem old]
      · simp [old, Ne.symm same]

lemma position?_of_le (past : n ≤ handle) : (of n order).position? handle = none := by
  rw [position?, Array.getElem?_eq_none (by simpa using past)]

end Cursor

namespace Store

section Groups

variable {α β : Type} {same : α → α → Bool}

lemma flatten_addToGroup_perm (a : α) (gs : List (List α)) :
    (addToGroup same a gs).flatten.Perm (a :: gs.flatten) := by
  induction gs with
  | nil => simp [addToGroup]
  | cons group rest ih =>
    have behind : (group ++ (addToGroup same a rest).flatten).Perm (a :: (group ++ rest.flatten)) :=
      (ih.append_left group).trans perm_middle
    cases group with
    | nil => simpa [addToGroup] using ih
    | cons head tail =>
      simp only [addToGroup]
      split
      · simp only [flatten_cons, append_assoc, singleton_append]
        exact perm_middle
      · exact behind

lemma flatten_foldl_addToGroup_perm (items : List α) (gs : List (List α)) :
    (items.foldl (fun gs a => addToGroup same a gs) gs).flatten.Perm (gs.flatten ++ items) := by
  induction items generalizing gs with
  | nil => simp
  | cons a rest ih =>
    rw [foldl_cons]
    refine (ih _).trans ?_
    refine ((flatten_addToGroup_perm a gs).append_right rest).trans ?_
    exact perm_middle.symm

lemma flatten_groups_perm (items : List α) : (groups same items).flatten.Perm items := by
  simpa [groups] using flatten_foldl_addToGroup_perm items ([] : List (List α))

/-- Members of a group are all like its head. -/
def Alike (same : α → α → Bool) : List α → Prop
  | [] => False
  | head :: tail => ∀ a ∈ tail, same head a = true

lemma alike_addToGroup (a : α) (gs : List (List α)) (h : ∀ g ∈ gs, Alike same g) :
    ∀ g ∈ addToGroup same a gs, Alike same g := by
  induction gs with
  | nil => simp [addToGroup, Alike]
  | cons group rest ih =>
    have first := h group (by simp)
    have others := fun g mem => h g (.tail _ mem)
    cases group with
    | nil => exact absurd first id
    | cons head tail =>
      simp only [addToGroup]
      split
      · next like =>
          intro g mem
          rcases mem_cons.mp mem with rfl | mem
          · intro b inside
            rcases mem_append.mp inside with old | new
            · exact first b old
            · rwa [mem_singleton.mp new]
          · exact others g mem
      · exact forall_mem_cons.mpr ⟨first, ih others⟩

lemma alike_groups (items : List α) : ∀ g ∈ groups same items, Alike same g := by
  have step : ∀ (items : List α) (gs : List (List α)), (∀ g ∈ gs, Alike same g) →
      ∀ g ∈ items.foldl (fun gs a => addToGroup same a gs) gs, Alike same g := by
    intro items
    induction items with
    | nil => exact fun _ h => h
    | cons a rest ih => exact fun gs h => ih _ (alike_addToGroup a gs h)
  exact step items [] (by simp)

end Groups

/-- A gate has a handle exactly if it measures, and then it has a target. -/
def Regular (op : GateOp) : Prop :=
  op.gate.isMeasurement = op.handle.isSome ∧
    (op.gate.isMeasurement = true → ∃ target, measured op.target = .ok target)

def targetsOf (ops : List GateOp) : List Target :=
  ops.filterMap fun op => (measured op.target).toOption

def groupInstructions : List GateOp → List Instruction
  | [] => []
  | op :: rest =>
    if op.gate.isMeasurement then [.measure op.gate op.flip (targetsOf (op :: rest))]
    else [.gate op.gate ((op :: rest).flatMap (·.target.indices))]

lemma mapM_measured {ops : List GateOp}
    (h : ∀ op ∈ ops, ∃ target, measured op.target = .ok target) :
    ops.mapM (fun op => measured op.target) = .ok (targetsOf ops) := by
  induction ops with
  | nil => rfl
  | cons op rest ih =>
    obtain ⟨target, found⟩ := h op (by simp)
    have others := ih fun o mem => h o (.tail _ mem)
    rw [mapM_cons, found, others]
    simp [targetsOf, found, Except.toOption, bind, Except.bind, pure, Except.pure]

lemma foldlM_countOutcome {n : Nat} {ops : List GateOp} (order : List Nat)
    (inside : ∀ h ∈ ops.filterMap (·.handle), h < n) :
    ops.foldlM countOutcome (.of n order) = .ok (.of n (order ++ ops.filterMap (·.handle))) := by
  induction ops generalizing order with
  | nil => simp [pure, Except.pure]
  | cons op rest ih =>
    rw [foldlM_cons]
    cases has : op.handle with
    | none =>
      rw [filterMap_cons_none has] at inside ⊢
      simp only [countOutcome, has]
      exact ih order inside
    | some handle =>
      rw [filterMap_cons_some has] at inside ⊢
      simp only [countOutcome, has, Cursor.place_of (inside handle (.head _))]
      have others := ih (order ++ [handle]) fun h mem => inside h (.tail _ mem)
      rwa [append_assoc, singleton_append] at others

lemma gate_of_alike {op o : GateOp} {rest : List GateOp}
    (alike : Alike (fun a b => a.gate = b.gate && a.flip = b.flip) (op :: rest))
    (mem : o ∈ op :: rest) : o.gate = op.gate := by
  rcases mem_cons.mp mem with rfl | mem
  · rfl
  · have like := alike o mem
    simp only [Bool.and_eq_true, decide_eq_true_eq] at like
    exact like.1.symm

lemma emitGroup_eq {n : Nat} {ops : List GateOp} (order : List Nat)
    (alike : Alike (fun a b => a.gate = b.gate && a.flip = b.flip) ops)
    (regular : ∀ op ∈ ops, Regular op) (inside : ∀ h ∈ ops.filterMap (·.handle), h < n) :
    emitGroup (.of n order) ops =
      .ok (.of n (order ++ ops.filterMap (·.handle)), groupInstructions ops) := by
  cases ops with
  | nil => exact absurd alike id
  | cons op rest =>
    have gates : ∀ o ∈ op :: rest, o.gate = op.gate := fun o => gate_of_alike alike
    by_cases measures : op.gate.isMeasurement
    · have targets : ∀ o ∈ op :: rest, ∃ target, measured o.target = .ok target := by
        intro o mem
        exact (regular o mem).2 (by rw [gates o mem]; exact measures)
      simp only [emitGroup, groupInstructions, measures, if_true]
      rw [mapM_measured targets, foldlM_countOutcome order inside]
      rfl
    · have quiet : (op :: rest).filterMap (·.handle) = [] := by
        rw [filterMap_eq_nil_iff]
        intro o mem
        have same := (regular o mem).1
        rw [gates o mem] at same
        simpa [measures] using same
      rw [quiet, append_nil]
      simp only [emitGroup, groupInstructions, measures]
      rfl

lemma emitGates_eq {n : Nat} {gs : List (List GateOp)} (order : List Nat)
    (alike : ∀ g ∈ gs, Alike (fun a b => a.gate = b.gate && a.flip = b.flip) g)
    (regular : ∀ g ∈ gs, ∀ op ∈ g, Regular op)
    (inside : ∀ h ∈ gs.flatMap fun g => g.filterMap (·.handle), h < n) :
    emitGates (.of n order) gs = .ok (.of n (order ++ gs.flatMap fun g => g.filterMap (·.handle)),
        gs.flatMap groupInstructions) := by
  induction gs generalizing order with
  | nil => simp [emitGates]
  | cons ops rest ih =>
    rw [flatMap_cons, forall_mem_append] at inside
    have first := emitGroup_eq order (alike ops (by simp)) (regular ops (by simp)) inside.1
    have others := ih (order ++ ops.filterMap (·.handle)) (fun g mem => alike g (.tail _ mem))
      (fun g mem => regular g (.tail _ mem)) inside.2
    simp [emitGates, first, others, bind, Except.bind, pure, Except.pure]

end Store

/-- Handles an annotation refers to. -/
def Note.handles : Note → List Nat
  | .detector handles => handles
  | .observable _ handles => handles

namespace Store

variable {order : List Nat} {start stop : Nat} {s : Store} {t : Tick}

/-- The instruction of an annotation after outcomes in a given order. -/
def noteInstruction (order : List Nat) : Note → Instruction
  | .detector handles => .detector (handles.map (Cursor.offsetIn order))
  | .observable index handles => .observable index (handles.map (Cursor.offsetIn order))

/-- The instructions of a tick whose outcomes end a given order. -/
def tickInstructions (order : List Nat) (t : Tick) : List Instruction :=
  emitNoise t.before ++ (gateGroups t.gates).flatMap groupInstructions ++ emitNoise t.after ++
    t.notes.map (noteInstruction order)

/-- The instructions of ticks after outcomes in a given order. -/
def ticksInstructions (order : List Nat) : List Tick → List Instruction
  | [] => []
  | t :: rest =>
    tickInstructions (order ++ handlesIn t) t ++
      .tick :: ticksInstructions (order ++ handlesIn t) rest

/-- How an annotation fails for a handle whose outcome is not measured yet. -/
def absence (s : Store) (h : Nat) : Halt :=
  match s.record.entry? h with
  | some (key, _) => .fault (.notYetMeasured (.outcome key.product key.round))
  | none => @Halt.overflow .range

/-- Handles of entries of the record, none of them twice. -/
def Arranged (s : Store) (order : List Nat) : Prop := order.Nodup ∧ ∀ h ∈ order, h < s.record.size

lemma Arranged.left {first rest : List Nat} (arranged : s.Arranged (first ++ rest)) :
    s.Arranged first :=
  ⟨(nodup_append.mp arranged.1).1, (forall_mem_append.mp arranged.2).1⟩

/-- The cursor of a store after outcomes in a given order. -/
def cursor (s : Store) (order : List Nat) : Cursor := .of s.record.size order

lemma offsets_cases (arranged : s.Arranged order) (handles : List Nat) :
    ((∀ h ∈ handles, h ∈ order) ∧
      s.offsets (s.cursor order) handles = .ok (handles.map (Cursor.offsetIn order))) ∨
    ∃ h ∈ handles, h ∉ order ∧ s.offsets (s.cursor order) handles = .error (s.absence h) := by
  induction handles with
  | nil => exact .inl ⟨by simp, rfl⟩
  | cons h rest ih =>
    by_cases known : h ∈ order
    · have found : (s.cursor order).position? h = some (some (order.idxOf h)) := by
        rw [cursor, Cursor.position?_of arranged.1 (arranged.2 h known), if_pos known]
      rcases ih with ⟨all, given⟩ | ⟨k, mem, absent, stops⟩
      · refine .inl ⟨forall_mem_cons.mpr ⟨known, all⟩, ?_⟩
        simp only [offsets] at given ⊢
        rw [mapM_cons, found, given, cursor, Cursor.emitted_of]
        rfl
      · refine .inr ⟨k, .tail _ mem, absent, ?_⟩
        simp only [offsets] at stops ⊢
        rw [mapM_cons, found, stops]
        rfl
    · refine .inr ⟨h, .head _, known, ?_⟩
      rw [offsets, mapM_cons, absence]
      rcases lt_or_ge h s.record.size with filed | past
      · rw [cursor, Cursor.position?_of arranged.1 filed, if_neg known]
        cases s.record.entry? h <;> rfl
      · rw [cursor, Cursor.position?_of_le past, Record.entry?, if_neg (by omega)]
        rfl

lemma emitNote_cases (arranged : s.Arranged order) (note : Note) :
    ((∀ h ∈ note.handles, h ∈ order) ∧
      s.emitNote (s.cursor order) note = .ok (noteInstruction order note)) ∨
    ∃ h ∈ note.handles, h ∉ order ∧ s.emitNote (s.cursor order) note = .error (s.absence h) := by
  rcases offsets_cases arranged note.handles with ⟨all, given⟩ | ⟨h, mem, absent, stops⟩
  · refine .inl ⟨all, ?_⟩
    cases note with
    | _ =>
      simp only [Note.handles] at given
      simp only [emitNote, given]
      rfl
  · refine .inr ⟨h, mem, absent, ?_⟩
    cases note with
    | _ =>
      simp only [Note.handles] at stops
      simp only [emitNote, stops]
      rfl

lemma mapM_emitNote_cases (arranged : s.Arranged order) (notes : List Note) :
    ((∀ note ∈ notes, ∀ h ∈ note.handles, h ∈ order) ∧
      notes.mapM (s.emitNote (s.cursor order)) = .ok (notes.map (noteInstruction order))) ∨
    ∃ note ∈ notes, ∃ h ∈ note.handles, h ∉ order ∧
      notes.mapM (s.emitNote (s.cursor order)) = .error (s.absence h) := by
  induction notes with
  | nil => exact .inl ⟨by simp, rfl⟩
  | cons note rest ih =>
    rcases emitNote_cases arranged note with ⟨known, first⟩ | ⟨h, mem, absent, stops⟩
    · rcases ih with ⟨all, others⟩ | ⟨other, inside, h, mem, absent, stops⟩
      · refine .inl ⟨forall_mem_cons.mpr ⟨known, all⟩, ?_⟩
        rw [mapM_cons, first, others]
        rfl
      · refine .inr ⟨other, .tail _ inside, h, mem, absent, ?_⟩
        rw [mapM_cons, first, stops]
        rfl
    · refine .inr ⟨note, .head _, h, mem, absent, ?_⟩
      rw [mapM_cons, stops]
      rfl

lemma handlesIn_perm (t : Tick) : (handlesIn t).Perm (t.gates.filterMap (·.handle)) := by
  have flat : handlesIn t = (gateGroups t.gates).flatten.filterMap (·.handle) := by
    rw [handlesIn, filterMap_flatten, flatMap_def]
  rw [flat]
  exact (flatten_groups_perm t.gates).filterMap _

lemma mem_handlesIn_iff {h : Nat} : h ∈ handlesIn t ↔ ∃ op ∈ t.gates, op.handle = some h := by
  rw [(handlesIn_perm t).mem_iff, mem_filterMap]

lemma emitTick_cases (arranged : s.Arranged (order ++ handlesIn t))
    (regular : ∀ op ∈ t.gates, Regular op) :
    ((∀ note ∈ t.notes, ∀ h ∈ note.handles, h ∈ order ++ handlesIn t) ∧
      s.emitTick (s.cursor order) t =
        .ok (s.cursor (order ++ handlesIn t), tickInstructions (order ++ handlesIn t) t)) ∨
    ∃ note ∈ t.notes, ∃ h ∈ note.handles, h ∉ order ++ handlesIn t ∧
      s.emitTick (s.cursor order) t = .error (s.absence h) := by
  have inside : ∀ g ∈ gateGroups t.gates, ∀ op ∈ g, Regular op := by
    intro g mem op here
    have found : op ∈ (gateGroups t.gates).flatten := mem_flatten.mpr ⟨g, mem, here⟩
    exact regular op ((flatten_groups_perm t.gates).mem_iff.mp found)
  have gates : emitGates (s.cursor order) (gateGroups t.gates) =
      .ok (s.cursor (order ++ handlesIn t), _) :=
    emitGates_eq order (alike_groups t.gates) inside (forall_mem_append.mp arranged.2).2
  rcases mapM_emitNote_cases arranged t.notes with
    ⟨known, notes⟩ | ⟨note, noted, h, mem, absent, stops⟩
  · refine .inl ⟨known, ?_⟩
    simp only [emitTick, gates, notes, bind, Except.bind]
    rfl
  · refine .inr ⟨note, noted, h, mem, absent, ?_⟩
    simp only [emitTick, gates, stops, bind, Except.bind]

/-- Annotations of ticks refer to outcomes that are emitted before them. -/
def Dated (order : List Nat) (ticks : List Tick) : Prop :=
  ∀ i t, ticks[i]? = some t → ∀ note ∈ t.notes, ∀ h ∈ note.handles,
    h ∈ order ++ (ticks.take (i + 1)).flatMap handlesIn

lemma Dated.tail {rest : List Tick} (h : Dated order (t :: rest)) :
    Dated (order ++ handlesIn t) rest := by
  intro i t' found note mem handle inside
  have later := h (i + 1) t' (by simpa using found) note mem handle inside
  simpa [append_assoc] using later

lemma Dated.cons {rest : List Tick}
    (known : ∀ note ∈ t.notes, ∀ h ∈ note.handles, h ∈ order ++ handlesIn t)
    (dated : Dated (order ++ handlesIn t) rest) : Dated order (t :: rest) := by
  intro i u found note mem h inside
  cases i with
  | zero =>
    obtain rfl := Option.some.inj found
    simpa using known note mem h inside
  | succ i => simpa [append_assoc] using dated i u found note mem h inside

lemma emitTicks_cases {ticks : List Tick}
    (arranged : s.Arranged (order ++ ticks.flatMap handlesIn))
    (regular : ∀ t ∈ ticks, ∀ op ∈ t.gates, Regular op) :
    (Dated order ticks ∧ s.emitTicks (s.cursor order) ticks =
      .ok (s.cursor (order ++ ticks.flatMap handlesIn), ticksInstructions order ticks)) ∨
    ∃ i t, ticks[i]? = some t ∧ ∃ note ∈ t.notes, ∃ h ∈ note.handles,
      h ∉ order ++ (ticks.take (i + 1)).flatMap handlesIn ∧
        s.emitTicks (s.cursor order) ticks = .error (s.absence h) := by
  induction ticks generalizing order with
  | nil =>
    refine .inl ⟨fun i t found => ?_, ?_⟩
    · cases found
    · simp [emitTicks, ticksInstructions]
  | cons t rest ih =>
    rw [flatMap_cons, ← append_assoc] at arranged
    rcases emitTick_cases arranged.left (regular t (by simp)) with
      ⟨known, first⟩ | ⟨note, inside, h, mem, absent, stops⟩
    · rcases ih arranged fun u later => regular u (.tail _ later) with
        ⟨dated, others⟩ | ⟨i, u, found, note, inside, h, mem, absent, stops⟩
      · refine .inl ⟨.cons known dated, ?_⟩
        simp [emitTicks, first, others, bind, Except.bind, pure, Except.pure, ticksInstructions]
      · refine .inr ⟨i + 1, u, found, note, inside, h, mem, ?_, ?_⟩
        · simpa [append_assoc] using absent
        · simp only [emitTicks, first, bind, Except.bind, stops]
    · refine .inr ⟨0, t, rfl, note, inside, h, mem, ?_, ?_⟩
      · simpa using absent
      · simp only [emitTicks, stops, bind, Except.bind]

/-- A store in which gates and record agree and annotations look back. -/
structure Sound (s : Store) : Prop where
  filed : ∀ {t : Nat} {op : GateOp} {h : Nat}, op ∈ (s.tickAt t).gates → op.handle = some h →
    ∃ key, s.record.entry? h = some (key, t)
  performed : ∀ {h t : Nat} {key : Key}, s.record.entry? h = some (key, t) →
    ∃ op ∈ (s.tickAt t).gates, op.handle = some h
  once : ∀ t, ((s.tickAt t).gates.filterMap (·.handle)).Nodup
  regular : ∀ {t : Nat} {op : GateOp}, op ∈ (s.tickAt t).gates → Regular op
  dated : ∀ {t : Nat} {note : Note}, note ∈ (s.tickAt t).notes → ∀ h ∈ note.handles,
    ∃ key t', s.record.entry? h = some (key, t') ∧ t' ≤ t

lemma ticks_eq (s : Store) : s.ticks.toList = (List.range s.size).map s.tickAt := by
  refine ext_getElem? fun t => ?_
  simp only [Array.getElem?_toList, getElem?_map]
  by_cases h : t < s.size
  · have found : s.ticks[t]? = some s.ticks[t] := Array.getElem?_eq_getElem h
    simp [h, found, tickAt]
  · have past : s.ticks[t]? = none := by simpa [size] using h
    simp [h, past]

/-- Handles of the first ticks, in the order of the program. -/
def orderBelow (s : Store) (n : Nat) : List Nat :=
  (List.range n).flatMap fun t => handlesIn (s.tickAt t)

/-- The ticks from one to before another. -/
def between (s : Store) (start stop : Nat) : List Tick :=
  (List.range' start (stop - start)).map s.tickAt

/-- Handles of some ticks, in the order of the program. -/
def orderIn (s : Store) (start stop : Nat) : List Nat := (s.between start stop).flatMap handlesIn

lemma between_eq (s : Store) (inside : stop ≤ s.size) :
    (s.ticks.toList.take stop).drop start = s.between start stop := by
  refine ext_getElem? fun i => ?_
  rw [ticks_eq, between]
  simp only [getElem?_take, getElem?_drop, getElem?_map]
  by_cases bound : start + i < stop
  · have below : start + i < s.size := by omega
    have here : i < stop - start := by omega
    simp [bound, below, here]
  · have past : ¬ i < stop - start := by omega
    simp [bound, past]

lemma orderBelow_append (s : Store) (ordered : start ≤ stop) :
    s.orderBelow stop = s.orderBelow start ++ s.orderIn start stop := by
  have ranges : range stop = range start ++ range' start (stop - start) := by
    obtain ⟨n, rfl⟩ := Nat.exists_eq_add_of_le ordered
    rw [range_eq_range', range_eq_range', Nat.add_sub_cancel_left]
    simpa using (range'_append_1 (s := 0) (m := start) (n := n)).symm
  rw [orderBelow, ranges, flatMap_append, orderIn, between, flatMap_map]
  rfl

lemma orderBelow_take (s : Store) {i : Nat} (inside : i < stop - start) :
    s.orderBelow start ++ ((s.between start stop).take (i + 1)).flatMap handlesIn =
      s.orderBelow (start + i + 1) := by
  have first : (s.between start stop).take (i + 1) = s.between start (start + (i + 1)) := by
    rw [between, between, ← map_take, take_range'_of_length_ge (by omega), Nat.add_sub_cancel_left]
  have whole := s.orderBelow_append (Nat.le_add_right start (i + 1))
  rw [orderIn, ← first] at whole
  exact whole.symm

lemma getElem?_between {i : Nat} :
    (s.between start stop)[i]? = some t ↔ i < stop - start ∧ t = s.tickAt (start + i) := by
  rw [between, getElem?_map]
  by_cases inside : i < stop - start
  · rw [getElem?_eq_getElem (by simpa using inside)]
    simp [inside, eq_comm]
  · rw [getElem?_eq_none (by simpa using inside)]
    simp [inside]

lemma regular_between (regular : ∀ t, ∀ op ∈ (s.tickAt t).gates, Regular op)
    (start stop : Nat) : ∀ t ∈ s.between start stop, ∀ op ∈ t.gates, Regular op := by
  intro t mem op here
  obtain ⟨i, _, rfl⟩ := mem_map.mp mem
  exact regular i op here

lemma nodup_orderBelow (once : ∀ t, ((s.tickAt t).gates.filterMap (·.handle)).Nodup)
    (apart : ∀ {t t' h}, h ∈ handlesIn (s.tickAt t) → h ∈ handlesIn (s.tickAt t') → t = t')
    (n : Nat) : (s.orderBelow n).Nodup := by
  refine nodup_flatMap.mpr ⟨fun t _ => (handlesIn_perm _).nodup_iff.mpr (once t), ?_⟩
  refine pairwise_lt_range.imp fun earlier h here there => ?_
  exact absurd (apart here there) (ne_of_lt earlier)

/-- A gate up to a tick gives the outcome of a handle. -/
def MeasuredBy (s : Store) (t handle : Nat) : Prop :=
  ∃ t' ≤ t, ∃ op ∈ (s.tickAt t').gates, op.handle = some handle

/-- Annotations refer to outcomes that are given up to their own tick. -/
def LooksBack (s : Store) : Prop :=
  ∀ t, ∀ note ∈ (s.tickAt t).notes, ∀ h ∈ note.handles, s.MeasuredBy t h

lemma mem_orderBelow_succ {t h : Nat} : h ∈ s.orderBelow (t + 1) ↔ s.MeasuredBy t h := by
  simp only [orderBelow, mem_flatMap, mem_range, mem_handlesIn_iff, MeasuredBy, Nat.lt_succ_iff]

lemma LooksBack.dated (back : s.LooksBack) (start stop : Nat) :
    Dated (s.orderBelow start) (s.between start stop) := by
  intro i t found note noted h mem
  obtain ⟨inside, rfl⟩ := getElem?_between.mp found
  rw [s.orderBelow_take inside]
  exact mem_orderBelow_succ.mpr (back _ note noted h mem)

namespace Sound

variable {s : Store}
variable {h : Nat}

variable (sound : s.Sound)
include sound

lemma mem_handlesIn {t : Nat} :
    h ∈ handlesIn (s.tickAt t) ↔ ∃ key, s.record.entry? h = some (key, t) := by
  rw [mem_handlesIn_iff]
  constructor
  · rintro ⟨op, mem, has⟩
    exact sound.filed mem has
  · rintro ⟨key, entry⟩
    exact sound.performed entry

lemma mem_orderBelow {n : Nat} :
    h ∈ s.orderBelow n ↔ ∃ key t, s.record.entry? h = some (key, t) ∧ t < n := by
  simp only [orderBelow, mem_flatMap, mem_range, sound.mem_handlesIn]
  constructor
  · rintro ⟨t, below, key, entry⟩
    exact ⟨key, t, entry, below⟩
  · rintro ⟨key, t, entry, below⟩
    exact ⟨t, below, key, entry⟩

lemma orderBelow_nodup (n : Nat) : (s.orderBelow n).Nodup := by
  refine nodup_orderBelow sound.once (fun here there => ?_) n
  obtain ⟨_, entry⟩ := sound.mem_handlesIn.mp here
  obtain ⟨_, entry'⟩ := sound.mem_handlesIn.mp there
  rw [entry] at entry'
  exact (Prod.mk.inj (Option.some.inj entry')).2

lemma arranged (n : Nat) : s.Arranged (s.orderBelow n) := by
  refine ⟨sound.orderBelow_nodup n, fun h mem => ?_⟩
  obtain ⟨_, _, entry, _⟩ := sound.mem_orderBelow.mp mem
  exact Record.lt_size entry

lemma tick_lt_size {t : Nat} {key : Key} (entry : s.record.entry? h = some (key, t)) :
    t < s.size := by
  obtain ⟨op, mem, _⟩ := sound.performed entry
  by_contra past
  rw [tickAt_of_size_le (by omega)] at mem
  simp at mem

lemma looksBack : s.LooksBack := by
  intro t note noted h mem
  obtain ⟨_, t', entry, before⟩ := sound.dated noted h mem
  obtain ⟨op, inside, has⟩ := sound.performed entry
  exact ⟨t', before, op, inside, has⟩

lemma dated_between (start stop : Nat) : Dated (s.orderBelow start) (s.between start stop) :=
  sound.looksBack.dated start stop

lemma regular_between (start stop : Nat) :
    ∀ t ∈ s.between start stop, ∀ op ∈ t.gates, Regular op :=
  Store.regular_between (fun _ _ => sound.regular) start stop

end Sound

/-- Instructions of a range of ticks. -/
def stretch (s : Store) (start stop : Nat) : List Instruction :=
  ticksInstructions (s.orderBelow start) (s.between start stop)

/-- The instructions of all ticks, with the repeated ones in a block. -/
def bodyInstructions (s : Store) : List Instruction :=
  match s.region with
  | none => s.stretch 0 s.size
  | some region =>
    s.stretch 0 region.start ++ .loop region.repetitions (s.stretch region.start region.stop) ::
      s.stretch region.stop s.size

/-- The program of a store. -/
def program (s : Store) (layout : Layout) : Program :=
  let all := (if layout.coords then s.emitCoords else []) ++ s.bodyInstructions
  ⟨if layout.trailingTick then all else dropLastTick all⟩

/-- An annotation of some ticks refers to an outcome that is not given yet. -/
def Blocked (s : Store) (start stop : Nat) (halt : Halt) : Prop :=
  ∃ t, start ≤ t ∧ t < stop ∧ ∃ note ∈ (s.tickAt t).notes, ∃ h ∈ note.handles,
    ¬ s.MeasuredBy t h ∧ halt = s.absence h

def LooksBackIn (s : Store) (start stop : Nat) : Prop :=
  ∀ t, start ≤ t → t < stop → ∀ note ∈ (s.tickAt t).notes, ∀ h ∈ note.handles, s.MeasuredBy t h

section Stretches

variable (arranged : ∀ n, s.Arranged (s.orderBelow n))
  (regular : ∀ t, ∀ op ∈ (s.tickAt t).gates, Regular op)
include arranged regular

lemma emitTicks_between_cases (ordered : start ≤ stop) (inside : stop ≤ s.size) :
    (s.LooksBackIn start stop ∧
      s.emitTicks (s.cursor (s.orderBelow start)) ((s.ticks.toList.take stop).drop start) =
        .ok (s.cursor (s.orderBelow stop), s.stretch start stop)) ∨
    ∃ halt, s.Blocked start stop halt ∧
      s.emitTicks (s.cursor (s.orderBelow start)) ((s.ticks.toList.take stop).drop start) =
        .error halt := by
  have apart := arranged stop
  rw [s.orderBelow_append ordered] at apart
  rw [s.between_eq inside]
  rcases emitTicks_cases apart (regular_between regular start stop) with
    ⟨dated, emitted⟩ | ⟨i, t, found, note, noted, h, mem, absent, stops⟩
  · refine .inl ⟨?_, ?_⟩
    · intro t low high note noted h mem
      obtain ⟨i, rfl⟩ := Nat.exists_eq_add_of_le low
      have bound : i < stop - start := by omega
      have known := dated i _ (getElem?_between.mpr ⟨bound, rfl⟩) note noted h mem
      rw [s.orderBelow_take bound] at known
      exact mem_orderBelow_succ.mp known
    · rwa [s.orderBelow_append ordered]
  · obtain ⟨bound, rfl⟩ := getElem?_between.mp found
    rw [s.orderBelow_take bound, mem_orderBelow_succ] at absent
    exact .inr ⟨_, ⟨start + i, by omega, by omega, note, noted, h, mem, absent, rfl⟩, stops⟩

variable (within : ∀ region, s.region = some region →
  region.start ≤ region.stop ∧ region.stop ≤ s.size)
include within

/-- The body is emitted if all its annotations look back, and blocked by the first that does not. -/
lemma emitBody_cases : (s.LooksBackIn 0 s.size ∧ s.emitBody = .ok s.bodyInstructions) ∨
      ∃ halt, s.Blocked 0 s.size halt ∧ s.emitBody = .error halt := by
  have start : Cursor.start s.record.size = s.cursor (s.orderBelow 0) := rfl
  have length : s.ticks.toList.length = s.size := by simp [size]
  simp only [emitBody, bodyInstructions]
  cases marked : s.region with
  | none =>
    have all := emitTicks_between_cases arranged regular (Nat.zero_le _) (Nat.le_refl s.size)
    rw [drop_zero, ← length, take_length, length] at all
    rcases all with ⟨back, emitted⟩ | ⟨halt, blocked, stops⟩
    · refine .inl ⟨back, ?_⟩
      simp only [start, emitted]
      rfl
    · refine .inr ⟨halt, blocked, ?_⟩
      simp only [start, stops]
      rfl
  | some region =>
    obtain ⟨ordered, bounded⟩ := within region marked
    have first := emitTicks_between_cases arranged regular (Nat.zero_le _) (ordered.trans bounded)
    have middle := emitTicks_between_cases arranged regular ordered bounded
    have last := emitTicks_between_cases arranged regular bounded le_rfl
    rw [drop_zero] at first
    rw [← length, take_length, length] at last
    simp only [start, ordered, bounded, decide_true, Bool.and_self, if_true]
    rcases first with ⟨back, emitted⟩ | ⟨halt, ⟨t, low, high, blocked⟩, stops⟩
    · rcases middle with ⟨back', emitted'⟩ | ⟨halt, ⟨t, low, high, blocked⟩, stops⟩
      · rcases last with ⟨back'', emitted''⟩ | ⟨halt, ⟨t, low, high, blocked⟩, stops⟩
        · refine .inl ⟨?_, ?_⟩
          · intro t low high
            rcases lt_or_ge t region.start with early | early
            · exact back t low early
            · rcases lt_or_ge t region.stop with within | late
              · exact back' t early within
              · exact back'' t late high
          · simp only [emitted, emitted', emitted'', bind, Except.bind, pure, Except.pure]
        · refine .inr ⟨halt, ⟨t, Nat.zero_le t, high, blocked⟩, ?_⟩
          simp only [emitted, emitted', stops, bind, Except.bind]
      · refine .inr ⟨halt, ⟨t, Nat.zero_le t, by omega, blocked⟩, ?_⟩
        simp only [emitted, stops, bind, Except.bind]
    · refine .inr ⟨halt, ⟨t, low, by omega, blocked⟩, ?_⟩
      simp only [stops, bind, Except.bind]

/-- A store is emitted if its annotations look back, and stops at one that does not otherwise. -/
theorem emit_cases (layout : Layout) : (s.LooksBack ∧ s.emit layout = .ok (s.program layout)) ∨
      ∃ halt, s.Blocked 0 s.size halt ∧ s.emit layout = .error halt := by
  rcases emitBody_cases arranged regular within with ⟨back, emitted⟩ | ⟨halt, blocked, stops⟩
  · refine .inl ⟨?_, ?_⟩
    · intro t note noted
      rcases lt_or_ge t s.size with inside | past
      · exact back t (Nat.zero_le t) inside note noted
      · rw [tickAt_of_size_le past] at noted
        exact absurd noted not_mem_nil
    · simp only [emit, emitted]
      rfl
  · refine .inr ⟨halt, blocked, ?_⟩
    simp only [emit, stops]
    rfl

end Stretches

/-- A sound store whose region stays within the ticks. -/
structure Emissible (s : Store) : Prop where
  sound : s.Sound
  within : ∀ region, s.region = some region → region.start ≤ region.stop ∧ region.stop ≤ s.size

lemma Emissible.emit_eq (h : s.Emissible) (layout : Layout) :
    s.emit layout = .ok (s.program layout) := by
  rcases emit_cases h.sound.arranged (fun _ _ => h.sound.regular) h.within layout with
    ⟨_, emitted⟩ | ⟨_, ⟨t, _, _, note, noted, h', mem, absent, _⟩, _⟩
  · exact emitted
  · exact absurd (h.sound.looksBack t note noted h' mem) absent

end Store

end SyndromeSchedule
