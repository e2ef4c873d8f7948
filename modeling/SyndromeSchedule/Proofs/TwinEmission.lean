import SyndromeSchedule.Proofs.TwinLayers

/-!
Ticks of two runs as instructions. Gates share an instruction if they are the same gate with the
same flip; since all measurements of a run have one flip, gates are grouped alike in both runs, and
outcomes come in the same order.
-/

namespace SyndromeSchedule

open List

namespace Store

section Groups

variable {α α' : Type} {R : α → α' → Prop} {same : α → α → Bool} {same' : α' → α' → Bool}

lemma forall₂_addToGroup
    (agree : ∀ a b a' b', R a a' → R b b' → same a b = same' a' b') {a : α} {a' : α'}
    (item : R a a') {gs : List (List α)} {gs' : List (List α')}
    (h : Forall₂ (Forall₂ R) gs gs') :
    Forall₂ (Forall₂ R) (addToGroup same a gs) (addToGroup same' a' gs') := by
  induction h with
  | nil => exact .cons (.cons item .nil) .nil
  | @cons g g' rest rest' group others ih =>
    cases group with
    | nil => exact .cons .nil ih
    | @cons head head' tail tail' first more =>
      rw [addToGroup, addToGroup, agree head a head' a' first item]
      split_ifs
      · exact .cons (.cons first (rel_append more (.cons item .nil))) others
      · exact .cons (.cons first more) ih

lemma forall₂_groups (agree : ∀ a b a' b', R a a' → R b b' → same a b = same' a' b')
    {items : List α} {items' : List α'} (h : Forall₂ R items items') :
    Forall₂ (Forall₂ R) (groups same items) (groups same' items') := by
  have loop : ∀ {gs : List (List α)} {gs' : List (List α')}, Forall₂ (Forall₂ R) gs gs' →
      Forall₂ (Forall₂ R) (items.foldl (fun gs a => addToGroup same a gs) gs)
        (items'.foldl (fun gs a => addToGroup same' a gs) gs') := by
    induction h with
    | nil => exact fun related => related
    | cons item _ ih => exact fun related => ih (forall₂_addToGroup agree item related)
  exact loop .nil

end Groups

/-- Gates of both runs that measure if and only if they have a handle. -/
def TwinGates (k : Comparison) (op op' : GateOp) : Prop := Regular op ∧ op.Twin k op'

variable {k : Comparison} {t t' : Tick} {s s' : Store} {top start : Nat}

lemma bind_const_congr {h h' : Option Nat} (same : h.isSome = h'.isSome) (x : Option Double) :
    (h.bind fun _ => x) = h'.bind fun _ => x := by
  cases h with
  | none =>
    cases h' with
    | none => rfl
    | some n => cases same
  | some m =>
    cases h' with
    | none => cases same
    | some n => rfl

lemma TwinGates.flips {a b a' b' : GateOp} (ha : TwinGates k a a') (hb : TwinGates k b b') :
    (decide (a.gate = b.gate) && decide (a.flip = b.flip)) =
      (decide (a'.gate = b'.gate) && decide (a'.flip = b'.flip)) := by
  rw [ha.2.gate, hb.2.gate]
  by_cases gates : a.gate = b.gate
  · have measured : a.handle.isSome = b.handle.isSome := by
      rw [← ha.1.1, ← hb.1.1, gates]
    have flips : a.flip = b.flip := by
      rw [ha.2.flip, hb.2.flip]
      exact bind_const_congr measured k.flip
    have flips' : a'.flip = b'.flip := by
      rw [ha.2.flip', hb.2.flip']
      exact bind_const_congr measured k.flip'
    simp [flips, flips']
  · simp [gates]

lemma twin_gateGroups (h : t.Twin k t') (regular : ∀ op ∈ t.gates, Regular op) :
    Forall₂ (Forall₂ (TwinGates k)) (gateGroups t.gates) (gateGroups t'.gates) :=
  forall₂_groups (fun _ _ _ _ ha hb => ha.flips hb) ((forall₂_and_left _ _).mpr ⟨regular, h.gates⟩)

lemma handlesIn_twin (h : t.Twin k t') (regular : ∀ op ∈ t.gates, Regular op) :
    handlesIn t' = (handlesIn t).map (· + k.handles) := by
  have each : ∀ {ops ops' : List GateOp}, Forall₂ (TwinGates k) ops ops' →
      ops'.filterMap (·.handle) = (ops.filterMap (·.handle)).map (· + k.handles) := by
    intro ops ops' related
    induction related with
    | nil => rfl
    | @cons op op' rest rest' first _ ih =>
      rw [filterMap_cons, filterMap_cons, first.2.handle]
      cases op.handle with
      | none => exact ih
      | some n => exact congrArg (_ :: ·) ih
  have related := twin_gateGroups h regular
  unfold handlesIn
  generalize gateGroups t.gates = gs, gateGroups t'.gates = gs' at related ⊢
  induction related with
  | nil => rfl
  | cons group _ ih => rw [flatMap_cons, flatMap_cons, map_append, each group, ih]

lemma between_later (s : Store) (start stop lead : Nat) : s.between (start + lead) (stop + lead) =
      (List.range' start (stop - start)).map fun t => s.tickAt (t + lead) := by
  unfold between
  rw [Nat.add_sub_add_right, range'_eq_map_range, range'_eq_map_range, map_map, map_map]
  apply map_congr_left
  intro i _
  simp only [Function.comp_apply, Nat.add_right_comm]

lemma between_twin (h : s.Twin k top s') (late : k.base ≤ start) (stop : Nat) :
    Forall₂ (Tick.Twin k) (s.between start stop)
      (s'.between (start + k.ticks) (stop + k.ticks)) := by
  rw [s'.between_later, between, forall₂_map_left_iff, forall₂_map_right_iff, forall₂_same]
  intro t mem
  apply h.ticks t
  exact late.trans (mem_range'_1.mp mem).1

lemma orderIn_twin (h : s.Twin k top s') (sound : s.Sound) (late : k.base ≤ start) (stop : Nat) :
    s'.orderIn (start + k.ticks) (stop + k.ticks) = (s.orderIn start stop).map (· + k.handles) := by
  have regular := sound.regular_between start stop
  have related := between_twin h late stop
  unfold orderIn
  generalize s.between start stop = ts, s'.between _ _ = ts' at related regular
  induction related with
  | nil => rfl
  | cons first _ ih =>
    rw [flatMap_cons, flatMap_cons, map_append, handlesIn_twin first (regular _ (.head _)),
      ih fun t mem => regular t (mem_cons_of_mem _ mem)]

lemma keysIn_twin (h : s.Twin k top s') (sound : s.Sound) (late : k.base ≤ start) (stop : Nat) :
    s'.keysIn (start + k.ticks) (stop + k.ticks) =
      (s.keysIn start stop).map (Key.later k.rounds) := by
  unfold keysIn
  rw [orderIn_twin h sound late, filterMap_map, map_filterMap]
  apply filterMap_congr
  intro handle _
  obtain ⟨found, missing⟩ := h.record.entry handle
  simp only [Function.comp]
  cases entry : s.record.entry? handle with
  | none => rw [missing entry]
            rfl
  | some e =>
    obtain ⟨t', here, _⟩ := found e.1 e.2 entry
    rw [here]
    rfl

lemma targetsOf_twin {ops ops' : List GateOp} (h : Forall₂ (TwinGates k) ops ops') :
    targetsOf ops' = targetsOf ops := by
  unfold targetsOf
  induction h with
  | nil => rfl
  | cons first _ ih => rw [filterMap_cons, filterMap_cons, first.2.target, ih]

lemma indices_twin {ops ops' : List GateOp} (h : Forall₂ (TwinGates k) ops ops') :
    ops'.flatMap (·.target.indices) = ops.flatMap (·.target.indices) := by
  induction h with
  | nil => rfl
  | cons first _ ih => rw [flatMap_cons, flatMap_cons, first.2.target, ih]

end Store

end SyndromeSchedule
