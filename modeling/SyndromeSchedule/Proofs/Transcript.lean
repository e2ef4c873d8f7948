import SyndromeSchedule.Proofs.Offsets

/-!
Programs as transcripts of their stores. Tick by tick, a program has the noise before the gates, the
gates, the noise after them and the annotations of its store; what can share an instruction does, in
the order in which it was added.
-/

namespace SyndromeSchedule

open List

/-! Numbers that are equal as numbers. Nothing equals what is not a number, so equality of
parameters is symmetric and transitive only. -/

lemma Double.numEq_symm {x y : Double} (h : x.numEq y = true) : y.numEq x = true := by
  simp only [numEq, Bool.and_eq_true, Bool.or_eq_true, beq_iff_eq] at h ⊢
  obtain ⟨⟨left, right⟩, same⟩ := h
  exact ⟨⟨right, left⟩, same.imp Eq.symm And.symm⟩

lemma Double.numEq_trans {x y z : Double} (first : x.numEq y = true)
    (second : y.numEq z = true) : x.numEq z = true := by
  simp only [numEq, Bool.and_eq_true, Bool.or_eq_true, beq_iff_eq] at first second ⊢
  obtain ⟨⟨number, _⟩, same⟩ := first
  obtain ⟨⟨_, number'⟩, same'⟩ := second
  refine ⟨⟨number, number'⟩, ?_⟩
  rcases same with rfl | zeros
  · exact same'
  · rcases same' with rfl | zeros'
    · exact .inr zeros
    · exact .inr ⟨zeros.1, zeros'.2⟩

lemma Instruction.sameNumbers_iff {xs ys : List Double} :
    sameNumbers xs ys = true ↔ Forall₂ (fun x y => x.numEq y = true) xs ys := by
  rw [forall₂_iff_zip, sameNumbers, Bool.and_eq_true, decide_eq_true_eq, all_eq_true]
  exact and_congr_right fun _ => ⟨fun all _ _ mem => all _ mem, fun all e mem => all mem⟩

lemma Instruction.sameNumbers_trans {xs ys zs : List Double} (first : sameNumbers xs ys = true)
    (second : sameNumbers ys zs = true) : sameNumbers xs zs = true := by
  rw [sameNumbers_iff] at first second ⊢
  induction first generalizing zs with
  | nil => exact second
  | cons same _ ih =>
    cases second with
    | cons same' rest => exact .cons (Double.numEq_trans same same') (ih rest)

/-- Gates that share an instruction. -/
def GateOp.like (a b : GateOp) : Bool := a.gate = b.gate && a.flip = b.flip

/-- Noise that shares an instruction. -/
def NoiseOp.like (a b : NoiseOp) : Bool :=
  a.channel = b.channel && Instruction.sameNumbers a.parameters b.parameters

/-- A relation by which items can be grouped, though an item need not be like itself. -/
structure Groupable {α : Type} (same : α → α → Bool) : Prop where
  symm : ∀ {a b}, same a b = true → same b a = true
  trans : ∀ {a b c}, same a b = true → same b c = true → same a c = true

lemma GateOp.like_iff {a b : GateOp} : a.like b = true ↔ a.gate = b.gate ∧ a.flip = b.flip := by
  simp [like]

lemma GateOp.groupable_like : Groupable GateOp.like where
  symm h := like_iff.mpr ((like_iff.mp h).imp Eq.symm Eq.symm)
  trans h h' := like_iff.mpr
    ⟨(like_iff.mp h).1.trans (like_iff.mp h').1, (like_iff.mp h).2.trans (like_iff.mp h').2⟩

lemma NoiseOp.like_iff {a b : NoiseOp} : a.like b = true ↔
    a.channel = b.channel ∧ Instruction.sameNumbers a.parameters b.parameters = true := by
  simp [like]

lemma NoiseOp.groupable_like : Groupable NoiseOp.like where
  symm := by
    intro a b h
    obtain ⟨channel, numbers⟩ := like_iff.mp h
    rw [Instruction.sameNumbers_iff] at numbers
    refine like_iff.mpr ⟨channel.symm, Instruction.sameNumbers_iff.mpr ?_⟩
    exact numbers.flip.imp fun _ _ => Double.numEq_symm
  trans h h' := like_iff.mpr ⟨(like_iff.mp h).1.trans (like_iff.mp h').1,
    Instruction.sameNumbers_trans (like_iff.mp h).2 (like_iff.mp h').2⟩

namespace Store

variable {s : Store} {op : GateOp} {ops : List GateOp}

/-! Groups by first appearance. -/

section Groups

variable {α : Type} {same : α → α → Bool} {items : List α} {a : α}

/-- Items that are like no earlier one. -/
def firsts (same : α → α → Bool) (items : List α) : List α :=
  (items.zipIdx.filter fun e => (items.take e.2).all fun a => !same a e.1).map (·.1)

/-- Items that share an instruction with one of them: those that are like it, or it alone if it is
not even like itself. -/
def fellows (same : α → α → Bool) (items : List α) (a : α) : List α :=
  if same a a then items.filter (same a) else [a]

/-- Every item is in one group, and no two groups are alike. -/
structure Partitioned (same : α → α → Bool) (items : List α) : Prop where
  apart : (firsts same items).Pairwise fun a b => same a b = false
  whole : ((firsts same items).flatMap (fellows same items)).Perm items

lemma firsts_concat (items : List α) (a : α) : firsts same (items ++ [a]) =
      firsts same items ++ if items.all fun b => !same b a then [a] else [] := by
  have old : ∀ e ∈ items.zipIdx, ((items ++ [a]).take e.2).all (fun b => !same b e.1) =
      (items.take e.2).all fun b => !same b e.1 := by
    intro e mem
    have inside : e.2 ≤ items.length := by
      have := snd_lt_of_mem_zipIdx mem
      omega
    rw [take_append_of_le_length inside]
  rw [firsts, zipIdx_append, filter_append, map_append, filter_congr old]
  congr 1
  simp only [Nat.zero_add, zipIdx_cons, zipIdx_nil, filter_cons, filter_nil, take_left']
  split_ifs <;> rfl

lemma mem_of_mem_firsts (mem : a ∈ firsts same items) : a ∈ items := by
  obtain ⟨e, kept, rfl⟩ := mem_map.mp mem
  exact fst_mem_of_mem_zipIdx (mem_filter.mp kept).1

lemma pairwise_firsts (items : List α) :
    (firsts same items).Pairwise fun a b => same a b = false := by
  induction items using reverseRecOn with
  | nil => exact .nil
  | append_singleton items last ih =>
    rw [firsts_concat, pairwise_append]
    refine ⟨ih, ?_, ?_⟩
    · split_ifs
      · exact pairwise_singleton ..
      · exact .nil
    · intro a kept b new
      split_ifs at new with fresh
      · obtain rfl := mem_singleton.mp new
        have unlike := all_eq_true.mp fresh a (mem_of_mem_firsts kept)
        simpa using unlike
      · cases new

lemma addToGroup_cons {h : α} {g : List α} (head : g.head? = some h) (a : α)
    (rest : List (List α)) :
    addToGroup same a (g :: rest) =
      if same h a then (g ++ [a]) :: rest else g :: addToGroup same a rest := by
  obtain ⟨tail, rfl⟩ := head?_eq_some_iff.mp head
  rfl

lemma addToGroup_fresh {heads : List α} {group : α → List α}
    (headed : ∀ h ∈ heads, (group h).head? = some h) (unlike : ∀ h ∈ heads, same h a = false) :
    addToGroup same a (heads.map group) = heads.map group ++ [[a]] := by
  induction heads with
  | nil => rfl
  | cons h rest ih =>
    have others := ih (fun k mem => headed k (.tail _ mem)) fun k mem => unlike k (.tail _ mem)
    rw [map_cons, addToGroup_cons (headed h (.head _)), unlike h (.head _), others]
    rfl

variable (groupable : Groupable same)
include groupable

lemma exists_first {b : α} (mem : a ∈ items) (like : same a b = true) :
    ∃ first ∈ firsts same items, same first b = true := by
  induction items using reverseRecOn generalizing a b with
  | nil => cases mem
  | append_singleton items last ih =>
    rw [firsts_concat]
    rcases mem_append.mp mem with old | new
    · obtain ⟨first, kept, like⟩ := ih old like
      exact ⟨first, mem_append_left _ kept, like⟩
    · obtain rfl := mem_singleton.mp new
      by_cases fresh : items.all fun b => !same b a
      · exact ⟨a, by simp [fresh], like⟩
      · obtain ⟨earlier, inside, like'⟩ : ∃ x ∈ items, same x a = true := by simpa using fresh
        obtain ⟨first, kept, like''⟩ := ih inside (groupable.trans like' like)
        exact ⟨first, mem_append_left _ kept, like''⟩

lemma addToGroup_joins {heads : List α} {group : α → List α}
    (headed : ∀ h ∈ heads, (group h).head? = some h)
    (apart : heads.Pairwise fun a b => same a b = false)
    (joins : ∃ h ∈ heads, same h a = true) :
    addToGroup same a (heads.map group) =
      heads.map fun h => if same h a then group h ++ [a] else group h := by
  induction heads with
  | nil =>
    obtain ⟨_, mem, _⟩ := joins
    cases mem
  | cons h rest ih =>
    obtain ⟨unlike, apart⟩ := pairwise_cons.mp apart
    rw [map_cons, addToGroup_cons (headed h (.head _)), map_cons]
    split_ifs with like
    · -- Another head like the item would be like this one.
      refine congrArg _ (map_congr_left fun k mem => ?_)
      rw [if_neg]
      intro also
      have both := groupable.trans like (groupable.symm also)
      rw [unlike k mem] at both
      cases both
    · have later : ∃ k ∈ rest, same k a = true := by
        obtain ⟨k, mem, likes⟩ := joins
        rcases mem_cons.mp mem with rfl | mem
        · exact absurd likes like
        · exact ⟨k, mem, likes⟩
      rw [ih (fun k mem => headed k (mem_cons_of_mem _ mem)) apart later]

lemma fellows_concat (items : List α) (last a : α) : fellows same (items ++ [last]) a =
      if same a last then fellows same items a ++ [last] else fellows same items a := by
  unfold fellows
  split_ifs with self like like
  · simp [like]
  · simp [like]
  · exact absurd (groupable.trans like (groupable.symm like)) self
  · rfl

lemma fellows_fresh {last : α} (unlike : ∀ b ∈ items, same b last = false) :
    fellows same (items ++ [last]) last = [last] := by
  unfold fellows
  split_ifs with self
  · have none : items.filter (same last) = [] := by
      rw [filter_eq_nil_iff]
      intro b mem like
      have back := groupable.symm like
      rw [unlike b mem] at back
      cases back
    simp [none, self]
  · rfl

/-- Groups are made of the first items, each with all that are like it. -/
theorem groups_eq (items : List α) :
    groups same items = (firsts same items).map (fellows same items) ∧
      ∀ a ∈ firsts same items, (fellows same items a).head? = some a := by
  induction items using reverseRecOn with
  | nil => exact ⟨rfl, by simp [firsts]⟩
  | append_singleton items last ih =>
    obtain ⟨made, headed⟩ := ih
    have step : groups same (items ++ [last]) = addToGroup same last (groups same items) := by
      simp [groups]
    have kept : ∀ h ∈ firsts same items, (fellows same (items ++ [last]) h).head? = some h := by
      intro h mem
      rw [fellows_concat groupable]
      split_ifs
      · rw [head?_append, headed h mem]
        rfl
      · exact headed h mem
    rw [step, made, firsts_concat]
    by_cases fresh : ∀ b ∈ items, same b last = false
    · have first : (items.all fun b => !same b last) = true := by simpa using fresh
      have alone := fellows_fresh groupable fresh
      have unlike : ∀ h ∈ firsts same items, same h last = false := fun h mem =>
        fresh h (mem_of_mem_firsts mem)
      have same_groups : (firsts same items).map (fellows same (items ++ [last])) =
          (firsts same items).map (fellows same items) := by
        refine map_congr_left fun h mem => ?_
        rw [fellows_concat groupable, unlike h mem]
        rfl
      rw [addToGroup_fresh headed unlike, if_pos first, map_append, same_groups,
        map_singleton, alone]
      refine ⟨rfl, ?_⟩
      intro h mem
      rcases mem_append.mp mem with old | new
      · exact kept h old
      · obtain rfl := mem_singleton.mp new
        rw [alone]
        rfl
    · have later : ¬ (items.all fun b => !same b last) = true := by simpa using fresh
      obtain ⟨b, mem, like⟩ : ∃ b ∈ items, same b last = true := by simpa using fresh
      have joins := exists_first groupable mem like
      rw [addToGroup_joins groupable headed (pairwise_firsts items) joins, if_neg later, append_nil]
      refine ⟨map_congr_left fun h _ => ?_, kept⟩
      rw [fellows_concat groupable]

lemma partitioned_of_groupable (items : List α) : Partitioned same items where
  apart := pairwise_firsts items
  whole := by
    have all : (groups same items).flatten.Perm items := flatten_groups_perm items
    rwa [(groups_eq groupable items).1, ← flatMap_def] at all

end Groups

/-! The instructions of a tick. -/

/-- Calls as proper ones whose gates have as many qubits as they take. -/
def Call.IsExact : Call → Bool
  | gate _ g qubits => !g.isMeasurement && qubits.length = g.arity
  | measure _ g _ _ _ => g.isMeasurement
  | _ => true

lemma Call.IsExact.proper {call : Call} (exact_call : call.IsExact = true) :
    call.IsProper = true := by
  cases call with
  | gate tick g qubits =>
    simp only [IsExact, Bool.and_eq_true] at exact_call
    exact exact_call.1
  | _ => exact exact_call

lemma Reached.proper (reached : s.Reached Call.IsExact) : s.Reached Call.IsProper := by
  obtain ⟨calls, allowed, same⟩ := reached
  exact ⟨calls, fun call mem => Call.IsExact.proper (allowed call mem), same⟩

/-- What the measurement of one qubit or of a product measures. -/
def measuredOne : GateTarget → Option Target
  | .qubits [n] => some (.qubit n)
  | .product factors => some (.product factors)
  | _ => none

/-- A gate has as many targets as it takes; one that measures has one. -/
def Exact (op : GateOp) : Prop :=
  (op.gate.isMeasurement = false →
    ∃ indices, op.target = .qubits indices ∧ indices.length = op.gate.arity) ∧
  (op.gate.isMeasurement = true → (measuredOne op.target).isSome)

lemma Call.Makes.exact {call : Call} (makes : call.Makes op) (allowed : call.IsExact = true) :
    Exact op := by
  cases call with
  | gate tick g qubits =>
    obtain ⟨rfl, _, _, indices, target, length⟩ := makes
    simp only [IsExact, Bool.and_eq_true, Bool.not_eq_true', decide_eq_true_eq] at allowed
    refine ⟨fun _ => ⟨indices, target, length.trans allowed.2⟩, fun measures => ?_⟩
    rw [allowed.1] at measures
    cases measures
  | measure tick g q flip key =>
    obtain ⟨rfl, _, _, n, target⟩ := makes
    refine ⟨fun quiet => ?_, fun _ => by rw [target]; rfl⟩
    rw [show op.gate.isMeasurement = true from allowed] at quiet
    cases quiet
  | product tick factors flip key =>
    obtain ⟨product, _, _, letters, target⟩ := makes
    refine ⟨fun quiet => ?_, fun _ => by rw [target]; rfl⟩
    rw [product] at quiet
    cases quiet
  | _ => exact absurd makes id

lemma Reached.exact (reached : s.Reached Call.IsExact) :
    ∀ t, ∀ op ∈ (s.tickAt t).gates, Exact op := by
  obtain ⟨calls, allowed, rfl⟩ := reached
  intro t op mem
  obtain ⟨call, inside, makes⟩ := exists_makes mem
  exact makes.exact (allowed call inside)

/-- The instruction of some gates that are like one of them: their targets one after another. -/
inductive Shares (ops : List GateOp) (op : GateOp) : Instruction → Prop where
  | gate (quiet : op.gate.isMeasurement = false)
      (sized : ∀ o ∈ ops, ∃ indices, o.target = .qubits indices ∧ indices.length = op.gate.arity) :
      Shares ops op (.gate op.gate (ops.flatMap (·.target.indices)))
  | measure (targets : List Target) (measures : op.gate.isMeasurement = true)
      (each : targets.map some = ops.map fun o => measuredOne o.target) :
      Shares ops op (.measure op.gate op.flip targets)

/-- The instructions of some noise: one for each first of its kind, with the targets of all that are
like it one after another. -/
def noiseTranscript (ops : List NoiseOp) : List Instruction :=
  (firsts NoiseOp.like ops).map fun op =>
    .noise op.channel op.parameters ((fellows NoiseOp.like ops op).flatMap (·.targets))

/-- The instructions of a tick: noise before, one for each first gate of its kind with the targets
of all that are like it, noise after, and annotations. -/
def Transcribes (order : List Nat) (t : Tick) (is : List Instruction) : Prop :=
  ∃ gates, is = noiseTranscript t.before ++ gates ++ noiseTranscript t.after ++
      t.notes.map (noteInstruction order) ∧
    Forall₂ (fun op i => Shares (fellows GateOp.like t.gates op) op i)
      (firsts GateOp.like t.gates) gates

lemma emitNoise_eq (ops : List NoiseOp) : emitNoise ops = noiseTranscript ops := by
  obtain ⟨made, headed⟩ := groups_eq NoiseOp.groupable_like ops
  have grouped : noiseGroups ops = groups NoiseOp.like ops := rfl
  rw [emitNoise, grouped, made, filterMap_map, noiseTranscript]
  rw [← filterMap_eq_map]
  refine filterMap_congr fun op mem => ?_
  rw [Function.comp_apply, headed op mem]
  rfl

lemma targetsOf_eq (single : ∀ op ∈ ops, (measuredOne op.target).isSome) :
    (targetsOf ops).map some = ops.map fun op => measuredOne op.target := by
  induction ops with
  | nil => rfl
  | cons op rest ih =>
    have others := ih fun o mem => single o (.tail _ mem)
    obtain ⟨target, found⟩ := Option.isSome_iff_exists.mp (single op (.head _))
    have given : measured op.target = .ok target := by
      unfold measuredOne at found
      split at found
      · next n same => rw [same]; cases found; rfl
      · next factors same => rw [same]; cases found; rfl
      · cases found
    have first : targetsOf (op :: rest) = target :: targetsOf rest := by
      simp [targetsOf, given, Except.toOption]
    rw [first, map_cons, map_cons, others, found]

lemma shares_group (head : ops.head? = some op) (alike : ∀ o ∈ ops, o.gate = op.gate)
    (counts : ∀ o ∈ ops, Exact o) :
    ∃ i, groupInstructions ops = [i] ∧ Shares ops op i := by
  obtain ⟨rest, rfl⟩ := head?_eq_some_iff.mp head
  by_cases measures : op.gate.isMeasurement = true
  · refine ⟨_, by rw [groupInstructions, if_pos measures], .measure _ measures (targetsOf_eq ?_)⟩
    intro o mem
    exact (counts o mem).2 (by rw [alike o mem]; exact measures)
  · have quiet : op.gate.isMeasurement = false := by simpa using measures
    refine ⟨_, by rw [groupInstructions, if_neg measures], .gate quiet ?_⟩
    intro o mem
    obtain ⟨indices, target, length⟩ := (counts o mem).1 (by rw [alike o mem]; exact quiet)
    exact ⟨indices, target, by rw [length, alike o mem]⟩

lemma mem_fellows_gates {o : GateOp} :
    o ∈ fellows GateOp.like ops op ↔ o ∈ ops ∧ op.like o = true := by
  have self : op.like op = true := GateOp.like_iff.mpr ⟨rfl, rfl⟩
  rw [fellows, if_pos self, mem_filter]

lemma transcribes_tick (order : List Nat) {t : Tick} (counts : ∀ op ∈ t.gates, Exact op) :
    Transcribes order t (tickInstructions order t) := by
  obtain ⟨made, headed⟩ := groups_eq GateOp.groupable_like t.gates
  have grouped : gateGroups t.gates = groups GateOp.like t.gates := rfl
  have each : ∀ op ∈ firsts GateOp.like t.gates, ∃ i,
      groupInstructions (fellows GateOp.like t.gates op) = [i] ∧
        Shares (fellows GateOp.like t.gates op) op i := by
    intro op mem
    refine shares_group (headed op mem) ?_ ?_
    · intro o inside
      exact (GateOp.like_iff.mp (mem_fellows_gates.mp inside).2).1.symm
    · intro o inside
      exact counts o (mem_fellows_gates.mp inside).1
  refine ⟨(gateGroups t.gates).flatMap groupInstructions, ?_, ?_⟩
  · rw [tickInstructions, emitNoise_eq, emitNoise_eq]
  · rw [grouped, made, flatMap_map]
    generalize firsts GateOp.like t.gates = heads at each
    induction heads with
    | nil => exact .nil
    | cons op rest ih =>
      obtain ⟨i, single, shares⟩ := each op (.head _)
      rw [flatMap_cons, single]
      exact .cons shares (ih fun o mem => each o (.tail _ mem))

/-! From ticks to a program. -/

/-- Instructions of ticks, each with its end. -/
def lay (segments : List (List Instruction)) : List Instruction :=
  segments.flatMap fun is => is ++ [.tick]

/-- Instructions of all ticks, with those of a region in a block. -/
def assemble (segments : List (List Instruction)) : Option Region → List Instruction
  | none => lay segments
  | some r =>
    lay (segments.take r.start) ++
      .loop r.repetitions (lay ((segments.take r.stop).drop r.start)) :: lay (segments.drop r.stop)

/-- Instructions of every tick. -/
def segments (s : Store) : List (List Instruction) :=
  (List.range s.size).map fun t => tickInstructions (s.orderBelow (t + 1)) (s.tickAt t)

lemma ticksInstructions_eq (s : Store) (start n : Nat) :
    ticksInstructions (s.orderBelow start) ((List.range' start n).map s.tickAt) =
      lay ((List.range' start n).map fun t =>
        tickInstructions (s.orderBelow (t + 1)) (s.tickAt t)) := by
  induction n generalizing start with
  | zero => rfl
  | succ n ih =>
    have next : s.orderBelow start ++ handlesIn (s.tickAt start) = s.orderBelow (start + 1) := by
      simp [orderBelow, range_succ]
    rw [range'_succ, map_cons, ticksInstructions, next, ih]
    simp [lay]

lemma stretch_eq (s : Store) {start stop : Nat} (inside : stop ≤ s.size) :
    s.stretch start stop = lay ((s.segments.take stop).drop start) := by
  have part : (s.segments.take stop).drop start = (range' start (stop - start)).map fun t =>
      tickInstructions (s.orderBelow (t + 1)) (s.tickAt t) := by
    rw [segments, ← map_take, ← map_drop, take_range, min_eq_left inside,
      range_eq_range', drop_range']
    simp
  rw [part, stretch, between, ticksInstructions_eq]

lemma bodyInstructions_eq (intact : s.Intact) :
    s.bodyInstructions = assemble s.segments s.region := by
  have length : s.segments.length = s.size := by simp [segments]
  unfold bodyInstructions assemble
  cases marked : s.region with
  | none =>
    simp only [s.stretch_eq le_rfl, drop_zero]
    rw [← length, take_length]
  | some r =>
    obtain ⟨ordered, inside⟩ := intact.region r marked
    simp only [s.stretch_eq (ordered.le.trans inside), s.stretch_eq inside,
      s.stretch_eq le_rfl, drop_zero]
    conv_lhs => rw [← length, take_length]

lemma dropLastTick_cases (is : List Instruction) :
    is = dropLastTick is ++ [.tick] ∨ dropLastTick is = is ∧ is.getLast? ≠ some .tick := by
  unfold dropLastTick
  split
  · next last =>
      obtain ⟨rest, rfl⟩ := getLast?_eq_some_iff.mp last
      exact .inl (by simp)
  · next other => exact .inr ⟨rfl, other⟩

/-- A program that is emitted is a transcript of its store. Each tick has its own instructions and
no others, those of a repeated region in one block; and without a tick after the last one, just that
tick is left out, if the program would end in it. -/
theorem emit_transcribes_store (s : Store) (reached : s.Reached Call.IsExact) (layout : Layout)
    (p : Program) (emitted : s.emit layout = .ok p) :
    ∃ (segments : List (List Instruction)) (full : List Instruction),
      segments.length = s.size ∧
      (∀ t is, segments[t]? = some is → Transcribes (s.orderBelow (t + 1)) (s.tickAt t) is ∧
        ∀ i ∈ is, i.isInner = true) ∧
      (∀ t, Partitioned NoiseOp.like (s.tickAt t).before ∧
        Partitioned GateOp.like (s.tickAt t).gates ∧
        Partitioned NoiseOp.like (s.tickAt t).after) ∧
      (∀ r, s.region = some r → r.start < r.stop ∧ r.stop ≤ s.size) ∧
      full = (if layout.coords then s.emitCoords else []) ++ assemble segments s.region ∧
      (layout.trailingTick = true → p.instructions = full) ∧
      (layout.trailingTick = false → full = p.instructions ++ [.tick] ∨
        p.instructions = full ∧ full.getLast? ≠ some .tick) := by
  have regular := reached.proper.regular
  have program : p = s.program layout := by
    rcases reached.intact.emit_cases regular layout with ⟨_, given⟩ | ⟨halt, _, stops⟩
    · rw [given] at emitted
      exact (Except.ok.inj emitted).symm
    · rw [stops] at emitted
      cases emitted
  refine ⟨s.segments, _, by simp [segments], ?_, ?_, reached.intact.region, rfl, ?_, ?_⟩
  · intro t is found
    rw [segments, List.getElem?_map] at found
    obtain ⟨t', listed, rfl⟩ := Option.map_eq_some_iff.mp found
    obtain ⟨_, rfl⟩ := List.getElem?_eq_some_iff.mp listed
    rw [List.getElem_range]
    exact ⟨transcribes_tick _ (reached.exact t), isInner_tickInstructions⟩
  · intro t
    exact ⟨partitioned_of_groupable NoiseOp.groupable_like _,
      partitioned_of_groupable GateOp.groupable_like _,
      partitioned_of_groupable NoiseOp.groupable_like _⟩
  · intro trailing
    rw [program, Store.program, trailing, bodyInstructions_eq reached.intact]
    rfl
  · intro trailing
    rw [program, Store.program, trailing, bodyInstructions_eq reached.intact]
    exact dropLastTick_cases _

/-- Gates of two kinds in turn, noise with both zeros and twice with what is not a number, and a
region at the end. -/
def sharedInstructions : List Call :=
  [.gate 1 .CX [⟨[0]⟩, ⟨[1]⟩], .gate 0 .R [⟨[0]⟩], .gate 1 .H [⟨[4]⟩], .gate 1 .CX [⟨[2]⟩, ⟨[3]⟩],
    .noise 1 .after .xError [.zero] [⟨[0]⟩], .noise 1 .after .xError [.nan] [⟨[1]⟩],
    .noise 1 .after .xError [.neg .zero] [⟨[2]⟩], .noise 1 .after .xError [.nan] [⟨[3]⟩],
    .measure 2 .M ⟨[0]⟩ none ⟨0, .empty⟩, .mark 1 3 7]

theorem emit_transcribes_store_sharedInstructions :
    (∀ call ∈ sharedInstructions, call.IsExact = true) ∧
    ∃ p, (empty.after sharedInstructions).emit {} = .ok p ∧
      ∃ segments, segments.length = 3 ∧
        (∀ t is, segments[t]? = some is →
          Transcribes ((empty.after sharedInstructions).orderBelow (t + 1))
            ((empty.after sharedInstructions).tickAt t) is) ∧
        p.instructions = (empty.after sharedInstructions).emitCoords ++
          assemble segments (some ⟨1, 3, 7⟩) := by
  have allowed : ∀ call ∈ sharedInstructions, call.IsExact = true := by decide
  have size : (empty.after sharedInstructions).size = 3 := by decide +kernel
  have marked : (empty.after sharedInstructions).region = some ⟨1, 3, 7⟩ := by decide +kernel
  have given : ((empty.after sharedInstructions).emit {}).toOption.isSome = true := by
    decide +kernel
  obtain ⟨p, given⟩ := Option.isSome_iff_exists.mp given
  have emitted := Outcome.eq_ok_of_toOption given
  obtain ⟨segments, full, length, each, _, _, assembled, _, ends⟩ :=
    emit_transcribes_store (empty.after sharedInstructions) ⟨sharedInstructions, allowed, rfl⟩ {} p
      emitted
  rw [size] at length
  rw [marked] at assembled
  refine ⟨allowed, p, emitted, segments, length, fun t is found => (each t is found).1, ?_⟩
  have whole : full = (empty.after sharedInstructions).emitCoords ++
      assemble segments (some ⟨1, 3, 7⟩) := assembled
  rcases ends rfl with dropped | ⟨same, _⟩
  · -- The last instruction is the block, so no tick is left out.
    have last : full.getLast? = some .tick := by rw [dropped]; simp
    have rest : segments.drop 3 = [] := List.drop_eq_nil_of_le (Nat.le_of_eq length)
    rw [whole] at last
    simp [assemble, lay, rest] at last
  · rw [same, whole]

end Store

end SyndromeSchedule
