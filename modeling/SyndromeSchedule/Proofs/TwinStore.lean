import SyndromeSchedule.Proofs.Comparison

/-!
The operations of a store in two runs that are compared. Gates go to ticks that correspond and meet
the same qubits there; annotations go to the tick of their latest outcome, which corresponds or
comes before what is compared in both runs.
-/

namespace SyndromeSchedule

open List Outcome

namespace Store

variable {s : Store}

/-- Ticks, qubits and outcomes stay. -/
structure Grows (s next : Store) : Prop where
  size_le : s.size ≤ next.size
  qubits : ∀ q ∈ s.qubits, q ∈ next.qubits
  within : s.record.Within next.record

lemma Grows.refl (s : Store) : s.Grows s := ⟨le_rfl, fun _ h => h, fun h => h⟩

lemma Grows.trans {next last : Store} (h : s.Grows next) (h' : next.Grows last) : s.Grows last :=
  ⟨h.size_le.trans h'.size_le, fun q mem => h'.qubits q (h.qubits q mem),
    fun entry => h'.within (h.within entry)⟩

lemma Writes.grows {next : Store} {log : List Write} (h : Writes s log next) : s.Grows next :=
  ⟨h.size_le, fun _ mem => h.numbering.subset mem, h.within⟩

end Store

/-! Numbering. -/

namespace Numbering

/-- The map follows from the list. -/
lemma ext_qubits {m m' : Numbering} (same : m.qubits = m'.qubits) : m = m' := by
  have maps : m.indices = m'.indices := by
    refine Table.ext_get? fun q => Option.ext fun n => ?_
    rw [m.inverse, m'.inverse, same]
  cases m
  cases m'
  simp_all

lemma number_of_mem {m : Numbering} {q : Qubit} (mem : q ∈ m.qubits) : (m.number q).1 = m := by
  obtain ⟨n, found⟩ := List.mem_iff_getElem?.mp mem
  rw [number]
  split
  · rfl
  · next fresh =>
      rw [(m.inverse q n).mpr found] at fresh
      cases fresh

end Numbering

namespace Store

variable {s : Store}

lemma index_congr {s' : Store} (same : s'.qubits = s.qubits) (q : Qubit) :
    (s'.index q).2 = (s.index q).2 ∧ (s'.index q).1.qubits = (s.index q).1.qubits := by
  have numbering : s'.numbering = s.numbering := Numbering.ext_qubits same
  simp only [index, qubits, numbering, and_self]

lemma indexAll_congr (qubits : List Qubit) {s' : Store} (same : s'.qubits = s.qubits) :
    (s'.indexAll qubits).2 = (s.indexAll qubits).2 ∧
      (s'.indexAll qubits).1.qubits = (s.indexAll qubits).1.qubits := by
  induction qubits generalizing s s' with
  | nil => exact ⟨rfl, same⟩
  | cons q rest ih =>
    obtain ⟨number, numbering⟩ := index_congr same q
    obtain ⟨numbers, all⟩ := ih numbering
    simp only [indexAll, number, numbers, all, and_self]

lemma mem_indexAll (s : Store) {qubits : List Qubit} {q : Qubit} (mem : q ∈ qubits) :
    q ∈ (s.indexAll qubits).1.qubits := by
  obtain ⟨n, _, found⟩ := exists_left_of_forall₂ (s.indexAll_numbering qubits).2 mem
  exact mem_of_getElem? found

lemma indexAll_of_mem {qubits : List Qubit} (known : ∀ q ∈ qubits, q ∈ s.qubits) :
    (s.indexAll qubits).1 = s := by
  induction qubits with
  | nil => rfl
  | cons q rest ih =>
    have first : (s.index q).1 = s := by
      rw [index_eq, index, Numbering.number_of_mem (known q (.head _))]
    simp only [indexAll]
    rw [first]
    exact ih fun q mem => known q (.tail _ mem)

section Twin

variable {k : Comparison} {top tick : Nat} {s s' : Store}
variable {qubits : List Qubit}

/-- Stores in step, with nothing lost. -/
def Steps (s : Store) (k : Comparison) (top : Nat) (next next' : Store) : Prop :=
  next.Twin k top next' ∧ s.Grows next

lemma Twin.indexAll (h : s.Twin k top s') (known : ∀ q ∈ qubits, k.known q) :
    (s.indexAll qubits).1.Twin k top (s'.indexAll qubits).1 := by
  have numbering := (indexAll_congr qubits h.qubits).2
  have numbered : (∀ q, k.known q → q ∈ k.origin.qubits) →
      (s.indexAll qubits).1.qubits = k.origin.qubits := by
    intro all
    have same := h.numbered all
    rwa [indexAll_of_mem fun q mem => by rw [same]; exact all q (known q mem)]
  rw [indexAll_eq qubits s, indexAll_eq qubits s']
  exact { h with qubits := numbering, numbered }

lemma conflict?_congr {target : GateTarget} {tick' : Nat}
    (same : (s'.tickAt tick').busy = (s.tickAt tick).busy) :
    s'.conflict? tick' target = s.conflict? tick target := by
  have busy : ∀ (s : Store) (t : Nat),
      ((s.ticks[t]?).map (·.busy)).getD [] = (s.tickAt t).busy := by
    intro s t
    unfold tickAt
    cases s.ticks[t]? <;> rfl
  simp only [conflict?, busy, same]

section

variable (h : s.Twin k top s')
include h

lemma Twin.claim (late : k.base ≤ tick) (target : GateTarget) :
    (s.claim tick target).commit.Along k.strict (fun _ _ => tick < maxTicks)
      (s'.claim (tick + k.ticks) target).commit := by
  have busy : ((s'.reach (tick + k.ticks)).tickAt (tick + k.ticks)).busy =
      ((s.reach tick).tickAt tick).busy := by
    rw [tickAt_reach, tickAt_reach]
    exact (h.ticks tick late).busy
  rw [claim_eq, claim_eq, conflict?_congr busy]
  by_cases strict : k.strict
  · -- without a lead both runs ask for the same
    rw [(k.still strict).1, Nat.add_zero]
    split_ifs with past
    · exact along_error fun _ => rfl
    · cases (s.reach tick).conflict? tick target with
      | some q => exact along_error fun _ => rfl
      | none => exact along_ok (by omega)
  · apply along_of_ok strict
    intro a a' left _
    split_ifs at left with past
    · cases left
    · omega

lemma Twin.addGate (late : k.base ≤ tick) (gate : Gate) (known : ∀ q ∈ qubits, k.known q) :
    (s.addGate tick gate qubits).commit.Along k.strict
      (fun r r' => r.1.Twin k top r'.1 ∧ s.Grows r.1 ∧ tick < r.1.size ∧
        ∀ q ∈ qubits, q ∈ r.1.qubits)
      (s'.addGate (tick + k.ticks) gate qubits).commit := by
  have numbered := h.indexAll known
  have targets : (s'.gateUse (tick + k.ticks) gate qubits).target =
      (s.gateUse tick gate qubits).target :=
    congrArg GateTarget.qubits (indexAll_congr qubits h.qubits).1
  have together : (s.addGate tick gate qubits).commit.Along k.strict (fun _ _ => tick < maxTicks)
      (s'.addGate (tick + k.ticks) gate qubits).commit := by
    rw [addGate_eq, addGate_eq, Attempt.commit_andThen, Attempt.commit_andThen, targets]
    exact (numbered.claim late _).bind fun _ _ inside => along_ok inside
  refine together.strengthen ?_
  rintro ⟨next, _⟩ ⟨next', _⟩ made made' inside
  obtain rfl := addGate_eq_ok made
  obtain rfl := addGate_eq_ok made'
  have same : (s.gateUse tick gate qubits).Twin k (s'.gateUse (tick + k.ticks) gate qubits) :=
    ⟨rfl, rfl, targets, rfl, rfl, rfl⟩
  refine ⟨numbered.gate same late inside, (s.writes_gate tick gate qubits).grows, ?_, ?_⟩
  · rw [size_put]
    exact (Nat.lt_succ_self _).trans_le (le_max_right ..)
  · exact fun q mem => s.mem_indexAll mem

lemma Twin.addOutcome {u u' : Use} (same : u.Twin k u') (late : k.base ≤ u.tick) {key : Key}
    (files : u.key = some key) :
    (s.addOutcome u.tick u.gate u.target u.flip key).commit.Along k.strict
      (fun r r' => r.1.Twin k top r'.1 ∧ r'.2 = r.2 + k.handles ∧ r.1 = s.put (.gate u) ∧
        r.2 = s.record.size)
      (s'.addOutcome u'.tick u'.gate u'.target u'.flip (key.later k.rounds)).commit := by
  have files' : u'.key = some (key.later k.rounds) := by rw [same.key, files, Option.map_some]
  have together : (s.addOutcome u.tick u.gate u.target u.flip key).commit.Along k.strict
      (fun _ _ => u.tick < maxTicks)
      (s'.addOutcome u'.tick u'.gate u'.target u'.flip (key.later k.rounds)).commit := by
    rw [addOutcome_eq s files, addOutcome_eq s' files', Attempt.commit_andThen,
      Attempt.commit_andThen, same.tick, same.target]
    exact (h.claim late _).bind fun _ _ inside => along_ok inside
  refine together.strengthen ?_
  rintro ⟨next, handle⟩ ⟨next', handle'⟩ made made' inside
  obtain ⟨rfl, rfl⟩ := addOutcome_eq_ok files made
  obtain ⟨rfl, rfl⟩ := addOutcome_eq_ok files' made'
  exact ⟨h.gate same late inside, h.record.size, rfl, rfl⟩

/-- Stores in step after a measurement, with its handles and its entry. -/
structure Filed (k : Comparison) (top : Nat) (s : Store) (key : Key) (tick : Nat)
    (qubits : List Qubit) (r r' : Store × Nat) : Prop where
  twin : r.1.Twin k top r'.1
  handle : r'.2 = r.2 + k.handles
  grows : s.Grows r.1
  entry : r.1.record.entry? r.2 = some (key, tick)
  inside : tick < r.1.size
  numbered : ∀ q ∈ qubits, q ∈ r.1.qubits

omit h in
lemma filed_put {numbered : Store} {u : Use} {key : Key} (files : u.key = some key)
    (listed : ∀ q ∈ qubits, q ∈ numbered.qubits)
    (writes : Writes s [.gate u] (numbered.put (.gate u))) {r r' : Store × Nat}
    (twin : r.1.Twin k top r'.1) (handle : r'.2 = r.2 + k.handles)
    (made : r.1 = numbered.put (.gate u)) (index : r.2 = numbered.record.size) :
    Filed k top s key u.tick qubits r r' := by
  refine ⟨twin, handle, ?_, ?_, ?_, ?_⟩
  · rw [made]
    exact writes.grows
  · rw [made, index, record_put, Write.file, files]
    exact (Record.entry?_push ..).trans (if_pos rfl)
  · rw [made, size_put]
    exact (Nat.lt_succ_self _).trans_le (le_max_right ..)
  · rwa [made]

lemma Twin.addMeasurement (late : k.base ≤ tick) (gate : Gate) {q : Qubit} (known : k.known q)
    (key : Key) :
    (s.addMeasurement tick gate q k.flip key).commit.Along k.strict (Filed k top s key tick [q])
      (s'.addMeasurement (tick + k.ticks) gate q k.flip' (key.later k.rounds)).commit := by
  have one : ∀ p ∈ [q], k.known p := forall_mem_singleton.mpr known
  have numbered : (s.index q).1.Twin k top (s'.index q).1 := h.indexAll one
  have same : (s.measureUse tick gate q k.flip key).Twin k
      (s'.measureUse (tick + k.ticks) gate q k.flip' (key.later k.rounds)) :=
    ⟨rfl, rfl, congrArg (fun n => GateTarget.qubits [n]) (index_congr h.qubits q).1, rfl, rfl, rfl⟩
  refine (numbered.addOutcome same late rfl).imp ?_
  rintro r r' ⟨twin, handle, made, index⟩
  have listed : ∀ p ∈ [q], p ∈ (s.index q).1.qubits := fun p mem => s.mem_indexAll mem
  exact filed_put rfl listed (s.writes_measurement tick gate q k.flip key) twin handle made index

lemma Twin.addProduct (late : k.base ≤ tick) {factors : List (Qubit × Pauli)}
    (known : ∀ f ∈ factors, k.known f.1) (key : Key) :
    (s.addProduct tick factors k.flip key).commit.Along k.strict
      (Filed k top s key tick (factors.map (·.1)))
      (s'.addProduct (tick + k.ticks) factors k.flip' (key.later k.rounds)).commit := by
  have numbered := h.indexAll (forall_mem_map.mpr known)
  have same : (s.productUse tick factors k.flip key).Twin k
      (s'.productUse (tick + k.ticks) factors k.flip' (key.later k.rounds)) := by
    refine ⟨rfl, rfl, ?_, rfl, rfl, rfl⟩
    simp only [productUse, (indexAll_congr _ h.qubits).1]
  refine (numbered.addOutcome same late rfl).imp ?_
  rintro r r' ⟨twin, handle, made, index⟩
  exact filed_put rfl (fun q mem => s.mem_indexAll mem)
    (s.writes_product tick factors k.flip key) twin handle made index

end

/-! Noise. -/

lemma addNoise_eq (s : Store) (tick : Nat) (placement : Placement) (channel : Channel)
    (parameters : List Double) (qubits : List Qubit) :
    s.addNoise tick placement channel parameters qubits =
      if maxTicks ≤ tick then .overflow
      else .ok ((s.indexAll qubits).1.put
        (.noise tick placement ⟨channel, parameters, (s.indexAll qubits).2⟩)) := by
  simp only [addNoise, ensure]
  split_ifs <;> rfl

lemma writes_noise (s : Store) (tick : Nat) (placement : Placement) (qubits : List Qubit)
    (op : NoiseOp) :
    Writes s [.noise tick placement op] ((s.indexAll qubits).1.put (.noise tick placement op)) :=
  .put _ (s.writes_number qubits) trivial

lemma disturb_eq (s : Store) (d : Option Disturbance) (tick : Nat) (placement : Placement)
    (qubits : List Qubit) :
    Session.disturb s d tick placement qubits =
      match d.filter Disturbance.isActive with
      | none => .ok s
      | some d =>
        if maxTicks ≤ tick then .overflow
        else .ok ((s.indexAll qubits).1.put (.noise tick placement
          ⟨(d.resolve .Z).1, (d.resolve .Z).2, (s.indexAll qubits).2⟩)) := by
  unfold Session.disturb
  cases d.filter Disturbance.isActive with
  | none => rfl
  | some d => exact addNoise_eq ..

lemma Twin.disturb_left (h : s.Twin k top s') (strict : k.strict) (d : Option Disturbance)
    (placement : Placement) (inside : tick < max top s.size) (room : tick < maxTicks)
    (numbered : ∀ q ∈ qubits, q ∈ s.qubits) :
    ∃ next, Session.disturb s d tick placement qubits = .ok next ∧ next.Twin k top s' ∧
      s.Grows next := by
  rw [disturb_eq]
  cases d.filter Disturbance.isActive with
  | none => exact ⟨s, rfl, h, .refl s⟩
  | some d =>
    have grows := (s.writes_noise tick placement qubits
      ⟨(d.resolve .Z).1, (d.resolve .Z).2, (s.indexAll qubits).2⟩).grows
    refine ⟨_, if_neg (by omega), ?_, grows⟩
    rw [indexAll_of_mem numbered]
    apply h.put_left rfl
    · exact fun _ t t' twin => twin.putNoise_left strict placement _
    · intro early
      rw [k.low_eq_zero strict] at early
      cases early
    · exact inside
    · exact fun loose => absurd strict loose
    · exact fun _ => room

lemma Twin.disturb_right (h : s.Twin k top s') (strict : k.strict) (d : Option Disturbance)
    (placement : Placement) (inside : tick < max top s'.size) (room : tick < maxTicks)
    (numbered : ∀ q ∈ qubits, q ∈ s.qubits) :
    ∃ next, Session.disturb s' d tick placement qubits = .ok next ∧ s.Twin k top next := by
  rw [disturb_eq]
  cases d.filter Disturbance.isActive with
  | none => exact ⟨s', rfl, h⟩
  | some d =>
    refine ⟨_, if_neg (by omega), ?_⟩
    rw [indexAll_of_mem (by rw [h.qubits]; exact numbered)]
    apply h.put_right rfl
    · exact fun _ t t' twin => twin.putNoise_right strict placement _
    · rwa [(k.still strict).1]
    · exact fun loose => absurd strict loose

/-- Noise at a tick that both runs have reached, or that starts a layer. -/
theorem Twin.disturb (h : s.Twin k top s') {d d' : Option Disturbance} (same : ¬ k.strict → d' = d)
    (late : k.base ≤ tick) (placement : Placement) (known : ∀ q ∈ qubits, k.known q)
    (inside : k.strict → tick < max top s.size) (room : k.strict → tick < maxTicks)
    (numbered : k.strict → ∀ q ∈ qubits, q ∈ s.qubits) :
    (Session.disturb s d tick placement qubits).Along k.strict (s.Steps k top)
      (Session.disturb s' d' (tick + k.ticks) placement qubits) := by
  by_cases strict : k.strict
  · have still := k.still strict
    have size := h.size
    have inside' := inside strict
    obtain ⟨next, made, twin, grows⟩ :=
      h.disturb_left strict d placement inside' (room strict) (numbered strict)
    have numbered' : ∀ q ∈ qubits, q ∈ next.qubits :=
      fun q mem => grows.qubits q (numbered strict q mem)
    have reached : tick < max top s'.size := by omega
    obtain ⟨next', made', both⟩ :=
      twin.disturb_right strict d' placement reached (room strict) numbered'
    rw [still.1, Nat.add_zero, made, made']
    exact ⟨both, grows⟩
  · apply along_of_ok strict
    rw [same strict, disturb_eq, disturb_eq]
    intro next next' made made'
    cases shows : d.filter Disturbance.isActive with
    | none =>
      rw [shows] at made made'
      cases made
      cases made'
      exact ⟨h, .refl s⟩
    | some d =>
      rw [shows] at made made'
      simp only at made made'
      have inside : tick < maxTicks := by
        by_contra past
        rw [if_pos (by omega)] at made
        cases made
      have inside' : tick + k.ticks < maxTicks := by
        by_contra past
        rw [if_pos (by omega)] at made'
        cases made'
      rw [if_neg (by omega)] at made made'
      cases made
      cases made'
      rw [(indexAll_congr qubits h.qubits).1]
      exact ⟨(h.indexAll known).noise placement _ late inside,
        (s.writes_noise tick placement qubits _).grows⟩

/-! Annotations. -/

lemma annotate_eq (s : Store) (tick : Nat) (note : Note) : s.annotate tick note =
      if maxTicks ≤ tick then .overflow else .ok (s.put (.note tick note)) := by
  simp only [annotate, ensure]
  split_ifs <;> rfl

lemma writes_note (s : Store) (tick : Nat) (note : Note) :
    Writes s [.note tick note] (s.put (.note tick note)) :=
  .put _ .refl trivial

lemma along_annotate {tick' : Nat} {note note' : Note} (same : k.strict → tick' = tick)
    (twin : tick < maxTicks → (s.put (.note tick note)).Twin k top (s'.put (.note tick' note'))) :
    (s.annotate tick note).Along k.strict (s.Steps k top) (s'.annotate tick' note') := by
  rw [annotate_eq, annotate_eq]
  apply along_guard
  · intro strict
    rw [same strict]
  · intro inside _
    exact along_ok ⟨twin (by omega), (s.writes_note tick note).grows⟩

lemma Twin.annotate (h : s.Twin k top s') (late : k.base ≤ tick) (note : Note) :
    (s.annotate tick note).Along k.strict (s.Steps k top)
      (s'.annotate (tick + k.ticks) (note.later k.handles)) := by
  apply along_annotate
  · intro strict
    rw [(k.still strict).1, Nat.add_zero]
  · exact h.note note late

end Twin

end Store

namespace Progress

variable {k : Comparison} {top : Nat} {s s' : Store}
variable {handles : List Nat}

/-- An outcome on record, in a tick that may be written. -/
def Reached (k : Comparison) (r : Record) (h : Nat) : Prop :=
  ∃ key t, r.entry? h = some (key, t) ∧ k.low ≤ t

/-- Every handle leads to such an outcome. -/
def Reaches (k : Comparison) (r : Record) (handles : List Nat) : Prop :=
  ∀ h ∈ handles, Reached k r h

lemma Reaches.mono {r later : Record} (h : Reaches k r handles) (within : r.Within later) :
    Reaches k later handles := by
  intro n mem
  obtain ⟨key, t, entry, low⟩ := h n mem
  exact ⟨key, t, within entry, low⟩

lemma latestTick_along (h : s.record.Twin k s'.record) (handles : List Nat) :
    (latestTick s handles).Along k.strict (fun t t' => s.record.Latest handles t ∧
        ((handles = [] ∧ t = 0 ∧ t' = 0) ∨ (handles ≠ [] ∧ k.Late t t')))
      (latestTick s' (handles.map (· + k.handles))) := by
  have ticks : (handles.mapM s.record.tickOf).Along k.strict (Forall₂ k.Late)
      ((handles.map (· + k.handles)).mapM s'.record.tickOf) := by
    have related : Forall₂ (fun n n' => n' = n + k.handles) handles (handles.map (· + k.handles)) :=
      forall₂_map_right_iff.mpr (forall₂_same.mpr fun _ _ => rfl)
    apply Outcome.Along.mapM related
    rintro n n' rfl
    exact h.tickOf n
  have latest : (latestTick s handles).Along k.strict
      (fun t t' => (handles = [] ∧ t = 0 ∧ t' = 0) ∨ (handles ≠ [] ∧ k.Late t t'))
      (latestTick s' (handles.map (· + k.handles))) := by
    have numbered : (handles.mapM s.record.tickOf).Along k.strict
        (fun ts ts' => ts.length = handles.length ∧ Forall₂ k.Late ts ts')
        ((handles.map (· + k.handles)).mapM s'.record.tickOf) :=
      ticks.strengthen fun ts ts' found _ late =>
        ⟨(mapM_eq_ok.mp found).length_eq.symm, late⟩
    refine numbered.bind fun ts ts' listed => ?_
    obtain ⟨length, late⟩ := listed
    apply along_pure
    cases late with
    | nil => exact .inl ⟨length_eq_zero_iff.mp length.symm, rfl, rfl⟩
    | @cons t t' ts ts' head rest =>
      refine .inr ⟨fun none => by simp [none] at length, ?_⟩
      rw [foldl_cons, foldl_cons, Nat.zero_max, Nat.zero_max]
      exact head.foldl_max rest
  exact latest.strengthen fun t t' found _ late => ⟨latestTick_eq_ok found, late⟩

lemma annotateLatest_along (h : s.Twin k top s') (nonempty : handles ≠ [])
    (reaches : Reaches k s.record handles) (note : Note) :
    (latestTick s handles >>= fun t => s.annotate t note).Along k.strict (s.Steps k top)
      (latestTick s' (handles.map (· + k.handles)) >>= fun t =>
        s'.annotate t (note.later k.handles)) := by
  refine (latestTick_along h.record handles).bind ?_
  rintro t t' ⟨latest, ⟨none, _⟩ | ⟨_, late⟩⟩
  · exact absurd none nonempty
  · rcases late with ⟨compared, rfl⟩ | ⟨early, early'⟩
    · exact h.annotate compared note
    · have loose : ¬ k.strict := by
        intro strict
        have base := (k.still strict).2.2.2.2.1
        omega
      have low : k.low ≤ t := by
        rcases latest.attained with ⟨none, _⟩ | ⟨n, mem, key, entry⟩
        · exact absurd none nonempty
        · obtain ⟨_, _, entry', low⟩ := reaches n mem
          rw [entry] at entry'
          cases entry'
          exact low
      apply Store.along_annotate
      · exact fun strict => absurd strict loose
      · exact fun _ => h.note_early loose _ _ low early early'

/-- A detector that compares nothing goes to the first tick, which has to be there already. -/
theorem placeDetector_along (h : s.Twin k top s') (reaches : Reaches k s.record handles)
    (held : handles = [] → ¬ k.strict → 0 < s.size) :
    (placeDetector s handles).Along k.strict (s.Steps k top)
      (placeDetector s' (handles.map (· + k.handles))) := by
  by_cases empty : handles = []
  · subst empty
    have first : ∀ s : Store, placeDetector s [] = s.annotate 0 (.detector []) := fun _ => rfl
    rw [map_nil, first, first]
    apply Store.along_annotate
    · exact fun _ => rfl
    · exact h.note_empty rfl (held rfl)
  · exact annotateLatest_along h empty reaches (.detector handles)

lemma writeDetector_along (h : s.Twin k top s') {keys : List Key}
    (covers : ∀ key ∈ keys, k.Covers key) (recent : ∀ key ∈ keys, k.oldest ≤ key.round)
    (held : keys = [] → ¬ k.strict → 0 < s.size) :
    (writeDetector s keys).Along k.strict (s.Steps k top)
      (writeDetector s' (keys.map (Key.later k.rounds))) := by
  have handles : (keys.mapM s.record.lookupMade).Along k.strict
      (Forall₂ fun n n' => n' = n + k.handles ∧ Reached k s.record n)
      ((keys.map (Key.later k.rounds)).mapM s'.record.lookupMade) := by
    have related : Forall₂ (fun key key' => key ∈ keys ∧ key' = key.later k.rounds) keys
        (keys.map (Key.later k.rounds)) :=
      forall₂_map_right_iff.mpr (forall₂_same.mpr fun _ mem => ⟨mem, rfl⟩)
    apply Outcome.Along.mapM related
    rintro key _ ⟨mem, rfl⟩
    refine (h.record.lookupMade (covers key mem)).imp ?_
    rintro n n' ⟨same, found⟩
    obtain ⟨t, entry⟩ := Record.entry?_of_handle? found
    exact ⟨same, key, t, entry, h.recent entry (recent key mem)⟩
  have counted := handles.strengthen (S := fun ns ns' => ns.length = keys.length ∧
      ns' = ns.map (· + k.handles) ∧ Reaches k s.record ns) fun ns ns' found _ related => by
    refine ⟨(mapM_eq_ok.mp found).length_eq.symm, ?_, ?_⟩
    · rw [← forall₂_eq_eq_eq, forall₂_map_right_iff]
      exact related.flip.imp fun _ _ pair => pair.1
    · intro n mem
      obtain ⟨n', _, pair⟩ := exists_right_of_forall₂ related mem
      exact pair.2
  refine counted.bind ?_
  rintro ns ns' ⟨length, rfl, reaches⟩
  apply placeDetector_along h reaches
  rintro rfl
  exact held (length_eq_zero_iff.mp length.symm)

end Progress

end SyndromeSchedule
