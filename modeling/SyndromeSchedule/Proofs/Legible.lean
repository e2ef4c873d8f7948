import SyndromeSchedule.Proofs.TwinFinals
import SyndromeSchedule.Proofs.Noiseless
import SyndromeSchedule.Proofs.RoundTrip

/-!
Stores that can be put into words. Noise has as many numbers as its channel asks for and meets
qubits in pairs if the channel does, products are products of letters, and every qubit has its
number. Every step of a compilation keeps this, so that programs are well formed and read back from
their texts.
-/

namespace SyndromeSchedule

open List Outcome

variable {width wider : Nat} {is : List Instruction}

/-! Noise of a model without faults. -/

lemma Double.isFinite_of_isProbability {x : Double} (h : x.isProbability = true) :
    x.isFinite = true := by
  unfold Double.isProbability at h
  split_ifs at h
  · simp only [Double.isZero, decide_eq_true_eq] at h
    simp only [Double.isFinite, h, decide_eq_true_eq]
    decide
  · have below : Double.one.magnitude.val < Double.infinite := by decide
    simp only [decide_eq_true_eq] at h
    simp only [Double.isFinite, decide_eq_true_eq]
    exact h.trans_lt below

/-- Parameters a channel can have. -/
def Channel.Takes (c : Channel) (parameters : List Double) : Prop :=
  parameters.length = c.parameterCount ∧ parameters.all Double.isFinite = true

lemma Channel.termCount_flipping (basis : Pauli) : (Channel.flipping basis).termCount = none := by
  cases basis <;> rfl

lemma NoiseKind.termCount_resolve (kind : NoiseKind) (basis : Pauli) :
    (kind.resolve basis).termCount = kind.termCount := by
  cases kind with
  | flip => exact Channel.termCount_flipping basis
  | channel c => rfl

lemma NoiseKind.arity_resolve (kind : NoiseKind) (basis : Pauli) :
    (kind.resolve basis).arity = kind.arity := by
  cases kind with
  | flip => cases basis <;> rfl
  | channel c => rfl

lemma Disturbance.resolve_takes {place : Place} {d : Disturbance}
    (sound : d.fault? place = none) (basis : Pauli) :
    (d.resolve basis).1.Takes (d.resolve basis).2 := by
  unfold Disturbance.fault? at sound
  have counted := d.kind.termCount_resolve basis
  simp only [Channel.Takes, Disturbance.resolve, Channel.parameterCount, counted]
  split_ifs at sound with within
  have probable : d.probability.isProbability = true := by simpa using within
  split at sound
  · next expected terms asked given =>
      split_ifs at sound with wrong weights
      simp only [Disturbance.areWeights, Bool.and_eq_true, all_eq_true] at weights
      simp only [asked, given, Option.isSome_some, if_true, Option.getD_some, all_eq_true]
      exact ⟨not_not.mp wrong, fun x mem => Double.isFinite_of_isProbability (weights.1 x mem)⟩
  · cases sound
  · cases sound
  · next asked given =>
      simp [asked, Double.isFinite_of_isProbability probable]

namespace NoiseModel

variable {m : NoiseModel} {d : Disturbance}

lemma faults_eq_none (place : Place) (sound : m.fault? = none) (found : m.at? place = some d) :
    d.fault? place = none ∧ placeFault? place d = none := by
  have entries := (Option.or_eq_none_iff.mp sound).1
  have listed : (place, d) ∈ m.entries := by
    apply mem_filterMap.mpr
    exact ⟨place, by cases place <;> decide, by simp [found]⟩
  have none := findSome?_eq_none_iff.mp entries _ listed
  exact Option.or_eq_none_iff.mp none

lemma arity_resolve {place : Place} (sound : m.fault? = none) (found : m.at? place = some d)
    (other : place ≠ .twoQubitGate) (basis : Pauli) : (d.resolve basis).1.arity = 1 := by
  have stays := (faults_eq_none place sound found).2
  unfold placeFault? at stays
  split_ifs at stays with both
  simp only [Bool.and_eq_true, decide_eq_true_eq, other, ne_eq, not_false_eq_true, and_true]
    at both
  have same := d.kind.arity_resolve basis
  simp only [Disturbance.resolve, same]
  cases kind : d.kind with
  | flip => rfl
  | channel c =>
    rw [kind] at both
    cases c <;> first | rfl | exact absurd rfl both

lemma isFinite_flip? (sound : m.fault? = none) : m.flip?.all Double.isFinite = true := by
  unfold flip?
  cases found : m.measurement with
  | none => rfl
  | some d =>
    have none := (faults_eq_none .measurement sound found).1
    unfold Disturbance.fault? at none
    split_ifs at none with within
    have probable : d.probability.isProbability = true := by simpa using within
    simp only [Option.map_some]
    cases kept : (some d.probability).filter Double.isPositive with
    | none => rfl
    | some x =>
      obtain rfl := Option.some.inj (Option.filter_eq_some_iff.mp kept).1
      exact Double.isFinite_of_isProbability probable

end NoiseModel

/-! Ticks that can be put into words. -/

/-- Noise that can be written if there are so many qubits. -/
structure NoiseOp.Legible (width : Nat) (op : NoiseOp) : Prop where
  takes : op.channel.Takes op.parameters
  paired : op.channel.arity ∣ op.targets.length
  numbered : ∀ n ∈ op.targets, n < width

/-- A gate that can be written if there are so many qubits. -/
structure GateOp.Legible (width : Nat) (op : GateOp) : Prop where
  flip : op.flip.all Double.isFinite = true
  numbered : ∀ n ∈ op.target.indices, n < width
  kind : match op.target with
    | .qubits _ => op.gate ≠ .MPP
    | .product factors => op.gate = .MPP ∧ factors ≠ [] ∧ ∀ f ∈ factors, f.1 ≠ .I

/-- An annotation that can be written if there are so many observables. -/
def Note.Legible (observables : Nat) : Note → Prop
  | .detector _ => True
  | .observable index _ => index < observables

/-- A tick that can be written and read back. -/
structure Tick.Legible (width observables : Nat) (t : Tick) : Prop where
  before : ∀ op ∈ t.before, op.Legible width
  gates : ∀ op ∈ t.gates, op.Legible width
  after : ∀ op ∈ t.after, op.Legible width
  notes : ∀ note ∈ t.notes, note.Legible observables

def Store.Legible (observables : Nat) (s : Store) : Prop :=
  ∀ t, (s.tickAt t).Legible s.qubits.length observables

lemma NoiseOp.Legible.mono {op : NoiseOp} (h : op.Legible width) (le : width ≤ wider) :
    op.Legible wider :=
  ⟨h.takes, h.paired, fun n mem => (h.numbered n mem).trans_le le⟩

lemma GateOp.Legible.mono {op : GateOp} (h : op.Legible width) (le : width ≤ wider) :
    op.Legible wider :=
  ⟨h.flip, fun n mem => (h.numbered n mem).trans_le le, h.kind⟩

lemma Tick.Legible.mono {observables : Nat} {t : Tick} (h : t.Legible width observables)
    (le : width ≤ wider) : t.Legible wider observables where
  before := fun op mem => (h.before op mem).mono le
  gates := fun op mem => (h.gates op mem).mono le
  after := fun op mem => (h.after op mem).mono le
  notes := h.notes

/-- A write that leaves a tick legible. -/
def Write.Legible (width observables : Nat) : Write → Prop
  | .gate u => ∀ handle, (u.op handle).Legible width
  | .noise _ _ op => op.Legible width
  | .note _ n => n.Legible observables

lemma Write.Legible.change {observables handle : Nat} {w : Write} {t : Tick}
    (write : w.Legible width observables) (h : t.Legible width observables) :
    (w.change handle t).Legible width observables := by
  have also : ∀ {α : Type} {P : α → Prop} {items : List α} {a : α}, (∀ b ∈ items, P b) → P a →
      ∀ b ∈ items ++ [a], P b :=
    fun each last => forall_mem_append.mpr ⟨each, forall_mem_singleton.mpr last⟩
  cases w with
  | gate u => exact ⟨h.before, also h.gates (write handle), h.after, h.notes⟩
  | noise tick placement op =>
    cases placement with
    | before => exact ⟨also h.before write, h.gates, h.after, h.notes⟩
    | after => exact ⟨h.before, h.gates, also h.after write, h.notes⟩
  | note tick n => exact ⟨h.before, h.gates, h.after, also h.notes write⟩

namespace Store

variable {observables tick : Nat} {s next : Store} {flip : Option Double}
  {qubits : List Qubit}

lemma legible_empty : ({} : Store).Legible observables := by
  intro t
  rw [tickAt_of_size_le (Nat.zero_le t)]
  constructor <;> exact fun _ mem => nomatch mem

lemma Legible.put (h : s.Legible observables) {w : Write}
    (write : w.Legible s.qubits.length observables) : (s.put w).Legible observables := by
  intro t
  rw [qubits_put, tickAt_put]
  split_ifs
  · exact write.change (h t)
  · exact h t

lemma Legible.withNotes (h : s.Legible observables) {items : List (Nat × Note)}
    (each : ∀ e ∈ items, e.2.Legible observables) : (s.withNotes items).Legible observables := by
  induction items generalizing s with
  | nil => exact h
  | cons e rest ih =>
    obtain ⟨first, others⟩ := forall_mem_cons.mp each
    exact ih (h.put first) others

lemma Legible.indexAll (h : s.Legible observables) (qubits : List Qubit) :
    (s.indexAll qubits).1.Legible observables := by
  intro t
  have kept : (s.indexAll qubits).1.tickAt t = s.tickAt t := by
    rw [indexAll_eq]
    rfl
  rw [kept]
  exact (h t).mono (s.indexAll_numbering qubits).1.length_le

variable (h : s.Legible observables)
include h

lemma Legible.addGate {gate : Gate} {u : Unit} (plain : gate.isMeasurement = false)
    (run : (s.addGate tick gate qubits).commit = .ok (next, u)) : next.Legible observables := by
  rw [addGate_eq_ok run]
  apply (h.indexAll qubits).put
  intro handle
  refine ⟨rfl, (s.indexAll_numbering qubits).2.lt, ?_⟩
  rintro rfl
  cases plain

lemma Legible.addMeasurement {gate : Gate} {q : Qubit} {key : Key} {made : Nat} {basis : Pauli}
    (measuring : Gate.measuring basis = .ok gate) (finite : flip.all Double.isFinite = true)
    (run : (s.addMeasurement tick gate q flip key).commit = .ok (next, made)) :
    next.Legible observables := by
  rw [(addMeasurement_eq_ok run).1]
  have numbered := h.indexAll [q]
  apply Legible.put numbered
  intro handle
  refine ⟨finite, (s.indexAll_numbering [q]).2.lt, ?_⟩
  rintro rfl
  cases basis <;> cases measuring

lemma Legible.addProduct {factors : List (Qubit × Pauli)} {key : Key} {made : Nat}
    (some : factors ≠ []) (proper : ∀ f ∈ factors, f.2 ≠ .I)
    (finite : flip.all Double.isFinite = true)
    (run : (s.addProduct tick factors flip key).commit = .ok (next, made)) :
    next.Legible observables := by
  rw [(addProduct_eq_ok run).1]
  have names := (s.indexAll_numbering (factors.map (·.1))).2
  apply (h.indexAll _).put
  intro handle
  refine ⟨finite, fun n mem => ?_, rfl, fun none => ?_, fun f mem => ?_⟩
  · obtain ⟨f, inside, rfl⟩ := mem_map.mp mem
    exact names.lt _ (of_mem_zip inside).2
  · have long := congrArg length none
    rw [length_zip, names.length_eq] at long
    simp only [length_map, min_self, length_nil] at long
    exact some (length_eq_zero_iff.mp long)
  · obtain ⟨g, inside, same⟩ := mem_map.mp (of_mem_zip mem).1
    rw [← same]
    exact proper g inside

lemma Legible.addNoise {placement : Placement} {channel : Channel} {parameters : List Double}
    (takes : channel.Takes parameters) (paired : channel.arity ∣ qubits.length)
    (run : s.addNoise tick placement channel parameters qubits = .ok next) :
    next.Legible observables := by
  have names := (s.indexAll_numbering qubits).2
  rw [(s.addNoise_meets tick placement channel parameters qubits).of_ok run]
  apply (h.indexAll qubits).put
  refine ⟨takes, ?_, names.lt⟩
  rwa [names.length_eq]

end Store

/-! Detectors and observables. -/

namespace Progress

variable {observables : Nat} {p next : Progress} {u : Unit} {finals : Table (Pauli × Nat)}
  {store after : Store}

lemma Marks.legible (h : p.Marks next) (legible : p.store.Legible observables) :
    next.store.Legible observables := by
  obtain ⟨items, made, detectors⟩ := h.notes
  rw [made]
  refine legible.withNotes fun e mem => ?_
  obtain ⟨handles, same⟩ := detectors e mem
  rw [same]
  trivial

lemma legible_allNoted {items : List (Nat × Tracker)} (legible : store.Legible observables)
    (numbered : ∀ e ∈ items, e.2.index < observables) :
    (store.withNotes (Tracker.allNoted items)).Legible observables := by
  refine legible.withNotes fun e mem => ?_
  obtain ⟨i, inside, _, rfl⟩ := Tracker.mem_allNoted mem
  exact numbered i inside

lemma legible_finalObservables {rounds : Nat}
    (numbered : ∀ t ∈ p.resolver.trackers, t.index < observables)
    (run : (p.finalObservables rounds finals).commit = .ok (next, u))
    (legible : p.store.Legible observables) : next.store.Legible observables := by
  obtain ⟨closed, each, made⟩ := finalObservables_eq_ok run
  rw [made]
  refine legible_allNoted legible fun e mem => ?_
  obtain ⟨t, inside, closes, _⟩ := exists_left_of_forall₂ each mem
  obtain ⟨handles, _, toggles⟩ := Tracker.close_eq_ok closes
  exact toggles.index ▸ numbered t inside

end Progress

/-! Steps of a session. -/

namespace Session

variable {observables tick round : Nat} {task : Task} {s next : Session}
variable {q : Qubit}

def Legible (observables : Nat) (s : Session) : Prop := s.store.Legible observables

variable (h : s.Legible observables)
include h

lemma Legible.touchAll (code : Code) (tick : Nat) (qubits : List Qubit) :
    (qubits.foldl (touch code tick) s).Legible observables := by
  rwa [touchAll_eq]

omit h in
lemma legible_disturb {store after : Store} (place : Place) {placement : Placement}
    {qubits : List Qubit} (h : store.Legible observables)
    (paired : place = .twoQubitGate → 2 ∣ qubits.length)
    (run : disturb store (task.compiler.noise.at? place) tick placement qubits = .ok after) :
    after.Legible observables := by
  unfold disturb at run
  split at run
  · cases run
    exact h
  · next d active =>
      have found := (Option.filter_eq_some_iff.mp active).1
      have sound := task.compiler.sound
      apply h.addNoise
        (Disturbance.resolve_takes (NoiseModel.faults_eq_none place sound found).1 .Z)
        ?_ run
      by_cases pairs : place = .twoQubitGate
      · have even := paired pairs
        generalize (d.resolve .Z).1 = channel
        cases channel <;> first | exact even | exact one_dvd _
      · rw [NoiseModel.arity_resolve sound found pairs]
        exact one_dvd _

lemma Legible.apply (place : Place) {gate : Gate} {qubits : List Qubit}
    (plain : gate.isMeasurement = false) (paired : place = .twoQubitGate → 2 ∣ qubits.length)
    (run : s.apply task tick gate qubits place = .ok next) : next.Legible observables := by
  obtain ⟨⟨store, u⟩, added, run⟩ := of_bind run
  obtain ⟨noisy, disturbed, rfl⟩ := of_bind_pure run
  have written := legible_disturb place (Store.Legible.addGate h plain added) paired disturbed
  exact Legible.touchAll (s := (s.setStore noisy).occupy tick qubits) written task.code tick qubits

lemma Legible.reset (run : s.reset task tick q = .ok next) : next.Legible observables := by
  obtain ⟨mid, applied, rfl⟩ := of_bind_pure run
  have done : mid.Legible observables := Legible.apply h .initialisation rfl nofun applied
  exact done

lemma Legible.notify {key : Key} (run : s.notify key = .ok next) : next.Legible observables := by
  obtain ⟨⟨progress, u⟩, told, rfl⟩ := of_bind_pure run
  exact (Progress.notify_marks told).legible h

lemma Legible.measureAncilla {e : Extracted} {start : Nat}
    (run : s.measureAncilla task e start round = .ok next) : next.Legible observables := by
  simp only [Session.measureAncilla] at run
  obtain ⟨gate, measuring, run⟩ := of_bind run
  obtain ⟨⟨store, handle⟩, added, told⟩ := of_bind run
  have written := Store.Legible.addMeasurement h (Outcome.ofExcept_eq_ok.mp measuring)
    (NoiseModel.isFinite_flip? task.compiler.sound) added
  apply Legible.notify ?_ told
  rw [touch_eq]
  exact written

lemma Legible.scheduleDirect {c : Check} (run : scheduleDirect task round s c = .ok next) :
    next.Legible observables := by
  obtain ⟨mid, measures, told⟩ := of_bind run
  have finite := NoiseModel.isFinite_flip? task.compiler.sound
  have filed : mid.Legible observables := by
    unfold measureDirect at measures
    split at measures
    · obtain ⟨gate, measuring, measures⟩ := of_bind measures
      obtain ⟨⟨store, handle⟩, added, rfl⟩ := of_bind_pure measures
      exact Store.Legible.addMeasurement h (Outcome.ofExcept_eq_ok.mp measuring) finite added
    · obtain ⟨⟨store, handle⟩, added, rfl⟩ := of_bind_pure measures
      apply Store.Legible.addProduct h ?_ ?_ finite added
      · exact fun none => c.members_ne_nil (map_eq_nil_iff.mp none)
      · exact forall_mem_map.mpr fun _ => c.letter_ne_I
  apply Legible.notify ?_ told
  exact Legible.touchAll (s := mid.occupy _ c.qubits) filed task.code _ c.qubits

lemma Legible.roundNoise (run : s.roundNoise task q = .ok next) : next.Legible observables := by
  unfold Session.roundNoise at run
  have idling : ∀ {store after : Store} {t : Nat} {placement : Placement},
      store.Legible observables →
        disturb store task.compiler.noise.idling t placement [q] = .ok after →
          after.Legible observables :=
    fun kept step => legible_disturb .idling kept nofun step
  have starting : ∀ {store after : Store} {t : Nat} {placement : Placement},
      store.Legible observables →
        disturb store task.compiler.noise.roundStart t placement [q] = .ok after →
          after.Legible observables :=
    fun kept step => legible_disturb .roundStart kept nofun step
  split at run
  · obtain ⟨store, first, rfl⟩ := of_bind_pure run
    exact starting h first
  · simp only at run
    split_ifs at run
    iterate 2
      obtain ⟨idle, first, run⟩ := of_bind run
      obtain ⟨store, second, rfl⟩ := of_bind_pure run
      exact starting (idling h first) second
    · obtain rfl := pure_eq_ok.mp run
      exact h

omit h in
lemma stepwise_legible (task : Task) (observables : Nat) :
    Stepwise task (Legible observables) where
  apply := fun plain paired run h => h.apply _ plain paired run
  reset := fun run h => h.reset run
  ancilla := fun _ run h => h.measureAncilla run
  direct := fun run h => h.scheduleDirect run
  noise := fun run h => h.roundNoise run

lemma Legible.compileRound (run : s.compileRound task = .ok next) : next.Legible observables := by
  obtain ⟨begun, third, ended, begins, steps, ends, rfl⟩ :=
    (stepwise_legible task observables).compileRound run
  have begun := (Progress.beginRound_marks begins).legible h
  obtain ⟨trackers, rfl⟩ := Progress.endRound_eq_ok ends
  exact steps begun

lemma Legible.between (numbered : ∀ t ∈ s.progress.resolver.trackers, t.index < observables)
    (pause : s.Between next) : next.Legible observables := by
  cases pause with
  | start tick => exact h
  | flush flushes =>
    obtain rfl := (Progress.flush_meets ..).of_ok flushes
    exact Progress.legible_allNoted h (forall_mem_map.mpr numbered)
  | mark start stop repetitions => exact h

lemma Legible.measureFinals (numbered : ∀ t ∈ s.progress.resolver.trackers, t.index < observables)
    {placed : Nat} (run : s.measureFinals task = .ok (next, placed)) :
    next.Legible observables := by
  obtain ⟨_, mid, finals, closed, ended, measures, closes, ends, rfl⟩ := measureFinals_eq_ok run
  have measured : mid.Legible observables ∧
      mid.progress.resolver.trackers = s.progress.resolver.trackers := by
    apply foldlM_keeps (fun r : Session × Table (Pauli × Nat) => r.1.Legible observables ∧
      r.1.progress.resolver.trackers = s.progress.resolver.trackers) ?_ measures ⟨h, rfl⟩
    rintro ⟨q, basis⟩ _ ⟨before, finals⟩ ⟨after, finals'⟩ ⟨kept, same⟩ step
    simp only [measureFinal] at step
    split at step
    · cases step
      exact ⟨kept, same⟩
    · obtain ⟨check, _, step⟩ := of_bind step
      obtain ⟨gate, measuring, step⟩ := of_bind step
      obtain ⟨⟨store, handle⟩, added, step⟩ := of_bind step
      cases step
      have written := Store.Legible.addMeasurement kept (Outcome.ofExcept_eq_ok.mp measuring)
        (NoiseModel.isFinite_flip? task.compiler.sound) added
      rw [touch_eq]
      exact ⟨written, same⟩
  have marks := Progress.finalDetectors_marks closes
  refine Progress.legible_finalObservables ?_ ends (marks.legible measured.1)
  rwa [marks.trackers, measured.2]

omit h in
lemma Follows.index_lt (follows : s.Follows task) :
    ∀ t ∈ s.progress.resolver.trackers, t.index < task.request.observables.length := by
  intro t mem
  have listed : (t.logical, t.index) ∈ task.request.observables.zipIdx := by
    rw [← follows.observed]
    exact mem_map_of_mem mem
  exact (mem_zipIdx' listed).1

end Session

lemma Task.Runs.legible {task : Task} {result : Compilation} {prepared layered ended : Session}
    (h : task.Runs result prepared layered ended) :
    ended.store.Legible task.request.observables.length := by
  have start : task.session.Legible task.request.observables.length := Store.legible_empty
  have first := (Session.stepwise_legible task _).initialise h.prepares start
  obtain ⟨follows, _⟩ := Session.follows_initialise h.prepares h.complete.1.2.1
  obtain ⟨stages, placed⟩ := Session.placed_stages h.placed
  obtain ⟨follows, legible⟩ := placed.keeps
    (P := fun s => s.Follows task ∧ s.Legible task.request.observables.length)
    (fun run kept => ⟨kept.1.step run, kept.2.compileRound run⟩)
    (fun pause kept => ⟨kept.1.between pause, kept.2.between kept.1.index_lt pause⟩)
    ⟨follows, first⟩
  exact legible.measureFinals follows.index_lt h.measures

/-! From ticks to words. -/

namespace Instruction

mutual
/-- Whether noise on pairs of qubits has its targets in pairs, at every depth. -/
def isPaired : Instruction → Bool
  | noise c _ targets => c.arity ∣ targets.length
  | loop _ body => arePaired body
  | coords _ _ => true
  | gate _ _ => true
  | measure _ _ _ => true
  | detector _ => true
  | observable _ _ => true
  | tick => true
termination_by structural i => i

def arePaired : List Instruction → Bool
  | [] => true
  | i :: rest => isPaired i && arePaired rest
termination_by structural is => is
end

/-- An instruction that can be read back, with noise on pairs in pairs. -/
def Readable (i : Instruction) : Prop := i.isWellFormed = true ∧ i.isPaired = true

lemma areWellFormed_iff : areWellFormed is = true ↔ ∀ i ∈ is, i.isWellFormed = true := by
  induction is with
  | nil => simp [areWellFormed]
  | cons i rest ih => simp [areWellFormed, ih]

lemma arePaired_iff : arePaired is = true ↔ ∀ i ∈ is, i.isPaired = true := by
  induction is with
  | nil => simp [arePaired]
  | cons i rest ih => simp [arePaired, ih]

lemma readable_loop {count : Nat} {body : List Instruction} (fits : count < Word.size)
    (each : ∀ i ∈ body, i.Readable) : (loop count body).Readable := by
  have formed := areWellFormed_iff.mpr fun i mem => (each i mem).1
  have paired := arePaired_iff.mpr fun i mem => (each i mem).2
  exact ⟨by simp [isWellFormed, fits, formed], by simp [isPaired, paired]⟩

end Instruction

/-- Whether noise on pairs of qubits has its targets in pairs, at every depth. -/
def Program.isPaired (p : Program) : Bool := Instruction.arePaired p.instructions

namespace Store

open Instruction

variable {width observables : Nat}
variable {order : List Nat}

lemma mem_of_mem_groups {α : Type} {same : α → α → Bool} {items g : List α} {a : α}
    (group : g ∈ groups same items) (mem : a ∈ g) : a ∈ items :=
  (flatten_groups_perm items).mem_iff.mp (mem_flatten.mpr ⟨g, group, mem⟩)

lemma readable_emitNoise (fits : width ≤ Word.size) {ops : List NoiseOp}
    (legible : ∀ op ∈ ops, op.Legible width) : ∀ i ∈ emitNoise ops, i.Readable := by
  intro i mem
  obtain ⟨g, group, first⟩ := mem_filterMap.mp mem
  cases g with
  | nil => cases first
  | cons op rest =>
    cases first
    have each : ∀ o ∈ op :: rest, o.Legible width :=
      fun o inside => legible o (mem_of_mem_groups group inside)
    have channel : ∀ o ∈ op :: rest, o.channel = op.channel := by
      intro o inside
      rcases mem_cons.mp inside with rfl | later
      · rfl
      · have like := alike_groups ops _ group o later
        simp only [Bool.and_eq_true, decide_eq_true_eq] at like
        exact like.1.symm
    have head := each op (.head _)
    constructor
    · simp only [isWellFormed, Bool.and_eq_true, decide_eq_true_eq, all_eq_true, mem_flatMap]
      refine ⟨⟨head.takes.1, all_eq_true.mp head.takes.2⟩, ?_⟩
      rintro n ⟨o, inside, target⟩
      exact ((each o inside).numbered n target).trans_le fits
    · simp only [isPaired, decide_eq_true_eq, length_flatMap]
      apply dvd_sum
      intro n counted
      obtain ⟨o, inside, rfl⟩ := mem_map.mp counted
      rw [← channel o inside]
      exact (each o inside).paired

lemma GateOp.Legible.isFor (fits : width ≤ Word.size) {op : GateOp} (legible : op.Legible width)
    {target : Target} (found : measured op.target = .ok target) :
    target.isFor op.gate = true := by
  have kind := legible.kind
  have numbered := legible.numbered
  cases shape : op.target with
  | qubits indices =>
    rw [shape] at found kind numbered
    cases indices with
    | nil => cases found
    | cons n rest =>
      cases found
      have inside := (numbered n (.head _)).trans_le fits
      simpa [Target.isFor, inside] using kind
  | product factors =>
    rw [shape] at found kind numbered
    cases found
    simp only [Target.isFor, Bool.and_eq_true, decide_eq_true_eq, all_eq_true,
      Target.isFactor, Bool.not_eq_true', isEmpty_eq_false_iff]
    refine ⟨⟨kind.1, kind.2.1⟩, fun f mem => ⟨kind.2.2 f mem, ?_⟩⟩
    exact (numbered f.2 (mem_map_of_mem mem)).trans_le fits

lemma readable_groupInstructions (fits : width ≤ Word.size) {ops : List GateOp}
    (alike : Alike (fun a b => a.gate = b.gate && a.flip = b.flip) ops)
    (legible : ∀ op ∈ ops, op.Legible width) : ∀ i ∈ groupInstructions ops, i.Readable := by
  cases ops with
  | nil => exact absurd alike id
  | cons op rest =>
    intro i mem
    simp only [groupInstructions] at mem
    split_ifs at mem with measures
    all_goals obtain rfl := mem_singleton.mp mem
    · refine ⟨?_, rfl⟩
      simp only [isWellFormed, Bool.and_eq_true, all_eq_true]
      refine ⟨⟨measures, (legible op (.head _)).flip⟩, fun target listed => ?_⟩
      obtain ⟨o, inside, found⟩ := mem_filterMap.mp listed
      rw [← gate_of_alike alike inside]
      cases known : measured o.target with
      | error halt =>
        rw [known] at found
        cases found
      | ok t =>
        rw [known] at found
        cases found
        exact GateOp.Legible.isFor fits (legible o inside) known
    · refine ⟨?_, rfl⟩
      simp only [isWellFormed, Bool.and_eq_true, all_eq_true, decide_eq_true_eq, mem_flatMap]
      refine ⟨by simpa using measures, ?_⟩
      rintro n ⟨o, inside, target⟩
      exact ((legible o inside).numbered n target).trans_le fits

lemma isOffset_offsetIn (short : order.length ≤ Word.half) {h : Nat} (mem : h ∈ order) :
    isOffset (Cursor.offsetIn order h) = true := by
  have inside := idxOf_lt_length_of_mem mem
  simp only [isOffset, Cursor.offsetIn, Word.isInt64, Bool.and_eq_true]
  refine ⟨?_, ?_, ?_⟩
  all_goals
    apply decide_eq_true
    omega

lemma readable_noteInstruction (few : observables < 2 ^ 53) (short : order.length ≤ Word.half)
    {note : Note} (legible : note.Legible observables) (known : ∀ h ∈ note.handles, h ∈ order) :
    (noteInstruction order note).Readable := by
  have offsets : ∀ h ∈ note.handles, isOffset (Cursor.offsetIn order h) = true :=
    fun h mem => isOffset_offsetIn short (known h mem)
  cases note with
  | detector handles =>
    refine ⟨?_, rfl⟩
    simpa [noteInstruction, isWellFormed, Note.handles] using offsets
  | observable index handles =>
    have small : index < 2 ^ 53 := lt_trans legible few
    have word : 2 ^ 53 < Word.size := by decide
    have represented : index = index * 2 ^ 0 := (mul_one index).symm
    have same : (Double.ofNat index).toWord = index :=
      Double.toWord_ofNat small represented (lt_trans small word)
    refine ⟨?_, rfl⟩
    simpa [noteInstruction, isWellFormed, same, Note.handles] using offsets

lemma readable_tickInstructions (fits : width ≤ Word.size) (few : observables < 2 ^ 53)
    (short : order.length ≤ Word.half) {t : Tick} (legible : t.Legible width observables)
    (known : ∀ note ∈ t.notes, ∀ h ∈ note.handles, h ∈ order) :
    ∀ i ∈ tickInstructions order t, i.Readable := by
  intro i mem
  simp only [tickInstructions, mem_append, mem_flatMap, mem_map] at mem
  rcases mem with ((before | ⟨g, group, gates⟩) | after) | ⟨note, listed, rfl⟩
  · exact readable_emitNoise fits legible.before i before
  · apply readable_groupInstructions fits (alike_groups t.gates g group) ?_ i gates
    exact fun op inside => legible.gates op (mem_of_mem_groups group inside)
  · exact readable_emitNoise fits legible.after i after
  · exact readable_noteInstruction few short (legible.notes note listed) (known note listed)

lemma readable_ticksInstructions (fits : width ≤ Word.size) (few : observables < 2 ^ 53)
    {ticks : List Tick} (short : (order ++ ticks.flatMap handlesIn).length ≤ Word.half)
    (legible : ∀ t ∈ ticks, t.Legible width observables) (dated : Dated order ticks) :
    ∀ i ∈ ticksInstructions order ticks, i.Readable := by
  induction ticks generalizing order with
  | nil => exact fun i mem => nomatch mem
  | cons t rest ih =>
    rw [flatMap_cons, ← append_assoc] at short
    have here : (order ++ handlesIn t).length ≤ Word.half := by
      rw [length_append] at short
      omega
    have known : ∀ note ∈ t.notes, ∀ h ∈ note.handles, h ∈ order ++ handlesIn t := by
      intro note listed h mem
      simpa using dated 0 t rfl note listed h mem
    intro i mem
    simp only [ticksInstructions, mem_append, mem_cons] at mem
    rcases mem with first | rfl | later
    · exact readable_tickInstructions fits few here (legible t (.head _)) known i first
    · exact ⟨rfl, rfl⟩
    · exact ih short (fun u inside => legible u (mem_cons_of_mem t inside)) dated.tail i later

variable {s : Store}

lemma Sound.length_orderBelow (sound : s.Sound) (n : Nat) :
    (s.orderBelow n).length ≤ s.record.size := by
  have inside : s.orderBelow n ⊆ range s.record.size := by
    intro h mem
    obtain ⟨key, t, found, _⟩ := sound.mem_orderBelow.mp mem
    exact mem_range.mpr (Record.lt_size found)
  have short := ((sound.orderBelow_nodup n).subperm inside).length_le
  rwa [length_range] at short

lemma readable_stretch (sound : s.Sound) (legible : s.Legible observables)
    (fits : s.qubits.length ≤ Word.size) (few : observables < 2 ^ 53)
    (short : s.record.size ≤ Word.half) {start stop : Nat} (ordered : start ≤ stop) :
    ∀ i ∈ s.stretch start stop, i.Readable := by
  apply readable_ticksInstructions fits few ?_ ?_ (sound.dated_between start stop)
  · have emitted := sound.length_orderBelow stop
    rw [s.orderBelow_append ordered] at emitted
    exact emitted.trans short
  · exact forall_mem_map.mpr fun n _ => legible n

lemma readable_bodyInstructions (sound : s.Sound) (legible : s.Legible observables)
    (fits : s.qubits.length ≤ Word.size) (few : observables < 2 ^ 53)
    (short : s.record.size ≤ Word.half)
    (inside : ∀ region, s.region = some region →
      region.start ≤ region.stop ∧ region.stop ≤ s.size ∧ region.repetitions < Word.size) :
    ∀ i ∈ s.bodyInstructions, i.Readable := by
  have stretches := @readable_stretch observables s sound legible fits few short
  intro i mem
  unfold bodyInstructions at mem
  split at mem
  · exact stretches (Nat.zero_le _) i mem
  · next region marked =>
      obtain ⟨ordered, ends, counted⟩ := inside region marked
      simp only [mem_append, mem_cons] at mem
      rcases mem with first | rfl | last
      · exact stretches (Nat.zero_le _) i first
      · exact readable_loop counted (stretches ordered)
      · exact stretches ends i last

lemma mem_of_mem_dropLastTick {is : List Instruction} {i : Instruction}
    (mem : i ∈ dropLastTick is) : i ∈ is := by
  unfold dropLastTick at mem
  split at mem
  · exact dropLast_subset is mem
  · exact mem

lemma readable_program (body : ∀ i ∈ s.bodyInstructions, i.Readable)
    (fits : s.qubits.length ≤ Word.size) (small : ∀ q ∈ s.qubits, q.isSmall = true)
    (layout : Layout) : ∀ i ∈ (s.program layout).instructions, i.Readable := by
  have coords : ∀ i ∈ s.emitCoords, i.Readable := by
    intro i mem
    obtain ⟨⟨q, n⟩, listed, rfl⟩ := mem_map.mp mem
    obtain ⟨inside, found⟩ := mem_zipIdx' listed
    refine ⟨?_, rfl⟩
    have places := small q (found ▸ getElem_mem inside)
    simp only [isWellFormed, Bool.and_eq_true, decide_eq_true_eq]
    exact ⟨inside.trans_le fits, places⟩
  have all : ∀ i ∈ (if layout.coords then s.emitCoords else []) ++ s.bodyInstructions,
      i.Readable := by
    intro i mem
    rcases mem_append.mp mem with first | later
    · split_ifs at first
      · exact coords i first
      · cases first
    · exact body i later
  intro i mem
  cases trailing : layout.trailingTick with
  | true =>
    simp only [program, trailing, if_true] at mem
    exact all i mem
  | false =>
    simp only [program, trailing, Bool.false_eq_true, if_false] at mem
    exact all i (mem_of_mem_dropLastTick mem)

end Store

/-- Numbers of a compilation that fit the words of a program: its layers, the places of its qubits,
their number and the number of outcomes. -/
structure Compilation.Fits (request : Request) (r : Compilation) : Prop where
  layers : request.layers < Word.size
  places : ∀ q ∈ r.store.qubits, q.isSmall = true
  qubits : r.store.qubits.length ≤ Word.size
  outcomes : r.report.measurements ≤ Word.half

/-- What is compiled is read back from its text as it is, blocks included. Noise has as many numbers
as its channel asks for and meets qubits in pairs if the channel does, offsets look back, and
products are products of letters. -/
theorem Compiler.compile_reads_back {c : Compiler} {code : Code} {request : Request}
    {result : Compilation} (run : c.compile code request = .ok result)
    (few : request.observables.length < 2 ^ 53) (fits : result.Fits request) :
    Program.ofText result.program.text = .ok result.program ∧
      result.program.isWellFormed = true ∧ result.program.isPaired = true := by
  obtain ⟨prepared, layered, ended, runs⟩ := compile_eq_ok run
  have stored := runs.store
  obtain ⟨layers, places, qubits, outcomes⟩ := fits
  rw [stored] at places qubits
  rw [runs.report] at outcomes
  have finished := runs.finished.2
  have body := Store.readable_bodyInstructions finished.emissible.sound runs.legible qubits few
    outcomes fun region marked =>
      let ⟨ordered, inside⟩ := finished.marked region marked
      ⟨ordered, inside, (runs.repetitions marked).2.trans_lt layers⟩
  have readable := Store.readable_program body qubits places c.options.layout
  rw [← runs.program_eq] at readable
  have formed : result.program.isWellFormed = true :=
    Instruction.areWellFormed_iff.mpr fun i member => (readable i member).1
  refine ⟨Program.ofText_text_eq formed, formed, ?_⟩
  exact Instruction.arePaired_iff.mpr fun i member => (readable i member).2

namespace PairCode

/-- Three layers as a block, with noise. -/
def noisyBlock : Instruction :=
  .loop 3 [.gate .R [2], .noise .xError [.one] [2], .tick, .gate .H [2],
    .noise .depolarize1 [.one] [2], .tick, .gate .CZ [2, 0], .noise .depolarize2 [.one] [2, 0],
    .tick, .gate .CZ [2, 1], .noise .depolarize2 [.one] [2, 1], .tick,
    .measure .MX (some .one) [.qubit 2], .detector [-2, -1], .tick]

/-- Five layers with depolarizing noise, the middle ones in a block. -/
theorem compile_reads_back_five :
    ∃ result, (⟨.standardDepolarizing .one, {}, {}, by decide⟩ : Compiler).compile code
        { layers := 5 } = .ok result ∧ result.Fits { layers := 5 } ∧
      result.report.repeated = true ∧
      result.program.instructions[18]?.any noisyBlock.same = true ∧
      Program.ofText result.program.text = .ok result.program ∧
      result.program.isWellFormed = true ∧ result.program.isPaired = true := by
  have report : ((⟨.standardDepolarizing .one, {}, {}, by decide⟩ : Compiler).compile code
      { layers := 5 }).toOption.map (fun r => (r.store.qubits, r.report.measurements,
        r.report.repeated, r.program.instructions[18]?.any noisyBlock.same)) =
      some ([left, right, ⟨[1]⟩], 5, true, true) := by
    decide +kernel
  obtain ⟨result, compiled, same⟩ := Outcome.exists_ok_of_map report
  obtain ⟨qubits, same⟩ := Prod.mk.inj same
  obtain ⟨measurements, same⟩ := Prod.mk.inj same
  obtain ⟨repeated, block⟩ := Prod.mk.inj same
  have fits : result.Fits { layers := 5 } := by
    refine ⟨by decide, ?_, ?_, ?_⟩
    · rw [qubits]
      decide
    · rw [qubits]
      decide
    · rw [measurements]
      decide
  exact ⟨result, compiled, fits, repeated, block,
    Compiler.compile_reads_back compiled (by decide) fits⟩

end PairCode

end SyndromeSchedule
