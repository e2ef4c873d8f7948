import SyndromeSchedule.Proofs.Boundaries

/-!
When a compilation succeeds. Apart from words that are too small, placing gates and writing
detectors cannot fail; what is left are observables, and whether they can be followed depends on the
checks of one period and on the final measurements, not on how many layers there are.
-/

namespace SyndromeSchedule

open List Outcome

variable {code : Code} {c : Compiler} {request : Request}

namespace Session

variable {task : Task} {s next : Session}

/-- A session from which rounds can be placed as long as words are large enough. -/
structure Able (task : Task) (s : Session) : Prop where
  complete : s.Complete task
  follows : s.Follows task
  extractable : task.Extractable
  moves : ∀ round, task.Moves round

lemma Able.compileRounds_bounded (n : Nat) (h : s.Able task) :
    (s.compileRounds task n).Bounded (Able task) := by
  induction n generalizing s with
  | zero => exact meets_ok h
  | succ n ih =>
    refine (h.follows.compileRound_bounded h.complete h.extractable (h.moves _)).bind_of_ok ?_
    intro mid first held
    exact ih ⟨held.1, h.follows.step first, h.extractable, h.moves⟩

lemma Able.compileLayer_bounded (h : s.Able task) :
    (s.compileLayer task).Bounded fun r => r.1.Able task ∧ s.Layer task r.1 r.2.1 r.2.2 := by
  have bounded : (s.compileLayer task).Bounded fun _ => True := by
    rw [compileLayer_eq]
    have started : ({ s with layerStart := s.nextStart } : Session).Able task :=
      ⟨h.complete.setLayerStart _, { h.follows with }, h.extractable, h.moves⟩
    refine (started.compileRounds_bounded _).bind fun mid able => ?_
    have barrier := able.complete.safe.enclosed.barrier_eq
    split_ifs
    · exact (able.complete.safe.flush_meets _ (by omega)).bind fun _ _ => meets_ok trivial
    · exact meets_ok trivial
  refine bounded.strengthen fun r run _ => ?_
  have layer := h.complete.layer h.extractable run
  exact ⟨⟨layer.complete, h.follows.layer run, h.extractable, h.moves⟩, layer⟩

lemma Able.layerwise (task : Task) : Layerwise task (Halt.LacksRoom False) (Able task) where
  layer := Able.compileLayer_bounded
  mark := fun repetitions h ordered inside => ⟨h.complete.mark ordered inside repetitions,
    { h.follows with }, h.extractable, h.moves⟩

end Session

/-! Final measurements. -/

/-- Letters in which qubits are measured at the end. -/
def Request.finalLetters (request : Request) (code : Code) : Table Pauli :=
  (request.resolvedFinals code).foldl (fun t f => t.insert f.1 f.2) .empty

/-- An observable can be read out by final measurements. -/
def Logical.isRead (l : Logical) (letters : Table Pauli) (round : Nat) : Prop :=
  ∀ f ∈ (l.before round).factors.entries, letters.get? f.1 = some f.2

namespace Tracker

variable {t : Tracker} {rounds : Nat} {finals : Table (Pauli × Nat)} {letters : Table Pauli}

lemma Valid.close_bounded {record : Record} (valid : t.Valid record)
    (made : ∀ q e, finals.get? q = some e → e.2 < record.size)
    (follows : t.current = t.logical.before rounds)
    (same : ∀ q, (finals.get? q).map (·.1) = letters.get? q)
    (read : t.logical.isRead letters rounds) :
    (t.close rounds finals).Bounded fun t _ => t.Valid record := by
  have ends : t.current.sameLetters (t.logical.before rounds) = true := by
    rw [follows]
    exact decide_eq_true rfl
  simp only [close, if_pos ends]
  refine (Attempt.Meets.forEach (fun rest u => u.Valid record ∧
    ∀ f ∈ rest, f ∈ t.current.factors.entries) ?_ _ t ⟨valid, fun _ h => h⟩).imp
    fun _ after => after.1
  rintro f rest u ⟨before, listed⟩
  have found := read f (follows ▸ listed f (.head _))
  rw [← same, Option.map_eq_some_iff] at found
  obtain ⟨⟨basis, handle⟩, found, right⟩ := found
  simp only [readOut, found]
  rw [if_pos right]
  exact meets_ok ⟨before.toggle (made _ _ found), fun f mem => listed f (.tail _ mem)⟩

lemma isRead_of_close {next : Tracker} {u : Unit} (follows : t.current = t.logical.before rounds)
    (same : ∀ q, (finals.get? q).map (·.1) = letters.get? q)
    (h : (t.close rounds finals).commit = .ok (next, u)) :
    t.logical.isRead letters rounds := by
  obtain ⟨handles, found, _⟩ := close_eq_ok h
  intro f mem
  obtain ⟨handle, _, read⟩ := exists_right_of_forall₂ found (follows.symm ▸ mem)
  rw [← same, read]
  rfl

end Tracker


namespace Session

variable {task : Task} {s next : Session} {last tick : Nat}
  {state after : Session × Table (Pauli × Nat)} {letters : Table Pauli}

/-- Final measurements are in the bases asked for, and leave the resolver alone. -/
structure Answers (s : Session) (tick : Nat) (letters : Table Pauli)
    (state : Session × Table (Pauli × Nat)) : Prop where
  ends : s.Ends tick state.1
  letters : ∀ q, (state.2.get? q).map (·.1) = letters.get? q

lemma Answers.measureFinal (h : s.Answers tick letters state)
    {f : Qubit × Pauli} (run : measureFinal task last tick state f = .ok after) :
    s.Answers tick (letters.insert f.1 f.2) after := by
  have noted : ∀ handle q, ((state.2.insert f.1 (f.2, handle)).get? q).map (·.1) =
      (letters.insert f.1 f.2).get? q := by
    intro handle q
    rw [Table.get?_insert, Table.get?_insert, ← h.letters]
    split_ifs <;> rfl
  rcases measureFinal_eq_ok run with
    ⟨d, _, _, _, _, same, finals⟩ | ⟨c, gate, _, _, measures, _, finals⟩
  · exact ⟨same ▸ h.ends, finals ▸ noted d.handle⟩
  · exact ⟨h.ends.trans measures.ends, finals ▸ noted _⟩

lemma answers_measureAll {finals : List (Qubit × Pauli)} (h : s.Answers tick letters state)
    (run : finals.foldlM (Session.measureFinal task last tick) state = .ok after) :
    s.Answers tick (finals.foldl (fun t f => t.insert f.1 f.2) letters) after := by
  induction finals generalizing letters state with
  | nil =>
    cases run
    exact h
  | cons f rest ih =>
    obtain ⟨mid, first, others⟩ := foldlM_cons_eq_ok.mp run
    exact ih (h.measureFinal first) others

lemma answers_start (s : Session) (tick : Nat) : s.Answers tick .empty (s, .empty) :=
  ⟨.refl tick s, fun _ => rfl⟩

lemma resolver_finalDetectors {p closed : Progress} {placed : Nat} {finals : Table (Pauli × Nat)}
    (h : (p.finalDetectors code last finals).commit = .ok (closed, placed)) :
    closed.resolver = p.resolver := by
  rw [Progress.commit_finalDetectors] at h
  split_ifs at h
  · cases h
  · obtain ⟨r, _, h⟩ := of_bind h
    cases h
    rfl

lemma Able.measureFinals_bounded (h : s.Able task) (pos : 0 < s.rounds)
    (fault : task.request.fault? task.code = none)
    (reads : ∀ l ∈ task.request.observables,
      l.isRead (task.request.finalLetters task.code) s.rounds) :
    (s.measureFinals task).Bounded fun r => s.Finished task r.1 r.2 := by
  refine h.complete.measureFinals_of_close ⟨rfl, id⟩ pos fault ?_
  intro mid finals measures made t mem valid
  have answers := answers_measureAll (s.answers_start s.barrier) measures
  exact valid.close_bounded made (h.follows.current t mem) answers.letters
    (reads t.logical (h.follows.mem_observables mem))

lemma Follows.isRead {placed : Nat} (follows : s.Follows task)
    (h : s.measureFinals task = .ok (next, placed)) :
    ∀ l ∈ task.request.observables, l.isRead (task.request.finalLetters task.code) s.rounds := by
  obtain ⟨_, mid, finals, closed, ended, measures, closes, observes, _⟩ := measureFinals_eq_ok h
  have answers := answers_measureAll (s.answers_start s.barrier) measures
  obtain ⟨lasts, each, _⟩ := Progress.finalObservables_eq_ok observes
  intro l mem
  obtain ⟨index, found⟩ := getElem?_of_mem mem
  have listed : (l, index) ∈ task.request.observables.zipIdx := mem_zipIdx_iff_getElem?.mpr found
  obtain ⟨t, tracked, rfl, _⟩ := follows.exists_tracker listed
  have inside : t ∈ closed.resolver.trackers := by
    rwa [resolver_finalDetectors closes, answers.ends.resolver]
  obtain ⟨e, _, closes, _⟩ := exists_right_of_forall₂ each inside
  have rounds : mid.rounds = s.rounds := answers.ends.rounds
  rw [rounds] at closes
  exact Tracker.isRead_of_close (follows.current t tracked) answers.letters closes

end Session

/-! Whole compilations. -/

namespace Task

variable {repeated : Bool}

/-- What a compilation needs apart from words that are large enough. It does not depend on the
number of layers, as long as there is one. -/
structure Solvable (task : Task) : Prop where
  fault : task.request.fault? task.code = none
  extraction : task.checkExtraction = .ok ()
  moves : ∀ round, task.Moves round
  reads : ∀ l ∈ task.request.observables, l.isRead (task.request.finalLetters task.code) 0

variable {task : Task} {result : Compilation} {prepared layered ended : Session}

section

variable (h : task.Placed prepared layered repeated)
include h

lemma Placed.first (pos : 0 < task.request.layers) :
    ∃ s start stop, prepared.compileLayer task = .ok (s, start, stop) := by
  cases h with
  | flat run =>
    obtain ⟨n, layers⟩ := Nat.exists_eq_add_of_lt pos
    rw [layers] at run
    obtain ⟨mid, start, stop, first, _⟩ := Session.compileLayers_succ_eq_ok.mp run
    exact ⟨mid, start, stop, first⟩
  | folded _ first => exact ⟨_, _, _, first⟩

lemma Placed.follows (follows : prepared.Follows task) : layered.Follows task := by
  obtain ⟨stages, placed⟩ := Session.placed_stages h
  exact follows.stages placed

end

lemma Runs.solvable (h : task.Runs result prepared layered ended) : task.Solvable := by
  obtain ⟨⟨_, none, _⟩, layers⟩ := h.complete
  obtain ⟨follows, _, _⟩ := Session.follows_initialise h.prepares none
  refine ⟨h.fault, h.extraction, h.moves, fun l mem => ?_⟩
  obtain ⟨n, count⟩ := layers.rounds_eq_mul none
  have read := (h.placed.follows follows).isRead h.measures l mem
  have divides := Request.period_dvd h.fault mem
  unfold Logical.isRead at read ⊢
  rwa [count, ← Nat.zero_add (n * _), l.before_add_mul divides] at read

lemma Solvable.schedule_bounded (h : task.Solvable) : task.schedule.Bounded fun _ => True := by
  have extractable : task.Extractable := (checkExtraction_meets task).of_ok h.extraction
  have pos := (Request.fault?_eq_none h.fault).1
  unfold schedule
  rw [h.extraction]
  refine (Session.initialise_meets task).bind_of_ok ?_
  rintro prepared prepares ⟨complete, rounds, _⟩
  obtain ⟨follows, _, _⟩ := Session.follows_initialise prepares rounds
  have able : prepared.Able task := ⟨complete, follows, extractable, h.moves⟩
  refine ((Session.Able.layerwise task).placeLayers_meets able pos).bind_of_ok ?_
  rintro ⟨layered, repeated⟩ places ⟨able, layers⟩
  obtain ⟨n, count⟩ := layers.rounds_eq_mul rounds
  have reads : ∀ l ∈ task.request.observables,
      l.isRead (task.request.finalLetters task.code) layered.rounds := by
    intro l mem
    have divides := Request.period_dvd h.fault mem
    have read := h.reads l mem
    unfold Logical.isRead at read ⊢
    rwa [count, ← Nat.zero_add (n * _), l.before_add_mul divides]
  refine (able.measureFinals_bounded (layers.rounds_pos pos) h.fault reads).bind ?_
  rintro ⟨ended, placed⟩ finished
  simp only [finished.finish_eq able.complete]
  exact meets_ok trivial

end Task

lemma Compiler.compile_of_solvable (h : (⟨c, code, request⟩ : Task).Solvable) :
    c.compile code request = .overflow ∨ ∃ result, c.compile code request = .ok result := by
  have bounded : (c.compile code request).Bounded fun _ => True := by
    simp only [compile, h.fault]
    refine h.schedule_bounded.bind_of_ok fun r scheduled _ => ?_
    have emits := ((Task.schedule_meets h.fault).of_ok scheduled).emit_eq c.options.layout
    simp only [emits]
    exact meets_ok trivial
  rcases bounded.cases with stuck | ⟨result, found, _⟩
  · exact .inl stuck
  · exact .inr ⟨result, found⟩

lemma Compiler.solvable_of_compile {result : Compilation}
    (h : c.compile code request = .ok result) :
    (⟨c, code, request⟩ : Task).Solvable := by
  obtain ⟨prepared, layered, ended, runs⟩ := compile_eq_ok h
  exact runs.solvable

namespace Request

/-- The request with another number of layers. -/
def withLayers (request : Request) (n : Nat) : Request := { request with layers := n }

lemma fault?_withLayers (h : request.fault? code = none)
    {n : Nat} (pos : 0 < n) : (request.withLayers n).fault? code = none := by
  have layers := (fault?_eq_none h).1
  unfold fault? at h ⊢
  rw [if_neg (ne_of_gt layers)] at h
  exact (if_neg (ne_of_gt pos)).trans h

end Request

lemma Task.Solvable.withLayers (h : (⟨c, code, request⟩ : Task).Solvable) {n : Nat}
    (pos : 0 < n) :
    (⟨c, code, request.withLayers n⟩ : Task).Solvable :=
  ⟨Request.fault?_withLayers h.fault pos, h.extraction, h.moves, h.reads⟩

end SyndromeSchedule
