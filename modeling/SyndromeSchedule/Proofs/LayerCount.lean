import SyndromeSchedule.Proofs.Tally

/-!
Compilations of one request with different numbers of layers. They succeed together; detectors are
discarded in the first layer only; and the last layers and the final measurements are the same but
for where they stand, so the same qubits are measured again at the end and the same detectors close.
-/

namespace SyndromeSchedule

open List

/-! Sessions of one run. -/

namespace Session

section Alike

variable {task task' : Task}

lemma compileRounds_congr (step : ∀ s : Session, s.compileRound task' = s.compileRound task)
    (k : Nat) (s : Session) : s.compileRounds task' k = s.compileRounds task k := by
  induction k generalizing s with
  | zero => rfl
  | succ k ih => simp only [compileRounds, step, ih]

lemma compileLayer_congr (code : task'.code = task.code)
    (step : ∀ s : Session, s.compileRound task' = s.compileRound task) (s : Session) :
    s.compileLayer task' = s.compileLayer task := by
  rw [compileLayer_eq, compileLayer_eq, compileRounds_congr step, code]

lemma compileLayers_congr (code : task'.code = task.code)
    (step : ∀ s : Session, s.compileRound task' = s.compileRound task) (k : Nat) (s : Session) :
    s.compileLayers task' k = s.compileLayers task k := by
  induction k generalizing s with
  | zero => rfl
  | succ k ih => simp only [compileLayers, compileLayer_congr code step, ih]

end Alike

lemma compileLayer_withLayers (c : Compiler) (code : Code) (request : Request) (n : Nat)
    (s : Session) :
    s.compileLayer ⟨c, code, request.withLayers n⟩ = s.compileLayer ⟨c, code, request⟩ := by
  apply compileLayer_congr
  · rfl
  · exact fun _ => rfl

lemma compileLayers_withLayers (c : Compiler) (code : Code) (request : Request) (n k : Nat)
    (s : Session) :
    s.compileLayers ⟨c, code, request.withLayers n⟩ k = s.compileLayers ⟨c, code, request⟩ k := by
  apply compileLayers_congr
  · rfl
  · exact fun _ => rfl

variable {task : Task} {s s' next : Session} {n k start stop : Nat}

lemma compileLayers_add {j : Nat} (h : s.compileLayers task (j + k) = .ok next) :
    ∃ mid, s.compileLayers task j = .ok mid ∧ mid.compileLayers task k = .ok next := by
  induction j generalizing s with
  | zero => exact ⟨s, rfl, by rwa [Nat.zero_add] at h⟩
  | succ j ih =>
    rw [Nat.succ_add] at h
    obtain ⟨first, start, stop, placed, rest⟩ := compileLayers_succ_eq_ok.mp h
    obtain ⟨mid, before, after⟩ := ih rest
    exact ⟨mid, compileLayers_succ_eq_ok.mpr ⟨first, start, stop, placed, before⟩, after⟩

lemma RestsAfter.qubits_eq (h : s.RestsAfter task n) (extractable : task.Extractable)
    (fault : task.request.fault? task.code = none) (pos : 0 < n)
    (started : 0 < s.store.size) (words : (n + 1) * task.code.period ≤ Word.half)
    (run : s.compileLayer task = .ok (next, start, stop)) :
    next.store.qubits = s.store.qubits := by
  have period := h.period_le pos
  have atRest : next.TwinAtRest (.across task s s 0 0 (Nat.zero_le _)) task task.compiler next :=
    h.compileLayer_atRest (d := 0) h extractable fault pos started
      (by rwa [h.rounds, ← Nat.succ_mul]) le_rfl rfl (fun _ _ => Nat.zero_le _)
      (by omega) run run
  exact atRest.twin.progress.store.numbered fun q known => h.numbered pos known

/-- What some more layers leave as it is. -/
structure LayersLater (task : Task) (s : Session) (n k : Nat) (next : Session) : Prop where
  rests : next.RestsAfter task (n + k)
  size_le : s.store.size ≤ next.store.size
  qubits : 0 < s.store.size → next.store.qubits = s.store.qubits

lemma RestsAfter.layers (h : s.RestsAfter task n) (extractable : task.Extractable)
    (fault : task.request.fault? task.code = none) (pos : 0 < n)
    (words : (n + k) * task.code.period ≤ Word.half)
    (run : s.compileLayers task k = .ok next) : s.LayersLater task n k next := by
  induction k generalizing s n with
  | zero =>
    cases run
    exact ⟨h, le_rfl, fun _ => rfl⟩
  | succ k ih =>
    obtain ⟨mid, start, stop, first, rest⟩ := compileLayers_succ_eq_ok.mp run
    have room : (n + 1) * task.code.period ≤ Word.half :=
      (Nat.mul_le_mul_right _ (by omega)).trans words
    have layer := h.complete.layer extractable first
    have onward := ih (h.layer extractable room first) (Nat.succ_pos n)
      (by rwa [Nat.add_right_comm, Nat.add_assoc]) rest
    refine ⟨?_, layer.size_le.trans onward.size_le, fun started => ?_⟩
    · rw [← Nat.add_assoc, Nat.add_right_comm]
      exact onward.rests
    · rw [onward.qubits (started.trans_le layer.size_le)]
      exact h.qubits_eq extractable fault pos started room first

/-- A session that is left to the last layer: some layers after another one, with some ticks marked
to be repeated or not. -/
def Leaves (task : Task) (s : Session) (k : Nat) (last : Session) : Prop :=
  ∃ mid, s.compileLayers task k = .ok mid ∧
    (last = mid ∨ ∃ start stop repetitions, start ≤ stop ∧ stop ≤ mid.store.size ∧
      last = mid.mark start stop repetitions)

lemma Leaves.onward {last : Session} (h : s.Leaves task k last) (rests : s.RestsAfter task n)
    (extractable : task.Extractable) (fault : task.request.fault? task.code = none)
    (pos : 0 < n) (words : (n + k) * task.code.period ≤ Word.half) :
    s.LayersLater task n k last := by
  obtain ⟨mid, run, rfl | ⟨start, stop, repetitions, ordered, inside, rfl⟩⟩ := h
  · exact rests.layers extractable fault pos words run
  · have onward := rests.layers extractable fault pos words run
    exact ⟨onward.rests.mark ordered inside repetitions, onward.size_le, onward.qubits⟩

lemma Leaves.size_le {last last' : Session} {d : Nat} (h : s.Leaves task k last)
    (h' : s.Leaves task (k + d) last') (rests : s.RestsAfter task n)
    (extractable : task.Extractable) (fault : task.request.fault? task.code = none)
    (pos : 0 < n) (words : (n + (k + d)) * task.code.period ≤ Word.half) :
    last.store.size ≤ last'.store.size := by
  obtain ⟨mid, run, here⟩ := h
  obtain ⟨mid', run', there⟩ := h'
  have size : last.store.size = mid.store.size := by
    rcases here with rfl | ⟨_, _, _, _, _, rfl⟩
    · rfl
    · rfl
  have size' : last'.store.size = mid'.store.size := by
    rcases there with rfl | ⟨_, _, _, _, _, rfl⟩
    · rfl
    · rfl
  obtain ⟨same, before, after⟩ := compileLayers_add run'
  obtain rfl : mid = same := Except.ok.inj (run.symm.trans before)
  have short : (n + k) * task.code.period ≤ Word.half :=
    (Nat.mul_le_mul_right _ (by omega)).trans words
  have first := rests.layers extractable fault pos short run
  have second := first.rests.layers extractable fault (Nat.add_pos_left pos k)
    (by rwa [Nat.add_assoc]) after
  rw [size, size']
  exact second.size_le

end Session

/-- An outcome of a round is on record for a qubit alone. -/
def Record.hasOf (r : Record) (round : Int) (q : Qubit) : Bool :=
  r.entries.any fun e => e.1.round = round && e.1.content.keys = [q]

lemma Record.Twin.hasOf {k : Comparison} {r r' : Record} (h : r.Twin k r') {round : Int}
    (pos : 0 ≤ round) (q : Qubit) : r'.hasOf (round + k.rounds) q = r.hasOf round q := by
  obtain ⟨late, old, parts, pairs, _, before⟩ := h
  unfold Record.hasOf
  have none : (old.any fun e => e.1.round = round + k.rounds && e.1.content.keys = [q]) =
      false := by
    rw [any_eq_false]
    intro e mem here
    have past := before e mem
    simp only [Bool.and_eq_true, decide_eq_true_eq] at here
    omega
  rw [parts, any_append, none, Bool.or_false]
  clear parts
  generalize r.entries = entries at pairs ⊢
  induction pairs with
  | nil => rfl
  | @cons e e' _ _ same _ ih =>
    obtain ⟨key, _⟩ := same
    have here : (e'.1.round = round + k.rounds) ↔ e.1.round = round := by
      rw [key]
      exact Int.add_left_inj _
    have content : e'.1.content = e.1.content := by
      rw [key]
      rfl
    simp [ih, here, content]

namespace Session

variable {task : Task} {s s' next next' last last' : Session}
  {n d start stop start' stop' placed placed' : Nat}

lemma RestsAfter.ends_alike (h : s.RestsAfter task n) (h' : s'.RestsAfter task (n + d))
    (extractable : task.Extractable) (fault : task.request.fault? task.code = none)
    (pos : 0 < n) (started : 0 < s.store.size)
    (words : s'.rounds + task.code.period < Word.half)
    (sizes : s.store.size ≤ s'.store.size) (same : s'.store.qubits = s.store.qubits)
    (run : s.compileLayer task = .ok (next, start, stop))
    (run' : s'.compileLayer task = .ok (next', start', stop'))
    (ends : next.measureFinals task = .ok (last, placed))
    (ends' : next'.measureFinals task = .ok (last', placed')) :
    placed' = placed ∧ last.store.record.Twin
      (.across task s s' 0 0 (Nat.zero_le _)) last'.store.record := by
  have rounds := h.later_rounds h'
  have period := h.period_le pos
  have count : next.rounds = s.rounds + task.code.period :=
    (h.complete.layer extractable run).rounds
  have length := task.code.period_pos
  have atRest : next.TwinAtRest (.across task s s' 0 0 (Nat.zero_le _)) task task.compiler next' :=
    h.compileLayer_atRest h' extractable fault pos started (words.le) sizes same
      (fun _ _ => Nat.zero_le _) (by omega) run run'
  have since : (Comparison.across task s s' 0 0 (Nat.zero_le _)).since < next.rounds := by
    change s.rounds < next.rounds
    omega
  have along := measureFinals_along atRest (h.comparable h' started) fault (by omega) since
    (.inr (by omega)) fun r le _ => h.counts h' (Int.natCast_nonneg r) (by omega)
  obtain ⟨twin, count⟩ := along.of_ok ends ends'
  exact ⟨count, twin.progress.store.record⟩

/-- The end of a run does not depend on how many layers came before. -/
lemma Leaves.ends_alike {k : Nat} {before before' : Session} (h : s.Leaves task k before)
    (h' : s.Leaves task (k + d) before') (rests : s.RestsAfter task 1)
    (extractable : task.Extractable) (fault : task.request.fault? task.code = none)
    (started : 0 < s.store.size) (words : (k + d + 2) * task.code.period < Word.half)
    (run : before.compileLayer task = .ok (next, start, stop))
    (run' : before'.compileLayer task = .ok (next', start', stop'))
    (ends : next.measureFinals task = .ok (last, placed))
    (ends' : next'.measureFinals task = .ok (last', placed')) :
    placed' = placed ∧ ∀ q, last'.store.record.hasOf (Word.signed next'.rounds) q =
      last.store.record.hasOf (Word.signed next.rounds) q := by
  have room : ∀ {j : Nat}, j ≤ k + d + 2 → j * task.code.period ≤ Word.half :=
    fun le => (Nat.mul_le_mul_right _ le).trans (words.le)
  have onward := h.onward rests extractable fault Nat.one_pos (room (by omega))
  have onward' := h'.onward rests extractable fault Nat.one_pos (room (by omega))
  have first := onward.rests
  have second := onward'.rests
  rw [← Nat.add_assoc] at second
  have rounds := first.later_rounds second
  have length : before'.rounds + task.code.period = (k + d + 2) * task.code.period := by
    rw [second.rounds, ← Nat.succ_mul]
    congr 1
    omega
  have count : next.rounds = before.rounds + task.code.period :=
    (first.complete.layer extractable run).rounds
  have count' : next'.rounds = before'.rounds + task.code.period :=
    (second.complete.layer extractable run').rounds
  obtain ⟨same, record⟩ := first.ends_alike second extractable fault (by omega)
    (started.trans_le onward.size_le) (by omega)
    (h.size_le h' rests extractable fault Nat.one_pos (room (by omega)))
    ((onward'.qubits started).trans (onward.qubits started).symm) run run' ends ends'
  refine ⟨same, fun q => ?_⟩
  have pos : (0 : Int) ≤ Word.signed next.rounds := by
    rw [Word.signed_of_lt (by omega)]
    exact Int.natCast_nonneg _
  rw [← record.hasOf pos q]
  congr 1
  change _ = _ + ((before'.rounds - before.rounds : Nat) : Int)
  rw [Word.signed_of_lt (by omega), Word.signed_of_lt (by omega)]
  omega

lemma RestsAfter.checksIn_eq_nil (h : s.RestsAfter task n) (pos : 0 < n)
    (none : s.store.size = 0) (round : Nat) : task.code.checksIn round = [] := by
  apply eq_nil_iff_forall_not_mem.mpr
  intro c mem
  obtain ⟨_, found⟩ := getElem?_of_mem (h.made pos mem)
  obtain ⟨keys, _, account⟩ := h.complete.safe.account
  obtain ⟨t, entry⟩ := account.exists_entry found
  have inside := account.sound.tick_lt_size entry
  change t < s.store.size at inside
  omega

lemma RestsAfter.vacant (h : s.RestsAfter task n) (pos : 0 < n) (none : s.store.size = 0) :
    (∀ q, task.code.isData q ≠ true) ∧ task.code.distinctChecks = [] := by
  constructor
  · intro q data
    obtain ⟨t, found⟩ := h.settled.used data
    have inside := h.settled.inside found
    omega
  · have flat : task.code.checks.flatten = [] := by
      apply eq_nil_iff_forall_not_mem.mpr
      intro c mem
      obtain ⟨checks, listed, inside⟩ := mem_flatten.mp mem
      obtain ⟨r, bound, rfl⟩ := getElem_of_mem listed
      have here : c ∈ task.code.checksIn r := by
        unfold Code.checksIn
        rw [get_eq_getElem]
        simp only [Nat.mod_eq_of_lt (show r < task.code.period from bound)]
        exact inside
      rw [h.checksIn_eq_nil pos none r] at here
      cases here
    rw [Code.distinctChecks, flat]
    rfl

lemma placed_of_vacant (vacant : task.code.distinctChecks = [])
    (ends : s.measureFinals task = .ok (last, placed)) : placed = 0 := by
  obtain ⟨_, mid, finals, closed, ended, _, closes, _⟩ := measureFinals_eq_ok ends
  rw [Progress.commit_finalDetectors, vacant] at closes
  split_ifs at closes
  · cases closes
  · cases closes
    rfl

end Session

namespace Compilation

/-- Nothing is filed for a qubit alone once all rounds are placed, so its final measurement is an
outcome of the last round. -/
def reuses (r : Compilation) (q : Qubit) : Bool :=
  !r.store.record.hasOf (Word.signed r.report.rounds) q

/-- Qubits whose final measurement is not made again. -/
def reused (r : Compilation) (finals : List (Qubit × Pauli)) : List Qubit :=
  (finals.map (·.1)).filter r.reuses

end Compilation

namespace Task

variable {task : Task} {result : Compilation} {prepared layered ended : Session}

lemma Placed.leaves {repeated : Bool} (h : task.Placed prepared layered repeated)
    (two : 2 ≤ task.request.layers) {s : Session} {start stop : Nat}
    (first : prepared.compileLayer task = .ok (s, start, stop)) :
    ∃ k last start' stop', k + 2 ≤ task.request.layers ∧ s.Leaves task k last ∧
      last.compileLayer task = .ok (layered, start', stop') := by
  cases h with
  | flat run =>
    obtain ⟨k, layers⟩ := Nat.exists_eq_add_of_le two
    rw [layers, Nat.add_comm] at run
    obtain ⟨mid, _, _, again, rest⟩ := Session.compileLayers_succ_eq_ok.mp run
    obtain rfl : s = mid := by
      have same := first.symm.trans again
      cases same
      rfl
    obtain ⟨last, before, final⟩ := Session.compileLayers_add rest
    obtain ⟨_, start', stop', placed, done⟩ := Session.compileLayers_succ_eq_ok.mp final
    cases done
    exact ⟨k, last, start', stop', by omega, ⟨last, before, .inl rfl⟩, placed⟩
  | @folded s₁ s₂ _ _ _ start₂ stop₂ start₃ stop₃ enough again second nonempty _ inside third =>
    obtain rfl : s = s₁ := by
      have same := first.symm.trans again
      cases same
      rfl
    refine ⟨1, _, start₃, stop₃, by omega, ⟨s₂, ?_, .inr ?_⟩, third⟩
    · exact Session.compileLayers_succ_eq_ok.mpr ⟨s₂, start₂, stop₂, second, rfl⟩
    · exact ⟨start₂, stop₂, _, nonempty.le, inside, rfl⟩

end Task

namespace Compiler

variable {c : Compiler} {code : Code} {request : Request} {n m : Nat} {r r' : Compilation}

lemma ends_vacant {task : Task} {prepared layered ended s : Session}
    (h : task.Runs r prepared layered ended) (rests : s.RestsAfter task 1)
    (none : s.store.size = 0) :
    r.report.finalDetectors = 0 ∧ task.request.resolvedFinals task.code = [] := by
  obtain ⟨bare, checks⟩ := rests.vacant Nat.one_pos none
  refine ⟨Session.placed_of_vacant checks h.measures, ?_⟩
  apply eq_nil_iff_forall_not_mem.mpr
  intro f mem
  exact bare f.1 (Request.isData_of_mem_finals h.fault mem)

/-- Nor do the final detectors and the outcomes that are reused. -/
lemma ends_eq (two : 2 ≤ n) (two' : 2 ≤ m) (words : n * code.period < Word.half)
    (words' : m * code.period < Word.half)
    (h : c.compile code (request.withLayers n) = .ok r)
    (h' : c.compile code (request.withLayers m) = .ok r') :
    r'.report.finalDetectors = r.report.finalDetectors ∧
      r'.reused (request.resolvedFinals code) = r.reused (request.resolvedFinals code) := by
  obtain ⟨prepared, layered, ended, runs⟩ := compile_eq_ok h
  obtain ⟨prepared', layered', ended', runs'⟩ := compile_eq_ok h'
  have extractable := runs.extractable
  obtain rfl : prepared' = prepared := Except.ok.inj (runs'.prepares.symm.trans runs.prepares)
  obtain ⟨s, start, stop, first⟩ := runs.placed.first (lt_of_lt_of_le Nat.two_pos two)
  have switch : ∀ s : Session, s.compileLayer ⟨c, code, request.withLayers m⟩ =
      s.compileLayer ⟨c, code, request.withLayers n⟩ :=
    Session.compileLayer_withLayers c code (request.withLayers n) m
  obtain ⟨k, last, _, _, enough, leaves, final⟩ := runs.placed.leaves two first
  obtain ⟨k', last', _, _, enough', leaves', final'⟩ :=
    runs'.placed.leaves two' ((switch prepared').trans first)
  have leaves' : s.Leaves ⟨c, code, request.withLayers n⟩ k' last' := by
    obtain ⟨mid, run, marked⟩ := leaves'
    exact ⟨mid, (Session.compileLayers_withLayers c code (request.withLayers n) m k' s).symm.trans
      run, marked⟩
  have final' := (switch last').symm.trans final'
  have rests := (Session.restsAfter_initialise runs.prepares).layer extractable
    ((Nat.mul_le_mul_right _ (by omega)).trans (words.le)) first
  have room : ∀ {j : Nat}, (j ≤ n ∨ j ≤ m) → j * code.period < Word.half := by
    rintro j (le | le)
    · exact (Nat.mul_le_mul_right _ le).trans_lt words
    · exact (Nat.mul_le_mul_right _ le).trans_lt words'
  by_cases started : 0 < s.store.size
  · have alike : r'.report.finalDetectors = r.report.finalDetectors ∧
        ∀ q, r'.reuses q = r.reuses q := by
      unfold Compilation.reuses
      rw [runs.rounds_eq, runs'.rounds_eq, runs.store, runs'.store]
      rcases le_total k k' with le | le
      · obtain ⟨d, rfl⟩ := Nat.exists_eq_add_of_le le
        obtain ⟨same, reads⟩ := leaves.ends_alike leaves' rests extractable runs.fault started
          (room (.inr enough')) final final' runs.measures runs'.measures
        exact ⟨same, fun q => congrArg _ (reads q)⟩
      · obtain ⟨d, rfl⟩ := Nat.exists_eq_add_of_le le
        obtain ⟨same, reads⟩ := leaves'.ends_alike leaves rests extractable runs.fault started
          (room (.inl enough)) final' final runs'.measures runs.measures
        exact ⟨same.symm, fun q => congrArg _ (reads q).symm⟩
    refine ⟨alike.1, ?_⟩
    unfold Compilation.reused
    rw [show r'.reuses = r.reuses from funext alike.2]
  · have vacant := ends_vacant runs rests (by omega)
    have rests' := (Session.restsAfter_initialise runs'.prepares).layer
      runs'.extractable
      ((Nat.mul_le_mul_right _ (by omega)).trans (words'.le))
      ((switch prepared').trans first)
    have vacant' := ends_vacant runs' rests' (by omega)
    have none : request.resolvedFinals code = [] := vacant.2
    unfold Compilation.reused
    rw [vacant.1, vacant'.1, none, map_nil, filter_nil, filter_nil]
    exact ⟨rfl, rfl⟩

lemma discarded_eq (words : n * code.period < Word.half) (words' : m * code.period < Word.half)
    (h : c.compile code (request.withLayers n) = .ok r)
    (h' : c.compile code (request.withLayers m) = .ok r') :
    r'.report.discarded = r.report.discarded := by
  obtain ⟨prepared, layered, ended, runs⟩ := compile_eq_ok h
  obtain ⟨prepared', layered', ended', runs'⟩ := compile_eq_ok h'
  have first := runs.discarded_first (words.le)
  exact Nat.add_right_cancel ((runs'.discarded_first (words'.le)).trans first.symm)

/-- Success does not depend on the number of layers, as long as words are large enough: with any two
numbers of them, a request is compiled or fails alike, and the same number of detectors is
discarded. From two layers on, the same number of detectors closes on the final measurements, and
the same qubits are not measured again at the end. -/
theorem layers_irrelevant (c : Compiler) (code : Code) (request : Request) {n m : Nat}
    (positive : 0 < n) (positive' : 0 < m) (words : n * code.period < Word.half)
    (words' : m * code.period < Word.half)
    (room : c.compile code (request.withLayers n) ≠ .overflow)
    (room' : c.compile code (request.withLayers m) ≠ .overflow) :
    ((∃ r, c.compile code (request.withLayers n) = .ok r) ↔
      ∃ r', c.compile code (request.withLayers m) = .ok r') ∧
    ∀ r r', c.compile code (request.withLayers n) = .ok r →
      c.compile code (request.withLayers m) = .ok r' →
      r'.report.discarded = r.report.discarded ∧
      (2 ≤ n → 2 ≤ m → r'.report.finalDetectors = r.report.finalDetectors ∧
        r'.reused (request.resolvedFinals code) = r.reused (request.resolvedFinals code)) := by
  have carries : ∀ {i j : Nat}, 0 < j → c.compile code (request.withLayers j) ≠ .overflow →
      (∃ r, c.compile code (request.withLayers i) = .ok r) →
        ∃ r, c.compile code (request.withLayers j) = .ok r := by
    rintro i j positive room ⟨r, compiled⟩
    have solvable := (solvable_of_compile compiled).withLayers positive
    exact (compile_of_solvable solvable).resolve_left room
  refine ⟨⟨carries positive' room', carries positive room⟩, fun r r' h h' => ⟨?_, ?_⟩⟩
  · exact discarded_eq words words' h h'
  · exact fun two two' => ends_eq two two' words words' h h'

end Compiler

theorem PairCode.layers_irrelevant_two_five :
    ∃ r r', (compiler {}).compile code { layers := 2 } = .ok r ∧
      (compiler {}).compile code { layers := 5 } = .ok r' ∧
      r'.report.discarded = r.report.discarded ∧
      r'.report.finalDetectors = r.report.finalDetectors ∧
      r'.reused [(left, .Z), (right, .Z)] = r.reused [(left, .Z), (right, .Z)] := by
  have two : ((compiler {}).compile code { layers := 2 }).toOption.isSome = true := by
    decide +kernel
  have five : ((compiler {}).compile code { layers := 5 }).toOption.isSome = true := by
    decide +kernel
  obtain ⟨r, found⟩ := Option.isSome_iff_exists.mp two
  obtain ⟨r', found'⟩ := Option.isSome_iff_exists.mp five
  have compiled := Outcome.eq_ok_of_toOption found
  have compiled' := Outcome.eq_ok_of_toOption found'
  obtain ⟨_, same⟩ := Compiler.layers_irrelevant (compiler {}) code { layers := 2 } (n := 2)
    (m := 5) (by decide) (by decide) (by decide) (by decide)
    (fun stuck => by cases compiled.symm.trans stuck)
    (fun stuck => by cases compiled'.symm.trans stuck)
  obtain ⟨discarded, ends⟩ := same r r' compiled compiled'
  obtain ⟨closed, reused⟩ := ends (by decide) (by decide)
  exact ⟨r, r', compiled, compiled', discarded, closed, reused⟩

end SyndromeSchedule
