import SyndromeSchedule.Proofs.Succession

/-!
The noise of a round. Every data qubit is disturbed once in every round: before its first gate of
the round, or after its last gate so far if the round leaves it alone, and then it idles too. So the
noise stands between the gates of earlier rounds on the qubit and those of this round and later
ones.
-/

namespace SyndromeSchedule

open List Outcome

/-- The noise of a disturbance on a numbered qubit: one operation, if it shows. -/
def Disturbance.operations (d : Option Disturbance) (n : Nat) : List NoiseOp :=
  ((d.filter isActive).map fun d => ⟨(d.resolve .Z).1, (d.resolve .Z).2, [n]⟩).toList

/-- The noise of a round on a numbered qubit, which a gate of the round touches or not. -/
def NoiseModel.ofRound (noise : NoiseModel) (touched : Bool) (n : Nat) : List NoiseOp :=
  (if touched then [] else Disturbance.operations noise.idling n) ++
    Disturbance.operations noise.roundStart n

/-- The task with other noise of rounds. -/
def Task.withRoundNoise (task : Task) (start idling : Option Disturbance)
    (sound : { task.compiler.noise with roundStart := start, idling }.fault? = none) : Task :=
  { task with compiler := { task.compiler with
      noise := { task.compiler.noise with roundStart := start, idling }
      sound } }

/-- Whether noise before or after the gates of a tick comes after the gates of another. -/
def Placement.follows (place : Nat × Placement) (tick : Nat) : Bool :=
  match place.2 with
  | .before => tick < place.1
  | .after => tick ≤ place.1

namespace Session

variable {task : Task} {s mid next last : Session} {q : Qubit} {tick : Nat} {qubits : List Qubit}
  {store : Store}

/-! What is written. -/

/-- Where the noise of a round stands on a data qubit. -/
def noisePlace (s : Session) (q : Qubit) : Nat × Placement :=
  match s.firstUse.get? q with
  | some first => (first, .before)
  | none =>
    let last := (s.lastUse.get? q).getD 0
    if s.layerStart ≤ last then (last, .after) else (s.layerStart, .before)

/-- What the noise of a round writes for a qubit. -/
def noiseWrites (task : Task) (s : Session) (q : Qubit) : List Write :=
  (task.compiler.noise.ofRound (s.firstUse.get? q).isSome (s.store.index q).2).map
    (.noise (s.noisePlace q).1 (s.noisePlace q).2)

lemma indexAll_known (known : q ∈ store.qubits) : (store.indexAll [q]).1 = store :=
  Store.indexAll_of_mem fun p mem => by rwa [mem_singleton.mp mem]

lemma getElem?_index (known : q ∈ store.qubits) : store.qubits[(store.index q).2]? = some q := by
  have found := (store.index_numbering q).2
  have numbered : (store.index q).1 = store := indexAll_known known
  rwa [numbered] at found

lemma disturb_numbered {after : Store} {d : Option Disturbance} {placement : Placement}
    (known : q ∈ store.qubits) (run : disturb store d tick placement [q] = .ok after) :
    after = ((Disturbance.operations d (store.index q).2).map (.noise tick placement)).foldl
      Store.put store := by
  rw [Store.disturb_eq] at run
  unfold Disturbance.operations
  cases found : d.filter Disturbance.isActive with
  | none =>
    rw [found] at run
    cases run
    rfl
  | some d =>
    simp only [found] at run
    split_ifs at run
    · cases run
    · rw [← Except.ok.inj run, indexAll_known known]
      rfl

lemma qubits_foldl_put (log : List Write) (store : Store) :
    (log.foldl Store.put store).qubits = store.qubits := by
  induction log generalizing store with
  | nil => rfl
  | cons w rest ih => exact ih _

lemma roundNoise_eq (live : ∀ t, s.occupancy.isLive t q = true) (known : q ∈ s.store.qubits)
    (run : s.roundNoise task q = .ok next) :
    next = s.setStore ((noiseWrites task s q).foldl Store.put s.store) := by
  unfold roundNoise at run
  unfold noiseWrites noisePlace NoiseModel.ofRound
  cases first : s.firstUse.get? q with
  | some t =>
    simp only [first] at run
    obtain ⟨store, disturbs, rfl⟩ := of_bind_pure run
    rw [disturb_numbered known disturbs]
    rfl
  | none =>
    simp only [first, live, if_true] at run
    obtain ⟨idle, idles, run⟩ := of_bind run
    obtain ⟨store, disturbs, rfl⟩ := of_bind_pure run
    have idled := disturb_numbered known idles
    have same : idle.qubits = s.store.qubits := by rw [idled, qubits_foldl_put]
    rw [disturb_numbered (same ▸ known) disturbs, (Store.index_congr same q).1, idled,
      ← foldl_append,
      ← map_append]
    rfl

lemma roundNoises_eq (live : ∀ q ∈ qubits, ∀ t, s.occupancy.isLive t q = true)
    (known : ∀ q ∈ qubits, q ∈ s.store.qubits)
    (run : qubits.foldlM (roundNoise task) s = .ok next) :
    next.store = (qubits.flatMap (noiseWrites task s)).foldl Store.put s.store := by
  induction qubits generalizing s with
  | nil =>
    cases run
    rfl
  | cons q rest ih =>
    obtain ⟨mid, first, run⟩ := of_bind run
    rw [roundNoise_eq (live q (.head _)) (known q (mem_cons_self ..)) first] at run
    have same := qubits_foldl_put (noiseWrites task s q) s.store
    have others := ih (s := s.setStore ((noiseWrites task s q).foldl Store.put s.store))
      (fun p mem => live p (.tail _ mem))
      (fun p mem => same.symm ▸ known p (.tail _ mem)) run
    have writes : ∀ p ∈ rest, noiseWrites task
        (s.setStore ((noiseWrites task s q).foldl Store.put s.store)) p = noiseWrites task s p := by
      intro p _
      have number := (Store.index_congr same p).1
      exact congrArg (fun n => (task.compiler.noise.ofRound (s.firstUse.get? p).isSome n).map
        (Write.noise (s.noisePlace p).1 (s.noisePlace p).2)) number
    rw [others, flatMap_cons, foldl_append, flatMap_congr writes]
    rfl

lemma roundNoises_eq_setStore
    (run : qubits.foldlM (roundNoise task) s = .ok next) : next = s.setStore next.store := by
  apply foldlM_keeps (fun x => x = s.setStore x.store) ?_ run rfl
  intro q _ mid last same run
  rw [roundNoise_eq_setStore run, same]
  rfl

lemma compileRound_noise (held : s.Settled (task.code.isData · = true))
    (run : s.compileRound task = .ok next) :
    ∃ gated, s.gateRound task = .ok gated ∧ next.store =
      (task.code.dataQubits.flatMap (noiseWrites task next)).foldl Store.put gated.store := by
  rw [compileRound_split] at run
  obtain ⟨third, run, last⟩ := of_bind run
  obtain ⟨gated, gates, disturbs⟩ := of_bind run
  obtain ⟨⟨ended, _⟩, ends, rfl⟩ := of_bind_pure last
  obtain ⟨begun, begins, steps⟩ := (stepwise_settled task).gateRound gates
  have settled := steps (held.startRound begins)
  have data : ∀ q ∈ task.code.dataQubits, task.code.isData q = true :=
    fun q => (task.code.mem_dataQubits q).mp
  have live := fun q mem => settled.live (data q mem)
  have store := roundNoises_eq live (fun q mem => settled.living (live q mem 0)) disturbs
  obtain ⟨trackers, rfl⟩ := Progress.endRound_eq_ok ends
  have numbered : third.store.qubits = gated.store.qubits := by
    rw [store, qubits_foldl_put]
  refine ⟨gated, gates, ?_⟩
  change third.store = _
  rw [store]
  refine congrArg (foldl Store.put gated.store) (flatMap_congr fun q _ => ?_)
  have number := (Store.index_congr numbered q).1
  rw [roundNoises_eq_setStore disturbs]
  exact congrArg (fun n => (task.compiler.noise.ofRound (gated.firstUse.get? q).isSome n).map
    (Write.noise (gated.noisePlace q).1 (gated.noisePlace q).2)) number.symm

/-! First uses. -/

lemma firstUse_touchAll {code : Code} (data : code.isData q = true) (tick : Nat)
    (qubits : List Qubit) (s : Session) :
    (qubits.foldl (touch code tick) s).firstUse.get? q =
      if q ∈ qubits then some (((s.firstUse.get? q).map (min · tick)).getD tick)
      else s.firstUse.get? q := by
  induction qubits generalizing s with
  | nil => rfl
  | cons p rest ih =>
    rw [foldl_cons, ih, firstUse_touch]
    by_cases same : q = p
    · subst same
      by_cases later : q ∈ rest
      · cases s.firstUse.get? q <;> simp [later, data]
      · simp [later, data]
    · simp [same]

lemma firstUse_apply {gate : Gate} {place : Place}
    (data : task.code.isData q = true) (run : s.apply task tick gate qubits place = .ok next) :
    next.firstUse.get? q =
      if q ∈ qubits then some (((s.firstUse.get? q).map (min · tick)).getD tick)
      else s.firstUse.get? q := by
  obtain ⟨⟨store, u⟩, _, run⟩ := of_bind run
  obtain ⟨noisy, _, rfl⟩ := of_bind_pure run
  exact firstUse_touchAll data ..

lemma firstUse_measureDirect {c : Check} {key : Key} {round : Nat}
    (run : s.measureDirect task c tick round key = .ok next) : next.firstUse = s.firstUse := by
  unfold measureDirect at run
  split at run
  · obtain ⟨gate, _, run⟩ := of_bind run
    obtain ⟨made, _, rfl⟩ := of_bind_pure run
    rfl
  · obtain ⟨made, _, rfl⟩ := of_bind_pure run
    rfl

/-- The first uses of a round are those of its gates so far, and no other qubit is used. -/
structure Starts (task : Task) (base s : Session) : Prop where
  moves : ∃ moves, base.LaysMoves moves s ∧ ∀ q, task.code.isData q = true →
    (∀ m ∈ moves, q ∈ m.qubits → ∃ first, s.firstUse.get? q = some first ∧ first ≤ m.tick) ∧
    ∀ first, s.firstUse.get? q = some first → ∃ m ∈ moves, q ∈ m.qubits ∧ m.tick = first
  untouched : ∀ q, task.code.isData q = true → s.firstUse.get? q = none →
    s.horizon q = base.horizon q

variable {base : Session} {m : Move}

lemma Starts.silent (h : Starts task base s) (does : s.DoesMoves [] next)
    (same : next.firstUse = s.firstUse) : Starts task base next := by
  obtain ⟨moves, lays, known⟩ := h.moves
  refine ⟨⟨moves, by simpa using lays.trans does.lays, same ▸ known⟩, fun q data none => ?_⟩
  rw [same] at none
  rw [← h.untouched q data none]
  exact (does.attained q).resolve_right (by simp)

/-- A gate that is noted with its qubits keeps first uses as they should be. -/
lemma Starts.gate (h : Starts task base s) (does : s.DoesMoves [m] next)
    (noted : ∀ q, task.code.isData q = true → next.firstUse.get? q =
      if q ∈ m.qubits then some (((s.firstUse.get? q).map (min · m.tick)).getD m.tick)
      else s.firstUse.get? q) : Starts task base next := by
  obtain ⟨moves, lays, known⟩ := h.moves
  refine ⟨⟨moves ++ [m], lays.trans does.lays, fun q data => ?_⟩, fun q data none => ?_⟩
  · obtain ⟨earlier, attained⟩ := known q data
    rw [noted q data]
    simp only [mem_append, mem_singleton, or_imp, forall_and, forall_eq, or_and_right,
      exists_or, exists_eq_left]
    by_cases acted : q ∈ m.qubits
    · rw [if_pos acted]
      refine ⟨⟨fun n old acts => ?_, fun _ => ⟨_, rfl, ?_⟩⟩, fun first same => ?_⟩
      · obtain ⟨first, found, le⟩ := earlier n old acts
        exact ⟨min first m.tick, by rw [found]; rfl, (min_le_left ..).trans le⟩
      · cases s.firstUse.get? q with
        | none => exact le_rfl
        | some t => exact min_le_right ..
      · cases before : s.firstUse.get? q with
        | none =>
          rw [before] at same
          exact .inr ⟨acted, Option.some.inj same⟩
        | some t =>
          rw [before] at same
          obtain ⟨n, old, acts, here⟩ := attained t before
          obtain rfl : min t m.tick = first := Option.some.inj same
          rcases le_total t m.tick with le | le
          · exact .inl ⟨n, old, acts, here.trans (min_eq_left le).symm⟩
          · exact .inr ⟨acted, (min_eq_right le).symm⟩
    · rw [if_neg acted]
      exact ⟨⟨earlier, fun acts => absurd acts acted⟩, fun first found =>
        .inl (attained first found)⟩
  · rw [noted q data] at none
    split_ifs at none with acted
    rw [← h.untouched q data none]
    exact (does.attained q).resolve_right (by simp [acted])

lemma stepwise_starts (task : Task) (base : Session) : Stepwise task (Starts task base) where
  apply := fun _ _ run h => h.gate (apply_quiet run).does fun _ data => firstUse_apply data run
  reset := fun run h => by
    refine h.gate ((reset_places ..).result run).does fun q data => ?_
    obtain ⟨mid, applied, rfl⟩ := of_bind_pure run
    have noted := firstUse_apply data applied
    exact noted
  ancilla := fun known run h => by
    obtain ⟨gate, _, does, _⟩ := measureAncilla_does run
    refine h.gate does fun q data => ?_
    have bare := task.code.isData_ancilla known.scheduled known.ancilla
    obtain ⟨_, _, run⟩ := of_bind run
    obtain ⟨_, _, told⟩ := of_bind run
    rw [notify_eq told]
    refine (firstUse_touch ..).trans ?_
    rw [if_neg (by simp [bare]), if_neg]
    · rfl
    · intro same
      rw [mem_singleton.mp same, bare] at data
      cases data
  direct := fun run h => by
    obtain ⟨m, directly, _, here, does, _⟩ := scheduleDirect_does run
    refine h.gate does fun q data => ?_
    obtain ⟨mid, measures, told⟩ := of_bind run
    rw [notify_eq told, directly.1, here, ← firstUse_measureDirect measures]
    exact firstUse_touchAll data ..
  noise := fun run h =>
    h.silent ((roundNoise_meets ..).of_ok run).does (by rw [roundNoise_eq_setStore run]; rfl)

lemma starts_startRound {begun : Progress} {u : Unit}
    (begins : (s.progress.beginRound task.code s.rounds).commit = .ok (begun, u)) :
    Starts task s (startRound task.code { s with progress := begun }) where
  moves := by
    refine ⟨[], startRound_lays begins, fun q _ => ⟨forall_mem_nil _, ?_⟩⟩
    intro first found
    cases found
  untouched := fun _ _ _ => rfl

lemma compileRound_starts (run : s.compileRound task = .ok next) : Starts task s next := by
  obtain ⟨begun, third, ended, begins, steps, ends, rfl⟩ :=
    (stepwise_starts task s).compileRound run
  have placed := steps (starts_startRound begins)
  obtain ⟨moves, lays, known⟩ := placed.moves
  obtain ⟨trackers, rfl⟩ := Progress.endRound_eq_ok ends
  exact ⟨⟨moves, ⟨lays.writes, lays.free⟩, known⟩, placed.untouched⟩

/-- Where the noise of a round stands on a data qubit: after the gates of earlier rounds, and before
those of this round and of all that is placed above its floors. -/
theorem RaisesFloors.noisePlace (h : s.RaisesFloors task next) (starts : Starts task s next)
    (held : next.Settled (task.code.isData · = true)) (begun : next.layerStart = s.layerStart)
    (data : task.code.isData q = true) :
    ((next.firstUse.get? q).isSome = true ↔ ∃ t, ∃ g ∈ s.store.addedIn next.store t, q ∈ g.2) ∧
    (∀ t < s.floor task.code q, Placement.follows (next.noisePlace q) t = true) ∧
    (∀ t, ∀ g ∈ s.store.addedIn next.store t, q ∈ g.2 →
      Placement.follows (next.noisePlace q) t = false) ∧
    ∀ t, s.layerStart ≤ t → next.floor task.code q ≤ t →
      Placement.follows (next.noisePlace q) t = false := by
  obtain ⟨moves, lays, known⟩ := starts.moves
  obtain ⟨early, attained⟩ := known q data
  have first_le : ∀ t, ∀ g ∈ s.store.addedIn next.store t, q ∈ g.2 →
      ∃ first, next.firstUse.get? q = some first ∧ first ≤ t := by
    intro t g added acted
    obtain ⟨m, mem, rfl, rfl⟩ := lays.mem_addedIn.mp added
    exact early m mem acted
  unfold Session.noisePlace
  cases found : next.firstUse.get? q with
  | some first =>
    obtain ⟨m, mem, acted, rfl⟩ := attained first found
    have added : m.application ∈ s.store.addedIn next.store m.tick := by
      rw [lays.addedIn_eq]
      exact mem_map_of_mem (mem_filter.mpr ⟨mem, by simp⟩)
    have low := h.above added acted
    have high := h.below added acted
    simp only [Placement.follows, decide_eq_true_eq, decide_eq_false_iff_not]
    refine ⟨⟨fun _ => ⟨_, _, added, acted⟩, fun _ => rfl⟩, ?_, fun t g placed acts => ?_, ?_⟩
    · omega
    · obtain ⟨first, same, le⟩ := first_le t g placed acts
      rw [found] at same
      cases same
      omega
    · omega
  | none =>
    have unused : ∀ t, ∀ g ∈ s.store.addedIn next.store t, q ∉ g.2 := by
      intro t g added acted
      obtain ⟨first, same, _⟩ := first_le t g added acted
      rw [found] at same
      cases same
    obtain ⟨last, used⟩ := held.used data
    have still := starts.untouched q data found
    have here : next.horizon q = last + 1 := by simp [horizon, used]
    simp only [used, Option.getD_some, begun, floor, data, if_true, here, ← still]
    refine ⟨⟨fun none => absurd none (by simp), ?_⟩, fun t lower => ?_,
      fun t g added acted => absurd acted (unused t g added), fun t late above => ?_⟩
    · rintro ⟨t, g, added, acted⟩
      exact absurd acted (unused t g added)
    · split_ifs <;> simp only [Placement.follows, decide_eq_true_eq] <;> omega
    · split_ifs <;> simp only [Placement.follows, decide_eq_false_iff_not] <;> omega

/-! Layers begin one after the other. -/

variable {moves : List Move} {stages : List (Session × Session)}

lemma LaysMoves.size_le (h : s.LaysMoves moves next) : s.store.size ≤ next.store.size := by
  obtain ⟨log, writes, _⟩ := h.writes
  exact writes.size_le

lemma Stages.size_le (extractable : task.Extractable) (h : Stages task s stages last) :
    s.store.size ≤ last.store.size := by
  obtain ⟨moves, lays, _⟩ := h.lays extractable
  exact lays.size_le

lemma Stages.ordered (extractable : task.Extractable) (h : Stages task s stages last) :
    stages.Pairwise fun a b => a.1.store.size ≤ b.1.store.size ∧ a.1.rounds < b.1.rounds := by
  induction h with
  | done => exact .nil
  | round run later ih =>
    refine pairwise_cons.mpr ⟨fun b mem => ?_, ih⟩
    obtain ⟨before, after, rfl⟩ := append_of_mem mem
    have between := later.split.1
    have first := (Stages.round run (.done _)).size_le extractable
    refine ⟨first.trans (between.size_le extractable), ?_⟩
    rw [between.rounds.2, rounds_compileRound run]
    exact (Nat.lt_succ_self _).trans_le (Nat.le_add_right ..)
  | between _ _ ih => exact ih

/-- Layers start one after the other, and within what is written. -/
lemma Stages.layerStart_le {layers : List (List (Session × Session))} {period : Nat}
    (extractable : task.Extractable) (h : Stages task s layers.flatten last)
    (first : s.Settled (task.code.isData · = true))
    (each : ∀ layer ∈ layers, LayerOf period layer) :
    layers.flatten.Pairwise (fun a b => a.1.layerStart ≤ b.1.layerStart) ∧
      ∀ stage ∈ layers.flatten, stage.1.layerStart ≤ last.store.size := by
  have enclosed : ∀ stage ∈ layers.flatten, stage.1.barrier = stage.1.store.size :=
    fun stage mem => (h.each (P := Settled (task.code.isData · = true))
      (fun run h => h.compileRound run) (fun pause h => h.between pause)
      first stage mem).1.barrier_eq
  obtain ⟨_, apart⟩ := pairwise_flatten.mp (h.ordered extractable)
  -- All rounds of a layer know the size of the store before its first round.
  have starts : ∀ layer ∈ layers, ∀ stage ∈ layer, ∃ head ∈ layer, ∀ stage ∈ layer,
      stage.1.layerStart = if head.1.rounds = 0 then 0 else head.1.store.size := by
    intro layer known stage mem
    cases layer with
    | nil => cases mem
    | cons head rest =>
      refine ⟨head, .head _, fun stage mem => ?_⟩
      rw [(each _ known).start head rfl stage mem,
        enclosed head (mem_flatten.mpr ⟨_, known, mem_cons_self⟩)]
  refine ⟨pairwise_flatten.mpr ⟨fun layer known => ?_, ?_⟩, fun stage mem => ?_⟩
  · refine pairwise_of_forall_mem_list fun a here b there => ?_
    obtain ⟨head, _, start⟩ := starts layer known a here
    rw [start a here, start b there]
  · refine apart.imp_of_mem fun {one two} known known' apart a here b there => ?_
    obtain ⟨head, inside, start⟩ := starts one known a here
    obtain ⟨head', inside', start'⟩ := starts two known' b there
    have later := apart head inside head' inside'
    rw [start a here, start' b there]
    split_ifs <;> omega
  · obtain ⟨layer, known, here⟩ := mem_flatten.mp mem
    obtain ⟨head, inside, start⟩ := starts layer known stage here
    obtain ⟨before, after, whole⟩ := append_of_mem (mem_flatten.mpr ⟨_, known, inside⟩)
    rw [whole] at h
    have later := (Stages.round h.split.2.1 h.split.2.2).size_le extractable
    rw [start stage here]
    split_ifs <;> omega

end Session

open Session in
/-- In every round every data qubit suffers the noise of a round once: the noise at the start of a
round, and that of idling if no gate of the round acts on it; all else that is placed is the same
whatever that noise is. It stands after every gate on the qubit that prepares it or belongs to an
earlier round, and before every gate on it of this round, of later rounds and of the final
measurements. -/
theorem Compiler.round_noise_between {c : Compiler} {code : Code} {request : Request}
    {result : Compilation} (run : c.compile code request = .ok result) :
    ∃ (prepared layered ended : Session) (stages : List (Session × Session)),
      (⟨c, code, request⟩ : Task).Runs result prepared layered ended ∧
      Stages ⟨c, code, request⟩ prepared stages layered ∧
      stages.map (·.1.rounds) = List.range result.report.rounds ∧ code.dataQubits.Nodup ∧
      (∀ start idling sound, ∃ other : Task,
        other = (⟨c, code, request⟩ : Task).withRoundNoise start idling sound ∧
        other.session.initialise other = .ok prepared ∧
        layered.measureFinals other = .ok (ended, result.report.finalDetectors)) ∧
      ∀ before stage after, stages = before ++ stage :: after →
        ∃ (gated : Session) (touched : Qubit → Bool) (place : Qubit → Nat × Placement)
          (number : Qubit → Nat),
          stage.1.gateRound ⟨c, code, request⟩ = .ok gated ∧
          (∀ start idling sound, stage.1.gateRound
            ((⟨c, code, request⟩ : Task).withRoundNoise start idling sound) = .ok gated) ∧
          stage.2.store = (code.dataQubits.flatMap fun q =>
            (c.noise.ofRound (touched q) (number q)).map
              (Write.noise (place q).1 (place q).2)).foldl Store.put gated.store ∧
          ∀ q ∈ code.dataQubits, stage.2.store.qubits[number q]? = some q ∧
            (touched q = true ↔ ∃ t, ∃ g ∈ stage.1.store.addedIn stage.2.store t, q ∈ g.2) ∧
            (∀ phase ∈ (({} : Store), prepared.store) :: before.map fun b => (b.1.store, b.2.store),
              ∀ t, ∀ g ∈ phase.1.addedIn phase.2 t, q ∈ g.2 →
                Placement.follows (place q) t = true) ∧
            ∀ phase ∈ ((stage :: after).map fun b => (b.1.store, b.2.store)) ++
                [(layered.store, ended.store)],
              ∀ t, ∀ g ∈ phase.1.addedIn phase.2 t, q ∈ g.2 →
                Placement.follows (place q) t = false := by
  obtain ⟨prepared, layered, ended, runs⟩ := compile_eq_ok run
  have extractable := runs.extractable
  obtain ⟨layers, placed, each⟩ := placed_layers runs.placed
  have settled := settled_initialise runs.prepares
  obtain ⟨starts, ends⟩ := placed.layerStart_le extractable settled each
  obtain ⟨finals, ending, late⟩ := measureFinals_does runs.measures
  refine ⟨prepared, layered, ended, layers.flatten, runs, placed, runs.listed placed,
    code.data.keys_nodup, fun start idling sound => ⟨_, rfl, runs.prepares, runs.measures⟩,
    fun before stage after whole => ?_⟩
  rw [whole] at placed starts ends
  obtain ⟨earlier, compiles, later⟩ := placed.split
  have held : stage.1.Settled (code.isData · = true) :=
    earlier.keeps (fun run h => h.compileRound run) (fun pause h => h.between pause) settled
  have held' := held.compileRound compiles
  obtain ⟨gated, gates, store⟩ := compileRound_noise held compiles
  refine ⟨gated, fun q => (stage.2.firstUse.get? q).isSome, stage.2.noisePlace,
    fun q => (stage.2.store.index q).2, gates, fun _ _ _ => gates, store, fun q member => ?_⟩
  have data := (code.mem_dataQubits q).mp member
  obtain ⟨touched, past, present, future⟩ := (compileRound_raises extractable compiles).noisePlace
    (compileRound_starts compiles) held' (layerStart_compileRound compiles) data
  refine ⟨getElem?_index (held'.living (held'.live data 0)), touched, ?_, ?_⟩
  · intro phase listed t g added acted
    apply past
    rcases List.mem_cons.mp listed with rfl | listed
    · exact Nat.lt_of_lt_of_le ((initialise_does runs.prepares).initial_lt_floor added acted)
        (earlier.floor_mono extractable q)
    · obtain ⟨b, known, rfl⟩ := List.mem_map.mp listed
      exact earlier.lt_floor extractable b known added acted
  · intro phase listed t g added acted
    rcases List.mem_append.mp listed with placed | final
    · obtain ⟨b, known, rfl⟩ := List.mem_map.mp placed
      rcases List.mem_cons.mp known with rfl | known
      · exact present t g added acted
      · have begun := (List.pairwise_cons.mp (List.pairwise_append.mp starts).2.1).1 b known
        have late := (later.raises extractable b known).late added
        exact future t (Nat.le_trans begun late) (later.floor_le extractable b known added acted)
    · rw [List.mem_singleton.mp final] at added
      obtain ⟨m, listed, rfl, _⟩ := ending.lays.mem_addedIn.mp added
      have inside : layered.store.size ≤ m.tick := by
        rw [late m listed]
        exact Nat.le_max_right ..
      refine future m.tick (Nat.le_trans (ends stage (by simp)) inside) ?_
      refine Nat.le_trans (Nat.le_trans ?_ (later.size_le extractable)) inside
      obtain ⟨last, used⟩ := held'.used data
      have below := held'.inside used
      simp only [floor, data, if_true, horizon, used]
      exact below

/-- A compiler that disturbs data qubits once a round, and again while they idle. -/
def PairCode.disturbing : Compiler :=
  ⟨{ NoiseModel.phenomenological .one with idling := some ⟨.channel .depolarize1, .one, none⟩ },
    {}, {}, by decide⟩

/-- Five layers of which three are placed. -/
theorem PairCode.round_noise_between_five :
    (disturbing.noise.ofRound true 0).length = 1 ∧ (disturbing.noise.ofRound false 0).length = 2 ∧
      ∃ result, disturbing.compile code { layers := 5 } = .ok result ∧
        ∃ stages : List (Session × Session), stages.map (·.1.rounds) = [0, 1, 2] ∧
          ∀ stage ∈ stages, ∃ (gated : Session) (touched : Qubit → Bool)
            (place : Qubit → Nat × Placement) (number : Qubit → Nat),
            (∀ start idling sound, stage.1.gateRound
              ((⟨disturbing, code, { layers := 5 }⟩ : Task).withRoundNoise start idling sound) =
                .ok gated) ∧
            stage.2.store = (code.dataQubits.flatMap fun q =>
              (disturbing.noise.ofRound (touched q) (number q)).map
                (Write.noise (place q).1 (place q).2)).foldl Store.put gated.store ∧
            ∀ q ∈ code.dataQubits, ∀ t, ∀ g ∈ stage.1.store.addedIn stage.2.store t,
              q ∈ g.2 → Placement.follows (place q) t = false := by
  have report : (disturbing.compile code { layers := 5 }).toOption.map (·.report.rounds) =
      some 3 := by
    decide +kernel
  obtain ⟨result, compiled, rounds⟩ := Outcome.exists_ok_of_map report
  obtain ⟨prepared, layered, ended, stages, _, _, counted, _, _, each⟩ :=
    Compiler.round_noise_between compiled
  rw [rounds] at counted
  refine ⟨by decide, by decide, result, compiled, stages, counted, fun stage member => ?_⟩
  obtain ⟨before, after, whole⟩ := List.append_of_mem member
  obtain ⟨gated, touched, place, number, _, quiet, store, noise⟩ := each before stage after whole
  exact ⟨gated, touched, place, number, quiet, store, fun q known =>
    (noise q known).2.2.2 (stage.1.store, stage.2.store)
      (List.mem_append_left _ List.mem_cons_self)⟩

end SyndromeSchedule
