import SyndromeSchedule.Compile.Session
import SyndromeSchedule.Proofs.Code
import SyndromeSchedule.Proofs.Occupancy
import SyndromeSchedule.Proofs.Resolver

/-!
What the steps of a session place. Every gate that is written into the store is noted in the table
of occupied qubits, so a qubit that is free according to the table takes part in no gate, and gates
placed where it is free never collide.
-/

namespace SyndromeSchedule

open List Outcome

lemma Occupancy.earliestFree_eq_self {o : Occupancy} {start : Nat} {q : Qubit}
    (free : o.isFree start q = true) : o.earliestFree start [q] = start := by
  have reached := o.le_earliestFree start [q]
  by_contra moved
  have taken := o.not_allFree_of_lt_earliestFree start start [q] (le_refl start) (by omega)
  simp [allFree, free] at taken

lemma NoiseModel.noiseless_sound : noiseless.fault? = none := rfl

def GateTarget.letters : GateTarget → List Pauli
  | .qubits _ => []
  | .product factors => factors.map (·.1)

/-- A gate by the places of its qubits. -/
structure Move where
  tick : Nat
  gate : Gate
  qubits : List Qubit
  letters : List Pauli := []
  key : Option Key := none

namespace Move

/-- A move that acts on a qubit in a tick. -/
def takes (t : Nat) (q : Qubit) (m : Move) : Bool := m.tick = t && q ∈ m.qubits

/-- A move that files no outcome. -/
def Plain (m : Move) : Prop := m.key = none ∧ m.gate.isMeasurement = false

/-- First tick after some gates on a qubit, and not before a given one. -/
def after (q : Qubit) (n : Nat) (moves : List Move) : Nat :=
  ((moves.filter (q ∈ ·.qubits)).map (·.tick + 1)).foldl max n

lemma after_append (q : Qubit) (n : Nat) (moves later : List Move) :
    after q n (moves ++ later) = after q (after q n moves) later := by
  rw [after, filter_append, map_append, foldl_append]
  rfl

lemma after_singleton (q : Qubit) (n : Nat) (m : Move) :
    after q n [m] = if q ∈ m.qubits then max n (m.tick + 1) else n := by
  unfold after
  split_ifs with acted <;> simp [acted]

end Move

def Use.move (u : Use) : Move := ⟨u.tick, u.gate, u.qubits, u.target.letters, u.key⟩

def Store.moves (log : List Write) : List Move := (Store.uses log).map Use.move

@[simp] lemma Store.moves_append (log later : List Write) :
    Store.moves (log ++ later) = Store.moves log ++ Store.moves later := by
  simp [moves]

/-- Outcomes are those of targets that can be measured. -/
def Store.Targeted (log : List Write) : Prop :=
  ∀ u ∈ Store.uses log, u.key.isSome = true → ∃ target, Store.measured u.target = .ok target

namespace Session

variable {s next last : Session} {log : List Write} {later moves : List Move}
  {numbering qubits : List Qubit} {tick ready round : Nat} {gate : Gate} {store : Store}
  {task : Task} {m : Move} {e : Extracted} {key : Key} {c : Check} {post : Session → Prop}
  {flip : Option Double}

/-- First tick after all that was done to a qubit. -/
def horizon (s : Session) (q : Qubit) : Nat := ((s.lastUse.get? q).map (· + 1)).getD 0

/-- What is noted of qubits lies within the store. -/
structure Enclosed (s : Session) : Prop where
  size : s.occupancy.size ≤ s.store.size
  horizon : ∀ q, s.horizon q ≤ s.store.size
  floor : ∀ q, (s.ancillaFloor.get? q).getD 0 ≤ s.store.size
  living : ∀ {q : Qubit} {t : Nat}, s.occupancy.isLive t q = true → q ∈ s.store.qubits

lemma Enclosed.barrier_eq (h : s.Enclosed) : s.barrier = s.store.size := max_eq_right h.size

lemma Enclosed.inside (h : s.Enclosed) {q : Qubit} {t : Nat} (found : s.lastUse.get? q = some t) :
    t < s.store.size := by
  have bound := h.horizon q
  rwa [Session.horizon, found] at bound

/-- A log leads from one session to another, with every gate noted as the last use of its qubits.
Only measurements change the floor of a qubit. -/
structure Effect (s : Session) (log : List Write) (next : Session) : Prop where
  writes : Store.Writes s.store log next.store
  targeted : Store.Targeted log
  free : ∀ t q, next.occupancy.isFree t q =
    (s.occupancy.isFree t q && !(Store.moves log).any (·.takes t q))
  enclosed : s.Enclosed → next.Enclosed
  horizon : ∀ q, next.horizon q = Move.after q (s.horizon q) (Store.moves log)
  ancillaFloor : ∀ q, (∀ m ∈ Store.moves log, q ∈ m.qubits → m.key = none) →
    next.ancillaFloor.get? q = s.ancillaFloor.get? q
  dataFloor : next.dataFloor = s.dataFloor
  layerStart : next.layerStart = s.layerStart
  rounds : next.rounds = s.rounds

lemma Effect.refl (s : Session) : s.Effect [] s where
  writes := .refl
  targeted := by simp [Store.Targeted, Store.uses]
  free := by simp [Store.moves, Store.uses]
  enclosed := id
  horizon := fun _ => rfl
  ancillaFloor := fun _ _ => rfl
  dataFloor := rfl
  layerStart := rfl
  rounds := rfl

lemma Effect.trans {later : List Write} (h : s.Effect log next) (h' : next.Effect later last) :
    s.Effect (log ++ later) last where
  writes := h.writes.trans h'.writes
  targeted := by
    intro u mem
    rw [Store.uses_append] at mem
    rcases mem_append.mp mem with old | new
    · exact h.targeted u old
    · exact h'.targeted u new
  free := by
    intro t q
    rw [h'.free, h.free, Store.moves_append, any_append, Bool.not_or, Bool.and_assoc]
  enclosed := fun bound => h'.enclosed (h.enclosed bound)
  horizon := by
    intro q
    rw [h'.horizon, h.horizon, Store.moves_append, Move.after_append]
  ancillaFloor := by
    intro q plain
    rw [Store.moves_append] at plain
    rw [h'.ancillaFloor q fun m new => plain m (mem_append_right _ new),
      h.ancillaFloor q fun m old => plain m (mem_append_left _ old)]
  dataFloor := h'.dataFloor.trans h.dataFloor
  layerStart := h'.layerStart.trans h.layerStart
  rounds := h'.rounds.trans h.rounds

/-- Gates are placed, and perhaps outcomes filed and annotations written. -/
def DoesMoves (s : Session) (moves : List Move) (next : Session) : Prop :=
  ∃ log, s.Effect log next ∧ Store.moves log = moves

lemma DoesMoves.refl (s : Session) : s.DoesMoves [] s := ⟨[], .refl s, rfl⟩

lemma DoesMoves.trans (h : s.DoesMoves moves next) (h' : next.DoesMoves later last) :
    s.DoesMoves (moves ++ later) last := by
  obtain ⟨log, effect, rfl⟩ := h
  obtain ⟨more, effect', rfl⟩ := h'
  exact ⟨log ++ more, effect.trans effect', Store.moves_append ..⟩

section

variable (h : s.DoesMoves moves next)
include h

lemma DoesMoves.free (t : Nat) (q : Qubit) :
    next.occupancy.isFree t q = (s.occupancy.isFree t q && !moves.any (·.takes t q)) := by
  obtain ⟨log, effect, rfl⟩ := h
  exact effect.free t q

lemma DoesMoves.enclosed (bound : s.Enclosed) : next.Enclosed := by
  obtain ⟨log, effect, _⟩ := h
  exact effect.enclosed bound

lemma DoesMoves.tick_lt (mem : m ∈ moves) : m.tick < next.store.size := by
  obtain ⟨log, effect, rfl⟩ := h
  obtain ⟨u, used, rfl⟩ := mem_map.mp mem
  exact effect.writes.tick_lt _ (Store.mem_uses.mp used)

lemma DoesMoves.known (mem : m ∈ moves) {q : Qubit} (acted : q ∈ m.qubits) :
    q ∈ next.store.qubits := by
  obtain ⟨log, effect, rfl⟩ := h
  obtain ⟨u, used, rfl⟩ := mem_map.mp mem
  obtain ⟨n, _, named⟩ := exists_left_of_forall₂ (effect.writes.named _ (Store.mem_uses.mp used))
    acted
  exact mem_of_getElem? named

lemma DoesMoves.horizon (q : Qubit) : next.horizon q = Move.after q (s.horizon q) moves := by
  obtain ⟨log, effect, rfl⟩ := h
  exact effect.horizon q

lemma DoesMoves.grows (q : Qubit) : s.horizon q ≤ next.horizon q := by
  rw [h.horizon]
  exact (foldl_max_spec ..).1

lemma DoesMoves.noted (mem : m ∈ moves) {q : Qubit} (acted : q ∈ m.qubits) :
    m.tick < next.horizon q := by
  rw [h.horizon]
  apply (foldl_max_spec ..).2.1
  exact mem_map_of_mem (mem_filter.mpr ⟨mem, decide_eq_true acted⟩)

lemma DoesMoves.attained (q : Qubit) : next.horizon q = s.horizon q ∨
    ∃ m ∈ moves, q ∈ m.qubits ∧ next.horizon q = m.tick + 1 := by
  rw [h.horizon]
  refine (foldl_max_spec ..).2.2.imp id fun listed => ?_
  obtain ⟨m, inside, same⟩ := mem_map.mp listed
  obtain ⟨mem, acted⟩ := mem_filter.mp inside
  exact ⟨m, mem, of_decide_eq_true acted, same.symm⟩

lemma DoesMoves.ancillaFloor {q : Qubit} (plain : ∀ m ∈ moves, q ∈ m.qubits → m.key = none) :
    next.ancillaFloor.get? q = s.ancillaFloor.get? q := by
  obtain ⟨log, effect, rfl⟩ := h
  exact effect.ancillaFloor q plain

lemma DoesMoves.dataFloor : next.dataFloor = s.dataFloor := by
  obtain ⟨log, effect, _⟩ := h
  exact effect.dataFloor

lemma DoesMoves.layerStart : next.layerStart = s.layerStart := by
  obtain ⟨log, effect, _⟩ := h
  exact effect.layerStart

end

/-- Gates are placed and nothing is annotated. -/
structure Quiet (s : Session) (moves : List Move) (next : Session) : Prop where
  effect : ∃ log, s.Effect log next ∧ Store.moves log = moves ∧ Store.notes log = []
  resolver : next.progress.resolver = s.progress.resolver
  direct : next.direct = s.direct

lemma Quiet.refl (s : Session) : s.Quiet [] s := ⟨⟨[], .refl s, rfl, rfl⟩, rfl, rfl⟩

lemma Quiet.trans (h : s.Quiet moves next) (h' : next.Quiet later last) :
    s.Quiet (moves ++ later) last := by
  obtain ⟨log, effect, rfl, quiet⟩ := h.effect
  obtain ⟨more, effect', rfl, quiet'⟩ := h'.effect
  refine ⟨⟨log ++ more, effect.trans effect', Store.moves_append .., ?_⟩,
    h'.resolver.trans h.resolver, h'.direct.trans h.direct⟩
  simp [quiet, quiet']

lemma Quiet.does (h : s.Quiet moves next) : s.DoesMoves moves next := by
  obtain ⟨log, effect, rfl, _⟩ := h.effect
  exact ⟨log, effect, rfl⟩

/-- Every qubit that takes part in a gate is noted. -/
def Covered (s : Session) : Prop :=
  ∀ t n, n ∈ (s.store.tickAt t).busy →
    ∃ q, s.store.qubits[n]? = some q ∧ s.occupancy.isFree t q = false

lemma getElem?_of_prefix {longer : List Qubit} (longer_of : numbering <+: longer) {n : Nat}
    {q : Qubit} (found : numbering[n]? = some q) : longer[n]? = some q := by
  have single : Store.Names numbering [n] [q] := .cons found .nil
  cases single.mono longer_of with
  | cons found _ => exact found

lemma Covered.effect (covered : s.Covered) (h : s.Effect log next) : next.Covered := by
  intro t n taken
  rcases h.writes.busy taken with old | ⟨u, mem, here, inside⟩
  · obtain ⟨q, named, occupied⟩ := covered t n old
    refine ⟨q, getElem?_of_prefix h.writes.numbering named, ?_⟩
    rw [h.free, occupied]
    rfl
  · obtain ⟨q, acted, named⟩ := exists_right_of_forall₂ (h.writes.named _ mem) inside
    refine ⟨q, named, ?_⟩
    have listed : u.move ∈ Store.moves log := mem_map.mpr ⟨u, Store.mem_uses.mpr mem, rfl⟩
    have takes : u.move.takes t q = true := by simp [Move.takes, Use.move, here, acted]
    have any : (Store.moves log).any (·.takes t q) = true := any_eq_true.mpr ⟨_, listed, takes⟩
    rw [h.free, any]
    simp

lemma Covered.isOpen (covered : s.Covered) {target : GateTarget}
    (longer_of : s.store.qubits <+: numbering) (names : Store.Names numbering target.indices qubits)
    (free : ∀ q ∈ qubits, s.occupancy.isFree tick q = true) : s.store.IsOpen tick target := by
  intro n mem taken
  obtain ⟨q, acted, named⟩ := exists_right_of_forall₂ names mem
  obtain ⟨q', named', occupied⟩ := covered tick n taken
  have same := getElem?_of_prefix longer_of named'
  rw [named] at same
  obtain rfl := Option.some.inj same
  rw [free q acted] at occupied
  contradiction

/-! Single steps. -/

lemma touch_eq (code : Code) (tick : Nat) (s : Session) (q : Qubit) : s.touch code tick q =
      { s with
        lastUse := (s.touch code tick q).lastUse
        firstUse := (s.touch code tick q).firstUse } := by
  simp only [touch]
  split_ifs <;> rfl

lemma lastUse_touch (code : Code) (tick : Nat) (s : Session) (q p : Qubit) :
    (s.touch code tick q).lastUse.get? p =
      if p = q then some (((s.lastUse.get? q).map (max · tick)).getD tick)
      else s.lastUse.get? p := by
  simp only [touch]
  split_ifs with data here here
  all_goals simp only [Table.get?_insert, here, if_true, if_false]
  all_goals cases s.lastUse.get? q <;> rfl

lemma touchAll_eq (code : Code) (tick : Nat) (qubits : List Qubit) (s : Session) :
    qubits.foldl (touch code tick) s = { s with
        lastUse := (qubits.foldl (touch code tick) s).lastUse
        firstUse := (qubits.foldl (touch code tick) s).firstUse } := by
  induction qubits generalizing s with
  | nil => rfl
  | cons q rest ih =>
    rw [foldl_cons, ih, touch_eq]

lemma horizon_touchAll (code : Code) (tick : Nat) (qubits : List Qubit) (s : Session) (p : Qubit) :
    (qubits.foldl (touch code tick) s).horizon p =
      if p ∈ qubits then max (s.horizon p) (tick + 1) else s.horizon p := by
  have one : ∀ (s : Session) (q : Qubit), (s.touch code tick q).horizon p =
      if p = q then max (s.horizon q) (tick + 1) else s.horizon p := by
    intro s q
    simp only [horizon, lastUse_touch]
    split_ifs
    · cases s.lastUse.get? q with
      | none => simp
      | some t => simp [Nat.add_max_add_right]
    · rfl
  induction qubits generalizing s with
  | nil => rfl
  | cons q rest ih =>
    rw [foldl_cons, ih, one]
    by_cases here : p = q
    · simp [here]
    · simp [here]

lemma effect_progress {p : Progress} (writes : Store.Writes s.store log p.store)
    (uses : Store.uses log = []) : s.Effect log { s with progress := p } := by
  have none : Store.moves log = [] := by rw [Store.moves, uses]; rfl
  have grown : s.Enclosed → ({ s with progress := p } : Session).Enclosed := fun bound =>
    ⟨bound.size.trans writes.size_le, fun q => (bound.horizon q).trans writes.size_le,
      fun q => (bound.floor q).trans writes.size_le,
      fun alive => writes.numbering.subset (bound.living alive)⟩
  refine ⟨writes, by simp [Store.Targeted, uses], by simp [none], grown, fun q => ?_,
    fun _ _ => rfl, rfl, rfl, rfl⟩
  rw [none]
  rfl

lemma effect_notes {p : Progress} {items : List (Nat × Note)}
    (made : p.store = s.store.withNotes items) :
    s.Effect (Store.noteLog items) { s with progress := p } :=
  effect_progress (made ▸ Store.writes_withNotes ..) (Store.uses_noteLog items)

lemma does_notes {p : Progress} {items : List (Nat × Note)}
    (made : p.store = s.store.withNotes items) : s.DoesMoves [] { s with progress := p } :=
  ⟨_, effect_notes made, by simp [Store.moves]⟩

/-- The effect of one gate, which is noted with its qubits. -/
lemma effect_use (code : Code) (direct : Table DirectOutcome) {u : Use} {p : Progress}
    (writes : Store.Writes s.store log p.store) (uses : Store.uses log = [u])
    (target : u.key.isSome = true → ∃ target, Store.measured u.target = .ok target) :
    s.Effect log (u.qubits.foldl (touch code u.tick)
      (({ s with progress := p, direct } : Session).occupy u.tick u.qubits)) := by
  have moves : Store.moves log = [u.move] := by rw [Store.moves, uses]; rfl
  have noted := horizon_touchAll code u.tick u.qubits
    (({ s with progress := p, direct } : Session).occupy u.tick u.qubits)
  rw [touchAll_eq] at noted ⊢
  refine ⟨writes, ?_, ?_, ?_, ?_, fun _ _ => rfl, rfl, rfl, rfl⟩
  · intro v mem
    rw [uses, mem_singleton] at mem
    exact mem ▸ target
  · intro t q
    rw [moves]
    simp [occupy, Occupancy.isFree_occupyAll, Use.move, Move.takes, eq_comm]
  · intro bound
    have inside := writes.tick_lt _ (Store.mem_uses.mp (uses ▸ mem_singleton_self u))
    have grown := writes.size_le
    refine ⟨?_, fun q => ?_, fun q => (bound.floor q).trans grown, fun {q t} alive => ?_⟩
    · change (u.qubits.foldl (fun o q => o.occupy u.tick q) s.occupancy).size ≤ p.store.size
      rw [Occupancy.size_occupyAll]
      split_ifs
      · exact bound.size.trans grown
      · exact Nat.max_le.mpr ⟨bound.size.trans grown, inside⟩
    · rw [noted]
      split_ifs
      · exact Nat.max_le.mpr ⟨(bound.horizon q).trans grown, inside⟩
      · exact (bound.horizon q).trans grown
    · exact writes.numbering.subset
        (bound.living ((Occupancy.isLive_occupyAll ..).symm.trans alive))
  · intro q
    rw [moves, Move.after_singleton]
    exact noted q

lemma disturb_meets (store : Store) (d : Option Disturbance) (tick : Nat)
    (placement : Placement) (qubits : List Qubit) :
    (disturb store d tick placement qubits).Bounded fun next =>
      ∃ log, Store.Writes store log next ∧ Store.uses log = [] ∧ Store.notes log = [] := by
  simp only [disturb]
  split
  · exact meets_ok ⟨[], .refl, rfl, rfl⟩
  · next d _ =>
      refine (store.addNoise_meets tick placement _ _ qubits).imp ?_
      rintro next rfl
      exact ⟨_, (store.writes_number qubits).put _ trivial, rfl, rfl⟩

lemma apply_quiet {place : Place} (h : s.apply task tick gate qubits place = .ok next) :
    s.Quiet [⟨tick, gate, qubits, [], none⟩] next := by
  obtain ⟨⟨store, u⟩, added, h⟩ := of_bind h
  obtain ⟨noisy, disturbed, rfl⟩ := of_bind_pure h
  obtain rfl := Store.addGate_eq_ok added
  obtain ⟨log, writes, uses, notes⟩ := (disturb_meets _ _ _ _ _).of_ok disturbed
  have all := (s.store.writes_gate tick gate qubits).trans writes
  have only : Store.uses ([.gate (s.store.gateUse tick gate qubits)] ++ log) =
      [s.store.gateUse tick gate qubits] := by
    rw [Store.uses_append, uses]
    rfl
  refine ⟨⟨_, effect_use task.code _ (p := { s.progress with store := noisy }) all only ?_, ?_, ?_⟩,
    ?_, ?_⟩
  · intro has
    cases has
  · rw [Store.moves, only]
    rfl
  · rw [Store.notes_append, notes]
    rfl
  all_goals
    rw [touchAll_eq]
    rfl

lemma apply_meets {place : Place} (covered : s.Covered)
    (free : ∀ q ∈ qubits, s.occupancy.isFree tick q = true) :
    (s.apply task tick gate qubits place).Bounded (s.Quiet [⟨tick, gate, qubits, [], none⟩]) := by
  obtain ⟨numbering, names⟩ := Store.indexAll_numbering qubits s.store
  have free_target : s.store.IsOpen tick (s.store.gateUse tick gate qubits).target :=
    covered.isOpen numbering names free
  have safe : (s.apply task tick gate qubits place).Bounded fun _ => True := by
    refine (Store.addGate_meets free_target).commit.bind fun _ _ => ?_
    refine (disturb_meets _ _ _ _ _).bind fun _ _ => ?_
    exact meets_ok trivial
  exact safe.strengthen fun _ result _ => apply_quiet result

/-! Gates whose ticks are known beforehand. -/

/-- Gates whose qubits are free, also of each other. -/
structure Fits (s : Session) (moves : List Move) : Prop where
  free : ∀ m ∈ moves, ∀ q ∈ m.qubits, s.occupancy.isFree m.tick q = true
  apart : moves.Pairwise fun a b => ∀ q ∈ a.qubits, q ∈ b.qubits → a.tick ≠ b.tick

lemma Fits.left (h : s.Fits (moves ++ later)) : s.Fits moves :=
  ⟨fun m mem => h.free m (mem_append_left _ mem), (pairwise_append.mp h.apart).1⟩

lemma Fits.right (h : s.Fits (moves ++ later)) (does : s.DoesMoves moves next) :
    next.Fits later := by
  obtain ⟨_, apart, between⟩ := pairwise_append.mp h.apart
  refine ⟨fun m mem q acted => ?_, apart⟩
  have free := h.free m (mem_append_right _ mem) q acted
  have untouched : moves.any (·.takes m.tick q) = false := by
    rw [any_eq_false]
    intro a earlier takes
    simp only [Move.takes, Bool.and_eq_true, decide_eq_true_eq] at takes
    exact between a earlier m mem q takes.2 acted takes.1
  rw [does.free, free, untouched]
  rfl

/-- A step that places given gates, and does so if they fit. -/
structure Places (s : Session) (moves : List Move) (x : Outcome Session) : Prop where
  result : ∀ {next}, x = .ok next → s.Quiet moves next
  safe : s.Covered → s.Fits moves → x.Bounded fun _ => True

lemma Places.ok (s : Session) : s.Places [] (.ok s) where
  result := by
    rintro next h
    cases h
    exact .refl s
  safe := fun _ _ => meets_ok trivial

lemma Covered.quiet (covered : s.Covered) (h : s.Quiet moves next) : next.Covered := by
  obtain ⟨log, effect, _⟩ := h.effect
  exact covered.effect effect

lemma Places.bind {x : Outcome Session} {f : Session → Outcome Session} (hx : s.Places moves x)
    (hf : ∀ next, s.Quiet moves next → next.Places later (f next)) :
    s.Places (moves ++ later) (x >>= f) where
  result := by
    intro last h
    obtain ⟨next, first, second⟩ := of_bind h
    have quiet := hx.result first
    exact quiet.trans ((hf next quiet).result second)
  safe := by
    intro covered fits
    have safe := (hx.safe covered fits.left).strengthen fun next result _ => hx.result result
    refine safe.bind fun next quiet => ?_
    exact (hf next quiet).safe (covered.quiet quiet) (fits.right quiet.does)

lemma Places.foldlM {α : Type} {f : Session → α → Outcome Session} {place : α → List Move}
    {items : List α} (step : ∀ (s : Session), ∀ a ∈ items, s.Places (place a) (f s a))
    (s : Session) :
    s.Places (items.flatMap place) (items.foldlM f s) := by
  induction items generalizing s with
  | nil => exact .ok s
  | cons a rest ih =>
    rw [foldlM_cons, flatMap_cons]
    refine (step s a (.head _)).bind fun next _ => ?_
    exact ih (fun s b mem => step s b (.tail _ mem)) next

lemma apply_places (task : Task) (s : Session) (tick : Nat) (gate : Gate) (qubits : List Qubit)
    (place : Place) :
    s.Places [⟨tick, gate, qubits, [], none⟩] (s.apply task tick gate qubits place) where
  result := apply_quiet
  safe := fun covered fits =>
    (apply_meets covered (fits.free _ (mem_singleton_self _))).imp fun _ _ => trivial


lemma Effect.setLive (h : s.Effect log next) (inside : tick < next.store.size) {q : Qubit}
    (known : q ∈ next.store.qubits) (live : Bool) : s.Effect log (next.setLive tick q live) where
  __ := h
  free := by
    intro t p
    rw [← h.free]
    exact Occupancy.isFree_setLive ..
  enclosed := by
    intro bound
    have old := h.enclosed bound
    refine ⟨?_, old.horizon, old.floor, fun {p t} alive => ?_⟩
    · change (next.occupancy.setLive tick q live).size ≤ next.store.size
      rw [Occupancy.size_setLive]
      exact Nat.max_le.mpr ⟨old.size, inside⟩
    · have cases := (Occupancy.isLive_setLive ..).symm.trans alive
      split_ifs at cases with here
      · exact here.2 ▸ known
      · exact old.living cases

lemma reset_places (task : Task) (s : Session) (tick : Nat) (q : Qubit) :
    s.Places [⟨tick, .R, [q], [], none⟩] (s.reset task tick q) where
  result := by
    intro next h
    obtain ⟨mid, applied, rfl⟩ := of_bind_pure h
    have quiet := apply_quiet applied
    have inside := quiet.does.tick_lt (mem_singleton_self _)
    obtain ⟨log, effect, moves, notes⟩ := quiet.effect
    have known := quiet.does.known (mem_singleton_self _) (mem_singleton_self q)
    exact ⟨⟨log, effect.setLive inside known true, moves, notes⟩, quiet.resolver, quiet.direct⟩
  safe := by
    intro covered fits
    refine ((apply_places task s tick .R [q] .initialisation).safe covered fits).bind fun _ _ => ?_
    exact meets_ok trivial

/-- The gate of an optional rotation. -/
def rotationMoves (tick : Nat) (gate : Option Gate) (q : Qubit) : List Move :=
  gate.toList.map fun g => ⟨tick, g, [q], [], none⟩

lemma singleIf_places (task : Task) (s : Session) (tick : Nat) (gate : Option Gate) (q : Qubit) :
    s.Places (rotationMoves tick gate q) (s.singleIf task tick gate q) := by
  cases gate with
  | none => exact .ok s
  | some g => exact apply_places task s tick g [q] .oneQubitGate

/-- The gates of an interaction. -/
def meetingMoves (ancilla : Qubit) (tick : Nat) (i : Interaction) : List Move :=
  rotationMoves (tick - 1) i.before i.data ++
    ⟨tick, i.gate, if i.ancillaControls then [ancilla, i.data] else [i.data, ancilla], [], none⟩ ::
      rotationMoves (tick + 1) i.after i.data

lemma rotateBefore_places (task : Task) (s : Session) {i : Interaction}
    (pos : i.before.isSome = true → 0 < tick) :
    s.Places (rotationMoves (tick - 1) i.before i.data) (s.rotateBefore task tick i) := by
  simp only [rotateBefore]
  cases before : i.before with
  | none => exact .ok s
  | some gate =>
    obtain ⟨t, rfl⟩ : ∃ t, tick = t + 1 := ⟨tick - 1, by
      have := pos (by simp [before])
      omega⟩
    exact apply_places task s t gate [i.data] .oneQubitGate

lemma interact_places (task : Task) (s : Session) (ancilla : Qubit) {i : Interaction}
    (pos : i.before.isSome = true → 0 < tick) :
    s.Places (meetingMoves ancilla tick i) (s.interact task ancilla tick i) := by
  refine (rotateBefore_places task s pos).bind fun next _ => ?_
  cases controls : i.ancillaControls with
  | true =>
    exact (apply_places task next tick i.gate [ancilla, i.data] .twoQubitGate).bind fun last _ =>
      singleIf_places task last (tick + 1) i.after i.data
  | false =>
    exact (apply_places task next tick i.gate [i.data, ancilla] .twoQubitGate).bind fun last _ =>
      singleIf_places task last (tick + 1) i.after i.data

/-- Resets of all data qubits and the rotations to their states. -/
def initialMoves (task : Task) : List Move :=
  task.code.dataQubits.flatMap (fun q => [⟨0, .R, [q], [], none⟩]) ++
    task.code.dataQubits.flatMap fun q =>
      rotationMoves 1 (preparation (task.request.initialState q)) q

lemma initialise_places (task : Task) (s : Session) :
    s.Places (initialMoves task) (s.initialise task) := by
  refine (Places.foldlM (fun s q _ => reset_places task s 0 q) s).bind fun next _ => ?_
  exact Places.foldlM (fun s q _ => singleIf_places task s 1 _ q) next

/-! Noise, ancillas and measurements. -/

lemma quiet_store (writes : Store.Writes s.store log store) (uses : Store.uses log = [])
    (notes : Store.notes log = []) : s.Quiet [] (s.setStore store) := by
  refine ⟨⟨log, effect_progress writes uses, ?_, notes⟩, rfl, rfl⟩
  simp [Store.moves, uses]

lemma roundNoise_meets (task : Task) (s : Session) (q : Qubit) :
    (s.roundNoise task q).Bounded (s.Quiet []) := by
  simp only [roundNoise]
  split
  · refine (disturb_meets _ _ _ _ _).bind ?_
    rintro store ⟨log, writes, uses, notes⟩
    exact meets_ok (quiet_store writes uses notes)
  · split
    · refine (disturb_meets _ _ _ _ _).bind ?_
      rintro first ⟨log, writes, uses, notes⟩
      refine (disturb_meets _ _ _ _ _).bind ?_
      rintro second ⟨more, writes', uses', notes'⟩
      exact meets_ok (quiet_store (writes.trans writes') (by simp [uses, uses'])
        (by simp [notes, notes']))
    · exact meets_ok (.refl s)

lemma roundNoise_eq_setStore (run : s.roundNoise task q = .ok next) :
    next = s.setStore next.store := by
  unfold roundNoise at run
  split at run
  · obtain ⟨store, _, rfl⟩ := of_bind_pure run
    rfl
  · simp only at run
    split_ifs at run
    iterate 2
      obtain ⟨idle, _, run⟩ := of_bind run
      obtain ⟨store, _, rfl⟩ := of_bind_pure run
      rfl
    · obtain rfl := pure_eq_ok.mp run
      rfl

/-! Ancillas are reset and prepared. -/

lemma plain_preparation {state : State} (h : preparation state = some gate) :
    gate.isMeasurement = false := by
  cases state <;> cases h <;> rfl

/-- An ancilla is reset and then prepared. -/
def openingMoves (e : Extracted) (times : Nat × Nat) : List Move :=
  ⟨times.1, .R, [e.ancilla], [], none⟩ ::
    rotationMoves times.2 (preparation e.plan.ancillaState) e.ancilla

variable {times : Nat × Nat} {es : List Extracted} {q : Qubit}

lemma mem_openingMoves (mem : m ∈ openingMoves e times) :
    m.qubits = [e.ancilla] ∧ m.Plain ∧ (m.tick = times.1 ∨ m.tick = times.2) := by
  rcases mem_cons.mp mem with rfl | mem
  · exact ⟨rfl, ⟨rfl, rfl⟩, .inl rfl⟩
  · obtain ⟨g, found, rfl⟩ := mem_map.mp mem
    exact ⟨rfl, ⟨rfl, plain_preparation (Option.mem_toList.mp found)⟩, .inr rfl⟩

/-- When an ancilla may be reset: its layer has begun and its last measurement is made. -/
def resetTick (s : Session) (e : Extracted) : Nat :=
  max s.layerStart ((s.ancillaFloor.get? e.ancilla).getD 0)

lemma resetTick_eq (does : s.DoesMoves moves next)
    (plain : ∀ m ∈ moves, e.ancilla ∈ m.qubits → m.key = none) :
    next.resetTick e = s.resetTick e := by
  rw [resetTick, does.layerStart, does.ancillaFloor plain, resetTick]

/-- When an ancilla is reset and prepared: not before its floor, and in time for the grid. -/
structure Opens (e : Extracted) (floor ready : Nat) (times : Nat × Nat) : Prop where
  floor : floor ≤ times.1
  ordered : times.1 < times.2
  ready : ∀ m ∈ openingMoves e times, m.tick < ready

lemma Opens.mono {floor later : Nat} (h : Opens e floor ready times) (le : ready ≤ later) :
    Opens e floor later times :=
  ⟨h.floor, h.ordered, fun m mem => (h.ready m mem).trans_le le⟩

/-- No gate acts on a qubit from a tick on. -/
def FreeFrom (s : Session) (n : Nat) (q : Qubit) : Prop :=
  ∀ t, n ≤ t → s.occupancy.isFree t q = true

lemma DoesMoves.freeFrom {n : Nat} (h : s.DoesMoves moves next) (free : s.FreeFrom n q)
    (untouched : ∀ m ∈ moves, n ≤ m.tick → q ∉ m.qubits) : next.FreeFrom n q := by
  intro t late
  have none : moves.any (·.takes t q) = false := by
    rw [any_eq_false]
    intro m mem takes
    simp only [Move.takes, Bool.and_eq_true, decide_eq_true_eq] at takes
    exact untouched m mem (takes.1 ▸ late) takes.2
  rw [h.free, none, free t late]
  rfl

/-- The reset and the preparation of an ancilla. -/
def openingsOf (s : Session) (extracted : List Extracted) : List (Extracted × Nat × Nat) :=
  extracted.map fun e => (e, s.resetTick e, s.resetTick e + 1)

/-- First tick after the reset and the preparation of an ancilla. -/
def readyTick (s : Session) (e : Extracted) : Nat :=
  s.resetTick e + if (preparation e.plan.ancillaState).isSome then 2 else 1

/-- An ancilla is reset and rotated, in ticks where it is free. -/
lemma prepareAncilla_opens (run : s.prepareAncilla task e = .ok (next, ready)) :
    ∃ times, s.Quiet (openingMoves e times) next ∧ Opens e (s.resetTick e) ready times ∧
      (s.FreeFrom (s.resetTick e) e.ancilla →
        times = (s.resetTick e, s.resetTick e + 1) ∧ ready = s.readyTick e) := by
  simp only [prepareAncilla] at run
  obtain ⟨mid, first, run⟩ := of_bind run
  have resets := (reset_places ..).result first
  have floor : s.resetTick e ≤ s.occupancy.earliestFree
      (max s.layerStart ((s.ancillaFloor.get? e.ancilla).getD 0)) [e.ancilla] :=
    s.occupancy.le_earliestFree _ _
  have at_once : s.FreeFrom (s.resetTick e) e.ancilla → s.occupancy.earliestFree
      (max s.layerStart ((s.ancillaFloor.get? e.ancilla).getD 0)) [e.ancilla] = s.resetTick e :=
    fun free => Occupancy.earliestFree_eq_self (free _ le_rfl)
  generalize s.occupancy.earliestFree
    (max s.layerStart ((s.ancillaFloor.get? e.ancilla).getD 0)) [e.ancilla] = t at *
  split at run
  · next none =>
      cases run
      refine ⟨(t, t + 1), ?_, ⟨floor, Nat.lt_succ_self t, ?_⟩, fun free => ?_⟩
      · simpa [openingMoves, none, rotationMoves] using resets
      · simp [openingMoves, none, rotationMoves]
      · simp [at_once free, readyTick, none]
  · next gate found =>
      obtain ⟨after, second, run⟩ := of_bind run
      cases run
      have later := mid.occupancy.le_earliestFree (t + 1) [e.ancilla]
      have next_tick : s.FreeFrom (s.resetTick e) e.ancilla →
          mid.occupancy.earliestFree (t + 1) [e.ancilla] = t + 1 := by
        intro free
        have still : mid.FreeFrom (t + 1) e.ancilla := by
          refine resets.does.freeFrom (fun u late => free u (by omega)) fun m mem late _ => ?_
          rw [mem_singleton.mp mem] at late
          exact Nat.not_succ_le_self t late
        exact Occupancy.earliestFree_eq_self (still _ le_rfl)
      generalize mid.occupancy.earliestFree (t + 1) [e.ancilla] = t' at *
      refine ⟨(t, t'), ?_, ⟨floor, later, ?_⟩, fun free => ?_⟩
      · have both := resets.trans (apply_quiet second)
        simpa [openingMoves, found, rotationMoves] using both
      · simp only [openingMoves, found, rotationMoves, Option.toList_some, map_cons,
          map_nil, mem_cons, not_mem_nil, or_false, forall_eq_or_imp, forall_eq]
        omega
      · simp [next_tick free, at_once free, readyTick, found]

/-- All ancillas are reset and prepared, and at once if no gate is in the way. -/
theorem prepareAll_opens {before : Nat} (run : es.foldlM (fun (state : Session × Nat) e => do
      let (s, ready) ← state.1.prepareAncilla task e
      return (s, max state.2 ready)) (s, before) = .ok (next, ready)) :
    before ≤ ready ∧ ∃ openings : List (Extracted × Nat × Nat), openings.map (·.1) = es ∧
      s.Quiet (openings.flatMap fun o => openingMoves o.1 o.2) next ∧
      (∀ o ∈ openings, Opens o.1 (s.resetTick o.1) ready o.2) ∧
      ((es.Pairwise fun e f => e.ancilla ≠ f.ancilla) →
        (∀ e ∈ es, s.FreeFrom (s.resetTick e) e.ancilla) →
        openings = s.openingsOf es ∧
          ready = es.foldl (fun n e => max n (s.readyTick e)) before) := by
  induction es generalizing s before with
  | nil =>
    cases run
    exact ⟨le_rfl, [], rfl, .refl _, forall_mem_nil _, fun _ _ => ⟨rfl, rfl⟩⟩
  | cons e rest ih =>
    obtain ⟨⟨mid, after⟩, first, others⟩ := foldlM_cons_eq_ok.mp run
    obtain ⟨⟨mid', ready'⟩, prepared, same⟩ := of_bind first
    cases same
    obtain ⟨times, quiet, opens, exactly⟩ := prepareAncilla_opens prepared
    obtain ⟨le, openings, listed, more, each, all_exactly⟩ := ih others
    have floors : ∀ f, mid.resetTick f = s.resetTick f :=
      fun f => resetTick_eq quiet.does fun m mem _ => (mem_openingMoves mem).2.1.1
    have le' : ready' ≤ ready := le_trans (le_max_right ..) le
    refine ⟨le_trans (le_max_left ..) le, (e, times) :: openings, ?_, ?_, ?_, ?_⟩
    · rw [map_cons, listed]
    · exact quiet.trans more
    · intro o mem
      rcases mem_cons.mp mem with rfl | mem
      · exact opens.mono le'
      · rw [← floors]
        exact each o mem
    · intro apart free
      obtain ⟨different, apart⟩ := pairwise_cons.mp apart
      obtain ⟨rfl, rfl⟩ := exactly (free e (.head _))
      have others_free : ∀ f ∈ rest, mid.FreeFrom (mid.resetTick f) f.ancilla := by
        intro f inside
        rw [floors]
        refine quiet.does.freeFrom (free f (.tail _ inside)) fun m mem _ acted => ?_
        rw [(mem_openingMoves mem).1] at acted
        exact different f inside (mem_singleton.mp acted).symm
      obtain ⟨rfl, rfl⟩ := all_exactly apart others_free
      simp only [openingsOf, readyTick, floors]
      exact ⟨rfl, rfl⟩

lemma mem_openings {openings : List (Extracted × Nat × Nat)} (opened : openings.map (·.1) = es)
    (opens : ∀ o ∈ openings, Opens o.1 (s.resetTick o.1) ready o.2)
    (mem : m ∈ openings.flatMap fun o => openingMoves o.1 o.2) :
    ∃ e ∈ es, m.qubits = [e.ancilla] ∧ m.Plain ∧ s.layerStart ≤ m.tick ∧ m.tick < ready := by
  obtain ⟨o, known, inside⟩ := mem_flatMap.mp mem
  have listed : o.1 ∈ es := opened ▸ mem_map_of_mem known
  obtain ⟨qubits, plain, here⟩ := mem_openingMoves inside
  have ordered := (opens o known).ordered
  have reached : s.layerStart ≤ o.2.1 := le_trans (le_max_left ..) (opens o known).floor
  exact ⟨o.1, listed, qubits, plain, by omega, (opens o known).ready m inside⟩

lemma layerStart_lt_of_opens {openings : List (Extracted × Nat × Nat)}
    (opened : openings.map (·.1) = es) (some_check : es ≠ [])
    (opens : ∀ o ∈ openings, Opens o.1 (s.resetTick o.1) ready o.2) : s.layerStart < ready := by
  obtain ⟨e, mem⟩ := exists_mem_of_ne_nil _ some_check
  rw [← opened] at mem
  obtain ⟨o, known, _⟩ := mem_map.mp mem
  obtain ⟨_, _, _, _, low, high⟩ :=
    mem_openings opened opens (mem_flatMap.mpr ⟨o, known, .head _⟩)
  exact low.trans_lt high

lemma fits_singleton (free : ∀ q ∈ m.qubits, s.occupancy.isFree m.tick q = true) : s.Fits [m] :=
  ⟨by simpa using free, pairwise_singleton _ _⟩

lemma prepareAncilla_meets (covered : s.Covered) (e : Extracted) :
    (s.prepareAncilla task e).Bounded (·.1.Covered) := by
  have places := reset_places task s (s.occupancy.earliestFree
    (max s.layerStart ((s.ancillaFloor.get? e.ancilla).getD 0)) [e.ancilla]) e.ancilla
  refine (places.safe covered (fits_singleton fun q mem =>
    s.occupancy.isFree_earliestFree _ _ mem)).bind_of_ok fun mid result _ => ?_
  have covered' := covered.quiet (places.result result)
  split
  · exact meets_ok covered'
  · next gate _ =>
      refine ((apply_places task mid _ gate [e.ancilla] .oneQubitGate).safe covered'
        (fits_singleton fun q mem => mid.occupancy.isFree_earliestFree _ _ mem)).bind_of_ok
        fun last result _ => ?_
      exact meets_ok (covered'.quiet (apply_quiet result))

lemma prepareAncillas_meets (covered : s.Covered) (es : List Extracted) :
    (s.prepareAncillas task es).Bounded fun r =>
      ∃ openings : List (Extracted × Nat × Nat), openings.map (·.1) = es ∧
        s.Quiet (openings.flatMap fun o => openingMoves o.1 o.2) r.1 ∧
        ∀ o ∈ openings, Opens o.1 (s.resetTick o.1) r.2 o.2 := by
  have safe : (s.prepareAncillas task es).Bounded fun _ => True := by
    refine (Outcome.Meets.foldlM (fun _ state => state.1.Covered) ?_ es
      (s, s.layerStart) covered).imp fun _ _ => trivial
    intro e rest state before
    exact (prepareAncilla_meets before e).bind fun _ kept => meets_ok kept
  refine safe.strengthen fun r result _ => ?_
  obtain ⟨_, openings, opened, quiet, opens, _⟩ := prepareAll_opens result
  exact ⟨openings, opened, quiet, opens⟩

/-- One gate that files an outcome, before it is reported. -/
structure Measures (s : Session) (m : Move) (next : Session) : Prop where
  effect : ∃ u, s.Effect [.gate u] next ∧ u.move = m
  resolver : next.progress.resolver = s.progress.resolver

lemma Measures.record (h : s.Measures m next) (files : m.key = some key) :
    next.store.record = s.store.record.push key m.tick := by
  obtain ⟨u, effect, rfl⟩ := h.effect
  have filed : u.key = some key := files
  have entries := effect.writes.record_eq
  simp only [Store.uses, filterMap_cons, filed, Option.map_some, filterMap_nil, reverse_cons,
    reverse_nil, nil_append, singleton_append] at entries
  exact Record.ext_entries entries

lemma measuring_eq_ok {basis : Pauli} (h : Gate.measuring basis = .ok gate) :
    gate.isMeasurement = true := by
  cases basis <;> cases h <;> rfl

lemma exists_measuring {basis : Pauli} (letter : basis ≠ .I) :
    ∃ gate, Gate.measuring basis = .ok gate := by
  cases basis with
  | I => contradiction
  | X | Y | Z => exact ⟨_, rfl⟩

lemma measures_qubit (code : Code) {q : Qubit}
    (made : store = (s.store.index q).1.put (.gate (s.store.measureUse tick gate q flip key))) :
    s.Measures ⟨tick, gate, [q], [], some key⟩
      ((((s.setStore store).occupy tick [q]).setLive tick q false).touch code tick q) := by
  have writes := s.store.writes_measurement tick gate q flip key
  rw [← made] at writes
  have effect := effect_use code s.direct (p := { s.progress with store }) writes rfl
    fun _ => ⟨_, rfl⟩
  have inside : tick < store.size := writes.tick_lt _ (mem_singleton_self _)
  have moved : (((s.setStore store).occupy tick [q]).setLive tick q false).touch code tick q =
      (((s.setStore store).occupy tick [q]).touch code tick q).setLive tick q false := by
    simp only [touch]
    split_ifs <;> rfl
  have kept := touch_eq code tick ((s.setStore store).occupy tick [q]) q
  have known := DoesMoves.known ⟨_, effect, rfl⟩ (mem_singleton_self _) (mem_singleton_self q)
  rw [moved]
  refine ⟨⟨_, effect.setLive ?_ known false, rfl⟩, ?_⟩
  · exact inside.trans_eq (congrArg (·.store.size) kept).symm
  · exact congrArg (·.progress.resolver) kept

/-- The session after the measurement of an ancilla, which is not reported yet. -/
def fileAncilla (task : Task) (s : Session) (e : Extracted) (tick : Nat) (store : Store) :
    Session :=
  let s := ((s.setStore store).occupy tick [e.ancilla]).setLive tick e.ancilla false
  let s := s.touch task.code tick e.ancilla
  { s with ancillaFloor := s.ancillaFloor.insert e.ancilla (tick + 1) }

lemma fileAncilla_measures (task : Task) (e : Extracted)
    (made : store = (s.store.index e.ancilla).1.put
      (.gate (s.store.measureUse tick gate e.ancilla flip key))) :
    s.Measures ⟨tick, gate, [e.ancilla], [], some key⟩ (fileAncilla task s e tick store) := by
  obtain ⟨⟨u, effect, move⟩, resolver⟩ := measures_qubit task.code made
  have moves : Store.moves [.gate u] = [_] := congrArg (fun m => [m]) move
  refine ⟨⟨u, { effect with enclosed := fun bound => ?_, ancillaFloor := fun q plain => ?_ },
    move⟩, resolver⟩
  · have old := effect.enclosed bound
    refine ⟨old.size, old.horizon, fun q => ?_, old.living⟩
    change (Table.get? (Table.insert _ _ _) q).getD 0 ≤ _
    rw [Table.get?_insert]
    split_ifs
    · exact DoesMoves.tick_lt ⟨_, effect, moves⟩ (mem_singleton_self _)
    · exact old.floor q
  · have other : q ≠ e.ancilla := by
      rintro rfl
      cases plain _ (moves ▸ mem_singleton_self _) (mem_singleton_self _)
    exact (Table.get?_insert ..).trans ((if_neg other).trans (effect.ancillaFloor q plain))

lemma direct_fileAncilla (task : Task) (s : Session) (e : Extracted) (tick : Nat)
    (store : Store) : (fileAncilla task s e tick store).direct = s.direct := by
  simp only [fileAncilla]
  rw [touch_eq]
  rfl

/-- Tick in which an ancilla is measured. -/
def measureTick (s : Session) (e : Extracted) (start : Nat) : Nat :=
  s.occupancy.earliestFree start [e.ancilla]

def measureMove (s : Session) (e : Extracted) (start round : Nat) (gate : Gate) : Move :=
  ⟨s.measureTick e start, gate, [e.ancilla], [], some (Key.of e.check (Word.signed round))⟩

lemma measureAncilla_eq_ok {start : Nat} (h : s.measureAncilla task e start round = .ok next) :
    ∃ gate mid, Gate.measuring e.plan.basis = .ok gate ∧
      s.Measures (s.measureMove e start round gate) mid ∧ mid.direct = s.direct ∧
      mid.ancillaFloor.get? e.ancilla = some (s.measureTick e start + 1) ∧
      mid.notify (Key.of e.check (Word.signed round)) = .ok next := by
  simp only [measureAncilla] at h
  obtain ⟨gate, measuring, h⟩ := of_bind h
  obtain ⟨⟨store, handle⟩, added, h⟩ := of_bind h
  obtain ⟨made, rfl⟩ := Store.addMeasurement_eq_ok added
  exact ⟨gate, _, Outcome.ofExcept_eq_ok.mp measuring, fileAncilla_measures task e made,
    direct_fileAncilla task s e _ _, (Table.get?_insert ..).trans (if_pos rfl), h⟩

lemma measureAncilla_meets {start : Nat} (covered : s.Covered)
    (letter : e.plan.basis ≠ .I) (reported : ∀ gate mid, Gate.measuring e.plan.basis = .ok gate →
      s.Measures (s.measureMove e start round gate) mid → mid.direct = s.direct →
      (mid.notify (Key.of e.check (Word.signed round))).Bounded post) :
    (s.measureAncilla task e start round).Bounded post := by
  obtain ⟨gate, found⟩ := exists_measuring letter
  simp only [measureAncilla, found, Outcome.ofExcept]
  have names : Store.Names (s.store.index e.ancilla).1.qubits [(s.store.index e.ancilla).2]
      [e.ancilla] := (Store.indexAll_numbering [e.ancilla] s.store).2
  have open_target : s.store.IsOpen (s.measureTick e start) (s.store.measureUse
      (s.measureTick e start) gate e.ancilla task.compiler.noise.flip?
      (Key.of e.check (Word.signed round))).target :=
    covered.isOpen (s.store.index_numbering e.ancilla).1 names
      fun q mem => s.occupancy.isFree_earliestFree _ _ mem
  refine (Store.addMeasurement_meets open_target).commit.bind ?_
  rintro ⟨store, handle⟩ ⟨made, _⟩
  exact reported gate _ found (fileAncilla_measures task e made) (direct_fileAncilla task s e _ _)

/-! Checks without an ancilla. -/

/-- How a check is measured on its qubits. -/
def Directly (c : Check) (m : Move) : Prop :=
  m.qubits = c.qubits ∧
    match c.members with
    | [x] => Gate.measuring x.operator.letter = .ok m.gate ∧ m.letters = []
    | _ => m.gate = .MPP ∧ m.letters = c.word

/-- Tick in which a check is measured on its qubits. -/
def directTick (s : Session) (c : Check) : Nat :=
  s.occupancy.earliestFree
    ((c.qubits.map fun q => (s.dataFloor.get? q).getD 0).foldl max s.layerStart) c.qubits

lemma layerStart_le_directTick (s : Session) (c : Check) : s.layerStart ≤ s.directTick c :=
  (foldl_max_spec _ _).1.trans (s.occupancy.le_earliestFree _ _)

/-- The session after a direct measurement, which is not reported yet. -/
def fileDirect (task : Task) (tick : Nat) (c : Check) (s : Session) : Session :=
  c.qubits.foldl (touch task.code tick) (s.occupy tick c.qubits)

/-- What a direct measurement adds to those that final ones may reuse: a check of one qubit by
itself. -/
def NotesDirect (s : Session) (c : Check) (tick round : Nat) (next : Session) : Prop :=
  ∀ q d, next.direct.get? q = some d → s.direct.get? q = some d ∨
    (d.handle = s.store.record.size ∧ d.tick = tick ∧ d.round = round ∧
      ∃ m, c.members = [m] ∧ m.qubit = q ∧ m.operator.letter = d.basis)

lemma fileDirect_measures (task : Task) (direct : Table DirectOutcome) {p : Progress} (u : Use)
    (files : u.key = some key) (qubits : u.qubits = c.qubits)
    (writes : Store.Writes s.store [.gate u] p.store)
    (target : ∃ target, Store.measured u.target = .ok target)
    (resolver : p.resolver = s.progress.resolver) :
    s.Measures ⟨u.tick, u.gate, c.qubits, u.target.letters, some key⟩
      (fileDirect task u.tick c { s with progress := p, direct }) := by
  have move : u.move = ⟨u.tick, u.gate, c.qubits, u.target.letters, some key⟩ := by
    simp [Use.move, files, qubits]
  rw [← move, fileDirect, ← qubits]
  refine ⟨⟨u, effect_use task.code direct writes rfl fun _ => target, rfl⟩, ?_⟩
  rw [touchAll_eq]
  exact resolver

lemma direct_fileDirect (task : Task) (tick : Nat) (c : Check) (s : Session) :
    (fileDirect task tick c s).direct = s.direct := by
  simp only [fileDirect]
  rw [touchAll_eq]
  rfl

lemma letters_productUse (s : Store) (tick : Nat) (factors : List (Qubit × Pauli))
    (flip : Option Double) (key : Key) :
    (s.productUse tick factors flip key).target.letters = factors.map (·.2) := by
  have names := (Store.indexAll_numbering (factors.map (·.1)) s).2
  have length : (factors.map (·.2)).length = (s.indexAll (factors.map (·.1))).2.length := by
    rw [names.length_eq]
    simp
  simp only [Store.productUse, GateTarget.letters]
  exact map_fst_zip (by omega)

/-- A check without an ancilla is measured by one gate, which files its outcome. -/
lemma measureDirect_eq_ok (h : s.measureDirect task c tick round key = .ok next) :
    ∃ m, Directly c m ∧ m.tick = tick ∧ m.key = some key ∧
      s.Measures m (fileDirect task tick c next) ∧
      s.NotesDirect c tick round (fileDirect task tick c next) := by
  simp only [measureDirect] at h
  split at h
  · next m single =>
      obtain ⟨gate, measuring, h⟩ := of_bind h
      obtain ⟨⟨store, handle⟩, added, rfl⟩ := of_bind_pure h
      obtain ⟨made, rfl⟩ := Store.addMeasurement_eq_ok added
      have writes := s.store.writes_measurement tick gate m.qubit task.compiler.noise.flip? key
      rw [← made] at writes
      have qubits : c.qubits = [m.qubit] := by simp [Check.qubits, single]
      have directly : Directly c ⟨tick, gate, c.qubits, [], some key⟩ := by
        refine ⟨rfl, ?_⟩
        rw [single]
        exact ⟨Outcome.ofExcept_eq_ok.mp measuring, rfl⟩
      refine ⟨_, directly, rfl, rfl, ?_, ?_⟩
      · exact fileDirect_measures task _ (p := { s.progress with store })
          (s.store.measureUse tick gate m.qubit task.compiler.noise.flip? key) rfl qubits.symm
          writes ⟨_, rfl⟩ rfl
      · intro q d found
        rw [direct_fileDirect] at found
        simp only [Table.get?_insert] at found
        split_ifs at found with here
        · obtain rfl := Option.some.inj found
          exact .inr ⟨rfl, rfl, rfl, m, single, here.symm, rfl⟩
        · exact .inl found
  · next several =>
      obtain ⟨⟨store, handle⟩, added, rfl⟩ := of_bind_pure h
      obtain ⟨made, rfl⟩ := Store.addProduct_eq_ok added
      let factors := c.members.map fun m => (m.qubit, m.operator.letter)
      have qubits : factors.map (·.1) = c.qubits := by simp [factors, Check.qubits]
      have word : factors.map (·.2) = c.word := by simp [factors, Check.word]
      have directly : Directly c ⟨tick, .MPP, c.qubits, c.word, some key⟩ := by
        refine ⟨rfl, ?_⟩
        split
        · next x single => exact absurd single (several x)
        · exact ⟨rfl, rfl⟩
      refine ⟨_, directly, rfl, rfl, ?_, ?_⟩
      · have writes := s.store.writes_product tick factors task.compiler.noise.flip? key
        rw [← made] at writes
        have measures := fileDirect_measures task s.direct (p := { s.progress with store }) _ rfl
          qubits writes ⟨_, rfl⟩ rfl
        rwa [letters_productUse, word] at measures
      · intro q d found
        rw [direct_fileDirect] at found
        exact .inl found

/-- It fails only for want of room if its qubits are free. -/
lemma measureDirect_meets (covered : s.Covered) (c : Check) (round : Nat) (key : Key)
    (free : ∀ q ∈ c.qubits, s.occupancy.isFree tick q = true) :
    (s.measureDirect task c tick round key).Bounded fun next =>
      ∃ m, Directly c m ∧ m.tick = tick ∧ m.key = some key ∧
        s.Measures m (fileDirect task tick c next) ∧
        s.NotesDirect c tick round (fileDirect task tick c next) := by
  have safe : (s.measureDirect task c tick round key).Bounded fun _ => True := by
    simp only [measureDirect]
    split
    · next m single =>
        obtain ⟨gate, found⟩ := exists_measuring (c.letter_ne_I (m := m) (by simp [single]))
        have names : Store.Names (s.store.index m.qubit).1.qubits [(s.store.index m.qubit).2]
            [m.qubit] := (Store.indexAll_numbering [m.qubit] s.store).2
        have qubits : c.qubits = [m.qubit] := by simp [Check.qubits, single]
        rw [qubits] at free
        rw [found]
        refine Outcome.Meets.bind (meets_ok rfl) ?_
        rintro _ rfl
        refine (Store.addMeasurement_meets (covered.isOpen
          (s.store.index_numbering m.qubit).1 names free)).commit.bind fun _ _ => ?_
        exact meets_ok trivial
    · let factors := c.members.map fun m => (m.qubit, m.operator.letter)
      have qubits : factors.map (·.1) = c.qubits := by simp [factors, Check.qubits]
      obtain ⟨numbering, names⟩ := Store.indexAll_numbering (factors.map (·.1)) s.store
      rw [← qubits] at free
      have named : Store.Names (s.store.indexAll (factors.map (·.1))).1.qubits
          (s.store.productUse tick factors task.compiler.noise.flip? key).target.indices
          (factors.map (·.1)) := by
        have length : (s.store.indexAll (factors.map (·.1))).2.length =
            (factors.map (·.2)).length := by
          rw [names.length_eq]
          simp
        simp only [Store.productUse, GateTarget.indices]
        rwa [map_snd_zip (by omega)]
      refine (Store.addProduct_meets (covered.isOpen numbering named free)).commit.bind
        fun _ _ => ?_
      exact meets_ok trivial
  exact safe.strengthen fun _ result _ => measureDirect_eq_ok result

lemma scheduleDirect_meets (covered : s.Covered)
    (reported : ∀ m mid, Directly c m → m.tick = s.directTick c →
      m.key = some (Key.of c (Word.signed round)) → s.Measures m mid →
      s.NotesDirect c m.tick round mid → (mid.notify (Key.of c (Word.signed round))).Bounded post) :
    (scheduleDirect task round s c).Bounded post := by
  have free : ∀ q ∈ c.qubits, s.occupancy.isFree (s.directTick c) q = true :=
    fun q mem => s.occupancy.isFree_earliestFree _ _ mem
  refine (measureDirect_meets covered c round (Key.of c (Word.signed round)) free).bind ?_
  rintro next ⟨m, directly, tick, key, measures, notes⟩
  exact reported m _ directly tick key measures (by rw [tick]; exact notes)

end Session

end SyndromeSchedule
