import SyndromeSchedule.Proofs.TwinFinals

/-!
Gates in two runs that are compared. Where a gate goes depends on which qubits are free and on when
they were last used; both runs agree on this for the ticks that are compared, so they place the same
gates in ticks that correspond.
-/

namespace SyndromeSchedule

open List Outcome

lemma Comparison.Agree.max_of_le {k : Comparison} {t t' start : Nat} (h : k.Agree t t')
    (late : k.base ≤ start) : max (start + k.ticks) t' = max start t + k.ticks := by
  unfold Agree at h
  omega

/-! Free ticks. -/

namespace Occupancy

/-- Tables that agree on the ticks that are compared. -/
structure Twin (k : Comparison) (code : Code) (o o' : Occupancy) : Prop where
  free : ∀ {t : Nat} (q : Qubit), k.base ≤ t → o'.isFree (t + k.ticks) q = o.isFree t q
  live : ∀ {q : Qubit} {t t' : Nat}, code.isData q = true → k.Late t t' →
    o'.isLive t' q = o.isLive t q

variable {k : Comparison} {code : Code} {o o' : Occupancy} {tick : Nat}

lemma Twin.occupyAll (h : o.Twin k code o') (tick : Nat) (qubits : List Qubit) :
    (qubits.foldl (fun o q => o.occupy tick q) o).Twin k code
      (qubits.foldl (fun o q => o.occupy (tick + k.ticks) q) o') where
  free := by
    intro t q late
    rw [isFree_occupyAll, isFree_occupyAll, h.free q late]
    simp only [Nat.add_right_cancel_iff]
  live := by
    intro q t t' data late
    rw [isLive_occupyAll, isLive_occupyAll]
    exact h.live data late

lemma Twin.setLive (h : o.Twin k code o') (late : k.base ≤ tick) (q : Qubit) (live : Bool) :
    (o.setLive tick q live).Twin k code (o'.setLive (tick + k.ticks) q live) where
  free := by
    intro t p later
    rw [isFree_setLive, isFree_setLive]
    exact h.free p later
  live := by
    intro p t t' data both
    rw [isLive_setLive, isLive_setLive, h.live data both]
    have same : tick + k.ticks ≤ t' ↔ tick ≤ t := by
      unfold Comparison.Late at both
      omega
    simp only [same]

lemma Twin.earliestFree (h : o.Twin k code o') {start : Nat} (late : k.base ≤ start)
    (qubits : List Qubit) :
    o'.earliestFree (start + k.ticks) qubits = o.earliestFree start qubits + k.ticks := by
  have same : ∀ t, k.base ≤ t → o'.allFree (t + k.ticks) qubits = o.allFree t qubits := by
    intro t later
    unfold allFree
    congr 1
    funext q
    exact h.free q later
  have found : ∀ (o : Occupancy) (start : Nat),
      o.allFree (o.earliestFree start qubits) qubits = true := fun o start =>
    all_eq_true.mpr fun q mem => isFree_earliestFree o start qubits mem
  have here := le_earliestFree o start qubits
  have there := le_earliestFree o' (start + k.ticks) qubits
  rcases Nat.lt_trichotomy (o'.earliestFree (start + k.ticks) qubits)
    (o.earliestFree start qubits + k.ticks) with early | equal | behind
  · obtain ⟨t, shifted⟩ : ∃ t, o'.earliestFree (start + k.ticks) qubits = t + k.ticks :=
      ⟨o'.earliestFree (start + k.ticks) qubits - k.ticks, by omega⟩
    have taken := not_allFree_of_lt_earliestFree o start t qubits (by omega) (by omega)
    have free := found o' (start + k.ticks)
    rw [shifted, same t (by omega), taken] at free
    contradiction
  · exact equal
  · have taken := not_allFree_of_lt_earliestFree o' (start + k.ticks)
      (o.earliestFree start qubits + k.ticks) qubits (by omega) behind
    rw [same _ (by omega), found] at taken
    contradiction

end Occupancy

namespace Session

section Grid

variable {k : Comparison} {code : Code} {o o' : Occupancy} {start : Nat}

lemma fits_later (h : o.Twin k code o') (ancilla : Qubit) {tick : Nat} (late : k.base < tick)
    (i : Interaction) : fits o' ancilla (tick + k.ticks) i = fits o ancilla tick i := by
  obtain ⟨n, rfl⟩ : ∃ n, tick = n + 1 := ⟨tick - 1, by omega⟩
  have before : freeBefore o' (n + 1 + k.ticks) i = freeBefore o (n + 1) i := by
    unfold freeBefore
    cases i.before with
    | none => rfl
    | some g =>
      have back : Outcome.pred (n + 1 + k.ticks) = .ok (n + k.ticks) := by
        rw [Nat.add_right_comm]
        rfl
      rw [back]
      exact congrArg Except.ok (h.free i.data (by omega))
  unfold fits
  have next : n + 1 + k.ticks + 1 = n + 1 + 1 + k.ticks := by omega
  rw [before, next, h.free _ (by omega), h.free _ (by omega), h.free _ (by omega)]

lemma gridFits_later (h : o.Twin k code o') (es : List Extracted) (stride : Nat)
    (late : k.base < start) :
    gridFits o' es stride (start + k.ticks) = gridFits o es stride start := by
  have each : ∀ (ancilla : Qubit) (step : Nat × Interaction),
      fits o' ancilla (start + k.ticks + step.1 * stride) step.2 =
        fits o ancilla (start + step.1 * stride) step.2 := by
    intro ancilla step
    rw [Nat.add_right_comm]
    exact fits_later h ancilla (by omega) step.2
  unfold gridFits
  simp only [each]

lemma gridFits_ok (o : Occupancy) (es : List Extracted) (stride : Nat)
    (pos : 0 < start) : ∃ b, gridFits o es stride start = .ok b := by
  unfold gridFits
  generalize es.flatMap (fun e => e.interactions.map fun step => (e.ancilla, step)) = uses
  induction uses with
  | nil => exact ⟨true, rfl⟩
  | cons use rest ih =>
    obtain ⟨n, tick⟩ : ∃ n, start + use.2.1 * stride = n + 1 :=
      ⟨start + use.2.1 * stride - 1, by omega⟩
    have here : ∃ b, fits o use.1 (start + use.2.1 * stride) use.2.2 = .ok b := by
      rw [tick]
      unfold fits
      split_ifs
      · unfold freeBefore
        cases use.2.2.before <;> exact ⟨_, rfl⟩
      · exact ⟨false, rfl⟩
    obtain ⟨b, here⟩ := here
    rw [allM, here]
    cases b with
    | true => exact ih
    | false => exact ⟨false, rfl⟩

lemma gridFits_of_size_lt (past : o.size < start) (es : List Extracted) (stride : Nat) :
    gridFits o es stride start = .ok true := by
  refine allM_eq_ok.mpr fun use _ => ?_
  obtain ⟨n, tick⟩ : ∃ n, start + use.2.1 * stride = n + 1 :=
    ⟨start + use.2.1 * stride - 1, by omega⟩
  have free : ∀ t, o.size ≤ t → ∀ q, o.isFree t q = true :=
    fun t later q => Occupancy.isFree_of_size_le later q
  rw [tick]
  unfold fits
  rw [free (n + 1) (by omega), free (n + 1) (by omega), free (n + 1 + 1) (by omega)]
  unfold freeBefore
  cases use.2.2.before with
  | none => simp
  | some g =>
    have here := free n (by omega) use.2.2.data
    simp [Outcome.pred, here]

lemma searchStart_least (o : Occupancy) (es : List Extracted) (stride : Nat)
    {steps : Nat} (pos : 0 < start) (enough : o.size < start + steps) :
    ∃ found, searchStart o es stride steps start = .ok found ∧ start ≤ found ∧
      gridFits o es stride found = .ok true ∧
      ∀ t, start ≤ t → t < found → gridFits o es stride t = .ok false := by
  induction steps generalizing start with
  | zero =>
    refine ⟨start, rfl, le_rfl, gridFits_of_size_lt enough es stride, ?_⟩
    intro t later before
    omega
  | succ steps ih =>
    obtain ⟨b, tried⟩ := gridFits_ok o es stride pos
    cases b with
    | true =>
      refine ⟨start, ?_, le_rfl, tried, fun t later before => by omega⟩
      rw [searchStart, tried]
      rfl
    | false =>
      obtain ⟨found, run, le, fits, least⟩ := ih (Nat.succ_pos start) (by omega)
      refine ⟨found, ?_, by omega, fits, fun t later before => ?_⟩
      · rwa [searchStart, tried]
      · rcases eq_or_lt_of_le later with rfl | after
        · exact tried
        · exact least t after before

lemma gridStart_least (o : Occupancy) (es : List Extracted) (stride : Nat) (pos : 0 < start) :
    ∃ found, gridStart o es stride start = .ok found ∧ start ≤ found ∧
      gridFits o es stride found = .ok true ∧
      ∀ t, start ≤ t → t < found → gridFits o es stride t = .ok false :=
  searchStart_least o es stride pos (by omega)

lemma gridStart_later (h : o.Twin k code o') (es : List Extracted) (stride : Nat)
    (late : k.base < start) :
    ∃ found, gridStart o es stride start = .ok found ∧ start ≤ found ∧
      gridStart o' es stride (start + k.ticks) = .ok (found + k.ticks) := by
  have pos : 0 < start := Nat.zero_lt_of_lt late
  obtain ⟨found, run, le, fits, least⟩ := gridStart_least o es stride pos
  obtain ⟨found', run', le', fits', least'⟩ :=
    gridStart_least o' es stride (Nat.add_pos_left pos k.ticks)
  refine ⟨found, run, le, run'.trans (congrArg Except.ok ?_)⟩
  rcases Nat.lt_trichotomy found' (found + k.ticks) with early | equal | behind
  · obtain ⟨t, rfl⟩ : ∃ t, found' = t + k.ticks := ⟨found' - k.ticks, by omega⟩
    rw [gridFits_later h es stride (by omega), least t (by omega) (by omega)] at fits'
    cases fits'
  · exact equal
  · have missed := least' (found + k.ticks) (by omega) behind
    rw [gridFits_later h es stride (by omega), fits] at missed
    cases missed

end Grid

end Session

/-! Sessions that are compared. -/

def Task.over (task : Task) (other : Compiler) : Task := { task with compiler := other }

/-- What two compilers have in common if their runs are compared. -/
structure Task.Comparable (k : Comparison) (task : Task) (other : Compiler) : Prop where
  extractor : other.extractor = task.compiler.extractor
  flip : k.flip = task.compiler.noise.flip?
  flip' : k.flip' = other.noise.flip?
  noise : ¬ k.strict → other.noise = task.compiler.noise
  divides : task.code.period ∣ k.rounds
  data : ∀ {q : Qubit}, task.code.isData q = true → k.known q
  ancilla : ∀ {round : Nat} {c : Check} {a : Qubit}, c ∈ task.code.checksIn round →
    c.ancilla = some a → k.known a
  positive : ¬ k.strict → 0 < k.base

def DirectOutcome.later (k : Comparison) (d : DirectOutcome) : DirectOutcome :=
  ⟨d.basis, d.handle + k.handles, d.round + k.rounds, d.tick + k.ticks⟩

namespace Session

/-- The latest direct measurement of a qubit, if it was made in a round or later. -/
def directSince (s : Session) (round : Nat) (q : Qubit) : Option DirectOutcome :=
  (s.direct.get? q).filter fun d => round ≤ d.round

/-- Two runs between rounds. -/
structure Twin (k : Comparison) (top : Nat) (code : Code) (s s' : Session) : Prop where
  progress : s.progress.Twin k top s'.progress
  occupancy : s.occupancy.Twin k code s'.occupancy
  lastUse : ∀ {q : Qubit}, code.isData q = true →
    Option.Rel k.Late (s.lastUse.get? q) (s'.lastUse.get? q)
  ancillaFloor : ∀ q, k.Agree ((s.ancillaFloor.get? q).getD 0) ((s'.ancillaFloor.get? q).getD 0)
  direct : ∀ q, s'.directSince (k.since + k.rounds) q =
    (s.directSince k.since q).map (DirectOutcome.later k)
  filed : ∀ {q : Qubit} {d : DirectOutcome}, s.directSince k.since q = some d →
    k.base ≤ d.tick ∧ Progress.Reached k s.store.record d.handle
  layerStart : s'.layerStart = s.layerStart + k.ticks
  base_le : k.base ≤ s.layerStart
  rounds : s'.rounds = s.rounds + k.rounds
  used : ∀ {q : Qubit} {t : Nat}, s.lastUse.get? q = some t → t < s.store.size
  living : ∀ {q : Qubit} {t : Nat}, s.occupancy.isLive t q = true → q ∈ s.store.qubits

/-- Two runs within a round. -/
structure InStep (k : Comparison) (code : Code) (s s' : Session) : Prop
    extends Twin k (s.layerStart + 1) code s s' where
  dataFloor : ∀ {q : Qubit}, code.isData q = true →
    k.Agree ((s.dataFloor.get? q).getD 0) ((s'.dataFloor.get? q).getD 0)
  firstUse : ∀ q, s'.firstUse.get? q = (s.firstUse.get? q).map (· + k.ticks)
  begun : ∀ {q : Qubit} {t : Nat}, s.firstUse.get? q = some t →
    k.base ≤ t ∧ t < s.store.size ∧ q ∈ s.store.qubits
  /-- Noise may be written where the layer starts. -/
  room : k.strict → s.layerStart < Store.maxTicks

variable {k : Comparison} {code : Code} {s s' : Session} {top tick : Nat} {q : Qubit}

lemma Twin.setProgress (h : s.Twin k top code s') {p p' : Progress}
    (progress : p.Twin k top p') (grows : s.store.Grows p.store) :
    ({ s with progress := p } : Session).Twin k top code { s' with progress := p' } :=
  { h with
    progress := progress
    filed := fun found => by
      obtain ⟨late, key, t, entry, low⟩ := h.filed found
      exact ⟨late, key, t, grows.within entry, low⟩
    used := fun found => (h.used found).trans_le grows.size_le
    living := fun alive => grows.qubits _ (h.living alive) }

lemma InStep.setProgress (h : s.InStep k code s') {p p' : Progress}
    (progress : p.Twin k (s.layerStart + 1) p') (grows : s.store.Grows p.store) :
    ({ s with progress := p } : Session).InStep k code { s' with progress := p' } :=
  { h with
    toTwin := h.toTwin.setProgress progress grows
    begun := fun found => by
      obtain ⟨late, inside, numbered⟩ := h.begun found
      exact ⟨late, inside.trans_le grows.size_le, grows.qubits _ numbered⟩ }

lemma Twin.setStore (h : s.Twin k top code s') {store store' : Store}
    (twin : store.Twin k top store') (grows : s.store.Grows store) :
    (s.setStore store).Twin k top code (s'.setStore store') :=
  h.setProgress (h.progress.setStore h.progress.resolver rfl rfl twin grows) grows

lemma InStep.setStore (h : s.InStep k code s') {store store' : Store}
    (twin : store.Twin k (s.layerStart + 1) store') (grows : s.store.Grows store) :
    (s.setStore store).InStep k code (s'.setStore store') :=
  h.setProgress (h.progress.setStore h.progress.resolver rfl rfl twin grows) grows

lemma Twin.occupy (h : s.Twin k top code s') (tick : Nat) (qubits : List Qubit) :
    (s.occupy tick qubits).Twin k top code (s'.occupy (tick + k.ticks) qubits) :=
  { h with
    occupancy := h.occupancy.occupyAll tick qubits
    living := fun alive => h.living ((Occupancy.isLive_occupyAll ..).symm.trans alive) }

lemma InStep.occupy (h : s.InStep k code s') (tick : Nat) (qubits : List Qubit) :
    (s.occupy tick qubits).InStep k code (s'.occupy (tick + k.ticks) qubits) :=
  { h with toTwin := h.toTwin.occupy tick qubits }

lemma Twin.setLive (h : s.Twin k top code s') (late : k.base ≤ tick) {live : Bool}
    (numbered : live = true → q ∈ s.store.qubits) :
    (s.setLive tick q live).Twin k top code (s'.setLive (tick + k.ticks) q live) :=
  { h with
    occupancy := h.occupancy.setLive late q live
    living := by
      intro p t alive
      change (s.occupancy.setLive tick q live).isLive t p = true at alive
      rw [Occupancy.isLive_setLive] at alive
      split_ifs at alive with here
      · rw [here.2]
        exact numbered alive
      · exact h.living alive }

lemma InStep.setLive (h : s.InStep k code s') (late : k.base ≤ tick) {live : Bool}
    (numbered : live = true → q ∈ s.store.qubits) :
    (s.setLive tick q live).InStep k code (s'.setLive (tick + k.ticks) q live) :=
  { h with toTwin := h.toTwin.setLive late numbered }

lemma firstUse_touch (code : Code) (tick : Nat) (s : Session) (q p : Qubit) :
    (s.touch code tick q).firstUse.get? p =
      if code.isData q = true ∧ p = q then some (((s.firstUse.get? q).map (min · tick)).getD tick)
      else s.firstUse.get? p := by
  simp only [touch]
  by_cases data : code.isData q = true
  · by_cases here : p = q
    · rw [if_pos data, if_pos ⟨data, here⟩, Table.get?_insert, if_pos here]
      cases s.firstUse.get? q <;> rfl
    · rw [if_pos data, if_neg (fun both => here both.2), Table.get?_insert, if_neg here]
  · rw [if_neg data, if_neg (fun both => data both.1)]

lemma Twin.touch (h : s.Twin k top code s') (late : k.base ≤ tick) (inside : tick < s.store.size)
    (q : Qubit) : (s.touch code tick q).Twin k top code (s'.touch code (tick + k.ticks) q) := by
  have last : ∀ {p : Qubit}, code.isData p = true →
      Option.Rel k.Late ((s.touch code tick q).lastUse.get? p)
        ((s'.touch code (tick + k.ticks) q).lastUse.get? p) := by
    intro p data
    rw [lastUse_touch, lastUse_touch]
    split_ifs with here
    · subst here
      have both := h.lastUse data
      generalize s.lastUse.get? p = before, s'.lastUse.get? p = before' at both ⊢
      cases both with
      | none => exact .some (k.late_of_le late)
      | some both => exact .some (both.max (k.late_of_le late))
    · exact h.lastUse data
  have used : ∀ {p : Qubit} {t : Nat}, (s.touch code tick q).lastUse.get? p = some t →
      t < s.store.size := by
    intro p t found
    rw [lastUse_touch] at found
    split_ifs at found with here
    · obtain rfl := Option.some.inj found
      cases before : s.lastUse.get? q with
      | none => exact inside
      | some u =>
        have early := h.used before
        simp only [Option.map_some, Option.getD_some]
        omega
    · exact h.used found
  rw [touch_eq, touch_eq code (tick + k.ticks)]
  exact { h with lastUse := last, used := used }

lemma InStep.touch (h : s.InStep k code s') (late : k.base ≤ tick)
    (inside : tick < s.store.size) (numbered : q ∈ s.store.qubits) :
    (s.touch code tick q).InStep k code (s'.touch code (tick + k.ticks) q) := by
  have twin := h.toTwin.touch late inside q
  have first : ∀ p, (s'.touch code (tick + k.ticks) q).firstUse.get? p =
      ((s.touch code tick q).firstUse.get? p).map (· + k.ticks) := by
    intro p
    rw [firstUse_touch, firstUse_touch, h.firstUse, h.firstUse]
    split_ifs
    · cases s.firstUse.get? q with
      | none => rfl
      | some t =>
        simp only [Option.map_some, Option.getD_some, Option.some.injEq]
        omega
    · rfl
  have begun : ∀ {p : Qubit} {t : Nat}, (s.touch code tick q).firstUse.get? p = some t →
      k.base ≤ t ∧ t < s.store.size ∧ p ∈ s.store.qubits := by
    intro p t found
    rw [firstUse_touch] at found
    split_ifs at found with here
    · rw [here.2]
      obtain rfl := Option.some.inj found
      cases before : s.firstUse.get? q with
      | none => exact ⟨late, inside, numbered⟩
      | some u =>
        obtain ⟨early, _, _⟩ := h.begun before
        simp only [Option.map_some, Option.getD_some]
        exact ⟨by omega, by omega, numbered⟩
    · exact h.begun found
  rw [touch_eq, touch_eq code (tick + k.ticks)] at twin ⊢
  exact { h with toTwin := twin, firstUse := first, begun := begun }

lemma InStep.touchAll {qubits : List Qubit} (h : s.InStep k code s') (late : k.base ≤ tick)
    (inside : tick < s.store.size) (numbered : ∀ q ∈ qubits, q ∈ s.store.qubits) :
    (qubits.foldl (Session.touch code tick) s).InStep k code
      (qubits.foldl (Session.touch code (tick + k.ticks)) s') := by
  induction qubits generalizing s s' with
  | nil => exact h
  | cons q rest ih =>
    have same : (s.touch code tick q).store = s.store := by rw [touch_eq]; rfl
    apply ih (h.touch late inside (numbered q (.head _)))
    · rwa [same]
    · rw [same]
      exact fun p mem => numbered p (.tail _ mem)

/-! Gates. -/

section Gates

variable {task : Task} {other : Compiler} (h : s.InStep k task.code s')
  (alike : task.Comparable k other) {q : Qubit}

/-- Sessions in step, with some qubits numbered. -/
def Applied (k : Comparison) (code : Code) (qubits : List Qubit) (next next' : Session) : Prop :=
  next.InStep k code next' ∧ ∀ q ∈ qubits, q ∈ next.store.qubits

include h alike

section

variable (late : k.base ≤ tick)
include late

lemma apply_along (gate : Gate) {qubits : List Qubit} (known : ∀ q ∈ qubits, k.known q)
    (place : Place) :
    (s.apply task tick gate qubits place).Along k.strict (Applied k task.code qubits)
      (s'.apply (task.over other) (tick + k.ticks) gate qubits place) := by
  unfold Session.apply
  refine (h.progress.store.addGate late gate known).bind ?_
  rintro ⟨store, _⟩ ⟨store', _⟩ ⟨twin, grows, inside, numbered⟩
  have disturbed := twin.disturb (fun loose => congrArg (·.at? place) (alike.noise loose)) late
    .after known (fun _ => by omega) (fun strict => inside.trans_le (twin.room strict))
    fun _ => numbered
  refine disturbed.bind ?_
  rintro last last' ⟨twin, later⟩
  have listed : ∀ q ∈ qubits, q ∈ last.qubits := fun q mem => later.qubits q (numbered q mem)
  refine along_pure ⟨?_, ?_⟩
  · exact ((h.setStore twin (grows.trans later)).occupy tick qubits).touchAll late
      (inside.trans_le later.size_le) listed
  · rwa [touchAll_eq]

lemma reset_along (known : k.known q) :
    (s.reset task tick q).Along k.strict (InStep k task.code)
      (s'.reset (task.over other) (tick + k.ticks) q) := by
  have one : ∀ p ∈ [q], k.known p := forall_mem_singleton.mpr known
  refine (apply_along h alike late .R one .initialisation).bind ?_
  rintro next next' ⟨twin, numbered⟩
  exact along_pure (twin.setLive late fun _ => numbered q (mem_singleton_self q))

lemma single_along (gate : Gate) (known : k.known q) :
    (s.single task tick gate q).Along k.strict (InStep k task.code)
      (s'.single (task.over other) (tick + k.ticks) gate q) := by
  have one : ∀ p ∈ [q], k.known p := forall_mem_singleton.mpr known
  exact (apply_along h alike late gate one .oneQubitGate).imp fun _ _ applied => applied.1

lemma singleIf_along (gate : Option Gate) (known : k.known q) :
    (s.singleIf task tick gate q).Along k.strict (InStep k task.code)
      (s'.singleIf (task.over other) (tick + k.ticks) gate q) := by
  cases gate with
  | none => exact along_ok h
  | some gate => exact single_along h alike late gate known

lemma double_along (gate : Gate) {first second : Qubit} (known : k.known first)
    (known' : k.known second) :
    (s.double task tick gate first second).Along k.strict (InStep k task.code)
      (s'.double (task.over other) (tick + k.ticks) gate first second) := by
  have both : ∀ p ∈ [first, second], k.known p := by
    intro p mem
    rcases mem_cons.mp mem with rfl | mem
    · exact known
    · rwa [mem_singleton.mp mem]
  exact (apply_along h alike late gate both .twoQubitGate).imp fun _ _ applied => applied.1

end

lemma rotateBefore_along (late : k.base < tick) {i : Interaction} (known : k.known i.data) :
    (s.rotateBefore task tick i).Along k.strict (InStep k task.code)
      (s'.rotateBefore (task.over other) (tick + k.ticks) i) := by
  obtain ⟨n, rfl⟩ : ∃ n, tick = n + 1 := ⟨tick - 1, by omega⟩
  unfold rotateBefore
  cases i.before with
  | none => exact along_ok h
  | some gate =>
    have back : Outcome.pred (n + 1 + k.ticks) = .ok (n + k.ticks) := by
      rw [Nat.add_right_comm]
      rfl
    rw [back]
    exact single_along h alike (Nat.le_of_lt_succ late) gate known

lemma interact_along (late : k.base < tick) {ancilla : Qubit} {i : Interaction}
    (known : k.known ancilla) (data : k.known i.data) :
    (s.interact task ancilla tick i).Along k.strict (InStep k task.code)
      (s'.interact (task.over other) ancilla (tick + k.ticks) i) := by
  unfold interact
  refine (rotateBefore_along h alike late data).bind fun before before' first => ?_
  have here := late.le
  have rotated : ∀ mid mid' : Session, mid.InStep k task.code mid' →
      (mid.singleIf task (tick + 1) i.after i.data).Along k.strict (InStep k task.code)
        (mid'.singleIf (task.over other) (tick + k.ticks + 1) i.after i.data) := by
    intro mid mid' second
    rw [Nat.add_right_comm]
    exact singleIf_along second alike (by omega) i.after data
  simp only
  split_ifs
  · exact (double_along first alike here i.gate known data).bind rotated
  · exact (double_along first alike here i.gate data known).bind rotated

end Gates

end Session

end SyndromeSchedule
