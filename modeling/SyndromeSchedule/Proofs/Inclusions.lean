import SyndromeSchedule.Proofs.Chronology
import SyndromeSchedule.Proofs.Parity

/-!
Observables include exactly the right outcomes. The references of the program are traced back to
what the session wrote layer by layer; in repeated ticks the same references lead to later outcomes,
which are toggled for the same reasons.
-/

namespace SyndromeSchedule

open List

namespace Request

/-- An outcome that stands for the final measurement of a qubit: it comes after all rounds, or in
the last one if the qubit is not measured after it. -/
def IsFinal (request : Request) (code : Code) (labels : List (Check × Nat)) (f : Qubit × Pauli)
    (i : Nat) : Prop :=
  ∃ e, labels[i]? = some e ∧ e.1.Reads f.1 f.2 ∧
    (e.2 = request.layers * code.period ∨
      e.2 + 1 = request.layers * code.period ∧ ∀ e' ∈ labels,
        e'.2 = request.layers * code.period → ∀ basis, ¬ e'.1.Reads f.1 basis)

/-- Outcomes, by number, are included in an observable with the right parity: those toggled in some
round, and the final measurements of the representative. Their product is the representative before
the first round. -/
structure Observes (request : Request) (code : Code) (labels : List (Check × Nat)) (l : Logical)
    (inclusions : List Int) (toggled finals : List Nat) : Prop where
  toggled_nodup : toggled.Nodup
  mem_toggled : ∀ i, i ∈ toggled ↔
    ∃ e, labels[i]? = some e ∧ e.2 < request.layers * code.period ∧ l.Toggles e
  finals_nodup : finals.Nodup
  isFinal : Forall₂ (request.IsFinal code labels) (l.before 0).factors.entries finals
  parity : SameParity inclusions ((toggled ++ finals).map Int.ofNat)
  letters : ∀ q, Pauli.prod ((toggled ++ finals).map fun i =>
    (labels[i]?.map (·.1.product.letter q)).getD .I) = (l.before 0).letter q

end Request

lemma Code.checksIn_nodup (code : Code) (round : Nat) : (code.checksIn round).Nodup :=
  List.Nodup.of_map _ (code.contents_nodup round)

lemma Logical.toggledIn_nodup (l : Logical) (code : Code) (start rounds : Nat) :
    (l.toggledIn code start rounds).Nodup := by
  rw [toggledIn, nodup_flatMap]
  constructor
  · intro r _
    apply List.Nodup.map
    · exact fun c c' same => congrArg Prod.fst same
    · unfold touched
      split_ifs
      · exact nodup_nil
      · exact (code.checksIn_nodup r).filter _
  · have rounds : (range' start rounds).Nodup := nodup_range'
    apply rounds.imp
    intro r r' different e here there
    obtain ⟨c, _, rfl⟩ := mem_map.mp here
    obtain ⟨c', _, same⟩ := mem_map.mp there
    exact different (congrArg Prod.snd same).symm

lemma Handles.nodup {labels es : List (Check × Nat)} {indices : List Nat}
    (h : Handles labels es indices) (distinct : es.Nodup) : indices.Nodup := by
  have same : indices.map (fun i => labels[i]?) = es.map some := by
    symm
    rw [maps_eq_iff]
    exact h.imp fun e i found => found.symm
  apply List.Nodup.of_map fun i => labels[i]?
  rw [same]
  exact distinct.map fun _ _ => Option.some.inj

lemma Product.prod_entries (p : Product) (q : Qubit) :
    Pauli.prod (p.factors.entries.map fun f => if q = f.1 then f.2 else .I) = p.letter q := by
  have distinct : ((p.factors.entries.map fun f => (f.1, Operator.positive f.2)).map
      (·.1)).Nodup := by
    rw [map_map]
    exact p.factors.keys_nodup
  have operators := prod_operators distinct q
  rw [map_map] at operators
  refine Eq.trans operators ?_
  rw [find?_map, Option.map_map, letter, Table.get?]
  simp only [Function.comp_def]
  rfl

namespace Request

variable {request : Request} {code : Code} {s : Store} {labels : List (Check × Nat)} {l : Logical}

/-- What an observable must include, from the outcomes that moved it and the final ones. -/
lemma Accounts.observes (accounts : request.Accounts code s labels) {inclusions : List Int}
    {toggled finals : List Nat}
    (made : Handles labels (l.toggledIn code 0 (request.layers * code.period)) toggled)
    (ends : Forall₂ (request.IsFinal code labels) (l.before 0).factors.entries finals)
    (parity : SameParity inclusions ((toggled ++ finals).map Int.ofNat))
    (returns : ∀ q, Pauli.prod ((l.toggledIn code 0 (request.layers * code.period)).map
      (·.1.product.letter q)) = .I) :
    request.Observes code labels l inclusions toggled finals where
  toggled_nodup := made.nodup (l.toggledIn_nodup code 0 _)
  mem_toggled := by
    intro i
    constructor
    · intro mem
      obtain ⟨e, listed, found⟩ := exists_left_of_forall₂ made mem
      obtain ⟨inside, _, toggles⟩ := l.mem_toggledIn.mp listed
      exact ⟨e, found, by omega, toggles⟩
    · rintro ⟨e, found, below, toggles⟩
      obtain ⟨anew, more, perm, read, _⟩ := accounts.scheduled
      have scheduled : e.1 ∈ code.checksIn e.2 := by
        rcases mem_append.mp (perm.mem_iff.mp (mem_of_getElem? found)) with old | new
        · exact (Code.mem_measured.mp old).2
        · have last := read.round e new
          omega
      have listed : e ∈ l.toggledIn code 0 (request.layers * code.period) :=
        l.mem_toggledIn.mpr ⟨⟨Nat.zero_le _, by omega⟩, scheduled, toggles⟩
      obtain ⟨j, mem, found'⟩ := exists_right_of_forall₂ made listed
      have distinct : labels.Nodup := List.Nodup.of_map _ accounts.distinct
      have same : i = j := by
        apply (getElem?_inj (lt_of_getElem? found) distinct).mp
        rw [found, found']
      rwa [same]
  finals_nodup := by
    have keys : finals.map (fun i => labels[i]?.map (·.1.content.keys)) =
        ((l.before 0).factors.entries.map (·.1)).map fun q => some [q] := by
      symm
      rw [map_map, maps_eq_iff]
      apply ends.imp
      rintro f i ⟨e, found, reads, _⟩
      rw [found, Option.map_some, reads.keys_content]
      rfl
    apply List.Nodup.of_map fun i => labels[i]?.map (·.1.content.keys)
    rw [keys]
    apply List.Nodup.map _ (l.before 0).factors.keys_nodup
    exact fun q q' same => singleton_injective (Option.some.inj same)
  isFinal := ends
  parity := parity
  letters := by
    intro q
    have first : (toggled.map fun i => (labels[i]?.map (·.1.product.letter q)).getD .I) =
        (l.toggledIn code 0 (request.layers * code.period)).map (·.1.product.letter q) := by
      symm
      rw [maps_eq_iff]
      apply Forall₂.imp _ made
      intro e i found
      rw [found]
      rfl
    have last : (finals.map fun i => (labels[i]?.map (·.1.product.letter q)).getD .I) =
        (l.before 0).factors.entries.map fun f => if q = f.1 then f.2 else .I := by
      symm
      rw [maps_eq_iff]
      apply ends.imp
      rintro f i ⟨e, found, reads, _⟩
      rw [found, Option.map_some, Option.getD_some, reads.letter]
    rw [map_append, Pauli.prod_append, first, last, Product.prod_entries, returns q, Pauli.I_times]

end Request

/-! References of the program. -/

namespace Store

open Instruction

variable {made : List (Check × Nat)} {keys : List (List Key)} {s : Store}
variable {h : Nat} {e : Check × Nat}

lemma includedAt_of_size_le (s : Store) (index : Nat) {t : Nat} (past : s.size ≤ t) :
    s.includedAt index t = [] := by
  rw [includedAt, tickAt_of_size_le past]
  rfl

/-- The place of an outcome in the order of the program, if some outcomes come before without being
in that order. -/
def placeIn (s : Store) (n before handle : Nat) : Nat := (s.orderBelow n).idxOf handle + before

lemma Sound.inclusions_stretch (sound : s.Sound) {start stop : Nat} (ordered : start ≤ stop)
    (index before : Nat) :
    inclusions index ((s.orderBelow start).length + before) (s.stretch start stop) =
      ((included index (s.between start stop)).map (s.placeIn stop before)).map Int.ofNat := by
  have whole : s.orderBelow start ++ (s.between start stop).flatMap handlesIn <+:
      s.orderBelow stop := by
    rw [s.orderBelow_append ordered]
    exact prefix_rfl
  rw [stretch, inclusions_ticks (sound.regular_between start stop)
    (sound.dated_between start stop) whole before index, map_map]
  rfl

lemma Sound.includes_flat (sound : s.Sound) (region : s.region = none) {index : Nat}
    {toggled finals : List Nat}
    (parity : SameParity (included index (s.between 0 s.size)) (toggled ++ finals)) :
    SameParity (inclusions index 0 (unrollAll s.bodyInstructions))
      ((toggled.map (s.placeIn s.size 0) ++ finals.map (s.placeIn s.size 0)).map Int.ofNat) := by
  have body : unrollAll s.bodyInstructions = s.stretch 0 s.size := by
    rw [unrollAll_body, region]
  have start : (s.orderBelow 0).length + 0 = 0 := rfl
  have whole := sound.inclusions_stretch (Nat.zero_le s.size) index 0
  rw [start] at whole
  rw [body, whole, ← map_append]
  exact (parity.map _).map _

lemma Account.label_of_made (account : Account made keys s) {n : Nat} (found : made[h]? = some e)
    (inside : h ∈ s.orderBelow n) :
    (labelsOf made (s.orderBelow n))[(s.orderBelow n).idxOf h]? = some e := by
  rwa [getElem_labelsOf fun h inside => account.lt_length inside, getElem?_idxOf inside]

lemma Account.exists_entry (account : Account made keys s) (found : made[h]? = some e) :
    ∃ t, s.record.entry? h = some (Key.of e.1 (Word.signed e.2), t) := by
  have bound := lt_of_getElem? found
  rw [account.length_made] at bound
  obtain ⟨key, t, entry⟩ := Record.exists_entry bound
  obtain ⟨e', found', same⟩ := account.made_of_entry entry
  rw [found] at found'
  cases found'
  exact ⟨t, by rw [entry, same]⟩

lemma Account.mem_orderBelow_size (account : Account made keys s) (found : made[h]? = some e) :
    h ∈ s.orderBelow s.size := by
  obtain ⟨t, entry⟩ := account.exists_entry found
  exact account.sound.mem_orderBelow.mpr ⟨_, t, entry, account.sound.tick_lt_size entry⟩

section Repeats

variable {period start stop n handle : Nat} {e : Check × Nat}
  (repeats : s.Repeats made period start stop n) (account : Account made keys s)
include repeats account

lemma Repeats.includes {index : Nat} {first second third finals : List Nat}
    (parity₁ : SameParity (included index (s.between 0 start)) first)
    (parity₂ : SameParity (included index (s.between start stop)) second)
    (parity₃ : SameParity (included index (s.between stop s.size)) (third ++ finals)) :
    SameParity (inclusions index 0 (unrollAll s.bodyInstructions))
      ((first.map (s.placeIn start 0) ++ ((List.range (n + 1)).flatMap fun j =>
            second.map (s.placeIn stop (j * (s.orderBelow start).length))) ++
          third.map (s.placeIn s.size (n * (s.orderBelow start).length)) ++
        finals.map (s.placeIn s.size (n * (s.orderBelow start).length))).map Int.ofNat) := by
  have sound := account.sound
  have one : inclusions index 0 (s.stretch 0 start) = _ :=
    sound.inclusions_stretch (Nat.zero_le start) index 0
  rw [inclusions, repeats.annotations_body account, flatMap_append, flatMap_append,
    flatMap_assoc, append_assoc (_ ++ _), ← map_append (f := s.placeIn _ _),
    map_append, map_append, map_flatMap]
  simp only [← inclusions.eq_1]
  rw [one, sound.inclusions_stretch repeats.bounded]
  apply SameParity.append
  · apply SameParity.append
    · exact (parity₁.map _).map _
    · apply SameParity.flatMap
      intro j _
      rw [sound.inclusions_stretch repeats.ordered]
      exact (parity₂.map _).map _
  · exact (parity₃.map _).map _

lemma Repeats.label_middle {j : Nat} (le : j ≤ n) (found : made[handle]? = some e)
    (inside : handle ∈ s.orderBelow stop) :
    (s.labels made period)[s.placeIn stop (j * (s.orderBelow start).length) handle]? =
      some (postpone (j * period) e) :=
  repeats.getElem_middle account le (account.label_of_made found inside)

lemma Repeats.label_first (found : made[handle]? = some e) (inside : handle ∈ s.orderBelow start) :
    (s.labels made period)[s.placeIn start 0 handle]? = some e :=
  repeats.getElem_first account (account.label_of_made found inside)

lemma Repeats.label_last (found : made[handle]? = some e) :
    (s.labels made period)[s.placeIn s.size (n * (s.orderBelow start).length) handle]? =
      some (postpone (n * period) e) :=
  repeats.getElem_last account (account.label_of_made found (account.mem_orderBelow_size found))

end Repeats

end Store

namespace Logical

variable (l : Logical)
variable {code : Code}

variable (period : l.period ∣ code.period)
include period

lemma touched_add_mul (round n : Nat) :
    l.touched code (round + n * code.period) = l.touched code round := by
  have next : round + n * code.period + 1 = round + 1 + n * code.period := by omega
  unfold touched
  rw [next, l.before_add_mul period, l.before_add_mul period, code.checksIn_add_mul]

lemma moves_add_mul (round n : Nat) :
    l.moves code (round + n * code.period) = l.moves code round := by
  have next : round + n * code.period + 1 = round + 1 + n * code.period := by omega
  unfold moves
  rw [next, l.touched_add_mul period, l.before_add_mul period, l.before_add_mul period]

lemma toggledIn_add_mul (start rounds n : Nat) :
    l.toggledIn code (start + n * code.period) rounds =
      (l.toggledIn code start rounds).map (postpone (n * code.period)) := by
  have range : range' (start + n * code.period) rounds =
      (range' start rounds).map (· + n * code.period) := by
    rw [range'_eq_map_range, range'_eq_map_range, map_map]
    apply map_congr_left
    intro r _
    simp only [Function.comp]
    omega
  rw [toggledIn, toggledIn, range, flatMap_map, map_flatMap]
  apply flatMap_congr
  intro r _
  rw [l.touched_add_mul period, map_map]
  rfl

lemma toggledIn_layers (n : Nat) :
    l.toggledIn code 0 ((n + 3) * code.period) = l.toggledIn code 0 code.period ++
        ((List.range (n + 1)).flatMap fun j =>
          (l.toggledIn code code.period code.period).map (postpone (j * code.period))) ++
        (l.toggledIn code (2 * code.period) code.period).map (postpone (n * code.period)) := by
  have middle : ∀ m, l.toggledIn code code.period (m * code.period) =
      (range m).flatMap fun j =>
        (l.toggledIn code code.period code.period).map (postpone (j * code.period)) := by
    intro m
    induction m with
    | zero => simp [toggledIn]
    | succ m ih =>
      rw [Nat.succ_mul, toggledIn_add, ih, range_succ, flatMap_append,
        flatMap_singleton, ← l.toggledIn_add_mul period]
  have count : (n + 3) * code.period = code.period + ((n + 1) * code.period + code.period) := by
    rw [Nat.add_mul, Nat.add_mul]
    omega
  have last : code.period + (n + 1) * code.period = 2 * code.period + n * code.period := by
    rw [Nat.add_mul]
    omega
  rw [count, toggledIn_add, toggledIn_add, Nat.zero_add, middle, last,
    l.toggledIn_add_mul period, append_assoc]

end Logical

lemma Request.period_dvd {request : Request} {code : Code} (fault : request.fault? code = none)
    {l : Logical} (mem : l ∈ request.observables) : l.period ∣ code.period := by
  unfold fault? at fault
  split_ifs at fault with empty
  rw [Option.or_eq_none_iff, Option.or_eq_none_iff, Option.map_eq_none_iff,
    Option.map_eq_none_iff, Option.map_eq_none_iff] at fault
  have sound := findSome?_eq_none_iff.mp fault.2.2 l mem
  unfold Code.logicalFault? CodeError.ofLogical? at sound
  split_ifs at sound with divides
  exact Nat.dvd_of_mod_eq_zero (not_not.mp divides)

lemma Task.moves_of_period {task : Task} (fault : task.request.fault? task.code = none)
    (h : ∀ r < task.code.period, task.Moves r) (round : Nat) : task.Moves round := by
  intro l mem
  have first := h (round % task.code.period) (Nat.mod_lt _ task.code.period_pos) l mem
  have same := l.moves_add_mul (Request.period_dvd fault mem) (round % task.code.period)
    (round / task.code.period)
  rw [Nat.mod_add_div'] at same
  exact same.trans first

namespace Store

variable {made : List (Check × Nat)} {more : List (Check × Nat)} {keys : List (List Key)}

lemma Folded.mem_orderBelow {code : Code} {s : Store} {start stop n h : Nat} {e : Check × Nat}
    (folded : s.Folded code more start stop n)
    (account : Account (code.measured (3 * code.period) ++ more) keys s)
    (rounds : ∀ e ∈ more, e.2 = 3 * code.period)
    (found : (code.measured (3 * code.period) ++ more)[h]? = some e) :
    (e.2 < code.period → h ∈ s.orderBelow start) ∧
      (e.2 < 2 * code.period → h ∈ s.orderBelow stop) := by
  obtain ⟨t, entry⟩ := account.exists_entry found
  have one := folded.first entry
  have two := folded.second entry
  rw [code.lt_length_measured_iff (by omega) rounds found] at one two
  exact ⟨fun early => account.sound.mem_orderBelow.mpr ⟨_, t, entry, one.mp early⟩,
    fun early => account.sound.mem_orderBelow.mpr ⟨_, t, entry, two.mp early⟩⟩

/-- Outcomes toggled in three layers, placed by layer, are those toggled in all layers. -/
lemma Folded.handles {code : Code} {s : Store} {start stop n : Nat}
    (folded : s.Folded code more start stop n)
    (account : Account (code.measured (3 * code.period) ++ more) keys s)
    (rounds : ∀ e ∈ more, e.2 = 3 * code.period) {l : Logical} (period : l.period ∣ code.period)
    {first second third : List Nat}
    (made₁ : Handles (code.measured (3 * code.period) ++ more)
      (l.toggledIn code 0 code.period) first)
    (made₂ : Handles (code.measured (3 * code.period) ++ more)
      (l.toggledIn code code.period code.period) second)
    (made₃ : Handles (code.measured (3 * code.period) ++ more)
      (l.toggledIn code (2 * code.period) code.period) third) :
    Handles (s.labels (code.measured (3 * code.period) ++ more) code.period)
      (l.toggledIn code 0 ((n + 3) * code.period))
      (first.map (s.placeIn start 0) ++ ((List.range (n + 1)).flatMap fun j =>
          second.map (s.placeIn stop (j * (s.orderBelow start).length))) ++
        third.map (s.placeIn s.size (n * (s.orderBelow start).length))) := by
  rw [l.toggledIn_layers period]
  refine rel_append (rel_append ?_ (forall₂_flatMap fun j mem => ?_)) ?_
  · rw [forall₂_map_right_iff]
    apply forall₂_of_mem made₁
    intro e toggled h _ found
    have early := (l.mem_toggledIn.mp toggled).1.2
    exact folded.toRepeats.label_first account found
      ((folded.mem_orderBelow account rounds found).1 (by omega))
  · rw [forall₂_map_left_iff, forall₂_map_right_iff]
    apply forall₂_of_mem made₂
    intro e toggled h _ found
    have early := (l.mem_toggledIn.mp toggled).1.2
    exact folded.toRepeats.label_middle account (Nat.le_of_lt_succ (mem_range.mp mem)) found
      ((folded.mem_orderBelow account rounds found).2 (by omega))
  · rw [forall₂_map_left_iff, forall₂_map_right_iff]
    exact made₃.imp fun e h found => folded.toRepeats.label_last account found

end Store

/-! What was written, by tick. -/

lemma flatMap_filter_eq {α : Type} {parts : List (Nat × List α)} {p : Nat × List α → Bool}
    (kept : ∀ d ∈ parts, d.2 ≠ [] → p d = true) :
    (parts.filter p).flatMap (·.2) = parts.flatMap (·.2) := by
  induction parts with
  | nil => rfl
  | cons d rest ih =>
    have others := ih fun d mem => kept d (.tail _ mem)
    rw [filter_cons, flatMap_cons]
    split_ifs with keep
    · rw [flatMap_cons, others]
    · have none : d.2 = [] := by
        by_contra some_item
        exact keep (kept d (.head _) some_item)
      rw [others, none, nil_append]

lemma flatMap_filter_eq_nil {α : Type} {parts : List (Nat × List α)} {p : Nat × List α → Bool}
    (dropped : ∀ d ∈ parts, d.2 ≠ [] → p d = false) :
    (parts.filter p).flatMap (·.2) = [] := by
  rw [flatMap_eq_nil_iff]
  intro d mem
  obtain ⟨inside, keep⟩ := mem_filter.mp mem
  by_contra some_item
  rw [dropped d inside some_item] at keep
  contradiction

namespace Session

variable {task : Task} {s next : Session} {parts : List (Nat × List Nat)}
variable {index : Nat} {anew : List (Qubit × Pauli)} {more : List (Check × Nat)}
  {keys : List (List Key)}

lemma Deposits.included_perm (h : Deposits index parts s next)
    (none : ∀ t, s.store.includedAt index t = []) (start stop : Nat) :
    (Store.included index (next.store.between start stop)).Perm
      ((parts.filter fun d => start ≤ d.1 && d.1 < start + (stop - start)).flatMap (·.2)) := by
  have each : next.store.includedAt index = fun t => (parts.filter (·.1 = t)).flatMap (·.2) := by
    funext t
    rw [h t, none t, nil_append]
  rw [Store.included_between, each, ← flatMap_assoc]
  exact (filter_section_perm (·.1) parts start (stop - start)).flatMap_right _

lemma Deposits.lt_size (h : Deposits index parts s next)
    {d : Nat × List Nat} (mem : d ∈ parts) (some_handle : d.2 ≠ []) : d.1 < next.store.size := by
  by_contra past
  have here := h d.1
  rw [next.store.includedAt_of_size_le index (by omega)] at here
  have empty := (append_eq_nil_iff.mp here.symm).2
  rw [flatMap_eq_nil_iff] at empty
  exact some_handle (empty d (mem_filter.mpr ⟨mem, by simp⟩))

lemma Deposits.included_range {a b : Nat} {before here after : List (Nat × List Nat)}
    (h : Deposits index (before ++ here ++ after) s next)
    (none : ∀ t, s.store.includedAt index t = [])
    (dropped : ∀ d ∈ before ++ after, d.2 ≠ [] → d.1 < a ∨ b ≤ d.1)
    (kept : ∀ d ∈ here, d.2 ≠ [] → a ≤ d.1 ∧ d.1 < b) :
    (Store.included index (next.store.between a b)).Perm (here.flatMap (·.2)) := by
  have perm := h.included_perm none a b
  have away : ∀ d ∈ before ++ after, d.2 ≠ [] →
      (decide (a ≤ d.1) && decide (d.1 < a + (b - a))) = false := by
    intro d mem some_handle
    have := dropped d mem some_handle
    simp only [Bool.and_eq_false_iff, decide_eq_false_iff_not]
    omega
  have there : ∀ d ∈ here, d.2 ≠ [] → (decide (a ≤ d.1) && decide (d.1 < a + (b - a))) = true := by
    intro d mem some_handle
    have := kept d mem some_handle
    simp only [Bool.and_eq_true, decide_eq_true_eq]
    omega
  rwa [filter_append, filter_append, flatMap_append, flatMap_append,
    flatMap_filter_eq_nil fun d mem => away d (mem_append_left _ mem),
    flatMap_filter_eq there,
    flatMap_filter_eq_nil fun d mem => away d (mem_append_right _ mem),
    nil_append, append_nil] at perm

/-- Parts of three layers and the end, told apart by their ticks. -/
theorem Deposits.included_layers {start stop : Nat} {d₁ d₂ d₃ d : Nat × List Nat}
    (h : Deposits index [d₁, d₂, d₃, d] s next) (none : ∀ t, s.store.includedAt index t = [])
    (ordered : start ≤ stop) (inside₁ : d₁.2 ≠ [] → d₁.1 < start)
    (inside₂ : d₂.2 ≠ [] → start ≤ d₂.1 ∧ d₂.1 < stop) (inside₃ : d₃.2 ≠ [] → stop ≤ d₃.1)
    (inside : d.2 ≠ [] → stop ≤ d.1) :
    (Store.included index (next.store.between 0 start)).Perm d₁.2 ∧
      (Store.included index (next.store.between start stop)).Perm d₂.2 ∧
      (Store.included index (next.store.between stop next.store.size)).Perm (d₃.2 ++ d.2) := by
  have first : Deposits index ([] ++ [d₁] ++ [d₂, d₃, d]) s next := h
  have second : Deposits index ([d₁] ++ [d₂] ++ [d₃, d]) s next := h
  have third : Deposits index ([d₁, d₂] ++ [d₃, d] ++ []) s next := h
  have below₁ : d₁.2 ≠ [] → d₁.1 < stop := fun some => (inside₁ some).trans_le ordered
  have late₃ : d₃.2 ≠ [] → start ≤ d₃.1 := fun some => ordered.trans (inside₃ some)
  have late : d.2 ≠ [] → start ≤ d.1 := fun some => ordered.trans (inside some)
  refine ⟨?_, ?_, ?_⟩
  · have perm := first.included_range (a := 0) (b := start) none (by
        simp only [nil_append, forall_mem_cons]
        exact ⟨fun some => .inr (inside₂ some).1, fun some => .inr (late₃ some),
          fun some => .inr (late some), by simp⟩)
      (by simpa using inside₁)
    simpa using perm
  · have perm := second.included_range none (by
        simp only [cons_append, nil_append, forall_mem_cons]
        exact ⟨fun some => .inl (inside₁ some), fun some => .inr (inside₃ some),
          fun some => .inr (inside some), by simp⟩)
      (by simpa using inside₂)
    simpa using perm
  · have perm := third.included_range none (by
        simp only [append_nil, forall_mem_cons]
        exact ⟨fun some => .inl (below₁ some), fun some => .inl (inside₂ some).2, by simp⟩)
      (by
        simp only [forall_mem_cons]
        exact ⟨fun some => ⟨inside₃ some, h.lt_size (d := d₃) (by simp) some⟩,
          fun some => ⟨inside some, h.lt_size (d := d) (by simp) some⟩, by simp⟩)
    simpa using perm

lemma follows_initialise (h : task.session.initialise task = .ok s) (rounds : s.rounds = 0) :
    s.Follows task ∧ s.Spent ∧ ∀ index t, s.store.includedAt index t = [] := by
  have spares := Spares.quiet ((initialise_places task task.session).result h)
  have trackers : s.progress.resolver.trackers = Tracker.startAll task.request.observables :=
    spares.trackers
  refine ⟨⟨?_, ?_⟩, ?_, fun index t => ?_⟩
  · rw [trackers, Tracker.startAll, map_map]
    exact map_id _
  · intro t mem
    rw [trackers] at mem
    obtain ⟨e, _, rfl⟩ := mem_map.mp mem
    rw [rounds]
    rfl
  · intro t mem
    rw [trackers] at mem
    obtain ⟨e, _, rfl⟩ := mem_map.mp mem
    rfl
  · rw [spares.included]
    exact Store.includedAt_of_size_le _ index (Nat.zero_le t)

lemma reads_of_content {c c' : Check} {q q' : Qubit} {basis basis' : Pauli}
    (reads : c.Reads q basis) (reads' : c'.Reads q' basis') (same : c.content = c'.content) :
    q = q' ∧ basis = basis' := by
  have qubits : [q] = [q'] := by rw [← reads.keys_content, ← reads'.keys_content, same]
  obtain rfl := singleton_injective qubits
  obtain ⟨_, m, single, rfl, rfl⟩ := reads
  obtain ⟨_, m', single', qubit, rfl⟩ := reads'
  have operator : ∀ {d : Check} {n : Member}, d.members = [n] →
      d.content.get? n.qubit = some n.operator := by
    intro d n only
    simp [Check.content, only, Table.ofList, Table.insert, Table.insertEntry, Table.empty,
      Table.get?]
  have found := operator single
  have found' := operator single'
  rw [qubit, ← same, found] at found'
  exact ⟨rfl, congrArg Operator.letter (Option.some.inj found')⟩

/-- A final measurement leads to a check of its qubit alone, in the last round or after it. -/
lemma Settles.label {f : Qubit × Pauli} {handle : Nat} (complete : s.Complete task)
    (words : s.rounds < Word.half) (pos : 0 < s.rounds)
    (within : s.store.record.Within next.store.record) (read : ReadOut s.rounds anew more)
    (account : next.store.Account (task.code.measured s.rounds ++ more) keys)
    (h : s.Settles (task.code.measured s.rounds) (s.rounds - 1) next f handle) :
    ∃ e, (task.code.measured s.rounds ++ more)[handle]? = some e ∧ e.1.Reads f.1 f.2 ∧
      (e.2 = s.rounds ∨ e.2 + 1 = s.rounds ∧ ∀ e' ∈ more, ∀ basis, ¬ e'.1.Reads f.1 basis) := by
  have size := complete.size_record
  rcases h with ⟨c, t, fresh, reads, entry⟩ | ⟨c, t, listed, reads, entry, none⟩
  · obtain ⟨e, found, same⟩ := account.made_of_entry entry
    have last := found
    rw [getElem?_append_right (by omega)] at last
    have mem := mem_of_getElem? last
    obtain ⟨f', _, reads', round⟩ := exists_left_of_forall₂ read mem
    obtain ⟨qubit, basis⟩ := reads_of_content reads reads' (congrArg Key.content same)
    rw [← qubit, ← basis] at reads'
    exact ⟨e, found, reads', .inl round⟩
  · obtain ⟨e, found, same⟩ := account.made_of_entry (within entry)
    have old : handle < (task.code.measured s.rounds).length := size ▸ Record.lt_size entry
    have first := found
    rw [getElem?_append_left old] at first
    obtain ⟨below, scheduled⟩ := Code.mem_measured.mp (mem_of_getElem? first)
    obtain ⟨below', scheduled'⟩ := Code.mem_measured.mp listed
    simp only [Key.of, Key.mk.injEq] at same
    obtain ⟨round, content⟩ := same
    rw [Word.signed_of_lt (by omega), Word.signed_of_lt (by omega)] at round
    have round : e.2 = s.rounds - 1 := by omega
    rw [round] at scheduled
    have check : c = e.1 := task.code.eq_of_content scheduled' scheduled content
    rw [check] at reads
    refine ⟨e, found, reads, .inr ⟨by omega, ?_⟩⟩
    intro e' mem basis reads'
    obtain ⟨i, at_i⟩ := getElem?_of_mem mem
    have there : (task.code.measured s.rounds ++ more)[(task.code.measured s.rounds).length + i]? =
        some e' := by
      rwa [getElem?_append_right (by omega), Nat.add_sub_cancel_left]
    obtain ⟨t', entry'⟩ := account.exists_entry there
    exact none _ _ t' (by omega) entry' reads'.keys_content

end Session

namespace Task.Runs

variable {task : Task} {result : Compilation} {prepared layered ended : Session} {placed : Nat}
  {anew : List (Qubit × Pauli)} {more : List (Check × Nat)} {keys closing : List (List Key)}
  {e : Logical × Nat} (runs : task.Runs result prepared layered ended)
include runs

lemma moves (round : Nat) : task.Moves round := by
  have none := runs.complete.1.2.1
  obtain ⟨follows, _⟩ := Session.follows_initialise runs.prepares none
  obtain ⟨stages, placed⟩ := Session.placed_stages runs.placed
  obtain ⟨n, rounds⟩ := runs.complete.2.rounds_eq_mul runs.complete.1.2.1
  have pos := runs.finished.1
  apply moves_of_period runs.fault
  intro r below
  apply follows.moves_of_stages placed r (by omega)
  rw [rounds] at pos ⊢
  exact below.trans_le (Nat.le_mul_of_pos_left _ (Nat.pos_of_mul_pos_right pos))

variable (words : layered.rounds < Word.half)
  (ledger : layered.Ledger task ended placed anew more keys closing)
include words ledger

lemma isFinal {f : Qubit × Pauli} {place : Nat → Nat} {handle : Nat}
    (moved : ∀ h o, (task.code.measured layered.rounds ++ more)[h]? = some o →
      (layered.labels task ended more)[place h]? =
        some (postpone (task.request.layers * task.code.period - layered.rounds) o))
    (h : layered.Settles (task.code.measured layered.rounds) (layered.rounds - 1) ended f handle) :
    task.request.IsFinal task.code (layered.labels task ended more) f (place handle) := by
  have rounds_le := runs.rounds_le words ledger
  obtain ⟨o, found, reads, round⟩ := h.label runs.complete.2.complete words runs.finished.1
    runs.finished.2.within ledger.read ledger.account
  refine ⟨_, moved handle o found, reads, ?_⟩
  change o.2 + _ = _ ∨ o.2 + _ + 1 = _ ∧ _
  rcases round with last | ⟨last, none⟩
  · exact .inl (by omega)
  · refine .inr ⟨by omega, fun o' mem round basis reads' => ?_⟩
    rcases mem_append.mp ((runs.labels_perm words ledger).mem_iff.mp mem) with old | new
    · have below := (Code.mem_measured.mp old).1
      omega
    · obtain ⟨o'', inside, rfl⟩ := mem_map.mp new
      exact none o'' inside basis reads'

/-- Final measurements are outcomes of the last layer, or come after it. -/
lemma stop_le_final {start stop n handle t : Nat} {f : Qubit × Pauli} {key : Key}
    (folded : ended.store.Folded task.code more start stop n)
    (three : layered.rounds = 3 * task.code.period)
    (h : layered.Settles (task.code.measured layered.rounds) (layered.rounds - 1) ended f handle)
    (entry : ended.store.record.entry? handle = some (key, t)) : stop ≤ t := by
  obtain ⟨o, found, _, round⟩ := h.label runs.complete.2.complete words runs.finished.1
    runs.finished.2.within ledger.read ledger.account
  have place := task.code.lt_length_measured_iff
    (by omega : 2 * task.code.period ≤ layered.rounds) ledger.read.round found
  have cut := folded.second entry
  have pos := task.code.period_pos
  omega

variable (mem : e ∈ task.request.observables.zipIdx)
include mem

lemma observes_of {place : Nat → Nat} {toggled final : List Nat} {inclusions : List Int}
    (moved : ∀ h o, (task.code.measured layered.rounds ++ more)[h]? = some o →
      (layered.labels task ended more)[place h]? =
        some (postpone (task.request.layers * task.code.period - layered.rounds) o))
    (made : Handles (layered.labels task ended more)
      (e.1.toggledIn task.code 0 (task.request.layers * task.code.period)) toggled)
    (settles : Forall₂ (layered.Settles (task.code.measured layered.rounds) (layered.rounds - 1)
      ended) (e.1.before layered.rounds).factors.entries final)
    (parity : SameParity inclusions ((toggled ++ final.map place).map Int.ofNat)) :
    task.request.Observes task.code (layered.labels task ended more) e.1 inclusions toggled
      (final.map place) := by
  have listed := mem_of_getElem? (mem_zipIdx_iff_getElem?.mp mem)
  have returned : ∀ n, e.1.before (n * task.code.period) = e.1.before 0 := by
    intro n
    rw [← Nat.zero_add (n * _), e.1.before_add_mul (Request.period_dvd runs.fault listed)]
  refine (runs.accounts words ledger).observes made ?_ parity fun q => ?_
  · obtain ⟨n, rounds⟩ := runs.complete.2.rounds_eq_mul runs.complete.1.2.1
    rw [rounds, returned, ← rounds] at settles
    rw [forall₂_map_right_iff]
    exact settles.imp fun f h settle => runs.isFinal words ledger moved settle
  · have letters := e.1.letter_before (n := task.request.layers * task.code.period)
      (fun r _ => runs.moves r e.1 listed) q
    rw [returned] at letters
    exact Pauli.eq_I_of_times letters

/-- Observables of a program without a block. -/
lemma observes_flat (run : prepared.compileLayers task task.request.layers = .ok layered)
    (region : ended.store.region = none)
    (all : layered.rounds = task.request.layers * task.code.period) :
    ∃ toggled finals, task.request.Observes task.code (layered.labels task ended more) e.1
      (Instruction.inclusions e.2 0 (Instruction.unrollAll ended.store.bodyInstructions))
      toggled finals := by
  obtain ⟨⟨complete, none, _⟩, layers⟩ := runs.complete
  obtain ⟨follows, spent, bare⟩ := Session.follows_initialise runs.prepares none
  obtain ⟨follows, spent, gathers⟩ :=
    follows.compileLayers runs.extractable _ complete spent (by omega) run
  obtain ⟨parts, handles, gather⟩ := gathers e mem
  obtain ⟨tick, part, final, deposits, _, parity, settles⟩ :=
    follows.measureFinals layers.complete spent runs.fault runs.measures e mem
  have account := ledger.account
  have written := gather.deposits.trans deposits
  have included : SameParity (Store.included e.2 (ended.store.between 0 ended.store.size))
      (handles ++ final) := by
    apply (SameParity.of_perm (written.included_perm (bare e.2) 0 ended.store.size)).trans
    rw [flatMap_filter_eq, flatMap_append, flatMap_singleton]
    · exact gather.parity.append parity
    · intro d inside some_handle
      simpa using written.lt_size inside some_handle
  have moved : ∀ h o, (task.code.measured layered.rounds ++ more)[h]? = some o →
      (layered.labels task ended more)[ended.store.placeIn ended.store.size 0 h]? = some o := by
    intro h o found
    rw [Session.labels, Store.labels_flat region]
    exact account.label_of_made found (account.mem_orderBelow_size found)
  have made := gather.made
  rw [none] at made
  refine ⟨_, _, runs.observes_of words ledger mem (fun h o found => ?_) ?_ settles
    (account.sound.includes_flat region included)⟩
  · rw [all, Nat.sub_self]
    exact moved h o found
  · rw [Handles, forall₂_map_right_iff]
    exact (made.mono (prefix_append _ more)).imp fun o h => moved h o

/-- Observables of a program with a block, which counts once for each repetition. -/
lemma observes_folded {s₁ s₂ : Session} {start₁ stop₁ start₂ stop₂ start₃ stop₃ n : Nat}
    (layers : task.request.layers = n + 3)
    (first : prepared.compileLayer task = .ok (s₁, start₁, stop₁))
    (second : s₁.compileLayer task = .ok (s₂, start₂, stop₂))
    (third : (s₂.mark start₂ stop₂ (n + 1)).compileLayer task = .ok (layered, start₃, stop₃))
    (same : s₂.sameMeasurements task (start₁, stop₁) (start₂, stop₂) = .ok true) :
    ∃ toggled finals, task.request.Observes task.code (layered.labels task ended more) e.1
      (Instruction.inclusions e.2 0 (Instruction.unrollAll ended.store.bodyInstructions))
      toggled finals := by
  have extractable := runs.extractable
  obtain ⟨⟨complete, none, _⟩, _⟩ := runs.complete
  have folds := complete.folds extractable none first second third runs.finished.2
  have layer₁ := folds.first
  have layer₂ := folds.second
  have marked := layer₂.complete.mark layer₂.ordered layer₂.stop_le (n + 1)
  have rounds₁ := folds.rounds_first
  have rounds₂ : (s₂.mark start₂ stop₂ (n + 1)).rounds = 2 * task.code.period := folds.rounds_second
  have rounds₃ := folds.rounds_third
  obtain ⟨follows, spent, bare⟩ := Session.follows_initialise runs.prepares none
  obtain ⟨follows₁, spent₁, adds₁⟩ :=
    follows.compileLayer extractable complete spent (by omega) first
  obtain ⟨follows₂, spent₂, adds₂⟩ :=
    follows₁.compileLayer extractable layer₁.complete spent₁ (by omega) second
  obtain ⟨follows₃, spent₃, adds₃⟩ :=
    (follows₂.between (.mark ..)).compileLayer extractable marked spent₂ (by omega) third
  obtain ⟨tick₁, part₁, handles₁, add₁, inside₁⟩ := adds₁ e mem
  obtain ⟨tick₂, part₂, handles₂, add₂, inside₂⟩ := adds₂ e mem
  obtain ⟨tick₃, part₃, handles₃, add₃, inside₃⟩ := adds₃ e mem
  obtain ⟨tick, part, final, deposits, attained, parity, settles⟩ :=
    follows₃.measureFinals folds.third.complete spent₃ runs.fault runs.measures e mem
  have folded := folds.folded (Session.keysIn_of_sameMeasurements extractable complete first second
    same) ledger.account words
  have late : part ≠ [] → stop₂ ≤ tick := by
    intro some_handle
    obtain ⟨h, inside, key, entry⟩ := attained some_handle
    obtain ⟨f, _, settle⟩ := exists_left_of_forall₂ settles inside
    exact runs.stop_le_final words ledger folded rounds₃ settle entry
  -- marking ticks as repeated includes nothing
  have deposits₃ : Session.Deposits e.2 [(tick₃, part₃)] s₂ layered := add₃.deposits
  have start_second := folds.start_second
  have start_third := folds.start_third
  have stop_first := layer₁.stop_le
  have stop_second := layer₂.stop_le
  obtain ⟨included₁, included₂, included₃⟩ :=
    (((add₁.deposits.trans add₂.deposits).trans deposits₃).trans deposits).included_layers
      (bare e.2) folded.ordered (fun some_handle => by have := inside₁ some_handle; omega)
      inside₂ (fun some_handle => by have := inside₃ some_handle; omega) late
  have parity₁ := add₁.parity
  have parity₂ := add₂.parity
  have parity₃ := add₃.parity
  rw [flatMap_singleton] at parity₁ parity₂ parity₃
  have made₁ := add₁.made.mono (task.code.measured_prefix (by omega : s₁.rounds ≤ layered.rounds))
  have made₂ := add₂.made.mono (task.code.measured_prefix
    (folds.third.rounds ▸ Nat.le_add_right .. : s₂.rounds ≤ layered.rounds))
  have made₃ := add₃.made
  have account := ledger.account
  have read := ledger.read.round
  rw [none] at made₁
  rw [rounds₁] at made₂
  rw [rounds₂] at made₃
  rw [rounds₃] at account read made₁ made₂ made₃
  refine ⟨_, _, runs.observes_of words ledger mem (fun h o found => ?_) ?_ settles
    (folded.toRepeats.includes account ((SameParity.of_perm included₁).trans parity₁)
      ((SameParity.of_perm included₂).trans parity₂)
      ((SameParity.of_perm included₃).trans (parity₃.append parity)))⟩
  · rw [layers, rounds₃, Nat.add_mul, Nat.add_sub_cancel, Session.labels, rounds₃]
    rw [rounds₃] at found
    exact folded.toRepeats.label_last account found
  · have period := Request.period_dvd runs.fault
      (mem_of_getElem? (mem_zipIdx_iff_getElem?.mp mem))
    rw [layers, Session.labels, rounds₃]
    exact folded.handles account read period (made₁.mono (prefix_append _ more))
      (made₂.mono (prefix_append _ more)) (made₃.mono (prefix_append _ more))

omit mem in
lemma observes : ∀ e ∈ task.request.observables.zipIdx, ∃ toggled finals,
    task.request.Observes task.code (layered.labels task ended more) e.1
      (Instruction.inclusions e.2 0 (Instruction.unrollAll ended.store.bodyInstructions))
      toggled finals := by
  intro e mem
  have placed := runs.placed
  have shape := runs.shape words ledger
  generalize result.report.repeated = repeated at placed shape
  cases placed with
  | flat run =>
    obtain ⟨_, region, all⟩ | ⟨impossible, _⟩ := shape
    · exact runs.observes_flat words ledger mem run region all
    · cases impossible
  | folded enough first second _ same _ third =>
    obtain ⟨n, layers⟩ := Nat.exists_eq_add_of_le' enough
    have repetitions : task.request.layers - 2 = n + 1 := by omega
    rw [repetitions] at third
    exact runs.observes_folded words ledger mem layers first second third same

end Task.Runs

/-- Observables accumulate exactly the right parity, if a word holds the number of rounds that are
placed. With its blocks written out, a program includes an outcome in an observable an odd number of
times if it is toggled in some round, where the representative changes and shares a qubit with the
check, or if it is the final measurement of a qubit of the representative, but not if it is both.
The product of these outcomes is the first representative. -/
theorem Compiler.observables_exact {c : Compiler} {code : Code} {request : Request}
    {result : Compilation} (compiled : c.compile code request = .ok result)
    (words : result.report.rounds < Word.half) :
    ∃ labels, request.Accounts code result.store labels ∧
      List.Forall₂ (fun e outcome => e.1.MeasuredAs result.store.qubits outcome) labels
        (Instruction.outcomesOf result.program.unrolled) ∧
      ∀ (k : Nat) (l : Logical), request.observables[k]? = some l → ∃ toggled finals,
        request.Observes code labels l (Instruction.inclusions k 0 result.program.unrolled)
          toggled finals := by
  obtain ⟨prepared, layered, ended, run⟩ := compile_eq_ok compiled
  rw [run.rounds_eq] at words
  obtain ⟨_, _, _, _, ledger⟩ := run.finished.2.account
  have observes := run.observes words ledger
  obtain ⟨outcomes_eq, annotations_eq⟩ := ended.store.program_annotations c.options.layout
  have program : result.program = ended.store.program c.options.layout := run.program_eq
  rw [run.store]
  refine ⟨_, run.accounts words ledger, ?_, fun k l found => ?_⟩
  · rw [program, outcomes_eq]
    exact (run.reading words ledger).1
  · obtain ⟨toggled, finals, observed⟩ :=
      observes (l, k) (List.mem_zipIdx_iff_getElem?.mpr found)
    refine ⟨toggled, finals, ?_⟩
    rw [program, Instruction.inclusions, annotations_eq]
    exact observed

/-! Two rounds with the same check, and an observable that moves to the other qubit and back
again. -/

namespace PairCode

/-- An observable that is represented on the left and on the right by turns. -/
def swinging : Logical := ⟨[[(left, .positive .Z)], [(right, .positive .Z)]], by decide⟩

def twice : Code :=
  ⟨.ofList [left, right], [[check], [check]],
    [[detector], [{ detector with ends := 1 }]], [swinging], by decide⟩

theorem observables_exact_swinging :
    ∃ result, (compiler {}).compile twice { layers := 5, observables := [swinging] } = .ok result ∧
      result.report.rounds < Word.half ∧ result.report.repeated = true ∧
      ∃ labels, ({ layers := 5, observables := [swinging] } : Request).Accounts twice
          result.store labels ∧
        List.Forall₂ (fun e outcome => e.1.MeasuredAs result.store.qubits outcome) labels
          (Instruction.outcomesOf result.program.unrolled) ∧
        ∀ (k : Nat) (l : Logical), [swinging][k]? = some l → ∃ toggled finals,
          ({ layers := 5, observables := [swinging] } : Request).Observes twice labels l
            (Instruction.inclusions k 0 result.program.unrolled) toggled finals := by
  have report : ((compiler {}).compile twice
      { layers := 5, observables := [swinging] }).toOption.map
        (fun r => (r.report.rounds, r.report.repeated)) = some (6, true) := by
    decide +kernel
  obtain ⟨result, compiled, same⟩ := Outcome.exists_ok_of_map report
  obtain ⟨rounds, repeated⟩ := Prod.mk.inj same
  have words : result.report.rounds < Word.half := by
    rw [rounds]
    decide
  exact ⟨result, compiled, words, repeated, Compiler.observables_exact compiled words⟩

end PairCode

end SyndromeSchedule
