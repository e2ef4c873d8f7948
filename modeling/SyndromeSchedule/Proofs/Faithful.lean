import SyndromeSchedule.Proofs.Reading
import SyndromeSchedule.Proofs.Runs

/-!
Compilations are faithful to the schedule: with its blocks written out, a program measures every
check in every round in which it is scheduled, and nothing else but the data qubits at the end; its
detectors are those of the schedule that the initial state does not rule out, and each of them
refers to its own outcomes.
-/

namespace SyndromeSchedule

open List

variable {rounds : Nat} {anew : List (Qubit × Pauli)} {more : List (Check × Nat)}
  {keys : List (List Key)}

namespace Code

variable (code : Code)

lemma measured_split {more : Nat} (le : rounds ≤ more) :
    code.measured more = code.measured rounds ++
      (List.range' rounds (more - rounds)).flatMap code.measuredIn := by
  obtain ⟨n, rfl⟩ := Nat.exists_eq_add_of_le le
  rw [measured, range_add, flatMap_append, Nat.add_sub_cancel_left, flatMap_map,
    measured, range'_eq_map_range, flatMap_map]

lemma lt_length_measured_iff {all : Nat} (le : rounds ≤ all) (final : ∀ e ∈ more, e.2 = all)
    {h : Nat} {e : Check × Nat}
    (found : (code.measured all ++ more)[h]? = some e) :
    h < (code.measured rounds).length ↔ e.2 < rounds := by
  rw [code.measured_split le, append_assoc] at found
  constructor
  · intro inside
    rw [getElem?_append_left inside] at found
    exact (mem_measured.mp (mem_of_getElem? found)).1
  · intro early
    by_contra past
    rw [getElem?_append_right (by omega)] at found
    rcases mem_append.mp (mem_of_getElem? found) with later | last
    · obtain ⟨r, inside, mem⟩ := mem_flatMap.mp later
      rw [mem_range'_1] at inside
      have round := (mem_measuredIn.mp mem).2
      omega
    · have round := final e last
      omega

lemma eq_of_content {round : Nat} {c c' : Check} (mem : c ∈ code.checksIn round)
    (member' : c' ∈ code.checksIn round) (same : c.content = c'.content) : c = c' :=
  inj_on_of_nodup_map (code.contents_nodup round) mem member' same

end Code

lemma labelsOf_range (made : List (Check × Nat)) (m : Nat) (le : m ≤ made.length) :
    Store.labelsOf made (List.range m) = made.take m := by
  refine ext_getElem? fun i => ?_
  rw [Store.getElem_labelsOf fun h mem => (mem_range.mp mem).trans_le le]
  by_cases bound : i < m
  · simp [bound]
  · have past : (made.take m)[i]? = none := getElem?_eq_none (by rw [length_take]; omega)
    have past' : (range m)[i]? = none := getElem?_eq_none (by rw [length_range]; omega)
    rw [past, past']
    rfl

namespace Store

variable {made : List (Check × Nat)} {keys : List (List Key)} {s : Store}

lemma Account.orderBelow_perm (account : Account made keys s) {n m : Nat} (le : m ≤ made.length)
    (cut : ∀ {h t : Nat} {key : Key}, s.record.entry? h = some (key, t) → (h < m ↔ t < n)) :
    (s.orderBelow n).Perm (List.range m) := by
  refine (perm_ext_iff_of_nodup (account.sound.orderBelow_nodup n) nodup_range).mpr ?_
  intro h
  rw [account.sound.mem_orderBelow, mem_range]
  constructor
  · rintro ⟨key, t, entry, below⟩
    exact (cut entry).mpr below
  · intro inside
    obtain ⟨key, t, entry⟩ := Record.exists_entry (account.length_made ▸ inside.trans_le le)
    exact ⟨key, t, entry, (cut entry).mp inside⟩

lemma Account.labels_perm (account : Account made keys s) {n m : Nat} (le : m ≤ made.length)
    (cut : ∀ {h t : Nat} {key : Key}, s.record.entry? h = some (key, t) → (h < m ↔ t < n)) :
    (labelsOf made (s.orderBelow n)).Perm (made.take m) := by
  rw [← labelsOf_range made m le]
  exact (account.orderBelow_perm le cut).filterMap _

lemma Account.labels_size_perm (account : Account made keys s) :
    (labelsOf made (s.orderBelow s.size)).Perm made := by
  have all := account.labels_perm (n := s.size) le_rfl fun {h t key} entry => by
    obtain ⟨e, found, _⟩ := account.made_of_entry entry
    exact iff_of_true (lt_of_getElem? found) (account.sound.tick_lt_size entry)
  rwa [take_length] at all

lemma orderIn_congr {other : Store} {start stop : Nat}
    (h : ∀ t < stop, (s.tickAt t).gates = (other.tickAt t).gates) :
    s.orderIn start stop = other.orderIn start stop := by
  rw [orderIn, orderIn, between, between, flatMap_map, flatMap_map]
  refine flatMap_congr fun t inside => ?_
  rw [mem_range'_1] at inside
  simp only [handlesIn, h t (by omega)]

lemma keysIn_eq_labels {later : Store} (sound : s.Sound) (account : Account made keys later)
    (within : s.record.Within later.record) (start stop : Nat) :
    s.keysIn start stop = (labelsOf made (s.orderIn start stop)).map fun e =>
      Key.of e.1 (Word.signed e.2) := by
  rw [keysIn, labelsOf, map_filterMap]
  refine filterMap_congr fun h mem => ?_
  obtain ⟨key, t, entry, _⟩ := sound.entry?_of_mem_orderIn mem
  obtain ⟨e, found, same⟩ := account.made_of_entry (within entry)
  rw [entry, found, Option.map_some, Option.map_some, same]

end Store

namespace Session

variable {s next : Session} {task : Task}

lemma Complete.size_record (complete : s.Complete task) :
    s.store.record.size = (task.code.measured s.rounds).length := by
  obtain ⟨keys, _, account⟩ := complete.safe.account
  exact account.length_made.symm

lemma Layer.start_eq_size {start stop : Nat}
    (layer : s.Layer task next start stop) (pos : 0 < s.rounds) : start = s.store.size := by
  rw [layer.start_eq, if_neg (by omega)]

lemma Finished.within {placed : Nat}
    (finished : s.Finished task next placed) : s.store.record.Within next.store.record := by
  obtain ⟨mid, items, ends, noted⟩ := finished.ends
  intro h e found
  rw [noted, Store.record_withNotes]
  exact ends.within found

lemma Finished.entry_cases {placed h t : Nat} {key : Key} (finished : s.Finished task next placed)
    (entry : next.store.record.entry? h = some (key, t)) :
    s.store.record.entry? h = some (key, t) ∨
      s.store.record.entry? h = none ∧ t = s.store.size := by
  obtain ⟨mid, items, ends, noted⟩ := finished.ends
  cases old : s.store.record.entry? h with
  | none =>
    rw [noted, Store.record_withNotes] at entry
    exact .inr ⟨rfl, ends.placed entry old⟩
  | some e => exact .inl ((finished.within old).symm.trans entry)

/-- Three layers from the beginning, of which the second is marked as repeated, and the end. -/
structure Folds (task : Task) (s₀ s₁ s₂ s₃ next : Session)
    (start₁ stop₁ start₂ stop₂ start₃ stop₃ repetitions placed : Nat) : Prop where
  complete : s₀.Complete task
  begun : s₀.rounds = 0
  first : s₀.Layer task s₁ start₁ stop₁
  second : s₁.Layer task s₂ start₂ stop₂
  third : (s₂.mark start₂ stop₂ repetitions).Layer task s₃ start₃ stop₃
  finished : s₃.Finished task next placed

lemma Complete.folds {s₀ s₁ s₂ s₃ next : Session}
    {start₁ stop₁ start₂ stop₂ start₃ stop₃ repetitions placed : Nat}
    (complete : s₀.Complete task) (extractable : task.Extractable) (begun : s₀.rounds = 0)
    (first : s₀.compileLayer task = .ok (s₁, start₁, stop₁))
    (second : s₁.compileLayer task = .ok (s₂, start₂, stop₂))
    (third : (s₂.mark start₂ stop₂ repetitions).compileLayer task = .ok (s₃, start₃, stop₃))
    (finished : s₃.Finished task next placed) :
    Folds task s₀ s₁ s₂ s₃ next start₁ stop₁ start₂ stop₂ start₃ stop₃ repetitions placed := by
  have layer₁ := complete.layer extractable first
  have layer₂ := layer₁.complete.layer extractable second
  have marked := layer₂.complete.mark layer₂.ordered layer₂.stop_le repetitions
  exact ⟨complete, begun, layer₁, layer₂, marked.layer extractable third, finished⟩

namespace Folds

variable {task : Task} {s₀ s₁ s₂ s₃ next : Session}
  {start₁ stop₁ start₂ stop₂ start₃ stop₃ repetitions placed : Nat}
  (folds : Folds task s₀ s₁ s₂ s₃ next start₁ stop₁ start₂ stop₂ start₃ stop₃ repetitions placed)
include folds

lemma rounds_first : s₁.rounds = task.code.period := by
  rw [folds.first.rounds, folds.begun, Nat.zero_add]

lemma rounds_second : s₂.rounds = 2 * task.code.period := by
  rw [folds.second.rounds, folds.rounds_first, Nat.two_mul]

lemma rounds_third : s₃.rounds = 3 * task.code.period := by
  have third : s₃.rounds = s₂.rounds + task.code.period := folds.third.rounds
  rw [third, folds.rounds_second, ← Nat.succ_mul]

lemma start_second : start₂ = s₁.store.size := by
  apply folds.second.start_eq_size
  rw [folds.rounds_first]
  exact task.code.period_pos

lemma start_third : start₃ = s₂.store.size := by
  apply folds.third.start_eq_size
  have twice := folds.rounds_second
  have period := task.code.period_pos
  change 0 < s₂.rounds
  omega

lemma within_second : s₂.store.record.Within next.store.record := fun found =>
  folds.finished.within (folds.third.within found)

/-- Outcomes stand in the layer of their round: handles and ticks are cut at the same places. -/
lemma cuts {h t : Nat} {key : Key} (entry : next.store.record.entry? h = some (key, t)) :
    (h < (task.code.measured task.code.period).length ↔ t < start₂) ∧
      (h < (task.code.measured (2 * task.code.period)).length ↔ t < stop₂) ∧
      (t < start₂ → t < stop₁) := by
  have size₀ := folds.complete.size_record
  have size₁ := folds.first.complete.size_record
  have size₂ := folds.second.complete.size_record
  have none₀ : s₀.store.record.size = 0 := by
    rw [size₀, folds.begun]
    rfl
  rw [folds.rounds_first] at size₁
  rw [folds.rounds_second] at size₂
  have start_second := folds.start_second
  have start_third := folds.start_third
  have stop_first := folds.first.stop_le
  have stop_second := folds.second.stop_le
  have ordered := folds.second.ordered
  have known : ∀ {s : Session}, h < s.store.record.size →
      s.store.record.Within next.store.record → s.store.record.entry? h = some (key, t) := by
    intro s inside within
    obtain ⟨_, _, found⟩ := Record.exists_entry inside
    have same := within found
    rw [entry] at same
    rw [found, ← same]
  have within₁ : s₁.store.record.Within next.store.record := fun found =>
    folds.within_second (folds.second.within found)
  rw [← size₁, ← size₂]
  have grown : s₁.store.record.size ≤ s₂.store.record.size := by
    rw [size₁, size₂, task.code.measured_split (by omega : task.code.period ≤ 2 * task.code.period)]
    simp
  by_cases old : h < s₁.store.record.size
  · have place := folds.first.placed (known old within₁) (Record.entry?_eq_none (by omega))
    omega
  · by_cases recent : h < s₂.store.record.size
    · have place := folds.second.placed (known recent folds.within_second)
        (Record.entry?_eq_none (by omega))
      omega
    · have after : start₃ ≤ t := by
        by_cases there : h < s₃.store.record.size
        · have fresh : (s₂.mark start₂ stop₂ repetitions).store.record.entry? h = none :=
            Record.entry?_eq_none (r := s₂.store.record) (by omega)
          exact (folds.third.placed (known there folds.finished.within) fresh).1
        · have size := folds.third.size_le
          have same : (s₂.mark start₂ stop₂ repetitions).store.size = s₂.store.size := rfl
          rcases folds.finished.entry_cases entry with made | ⟨_, last⟩
          · exact absurd (Record.lt_size made) there
          · omega
      omega

lemma gates_eq {t : Nat} (below : t < stop₂) :
    (next.store.tickAt t).gates = (s₂.store.tickAt t).gates := by
  obtain ⟨mid, items, ends, noted⟩ := folds.finished.ends
  have start_third := folds.start_third
  have inside := folds.second.stop_le
  have size : s₂.store.size ≤ s₃.store.size := folds.third.size_le
  rw [noted, Store.tickAt_withNotes, ends.ticks t (by omega)]
  exact folds.third.gates t (by omega)

variable (same : (s₂.store.keysIn start₁ stop₁).map (Key.since 0) =
    (s₂.store.keysIn start₂ stop₂).map (Key.since task.code.period))
  (account : next.store.Account (task.code.measured s₃.rounds ++ more) keys)
  (words : s₃.rounds < Word.half)
include same account words

/-- The marked layer measures what the first did, one period later. -/
lemma labels_eq :
    Store.labelsOf (task.code.measured s₃.rounds ++ more) (next.store.orderIn start₂ stop₂) =
      (Store.labelsOf (task.code.measured s₃.rounds ++ more)
        (next.store.orderBelow start₂)).map (postpone task.code.period) := by
  have rounds₃ := folds.rounds_third
  have begin : start₁ = 0 := by rw [folds.first.start_eq, if_pos folds.begun]
  have start_second := folds.start_second
  have stop_first := folds.first.stop_le
  have ordered := folds.second.ordered
  have labels := Store.keysIn_eq_labels folds.second.complete.safe.sound account folds.within_second
  rw [labels, labels, begin,
    Store.orderIn_congr fun t below => (folds.gates_eq (by omega : t < stop₂)).symm,
    Store.orderIn_congr fun t below => (folds.gates_eq below).symm] at same
  have gap : next.store.orderIn stop₁ start₂ = [] := by
    rw [eq_nil_iff_forall_not_mem]
    intro h mem
    obtain ⟨key, t, entry, low, high⟩ := account.sound.entry?_of_mem_orderIn mem
    have early := (folds.cuts entry).2.2 high
    omega
  have before : next.store.orderBelow start₂ = next.store.orderIn 0 stop₁ := by
    rw [next.store.orderBelow_append (by omega : stop₁ ≤ start₂), gap, append_nil]
    exact next.store.orderBelow_append (Nat.zero_le stop₁)
  rw [before]
  rw [map_map, map_map, maps_eq_iff] at same
  symm
  rw [← forall₂_eq_eq_eq, forall₂_map_left_iff]
  have scheduled : ∀ e ∈ Store.labelsOf (task.code.measured s₃.rounds ++ more)
      (next.store.orderBelow stop₂), e.2 < s₃.rounds ∧ e.1 ∈ task.code.checksIn e.2 := by
    intro e mem
    obtain ⟨h, inside, found⟩ := mem_filterMap.mp mem
    obtain ⟨key, t, entry, below⟩ := account.sound.mem_orderBelow.mp inside
    have early := (folds.cuts entry).2.1.mpr below
    have split := task.code.measured_split (by omega : 2 * task.code.period ≤ s₃.rounds)
    rw [getElem?_append_left (by rw [split, length_append]; omega)] at found
    exact Code.mem_measured.mp (mem_of_getElem? found)
  rw [next.store.orderBelow_append ordered, before, Store.labelsOf_append] at scheduled
  refine forall₂_of_mem same ?_
  rintro ⟨c, r⟩ mem ⟨c', r'⟩ member' alike
  obtain ⟨below, listed⟩ := scheduled _ (mem_append_left _ mem)
  obtain ⟨below', listed'⟩ := scheduled _ (mem_append_right _ member')
  simp only at below listed below' listed'
  simp only [Function.comp, Key.since, Key.of, Key.mk.injEq,
    Word.signed_of_lt (lt_trans below words),
    Word.signed_of_lt (lt_trans below' words)] at alike
  have round : r' = r + task.code.period := by omega
  rw [round, task.code.checksIn_add_period] at listed'
  rw [postpone, task.code.eq_of_content listed listed' alike.2, round]

omit folds in
lemma repeats {n : Nat}
    (folds : Folds task s₀ s₁ s₂ s₃ next start₁ stop₁ start₂ stop₂ start₃ stop₃ (n + 1) placed) :
    next.store.Repeats (task.code.measured s₃.rounds ++ more) task.code.period start₂ stop₂ n := by
  have region : next.store.region = some ⟨start₂, stop₂, n + 1⟩ :=
    folds.finished.region.trans folds.third.region
  obtain ⟨ordered, bounded⟩ := folds.finished.marked _ region
  exact ⟨region, ordered, bounded, folds.labels_eq same account words⟩

end Folds

end Session

/-! Which detectors stand in which layer. -/

def allBefore (round : Nat) (keys : List Key) : Bool := keys.all fun key => key.round < round

lemma allBefore_iff {round : Nat} {keys : List Key} :
    allBefore round keys = true ↔ ∀ key ∈ keys, key.round < round := by
  simp [allBefore]

lemma allBefore_eq_false {round : Nat} {keys : List Key} {key : Key} (mem : key ∈ keys)
    (late : round ≤ key.round) : allBefore round keys = false := by
  rw [← Bool.not_eq_true, allBefore_iff]
  exact fun before => absurd (before key mem) (Int.not_lt.mpr late)

lemma allBefore_later (round m : Nat) (keys : List Key) :
    allBefore (round + m) (keys.map (Key.later m)) = allBefore round keys := by
  rw [Bool.eq_iff_iff, allBefore_iff, allBefore_iff]
  simp [Key.later]

namespace Store

variable {code : Code} {rounds : Nat} {more : List (Check × Nat)} {keys : List (List Key)}
  {s : Store}

/-- If outcomes of the first rounds are those before some tick, then a detector stands before it if
its keys are of these rounds. -/
theorem Account.allBefore_iff_lt (account : Account (code.measured rounds ++ more) keys s)
    (final : ∀ e ∈ more, e.2 = rounds) (words : rounds < Word.half) {round tick : Nat}
    (le : round ≤ rounds)
    (cut : ∀ {h t : Nat} {key : Key}, s.record.entry? h = some (key, t) →
      (h < (code.measured round).length ↔ t < tick))
    {k : List Key} {e : Nat × Note} (refers : s.record.Refers k e) (some_key : k ≠ []) :
    allBefore round k = true ↔ e.1 < tick := by
  have early : ∀ {h t : Nat} {key : Key}, s.record.entry? h = some (key, t) →
      (key.round < round ↔ t < tick) := by
    intro h t key entry
    obtain ⟨⟨c, r⟩, found, rfl⟩ := account.made_of_entry entry
    have bound : r ≤ rounds := by
      rcases mem_append.mp (mem_of_getElem? found) with inside | last
      · exact (Code.mem_measured.mp inside).1.le
      · exact le_of_eq (final _ last)
    rw [← cut entry, code.lt_length_measured_iff le final found, Key.of,
      Word.signed_of_lt (by omega)]
    exact Int.ofNat_lt
  obtain ⟨⟨key, inside, handle, entry⟩, all⟩ := refers.attained some_key
  rw [allBefore_iff]
  constructor
  · intro before
    exact (early entry).mp (before key inside)
  · intro below other mem
    obtain ⟨handle', t', entry', le'⟩ := all other mem
    exact (early entry').mpr (by omega)

end Store

lemma interleave {α : Type} (f g : Nat → List α) (m : Nat) :
    f 0 ++ ((List.range m).flatMap fun j => g j ++ f (j + 1)) ++ g m =
      (List.range (m + 1)).flatMap fun j => f j ++ g j := by
  induction m with
  | zero => simp
  | succ m ih =>
    rw [range_succ, flatMap_append, flatMap_singleton, range_succ,
      flatMap_append, flatMap_singleton, ← ih]
    simp only [append_assoc]

/-- Items of three layers and of the end, told apart by what they are before. Each part is kept
whole, dropped, or split into early and late. -/
theorem filter_layers {α : Type} {one two closing : List α} {next : α → α} {p₁ p₂ : α → Bool}
    (first : ∀ k ∈ one, p₁ k = true) (wide : ∀ k, p₁ k = true → p₂ k = true)
    (second : ∀ k ∈ two, p₂ k = true)
    (third : ∀ k ∈ two, p₁ (next k) = false ∧ p₂ (next k) = p₁ k)
    (fourth : ∀ k ∈ closing, p₂ k = false) :
    (one ++ two ++ two.map next ++ closing).filter p₁ = one ++ two.filter p₁ ∧
      (one ++ two ++ two.map next ++ closing).filter (fun k => !p₁ k && p₂ k) =
        two.filter (fun k => !p₁ k) ++ (two.filter p₁).map next ∧
      (one ++ two ++ two.map next ++ closing).filter (fun k => !p₂ k) =
        (two.filter fun k => !p₁ k).map next ++ closing := by
  have none {l : List α} {p : α → Bool} (h : ∀ a ∈ l, p a = false) : l.filter p = [] :=
    filter_eq_nil_iff.mpr fun a mem => by simp [h a mem]
  have whole {l : List α} {p : α → Bool} (h : ∀ a ∈ l, p a = true) : l.filter p = l :=
    filter_eq_self.mpr h
  have fourth' : ∀ k ∈ closing, p₁ k = false := by
    intro k mem
    rw [← Bool.not_eq_true]
    intro before
    have wider := wide k before
    rw [fourth k mem] at wider
    contradiction
  simp only [filter_append, filter_map (l := two)]
  refine ⟨?_, ?_, ?_⟩
  · have moved : two.filter (p₁ ∘ next) = [] := none fun k mem => (third k mem).1
    rw [whole first, moved, none fourth']
    simp
  · have dropped : one.filter (fun k => !p₁ k && p₂ k) = [] :=
      none fun k mem => by simp [first k mem]
    have ended : closing.filter (fun k => !p₁ k && p₂ k) = [] :=
      none fun k mem => by simp [fourth k mem]
    have stay : two.filter (fun k => !p₁ k && p₂ k) = two.filter fun k => !p₁ k :=
      filter_congr fun k mem => by simp [second k mem]
    have moved : two.filter ((fun k => !p₁ k && p₂ k) ∘ next) = two.filter p₁ :=
      filter_congr fun k mem => by simp [third k mem]
    rw [dropped, ended, stay, moved]
    simp
  · have dropped : one.filter (fun k => !p₂ k) = [] :=
      none fun k mem => by simp [wide k (first k mem)]
    have dropped' : two.filter (fun k => !p₂ k) = [] := none fun k mem => by simp [second k mem]
    have ended : closing.filter (fun k => !p₂ k) = closing :=
      whole fun k mem => by simp [fourth k mem]
    have moved : two.filter ((fun k => !p₂ k) ∘ next) = two.filter fun k => !p₁ k :=
      filter_congr fun k mem => by simp [third k mem]
    rw [dropped, dropped', ended, moved]
    simp

namespace Request

variable {request : Request} {code : Code}

lemma Expects.round {place : Nat × Nat} {keys : List Key}
    (expects : request.Expects code place keys) {key : Key} (mem : key ∈ keys) :
    0 ≤ key.round ∧ key.round ≤ place.1 ∧ (place.1 : Int) ≤ key.round + code.period := by
  obtain ⟨d, found, rfl, _⟩ := expects
  obtain ⟨t, kept, rfl⟩ := mem_map.mp (mem_of_mem_oddItems mem)
  obtain ⟨timed, nonneg⟩ := mem_filter.mp kept
  obtain ⟨back, past, _⟩ := code.timed_scheduled (mem_of_getElem? found) timed
  simp only [Key.of]
  exact ⟨by simpa using nonneg, by omega, by omega⟩

lemma mem_expectedNext {keys : List Key} (mem : keys ∈ request.expectedNext code) :
    ∃ place, code.period ≤ place.1 ∧ place.1 < 2 * code.period ∧
      request.Expects code place keys := by
  obtain ⟨r, below, listed⟩ := mem_flatMap.mp mem
  obtain ⟨e, inside, rfl⟩ := mem_map.mp listed
  obtain ⟨round, expects⟩ := mem_expectedIn.mp inside
  have := mem_range.mp below
  exact ⟨e.1, by omega, by omega, expects⟩

/-- Detectors of the second period that stand in the first. -/
def early (request : Request) (code : Code) : List (List Key) :=
  (request.expectedNext code).filter (allBefore code.period)

/-- Detectors of the second period that stand in it. -/
def late (request : Request) (code : Code) : List (List Key) :=
  (request.expectedNext code).filter fun k => !allBefore code.period k

/-- Which of the expected detectors stand before, in and after the marked layer. -/
lemma filter_expected (request : Request) (code : Code) {closing : List (List Key)}
    (last : ∀ k ∈ closing, k ≠ [] ∧ ∀ key ∈ k, 2 * (code.period : Int) ≤ key.round) :
    let all := (request.expected code (3 * code.period)).map (·.2) ++ closing
    let next := (·.map (Key.later code.period))
    all.filter (allBefore code.period) =
        (request.expected code code.period).map (·.2) ++ request.early code ∧
      all.filter (fun k => !allBefore code.period k && allBefore (2 * code.period) k) =
        request.late code ++ (request.early code).map next ∧
      all.filter (fun k => !allBefore (2 * code.period) k) =
        (request.late code).map next ++ closing := by
  intro all next
  have three : all = (request.expected code code.period).map (·.2) ++
      request.expectedNext code ++ (request.expectedNext code).map next ++ closing := by
    have moved := request.expected_mul code 2
    simp only [range_succ, range_zero, nil_append, flatMap_append,
      flatMap_singleton, Nat.zero_mul, Nat.one_mul, Key.later_zero, map_id_fun,
      map_id] at moved
    simp only [all, moved, append_assoc]
    rfl
  have first : ∀ k ∈ (request.expected code code.period).map (·.2),
      allBefore code.period k = true := by
    intro k mem
    obtain ⟨e, inside, rfl⟩ := mem_map.mp mem
    obtain ⟨below, expects⟩ := mem_expected.mp inside
    refine allBefore_iff.mpr fun key here => ?_
    have round := (expects.round here).2.1
    omega
  have wide : ∀ k, allBefore code.period k = true → allBefore (2 * code.period) k = true := by
    intro k before
    refine allBefore_iff.mpr fun key here => ?_
    have round := allBefore_iff.mp before key here
    omega
  have second : ∀ k ∈ request.expectedNext code, allBefore (2 * code.period) k = true := by
    intro k mem
    obtain ⟨place, _, below, expects⟩ := mem_expectedNext mem
    refine allBefore_iff.mpr fun key here => ?_
    have round := (expects.round here).2.1
    omega
  have third : ∀ k ∈ request.expectedNext code, allBefore code.period (next k) = false ∧
      allBefore (2 * code.period) (next k) = allBefore code.period k := by
    intro k mem
    obtain ⟨place, _, _, expects⟩ := mem_expectedNext mem
    refine ⟨?_, ?_⟩
    · obtain ⟨d, _, _, some_key, _⟩ := id expects
      obtain ⟨key, here⟩ := exists_mem_of_ne_nil k some_key
      have round := (expects.round here).1
      exact allBefore_eq_false (mem_map_of_mem here) (by simp only [Key.later]; omega)
    · rw [Nat.two_mul]
      exact allBefore_later ..
  have fourth : ∀ k ∈ closing, allBefore (2 * code.period) k = false := by
    intro k mem
    obtain ⟨some_key, late⟩ := last k mem
    obtain ⟨key, here⟩ := exists_mem_of_ne_nil k some_key
    exact allBefore_eq_false here (by simpa using late key here)
  rw [three]
  exact filter_layers first wide second third fourth

/-- Repeating the marked layer yields the detectors expected of all rounds. -/
lemma expected_unfolded (request : Request) (code : Code) (n : Nat) (closing : List (List Key)) :
    ((request.expected code code.period).map (·.2) ++ request.early code ++
      ((List.range (n + 1)).flatMap fun j =>
        (request.late code ++ (request.early code).map (List.map (Key.later code.period))).map
          (List.map (Key.later (j * code.period)))) ++
      ((request.late code).map (List.map (Key.later code.period)) ++ closing).map
        (List.map (Key.later (n * code.period)))).Perm
    ((request.expected code ((n + 3) * code.period)).map (·.2) ++
      closing.map (List.map (Key.later (n * code.period)))) := by
  have moved : ∀ (ks : List (List Key)) (j : Nat),
      (ks.map (map (Key.later code.period))).map (map (Key.later (j * code.period))) =
        ks.map (map (Key.later ((j + 1) * code.period))) := by
    intro ks j
    simp [Function.comp_def, Key.later_later, Nat.succ_mul, Nat.add_comm]
  have all := interleave (fun j => (request.early code).map (map (Key.later (j * code.period))))
    (fun j => (request.late code).map (map (Key.later (j * code.period)))) (n + 1)
  have start : (request.early code).map (map (Key.later (0 * code.period))) =
      request.early code := by
    simp
  rw [start] at all
  have split : ∀ j, ((request.early code).map (map (Key.later (j * code.period))) ++
      (request.late code).map (map (Key.later (j * code.period)))).Perm
        ((request.expectedNext code).map (map (Key.later (j * code.period)))) := by
    intro j
    rw [← map_append]
    exact (filter_append_perm _ _).map _
  simp only [map_append, moved]
  rw [request.expected_mul code (n + 2), append_assoc, append_assoc, append_assoc]
  refine List.Perm.append_left _ ?_
  rw [← append_assoc, ← append_assoc, all]
  exact (List.Perm.flatMap_left _ fun j _ => split j).append_right _

end Request

/-! Whole programs. -/

namespace Code

variable (code : Code)

lemma measuredIn_keys_nodup (round : Nat) :
    ((code.measuredIn round).map fun e => Key.of e.1 e.2).Nodup := by
  have perm := filter_append_perm (fun c : Check => c.ancilla.isSome) (code.checksIn round)
  have contents := (perm.map (·.content)).nodup_iff.mpr (code.contents_nodup round)
  have none : (code.checksIn round).filter (fun c => c.ancilla.isNone) =
      (code.checksIn round).filter fun c => !c.ancilla.isSome :=
    filter_congr fun c _ => by simp
  rw [measuredIn, none, map_map]
  refine List.Nodup.of_map (·.content) ?_
  rwa [map_map]

lemma measured_keys_nodup (rounds : Nat) :
    ((code.measured rounds).map fun e => Key.of e.1 e.2).Nodup := by
  rw [measured, map_flatMap, nodup_flatMap]
  refine ⟨fun r _ => code.measuredIn_keys_nodup r, nodup_range.imp ?_⟩
  intro r r' different key here there
  obtain ⟨e, mem, rfl⟩ := mem_map.mp here
  obtain ⟨e', member', same⟩ := mem_map.mp there
  have first := (mem_measuredIn.mp mem).2
  have second := (mem_measuredIn.mp member').2
  have round : (e'.2 : Int) = e.2 := congrArg Key.round same
  omega

end Code

lemma Check.Reads.keys_content {c : Check} {q : Qubit} {basis : Pauli} (reads : c.Reads q basis) :
    c.content.keys = [q] := by
  obtain ⟨_, m, single, rfl, _⟩ := reads
  simp [content, single, Table.ofList, Table.insert, Table.insertEntry, Table.empty, Table.keys]

lemma Session.ReadOut.keys_nodup (read : ReadOut rounds anew more)
    (distinct : (anew.map (·.1)).Nodup) : (more.map fun e => Key.of e.1 e.2).Nodup := by
  have qubits : (more.map fun e => Key.of e.1 e.2).map (·.content.keys) =
      (anew.map (·.1)).map fun q => [q] := by
    rw [map_map, map_map, maps_eq_iff]
    exact read.flip.imp fun e f h => h.1.keys_content
  refine List.Nodup.of_map (·.content.keys) ?_
  rw [qubits]
  exact distinct.map fun q q' same => singleton_injective same

lemma Session.ReadOut.round (read : ReadOut rounds anew more) : ∀ e ∈ more, e.2 = rounds := by
  intro e mem
  obtain ⟨_, _, h⟩ := exists_left_of_forall₂ read mem
  exact h.2

/-- Qubits on which a check is measured: its ancilla, or its own. -/
def Check.sites (c : Check) : List Qubit := c.ancilla.elim c.qubits ([·])

/-- Outcomes on one qubit stand in order of rounds. -/
def InOrder (labels : List (Check × Nat)) : Prop :=
  labels.Pairwise fun a b => ∀ q ∈ a.1.sites, q ∈ b.1.sites → a.2 ≤ b.2

/-- Keys of the outcomes of a store with its block written out, as they are on record. -/
def Store.outcomeKeys (period : Nat) (s : Store) : List Key :=
  match s.region with
  | none => s.keysIn 0 s.size
  | some region =>
    s.keysIn 0 region.start ++ ((List.range region.repetitions).flatMap fun j =>
        (s.keysIn region.start region.stop).map (Key.later (j * period))) ++
      (s.keysIn region.stop s.size).map (Key.later ((region.repetitions - 1) * period))

namespace Request

/-- Outcomes stand for the checks of all rounds, once for each round in which a check is scheduled,
and for the final measurements that are not outcomes of the last round themselves. They are on
record for these rounds, and on every qubit they stand in the order of the rounds. -/
structure Accounts (request : Request) (code : Code) (s : Store) (labels : List (Check × Nat)) :
    Prop where
  scheduled : ∃ anew more, labels.Perm (code.measured (request.layers * code.period) ++ more) ∧
    Session.ReadOut (request.layers * code.period) anew more ∧
    anew.Sublist (request.resolvedFinals code) ∧
    ∀ f ∈ request.resolvedFinals code, f ∉ anew →
      Session.Reused (request.layers * code.period - 1)
        (code.measured (request.layers * code.period)) f
  distinct : (labels.map fun e => Key.of e.1 e.2).Nodup
  recorded : labels.map (fun e => Key.of e.1 e.2) = s.outcomeKeys code.period
  ordered : InOrder labels

/-- Detectors, given by the numbers of their outcomes, are those expected, each of them once and
with its own outcomes, and a number of others. -/
def Detects (request : Request) (code : Code) (labels : List (Check × Nat))
    (detectors : List (List Int)) (others : Nat) : Prop :=
  ∃ places regular final, places.Nodup ∧
    (∀ place, place ∈ places ↔ place.1 < request.layers * code.period ∧
      ∃ keys, request.Expects code place keys) ∧
    detectors.Perm (regular ++ final) ∧ final.length = others ∧
    Forall₂ (fun place reading => ∃ keys, request.Expects code place keys ∧
      SyndromeSchedule.Reads labels keys reading) places regular

variable {request : Request} {code : Code} {s : Store} {labels : List (Check × Nat)}

lemma accounts_of_perm (fault : request.fault? code = none)
    (perm : labels.Perm (code.measured (request.layers * code.period) ++ more))
    (read : Session.ReadOut (request.layers * code.period) anew more)
    (part : anew.Sublist (request.resolvedFinals code))
    (rest : ∀ f ∈ request.resolvedFinals code, f ∉ anew →
      Session.Reused (request.layers * code.period - 1)
        (code.measured (request.layers * code.period)) f)
    (recorded : labels.map (fun e => Key.of e.1 e.2) = s.outcomeKeys code.period)
    (ordered : InOrder labels) : request.Accounts code s labels := by
  refine ⟨⟨anew, more, perm, read, part, rest⟩, ?_, recorded, ordered⟩
  obtain ⟨_, distinct, _⟩ := fault?_eq_none fault
  rw [(perm.map _).nodup_iff, map_append, nodup_append]
  refine ⟨code.measured_keys_nodup _, read.keys_nodup (distinct.sublist (part.map _)), ?_⟩
  intro key old key' new same
  obtain ⟨e, mem, rfl⟩ := mem_map.mp old
  obtain ⟨e', member', rfl⟩ := mem_map.mp new
  have below := (Code.mem_measured.mp mem).1
  have last := read.round e' member'
  have round : (e.2 : Int) = e'.2 := congrArg Key.round same
  omega

lemma detects_of_perm {found closing : List (List Key)} {detectors : List (List Int)}
    (perm : found.Perm
      ((request.expected code (request.layers * code.period)).map (·.2) ++ closing))
    (reads : Forall₂ (SyndromeSchedule.Reads labels) found detectors) :
    request.Detects code labels detectors closing.length := by
  obtain ⟨sorted, aligned, same⟩ := perm_comp_forall₂ perm.symm reads
  have first := forall₂_take_append _ _ _ aligned.flip
  have last := forall₂_drop_append _ _ _ aligned.flip
  refine ⟨(request.expected code (request.layers * code.period)).map (·.1),
    sorted.take ((request.expected code (request.layers * code.period)).map (·.2)).length, _,
    expected_places_nodup _, ?_, ?_, last.length_eq, ?_⟩
  · intro place
    rw [mem_map]
    constructor
    · rintro ⟨e, mem, rfl⟩
      obtain ⟨below, expects⟩ := mem_expected.mp mem
      exact ⟨below, e.2, expects⟩
    · rintro ⟨below, keys, expects⟩
      exact ⟨(place, keys), mem_expected.mpr ⟨below, expects⟩, rfl⟩
  · rw [take_append_drop]
    exact same.symm
  · have pairs := first.flip
    rw [forall₂_map_left_iff] at pairs ⊢
    refine forall₂_of_mem pairs fun e mem reading _ here => ?_
    exact ⟨e.2, (mem_expected.mp mem).2, here⟩

end Request

lemma unfolded_perm {code : Code} {first last : List (Check × Nat)}
    (same : first.Perm (code.measured code.period))
    (rest : last.Perm ((code.measured code.period).map (postpone (2 * code.period)) ++ more))
    (n : Nat) :
    (unfolded code.period first last n).Perm
      (code.measured ((n + 3) * code.period) ++ more.map (postpone (n * code.period))) := by
  have blocks : (copies code.period first (n + 2)).Perm
      (copies code.period (code.measured code.period) (n + 2)) :=
    List.Perm.flatMap_left _ fun j _ => same.map _
  have all : code.measured ((n + 3) * code.period) =
      copies code.period (code.measured code.period) (n + 2) ++
        ((code.measured code.period).map (postpone (2 * code.period))).map
          (postpone (n * code.period)) := by
    rw [code.measured_mul, ← copies, copies_add _ _ (n + 2) 1, copies_one, map_map]
    congr 1
    refine map_congr_left fun e _ => ?_
    rw [Function.comp, postpone_postpone, ← Nat.add_mul, Nat.add_comm]
  rw [unfolded_eq, all, append_assoc, ← map_append]
  exact blocks.append (rest.map _)

lemma unfolded_inOrder {period : Nat} {first last : List (Check × Nat)} (one : InOrder first)
    (rest : InOrder last) (early : ∀ e ∈ first, e.2 < period) (late : ∀ e ∈ last, 2 * period ≤ e.2)
    (n : Nat) : InOrder (unfolded period first last n) := by
  have moved : ∀ {es : List (Check × Nat)} (m : Nat), InOrder es → InOrder (es.map (postpone m)) :=
    fun m ordered => pairwise_map.mpr (ordered.imp fun le q here there =>
      Nat.add_le_add_right (le q here there) m)
  rw [unfolded_eq]
  refine pairwise_append.mpr ⟨pairwise_flatMap.mpr ⟨fun j _ => moved _ one, ?_⟩, moved _ rest, ?_⟩
  · refine pairwise_lt_range.imp fun {i j} before => ?_
    intro a mem b mem' q _ _
    obtain ⟨e, inside, rfl⟩ := mem_map.mp mem
    obtain ⟨e', _, rfl⟩ := mem_map.mp mem'
    have below := early e inside
    have copy := Nat.mul_le_mul_right period (Nat.succ_le_of_lt before)
    simp only [postpone, Nat.succ_mul] at copy ⊢
    omega
  · intro a mem b mem' q _ _
    obtain ⟨j, copied, listed⟩ := mem_flatMap.mp mem
    obtain ⟨e, inside, rfl⟩ := mem_map.mp listed
    obtain ⟨e', inside', rfl⟩ := mem_map.mp mem'
    have below := early e inside
    have above := late e' inside'
    have copy := Nat.mul_le_mul_right period (Nat.succ_le_of_lt (mem_range.mp copied))
    simp only [postpone, Nat.succ_mul] at copy ⊢
    omega

namespace Store

/-- Of two outcomes on one qubit, that of the earlier round is measured in an earlier tick. -/
def Chronological (made : List (Check × Nat)) (s : Store) : Prop :=
  ∀ {h h' t t' : Nat} {key key' : Key} {e e' : Check × Nat},
    s.record.entry? h = some (key, t) → s.record.entry? h' = some (key', t') →
      made[h]? = some e → made[h']? = some e' → e.2 < e'.2 →
        ∀ q ∈ e.1.sites, q ∈ e'.1.sites → t < t'

lemma Sound.orderBelow_pairwise {s : Store} (sound : s.Sound) (n : Nat) :
    (s.orderBelow n).Pairwise fun h h' => ∀ {key key' t t'},
      s.record.entry? h = some (key, t) → s.record.entry? h' = some (key', t') → t ≤ t' := by
  have dated : ∀ {h t t' key}, h ∈ handlesIn (s.tickAt t) →
      s.record.entry? h = some (key, t') → t' = t := by
    intro h t t' key mem entry
    obtain ⟨_, here⟩ := sound.mem_handlesIn.mp mem
    rw [here] at entry
    exact (Prod.mk.inj (Option.some.inj entry)).2.symm
  refine pairwise_flatMap.mpr ⟨fun t _ => ?_, pairwise_lt_range.imp ?_⟩
  · refine pairwise_of_forall_mem_list fun h mem h' mem' => ?_
    intro key key' t₁ t₂ entry entry'
    rw [dated mem entry, dated mem' entry']
  · intro t t' earlier h mem h' mem' key key' t₁ t₂ entry entry'
    rw [dated mem entry, dated mem' entry']
    exact earlier.le

lemma Account.labels_ordered {made : List (Check × Nat)} {s : Store} (account : Account made keys s)
    (chronological : s.Chronological made) (n : Nat) :
    InOrder (labelsOf made (s.orderBelow n)) := by
  refine pairwise_filterMap.mpr ((account.sound.orderBelow_pairwise n).imp_of_mem ?_)
  intro h h' mem mem' earlier e found e' found' q here there
  obtain ⟨_, _, entry, _⟩ := account.sound.mem_orderBelow.mp mem
  obtain ⟨_, _, entry', _⟩ := account.sound.mem_orderBelow.mp mem'
  by_contra later
  have before := chronological entry' entry found' found (Nat.lt_of_not_le later) q there here
  exact absurd (earlier entry entry') (Nat.not_le.mpr before)

lemma Account.keysIn_eq {made : List (Check × Nat)} {s : Store} (account : Account made keys s)
    (words : ∀ e ∈ made, e.2 < Word.half) (start stop : Nat) :
    s.keysIn start stop = (labelsOf made (s.orderIn start stop)).map fun e => Key.of e.1 e.2 := by
  rw [keysIn_eq_labels account.sound account id]
  refine map_congr_left fun e mem => ?_
  obtain ⟨_, _, found⟩ := mem_filterMap.mp mem
  rw [Word.signed_of_lt (words e (mem_of_getElem? found))]

/-- A store whose block stands for all layers but the first and the last one: the outcomes of the
first two of three layers are those before the block and in it. -/
structure Folded (code : Code) (more : List (Check × Nat)) (start stop n : Nat) (s : Store) : Prop
    extends Repeats (code.measured (3 * code.period) ++ more) code.period start stop n s where
  first : ∀ {h t : Nat} {key : Key}, s.record.entry? h = some (key, t) →
    (h < (code.measured code.period).length ↔ t < start)
  second : ∀ {h t : Nat} {key : Key}, s.record.entry? h = some (key, t) →
    (h < (code.measured (2 * code.period)).length ↔ t < stop)

section Folded

variable {code : Code} {s : Store} {start stop n : Nat} (folded : s.Folded code more start stop n)
  (account : Account (code.measured (3 * code.period) ++ more) keys s)
include folded account

lemma Folded.labels_first :
    (labelsOf (code.measured (3 * code.period) ++ more) (s.orderBelow start)).Perm
      (code.measured code.period) := by
  have split := code.measured_split (by omega : code.period ≤ 3 * code.period)
  have first := account.labels_perm (by simp [split]) folded.first
  rwa [split, append_assoc, take_left, ← append_assoc, ← split] at first

lemma Folded.labels_last :
    (labelsOf (code.measured (3 * code.period) ++ more) (s.orderIn stop s.size)).Perm
      ((code.measured code.period).map (postpone (2 * code.period)) ++ more) := by
  have split : code.measured (3 * code.period) = code.measured (2 * code.period) ++
      (code.measured code.period).map (postpone (2 * code.period)) := by
    rw [code.measured_mul, code.measured_mul, ← copies, ← copies, copies_add _ _ 2 1, copies_one]
  have upTo := account.labels_perm (by simp [split]) folded.second
  have all := account.labels_size_perm
  rw [s.orderBelow_append folded.bounded, labelsOf_append] at all
  rw [split, append_assoc, take_left] at upTo
  rw [split, append_assoc] at all ⊢
  exact (perm_append_left_iff _).mp ((upTo.append_right _).symm.trans all)

lemma Folded.labels_perm :
    (s.labels (code.measured (3 * code.period) ++ more) code.period).Perm
      (code.measured ((n + 3) * code.period) ++ more.map (postpone (n * code.period))) := by
  rw [folded.labels_eq]
  exact unfolded_perm (folded.labels_first account) (folded.labels_last account) n

variable (final : ∀ e ∈ more, e.2 = 3 * code.period)
include final

lemma Folded.labels_ordered
    (chronological : s.Chronological (code.measured (3 * code.period) ++ more)) :
    InOrder (s.labels (code.measured (3 * code.period) ++ more) code.period) := by
  rw [folded.labels_eq]
  have all := account.labels_ordered chronological s.size
  rw [s.orderBelow_append folded.bounded, labelsOf_append] at all
  refine unfolded_inOrder (account.labels_ordered chronological start) (pairwise_append.mp all).2.1
    (fun e mem => ?_) (fun e mem => ?_) n
  · exact (Code.mem_measured.mp ((folded.labels_first account).mem_iff.mp mem)).1
  · rcases mem_append.mp ((folded.labels_last account).mem_iff.mp mem) with moved | last
    · obtain ⟨_, _, rfl⟩ := mem_map.mp moved
      exact Nat.le_add_left ..
    · rw [final e last]
      omega

omit final in
lemma Folded.recorded (words : ∀ e ∈ code.measured (3 * code.period) ++ more, e.2 < Word.half) :
    (s.labels (code.measured (3 * code.period) ++ more) code.period).map (fun e => Key.of e.1 e.2) =
      s.outcomeKeys code.period := by
  have moved : ∀ (es : List (Check × Nat)) (m : Nat),
      (es.map (postpone m)).map (fun e => Key.of e.1 e.2) =
        (es.map fun e => Key.of e.1 e.2).map (Key.later m) := by
    intro es m
    simp [Function.comp_def, postpone, Key.later, Key.of]
  have before : s.orderIn 0 start = s.orderBelow start :=
    (s.orderBelow_append (Nat.zero_le start)).symm
  have count : n + 2 = 1 + (n + 1) := by omega
  rw [folded.labels_eq, unfolded_eq, count, copies_add, copies_one, Nat.one_mul, outcomeKeys,
    folded.region]
  simp only [account.keysIn_eq words, before, folded.same, map_append, moved, Nat.add_sub_cancel]
  congr 2
  rw [copies, map_flatMap, map_flatMap]
  refine flatMap_congr fun j _ => ?_
  rw [moved]
  simp [Key.later_later, Nat.add_comm]

/-- Detectors before, in and after the block are told apart by the rounds of their keys. -/
theorem Folded.detector_places (words : 3 * code.period < Word.half) {k : List Key} {e : Nat × Note}
    (refers : s.record.Refers k e) (some_key : k ≠ []) :
    (allBefore code.period k = true ↔ e.1 < start) ∧
      ((!allBefore code.period k && allBefore (2 * code.period) k) = true ↔
        start ≤ e.1 ∧ e.1 < stop) ∧
      ((!allBefore (2 * code.period) k) = true ↔ stop ≤ e.1) := by
  have one := account.allBefore_iff_lt final words (by omega) folded.first refers some_key
  have two := account.allBefore_iff_lt final words (by omega) folded.second refers some_key
  refine ⟨one, ?_, ?_⟩
  · rw [Bool.and_eq_true, two, Bool.not_eq_true', ← Bool.not_eq_true, one, not_lt]
  · rw [Bool.not_eq_true', ← Bool.not_eq_true, two, not_lt]

end Folded

end Store

lemma Session.Reused.later {code : Code} {m : Nat} {f : Qubit × Pauli} (pos : 0 < m)
    (h : Reused (m * code.period - 1) (code.measured (m * code.period)) f) (n : Nat) :
    Reused ((n + m) * code.period - 1) (code.measured ((n + m) * code.period)) f := by
  obtain ⟨c, mem, reads⟩ := h
  have period := Nat.mul_pos pos code.period_pos
  have last : (n + m) * code.period - 1 = m * code.period - 1 + n * code.period := by
    rw [Nat.add_mul]
    omega
  obtain ⟨_, scheduled⟩ := Code.mem_measured.mp mem
  refine ⟨c, Code.mem_measured.mpr ⟨?_, ?_⟩, reads⟩
  · rw [Nat.add_mul]
    simp only
    omega
  · simp only [last, code.checksIn_add_mul]
    exact scheduled

lemma Session.ReadOut.lt_half (read : ReadOut rounds anew more) (code : Code)
    (words : rounds < Word.half) : ∀ e ∈ code.measured rounds ++ more, e.2 < Word.half := by
  intro e mem
  rcases mem_append.mp mem with inside | last
  · exact lt_trans (Code.mem_measured.mp inside).1 words
  · rwa [read.round e last]

lemma Session.ReadOut.later (read : ReadOut rounds anew more) (m : Nat) :
    ReadOut (rounds + m) anew (more.map (postpone m)) := by
  rw [ReadOut, forall₂_map_right_iff]
  exact read.imp fun f e h => ⟨h.1, congrArg (· + m) h.2⟩

/-- The keys of the detectors of all rounds are those expected of them, and some more. -/
lemma Task.filter_planned {task : Task} {closing : List (List Key)}
    (planned : keys.Perm ((task.planned rounds).map (·.2.2))) (words : rounds ≤ Word.half)
    (kept : ∀ k ∈ closing, k ≠ []) (p : List Key → Bool) :
    ((keys ++ closing).filter fun k => k ≠ [] && p k).Perm
      (((task.request.expected task.code rounds).map (·.2) ++ closing).filter p) := by
  have expected : (keys.filter (· ≠ [])).Perm
      ((task.request.expected task.code rounds).map (·.2)) := by
    rw [← task.planned_keys words]
    exact planned.filter _
  have ended : closing.filter (· ≠ []) = closing :=
    filter_eq_self.mpr fun k mem => by simpa using kept k mem
  have all := (expected.append_right closing).filter p
  rw [← ended, ← filter_append, ended, filter_filter] at all
  simpa only [Bool.and_comm] using all

lemma Session.Folds.folded {task : Task} {s₀ s₁ s₂ s₃ next : Session}
    {start₁ stop₁ start₂ stop₂ start₃ stop₃ placed n : Nat}
    (folds : Folds task s₀ s₁ s₂ s₃ next start₁ stop₁ start₂ stop₂ start₃ stop₃ (n + 1) placed)
    (same : (s₂.store.keysIn start₁ stop₁).map (Key.since 0) =
      (s₂.store.keysIn start₂ stop₂).map (Key.since task.code.period))
    (account : next.store.Account (task.code.measured s₃.rounds ++ more) keys)
    (words : s₃.rounds < Word.half) : next.store.Folded task.code more start₂ stop₂ n := by
  have repeats := folds.repeats same account words
  rw [folds.rounds_third] at repeats
  exact ⟨repeats, fun entry => (folds.cuts entry).1, fun entry => (folds.cuts entry).2.1⟩

/-- What the outcomes of a run stand for, with its block written out. -/
def Session.labels (task : Task) (s next : Session) (more : List (Check × Nat)) :
    List (Check × Nat) :=
  next.store.labels (task.code.measured s.rounds ++ more) task.code.period

namespace Task.Runs

variable {task : Task} {result : Compilation} {prepared layered ended : Session} {placed : Nat}
  {closing : List (List Key)} (runs : task.Runs result prepared layered ended)
  (words : layered.rounds < Word.half)
  (ledger : layered.Ledger task ended placed anew more keys closing)
include runs words ledger

/-- A run is written out in one piece, or its second layer is marked as repeated. -/
theorem shape :
    (result.report.repeated = false ∧ ended.store.region = none ∧
        layered.rounds = task.request.layers * task.code.period) ∨
      result.report.repeated = true ∧ ∃ start stop n, task.request.layers = n + 3 ∧
        layered.rounds = 3 * task.code.period ∧ ended.store.Folded task.code more start stop n := by
  obtain ⟨⟨complete, rounds, region, _⟩, layers⟩ := runs.complete
  have finished := runs.finished.2
  generalize result.report.repeated = repeated at layers ⊢
  cases layers with
  | flat _ count kept => exact .inl ⟨rfl, finished.region.trans (kept.trans region), by omega⟩
  | @folded s₁ s₂ _ start₁ stop₁ start₂ stop₂ start₃ stop₃ enough first second _ same third =>
    obtain ⟨n, layers⟩ := Nat.exists_eq_add_of_le' enough
    have repetitions : task.request.layers - 2 = n + 1 := by omega
    rw [repetitions] at third
    have folds : Session.Folds task prepared s₁ s₂ layered ended start₁ stop₁ start₂ stop₂ start₃
        stop₃ (n + 1) _ := ⟨complete, rounds, first, second, third, finished⟩
    exact .inr ⟨rfl, start₂, stop₂, n, layers, folds.rounds_third,
      folds.folded same ledger.account words⟩

lemma rounds_le : layered.rounds ≤ task.request.layers * task.code.period := by
  rcases runs.shape words ledger with ⟨_, _, all⟩ | ⟨_, _, _, n, layers, three, _⟩
  · exact all.le
  · rw [three, layers]
    exact Nat.mul_le_mul_right _ (Nat.le_add_left ..)

lemma labels_perm :
    (layered.labels task ended more).Perm
      (task.code.measured (task.request.layers * task.code.period) ++
        more.map (postpone (task.request.layers * task.code.period - layered.rounds))) := by
  have account := ledger.account
  rw [Session.labels]
  rcases runs.shape words ledger with ⟨_, region, all⟩ | ⟨_, start, stop, n, layers, three, folded⟩
  · have still : more.map (postpone 0) = more := by simp [postpone_zero]
    rw [Store.labels_flat region, ← all, Nat.sub_self, still]
    exact account.labels_size_perm
  · rw [three] at account ⊢
    rw [layers, Nat.add_mul n, Nat.add_sub_cancel, ← Nat.add_mul]
    exact folded.labels_perm account

/-- Outcomes of a run come from the checks they stand for, and its detectors read those expected. -/
theorem reading :
    Forall₂ (fun e outcome => e.1.MeasuredAs ended.store.qubits outcome)
        (layered.labels task ended more)
        (Instruction.outcomesOf (Instruction.unrollAll ended.store.bodyInstructions)) ∧
      task.request.Detects task.code (layered.labels task ended more)
        ((Instruction.readings 0 (Instruction.unrollAll ended.store.bodyInstructions)).filter
          (· ≠ [])) placed := by
  have shape := runs.shape words ledger
  obtain ⟨_, _, read, planned, count, kinds, account⟩ := ledger
  have small := read.lt_half task.code words
  have sorted := task.filter_planned planned words.le fun k mem => (kinds k mem).1
  rw [Session.labels, ← count]
  rcases shape with ⟨_, region, all⟩ | ⟨_, start, stop, n, layers, three, folded⟩
  · obtain ⟨outcomes, found, same, reads⟩ := account.reading_flat small region task.code.period
    refine ⟨outcomes, Request.detects_of_perm (same.trans ?_) reads⟩
    simpa [all] using sorted fun _ => true
  · rw [three] at account read kinds small sorted words ⊢
    obtain ⟨outcomes, found, sorts, reads⟩ := account.reading_folded small folded.toRepeats
      fun k e => folded.detector_places account read.round words
    refine ⟨outcomes, ?_⟩
    have late : ∀ k ∈ closing, k ≠ [] ∧ ∀ key ∈ k, 2 * (task.code.period : Int) ≤ key.round := by
      intro k mem
      refine ⟨(kinds k mem).1, fun key inside => ?_⟩
      obtain ⟨round, back, le, same⟩ := (kinds k mem).2 key inside
      rw [same, Word.signed_of_lt (by omega)]
      omega
    obtain ⟨one, two, last⟩ := task.request.filter_expected task.code late
    have first_part := sorted (allBefore task.code.period)
    have body_part := sorted fun k =>
      !allBefore task.code.period k && allBefore (2 * task.code.period) k
    have last_part := sorted fun k => !allBefore (2 * task.code.period) k
    rw [one] at first_part
    rw [two] at body_part
    rw [last] at last_part
    have all := task.request.expected_unfolded task.code n closing
    rw [← layers] at all
    rw [← length_map (map (Key.later (n * task.code.period)))]
    refine Request.detects_of_perm (sorts.trans (.trans ?_ all)) reads
    exact (first_part.append (List.Perm.flatMap_left _ fun j _ => body_part.map _)).append
      (last_part.map _)

end Task.Runs

end SyndromeSchedule
