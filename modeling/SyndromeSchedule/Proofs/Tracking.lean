import SyndromeSchedule.Proofs.Endings
import SyndromeSchedule.Proofs.Expansion
import SyndromeSchedule.Proofs.Letters

/-!
What observables toggle. Only the parity of toggles matters, and it is additive: a round toggles the
outcomes of the checks that share a qubit with a representative that changes, a layer writes down
what its rounds toggled, and the end toggles the final measurements. Nothing else touches an
observable.
-/

namespace SyndromeSchedule

open List Outcome

/-! Lists up to items that occur twice. -/

/-- Every item occurs an even number of times in both lists, or an odd one. -/
def SameParity {α : Type} [DecidableEq α] (items others : List α) : Prop :=
  ∀ a, items.count a % 2 = others.count a % 2

namespace SameParity

variable {α β : Type} [DecidableEq α] [DecidableEq β] {items others more rest : List α}

lemma refl (items : List α) : SameParity items items := fun _ => rfl

lemma trans (h : SameParity items others) (h' : SameParity others more) :
    SameParity items more := fun a => (h a).trans (h' a)

lemma of_perm (h : items.Perm others) : SameParity items others := fun a => by rw [h.count_eq]

lemma append (h : SameParity items others) (h' : SameParity more rest) :
    SameParity (items ++ more) (others ++ rest) := by
  intro a
  have first := h a
  have second := h' a
  rw [count_append, count_append]
  omega

lemma flatMap {ι : Type} {f g : ι → List α} {indices : List ι}
    (h : ∀ i ∈ indices, SameParity (f i) (g i)) :
    SameParity (indices.flatMap f) (indices.flatMap g) := by
  induction indices with
  | nil => exact refl []
  | cons i rest ih =>
    rw [flatMap_cons, flatMap_cons]
    apply append (h i (.head _))
    exact ih fun j mem => h j (.tail _ mem)

lemma even_map (f : α → β) (n : Nat) : ∀ items : List α, items.length = n →
    SameParity items [] → SameParity (items.map f) [] := by
  induction n using Nat.strongRecOn with
  | ind n ih =>
    intro items length even
    cases items with
    | nil => exact refl []
    | cons a rest =>
      have twice : a ∈ rest := by
        have here := even a
        rw [count_cons_self, count_nil] at here
        apply count_pos_iff.mp
        omega
      have split := perm_cons_erase twice
      have fewer : (rest.erase a).length < n := by
        have shorter := split.length_eq
        rw [length_cons] at length shorter
        omega
      have others : SameParity (rest.erase a) [] := by
        intro b
        have here := even b
        rw [(split.cons a).count_eq, count_cons, count_cons] at here
        split_ifs at here <;> omega
      intro b
      have inner := ih _ fewer _ rfl others b
      rw [((split.cons a).map f).count_eq, map_cons, map_cons, count_cons, count_cons]
      split_ifs <;> omega

lemma map (h : SameParity items others) (f : α → β) :
    SameParity (items.map f) (others.map f) := by
  have even : SameParity (items ++ others) [] := by
    intro a
    have here := h a
    rw [count_append, count_nil]
    omega
  intro b
  have both := even_map f _ _ rfl even b
  rw [map_append, count_append, count_nil] at both
  omega

end SameParity

/-! Representatives. -/

namespace Product

variable {p : Product}

def Proper (p : Product) : Prop := ∀ (q : Qubit) (a : Pauli), p.factors.get? q = some a → a ≠ .I

variable (proper : p.Proper)
include proper

lemma Proper.mulOperator (q : Qubit) (op : Operator) : (p.mulOperator q op).Proper := by
  intro r a found
  simp only [Product.mulOperator] at found
  split_ifs at found with trivial
  · rw [Table.get?_erase] at found
    split_ifs at found
    exact proper r a found
  · rw [Table.get?_insert] at found
    split_ifs at found
    · cases found
      exact trivial
    · exact proper r a found

omit proper in
lemma proper_ofOperators (operators : List (Qubit × Operator)) :
    (ofOperators operators).Proper := by
  have kept : ∀ (ops : List (Qubit × Operator)) (p : Product), p.Proper →
      (ops.foldl (fun p e => p.mulOperator e.1 e.2) p).Proper := by
    intro ops
    induction ops with
    | nil => exact fun _ proper => proper
    | cons e rest ih => exact fun p proper => ih _ (proper.mulOperator e.1 e.2)
  apply kept
  intro q a found
  simp [identity] at found

lemma Proper.get?_eq_some_iff {q : Qubit} {a : Pauli} :
    p.factors.get? q = some a ↔ p.letter q = a ∧ a ≠ .I := by
  rw [letter]
  constructor
  · intro found
    rw [found]
    exact ⟨rfl, proper q a found⟩
  · rintro ⟨letter, some_letter⟩
    cases found : p.factors.get? q with
    | none =>
      rw [found] at letter
      exact absurd letter.symm some_letter
    | some b =>
      rw [found] at letter
      exact congrArg some letter

lemma Proper.isSome_get?_iff (q : Qubit) : (p.factors.get? q).isSome = true ↔ p.letter q ≠ .I := by
  rw [Option.isSome_iff_exists]
  constructor
  · rintro ⟨a, found⟩
    rw [(proper.get?_eq_some_iff.mp found).1]
    exact proper q a found
  · intro some_letter
    exact ⟨_, proper.get?_eq_some_iff.mpr ⟨rfl, some_letter⟩⟩

lemma Proper.sameLetters_iff {r : Product} (proper' : r.Proper) :
    p.sameLetters r = true ↔ ∀ q, p.letter q = r.letter q := by
  rw [sameLetters, decide_eq_true_eq]
  constructor
  · intro same q
    rw [letter, letter, same]
  · intro same
    apply Table.ext_get?
    intro q
    ext a
    rw [proper.get?_eq_some_iff, proper'.get?_eq_some_iff, same q]

lemma Proper.intersects_iff {r : Product} (proper' : r.Proper) :
    p.intersects r = true ↔ ∃ q, p.letter q ≠ .I ∧ r.letter q ≠ .I := by
  simp only [intersects, support, any_eq_true, Table.mem_keys, Table.contains_iff,
    proper.isSome_get?_iff, proper'.isSome_get?_iff]

end Product

namespace Logical

variable (l : Logical)

lemma proper_before (round : Nat) : (l.before round).Proper := by
  have mem : l.before round ∈ l.history := get_mem ..
  obtain ⟨operators, _, same⟩ := mem_map.mp mem
  rw [← same]
  exact Product.proper_ofOperators operators

lemma before_add_mul {period : Nat} (divides : l.period ∣ period) (round n : Nat) :
    l.before (round + n * period) = l.before round := by
  obtain ⟨m, rfl⟩ := divides
  have same : (round + n * (l.period * m)) % l.period = round % l.period := by
    rw [Nat.mul_left_comm, Nat.add_mul_mod_self_left]
  simp only [before, same]

/-- Checks of a round whose outcomes are toggled: those that share a qubit with the representative,
if it changes. -/
def touched (code : Code) (round : Nat) : List Check :=
  if (l.before round).sameLetters (l.before (round + 1)) then []
  else (code.checksIn round).filter (·.product.intersects (l.before round))

/-- The outcome of a check in a round is toggled, since a representative changes that it shares a
qubit with. -/
def Toggles (e : Check × Nat) : Prop :=
  (∃ q, (l.before e.2).letter q ≠ (l.before (e.2 + 1)).letter q) ∧
    ∃ q, e.1.product.letter q ≠ .I ∧ (l.before e.2).letter q ≠ .I

lemma mem_touched {code : Code} {round : Nat} {c : Check} :
    c ∈ l.touched code round ↔ c ∈ code.checksIn round ∧ l.Toggles (c, round) := by
  have differ := (l.proper_before round).sameLetters_iff (l.proper_before (round + 1))
  have shared := (Product.proper_ofOperators
    (c.members.map fun m => (m.qubit, m.operator))).intersects_iff (l.proper_before round)
  unfold touched Toggles
  split_ifs with same
  · have alike := differ.mp same
    simp [alike]
  · rw [mem_filter]
    have moves : ∃ q, (l.before round).letter q ≠ (l.before (round + 1)).letter q := by
      by_contra all
      apply same
      apply differ.mpr
      simpa using all
    exact and_congr_right fun _ => shared.trans (iff_and_self.mpr fun _ => moves)

/-- Checks that move an observable in a range of rounds. -/
def toggledIn (code : Code) (start rounds : Nat) : List (Check × Nat) :=
  (List.range' start rounds).flatMap fun r => (l.touched code r).map fun c => (c, r)

lemma toggledIn_add (code : Code) (start rounds more : Nat) :
    l.toggledIn code start (rounds + more) =
      l.toggledIn code start rounds ++ l.toggledIn code (start + rounds) more := by
  rw [toggledIn, toggledIn, toggledIn, ← flatMap_append, range'_append_1]

lemma toggledIn_one (code : Code) (start : Nat) :
    l.toggledIn code start 1 = (l.touched code start).map fun c => (c, start) := by
  simp [toggledIn]

lemma mem_toggledIn {code : Code} {start rounds : Nat} {e : Check × Nat} :
    e ∈ l.toggledIn code start rounds ↔
      (start ≤ e.2 ∧ e.2 < start + rounds) ∧ e.1 ∈ code.checksIn e.2 ∧ l.Toggles e := by
  rw [toggledIn, mem_flatMap]
  constructor
  · rintro ⟨r, inside, mem⟩
    obtain ⟨c, touches, rfl⟩ := mem_map.mp mem
    exact ⟨mem_range'_1.mp inside, l.mem_touched.mp touches⟩
  · rintro ⟨inside, touches⟩
    exact ⟨e.2, mem_range'_1.mpr inside, mem_map.mpr ⟨e.1, l.mem_touched.mpr touches, rfl⟩⟩

/-- The checks that share a qubit with a representative take it to the next one, if it changes at
all. -/
def moves (code : Code) (round : Nat) : Bool :=
  ((l.touched code round).foldl (fun p c => p.mul c.product) (l.before round)).sameLetters
    (l.before (round + 1))

/-- The outcomes toggled in the first rounds make up the change of the representative. -/
lemma letter_before {code : Code} {n : Nat} (moves : ∀ r < n, l.moves code r = true) (q : Qubit) :
    (l.before n).letter q = ((l.before 0).letter q).times
      (Pauli.prod ((l.toggledIn code 0 n).map (·.1.product.letter q))) := by
  induction n with
  | zero => simp [toggledIn]
  | succ n ih =>
    have same : Product.factors _ = (l.before (n + 1)).factors :=
      of_decide_eq_true (moves n n.lt_succ_self)
    rw [Product.letter, ← same, ← Product.letter,
      Product.letter_foldl_mul (fun c : Check => c.product),
      ih fun r below => moves r (below.trans n.lt_succ_self), toggledIn_add, Nat.zero_add,
      toggledIn_one, map_append, Pauli.prod_append, Pauli.times_assoc, map_map]
    rfl

end Logical

/-! Single observables. -/

namespace Tracker

variable {t next : Tracker} {u : Unit}

/-- An observable toggles some handles. -/
structure Toggles (t next : Tracker) (handles : List Nat) : Prop where
  index : next.index = t.index
  logical : next.logical = t.logical
  parity : SameParity next.pending (t.pending ++ handles)
  only : ∀ h ∈ next.pending, h ∈ t.pending ∨ h ∈ handles

lemma Toggles.trans {last : Tracker} {handles more : List Nat} (h : t.Toggles next handles)
    (h' : next.Toggles last more) :
    t.Toggles last (handles ++ more) where
  index := h'.index.trans h.index
  logical := h'.logical.trans h.logical
  parity := by
    rw [← append_assoc]
    exact h'.parity.trans (h.parity.append (.refl more))
  only := by
    intro n mem
    rw [mem_append]
    rcases h'.only n mem with old | new
    · rcases h.only n old with older | here
      · exact .inl older
      · exact .inr (.inl here)
    · exact .inr (.inr new)

lemma Toggles.refl (t : Tracker) (current : Product) : t.Toggles { t with current } [] where
  index := rfl
  logical := rfl
  parity := by
    rw [append_nil]
    exact .refl _
  only := fun _ mem => .inl mem

lemma sameParity_toggleIn (handle : Nat) (pending : List Nat) :
    SameParity (toggleIn handle pending) (pending ++ [handle]) := by
  induction pending with
  | nil => exact .refl _
  | cons n rest ih =>
    unfold toggleIn
    split_ifs with before same
    · exact .of_perm (perm_append_singleton _ _).symm
    · intro a
      rw [same, cons_append, count_cons, count_append, count_singleton]
      split_ifs
      · omega
      · rfl
    · intro a
      have others := ih a
      rw [cons_append, count_cons, count_cons]
      omega

lemma toggle_toggles (t : Tracker) (current : Product) (handle : Nat) :
    t.Toggles ({ t with current }.toggle handle) [handle] where
  index := rfl
  logical := rfl
  parity := sameParity_toggleIn handle t.pending
  only := by
    intro h mem
    rw [mem_singleton]
    exact (mem_toggleIn mem).symm

lemma forEach_toggles {α : Type} {action : Tracker → α → Attempt Tracker Unit}
    {R : α → Nat → Prop} (multiply : Product → α → Product)
    (step : ∀ (t next : Tracker) (a : α) (u : Unit), (action t a).commit = .ok (next, u) →
      ∃ h, R a h ∧ t.Toggles next [h] ∧ next.current = multiply t.current a) {items : List α}
    {last : Tracker} (h : (Attempt.forEach action t items).commit = .ok (last, u)) :
    ∃ handles, Forall₂ R items handles ∧ t.Toggles last handles ∧
      last.current = items.foldl multiply t.current := by
  induction items generalizing t with
  | nil =>
    obtain rfl := Attempt.forEach_nil_eq_ok.mp h
    exact ⟨[], .nil, .refl t t.current, rfl⟩
  | cons a rest ih =>
    obtain ⟨mid, v, here, others⟩ := Attempt.forEach_cons_eq_ok.mp h
    obtain ⟨handle, related, toggles, current⟩ := step t mid a v here
    obtain ⟨handles, relates, toggles', current'⟩ := ih others
    refine ⟨handle :: handles, .cons related relates, toggles.trans toggles', ?_⟩
    rw [current', current]
    rfl

lemma absorb_eq_ok {record : Record} {round : Nat} {c : Check}
    (h : (t.absorb record round c).commit = .ok (next, u)) :
    ∃ handle, record.handle? (.of c (Word.signed round)) = some handle ∧
      t.Toggles next [handle] ∧ next.current = t.current.mul c.product := by
  unfold absorb at h
  cases found : record.lookupMade (.of c (Word.signed round)) with
  | error cause =>
    simp only [found] at h
    cases h
  | ok handle =>
    simp only [found] at h
    cases h
    exact ⟨handle, Record.lookupMade_eq_ok.mp found, t.toggle_toggles _ handle, rfl⟩

/-- A round toggles the outcomes of the checks that make up the change of the representative. -/
theorem advance_eq_ok {code : Code} {round : Nat} {record : Record}
    (follows : t.current = t.logical.before round)
    (h : (t.advance code round record).commit = .ok (next, u)) :
    ∃ handles, Forall₂ (fun c h => record.handle? (.of c (Word.signed round)) = some h)
        (t.logical.touched code round) handles ∧
      t.Toggles next handles ∧ next.current = t.logical.before (round + 1) ∧
      t.logical.moves code round = true := by
  unfold advance at h
  split_ifs at h with large
  · cases h
  · simp only [follows] at h
    unfold Logical.moves Logical.touched
    split_ifs at h with same
    · cases h
      rw [if_pos same]
      exact ⟨[], .nil, .refl t _, rfl, same⟩
    · rw [if_neg same]
      obtain ⟨mid, v, absorbs, h⟩ := Attempt.andThen_eq_ok.mp h
      obtain ⟨handles, found, toggles, current⟩ := forEach_toggles (fun p c => p.mul c.product)
        (fun _ _ _ _ => absorb_eq_ok) absorbs
      split_ifs at h with reached
      · cases h
        have last := toggles.trans (.refl mid (t.logical.before (round + 1)))
        rw [append_nil] at last
        rw [current, follows] at reached
        exact ⟨handles, found, last, rfl, reached⟩
      · cases h

lemma close_eq_ok {rounds : Nat} {finals : Table (Pauli × Nat)}
    (h : (t.close rounds finals).commit = .ok (next, u)) :
    ∃ handles, Forall₂ (fun (f : Qubit × Pauli) h => finals.get? f.1 = some (f.2, h))
        t.current.factors.entries handles ∧ t.Toggles next handles := by
  have step : ∀ (t next : Tracker) (f : Qubit × Pauli) (u : Unit),
      (readOut finals t f).commit = .ok (next, u) →
        ∃ h, finals.get? f.1 = some (f.2, h) ∧ t.Toggles next [h] ∧ next.current = t.current := by
    intro t next f u reads
    unfold readOut at reads
    split at reads
    · next basis handle found =>
        split_ifs at reads with right
        · cases reads
          exact ⟨handle, by rw [found, right], t.toggle_toggles t.current handle, rfl⟩
        · cases reads
    · cases reads
  unfold close at h
  simp only at h
  split_ifs at h with same
  · obtain ⟨handles, found, toggles, _⟩ := forEach_toggles (fun p _ => p) step h
    exact ⟨handles, found, toggles⟩
  · cases h

end Tracker

/-! What is written into observables. -/

namespace Store

def includedAt (s : Store) (index t : Nat) : List Nat := included index [s.tickAt t]

lemma included_between (s : Store) (index start stop : Nat) :
    included index (s.between start stop) =
      (List.range' start (stop - start)).flatMap (s.includedAt index) := by
  have single : s.includedAt index = fun t => (s.tickAt t).notes.flatMap (Note.part index) := by
    funext t
    simp [includedAt, included]
  rw [single, included, between, flatMap_map, flatMap_assoc]

lemma Writes.includedAt {s next : Store} {log : List Write} (h : Writes s log next)
    (index t : Nat) :
    next.includedAt index t = s.includedAt index t ++
      ((notes log).filter (·.1 = t)).flatMap fun e => e.2.part index := by
  simp [Store.includedAt, included, h.notes_eq, flatMap_map]

lemma Writes.includedAt_of_detectors {s next : Store} {log : List Write} (h : Writes s log next)
    (detectors : ∀ e ∈ notes log, ∃ handles, e.2 = .detector handles) (index t : Nat) :
    next.includedAt index t = s.includedAt index t := by
  have none : ((notes log).filter (·.1 = t)).flatMap (fun e => e.2.part index) = [] := by
    rw [flatMap_eq_nil_iff]
    intro e mem
    obtain ⟨handles, same⟩ := detectors e (mem_filter.mp mem).1
    rw [same]
    rfl
  rw [h.includedAt, none, append_nil]

end Store

/-- An observable's share of what several toggled is its own. -/
lemma Tracker.part_allNoted {items : List (Nat × Tracker)}
    (distinct : (items.map (·.2.index)).Nodup) {e : Nat × Tracker} (mem : e ∈ items) (t : Nat) :
    ((allNoted items).filter (·.1 = t)).flatMap (fun n => n.2.part e.2.index) =
      if t = e.1 then e.2.pending else [] := by
  have single : ∀ (index : Nat) (o : Nat × Tracker),
      ((o.2.noted o.1).filter (·.1 = t)).flatMap (fun n => n.2.part index) =
        if o.2.index = index ∧ t = o.1 then o.2.pending else [] := by
    intro index o
    unfold Tracker.noted
    split_ifs with none here here
    · rw [none]
      rfl
    · rfl
    · obtain ⟨rfl, rfl⟩ := here
      simp [Note.part, Note.subject, Note.handles]
    · by_cases tick : o.1 = t
      · have other : o.2.index ≠ index := fun same => here ⟨same, tick.symm⟩
        simp [tick, Note.part, Note.subject, other]
      · simp [tick]
  induction items with
  | nil => simp at mem
  | cons o rest ih =>
    rw [map_cons, nodup_cons] at distinct
    obtain ⟨fresh, distinct⟩ := distinct
    rw [allNoted_cons, filter_append, flatMap_append, single]
    rcases mem_cons.mp mem with rfl | later
    · have others : ((allNoted rest).filter (·.1 = t)).flatMap (fun n => n.2.part e.2.index) =
          [] := by
        rw [allNoted, filter_flatMap, flatMap_assoc, flatMap_eq_nil_iff]
        intro o inside
        have other : o.2.index ≠ e.2.index := by
          intro same
          apply fresh
          rw [← same]
          exact mem_map_of_mem inside
        rw [single, if_neg fun both => other both.1]
      rw [others, append_nil]
      simp
    · have other : o.2.index ≠ e.2.index := by
        intro same
        apply fresh
        rw [same]
        exact mem_map_of_mem later
      rw [if_neg fun both => other both.1, nil_append]
      exact ih distinct later

lemma Store.includedAt_allNoted (s : Store) {items : List (Nat × Tracker)}
    (distinct : (items.map (·.2.index)).Nodup) {e : Nat × Tracker} (mem : e ∈ items) (t : Nat) :
    (s.withNotes (Tracker.allNoted items)).includedAt e.2.index t =
      s.includedAt e.2.index t ++ if t = e.1 then e.2.pending else [] := by
  rw [(s.writes_withNotes _).includedAt, notes_noteLog, Tracker.part_allNoted distinct mem]

namespace Session

/-- Gates, outcomes and detectors are added, and observables stay as they are. -/
structure Spares (s next : Session) : Prop where
  included : ∀ index t, next.store.includedAt index t = s.store.includedAt index t
  trackers : next.progress.resolver.trackers = s.progress.resolver.trackers

namespace Spares

variable {task : Task} {s next last : Session}

lemma trans (h : s.Spares next) (h' : next.Spares last) : s.Spares last :=
  ⟨fun index t => (h'.included index t).trans (h.included index t), h'.trackers.trans h.trackers⟩

lemma marks {p : Progress} (h : s.progress.Marks p) : s.Spares { s with progress := p } where
  included := by
    obtain ⟨items, made, detectors⟩ := h.notes
    change ∀ index t, p.store.includedAt index t = _
    rw [made]
    exact (Store.writes_withNotes ..).includedAt_of_detectors (by simpa using detectors)
  trackers := h.trackers

lemma quiet {moves : List Move} (h : s.Quiet moves next) : s.Spares next where
  included := by
    obtain ⟨log, effect, _, notes⟩ := h.effect
    exact effect.writes.includedAt_of_detectors (by simp [notes])
  trackers := congrArg Resolver.trackers h.resolver

lemma measures {m : Move} (h : s.Measures m next) : s.Spares next where
  included := by
    obtain ⟨u, effect, _⟩ := h.effect
    exact effect.writes.includedAt_of_detectors (forall_mem_nil _)
  trackers := congrArg Resolver.trackers h.resolver

lemma notify {key : Key} (h : s.notify key = .ok next) : s.Spares next := by
  obtain ⟨⟨progress, u⟩, told, rfl⟩ := of_bind_pure h
  exact marks (Progress.notify_marks told)

lemma stepwise (s : Session) : Stepwise task s.Spares :=
  .of_quiet (fun h before => before.trans (quiet h)) (fun h before => before.trans (measures h))
    fun h before => before.trans (notify h)

lemma startRound {p : Progress} {u : Unit}
    (h : (s.progress.beginRound task.code s.rounds).commit = .ok (p, u)) :
    s.Spares (Session.startRound task.code { s with progress := p }) :=
  (marks (Progress.beginRound_marks h)).trans ⟨fun _ _ => rfl, rfl⟩

end Spares

end Session

lemma Progress.eachTracker_eq_ok {action : Tracker → Attempt Tracker Unit}
    {trackers lasts : List Tracker} {u : Unit}
    (h : (eachTracker action trackers).commit = .ok (lasts, u)) :
    Forall₂ (fun t next => (action t).commit = .ok (next, ())) trackers lasts := by
  induction trackers generalizing lasts with
  | nil =>
    cases h
    exact .nil
  | cons t rest ih =>
    simp only [eachTracker] at h
    split at h
    · cases h
    · next moves =>
        obtain ⟨rfl, outcome⟩ := Attempt.commit_eq_ok.mp h
        exact .cons (Attempt.commit_eq_ok.mpr ⟨rfl, moves⟩)
          (ih (Attempt.commit_eq_ok.mpr ⟨rfl, outcome⟩))

lemma Session.compileRound_trackers {task : Task} {s next : Session}
    (h : s.compileRound task = .ok next) :
    (∀ index t, next.store.includedAt index t = s.store.includedAt index t) ∧
      Forall₂ (fun t t' : Tracker =>
          (t.advance task.code s.rounds next.store.record).commit = .ok (t', ()))
        s.progress.resolver.trackers next.progress.resolver.trackers := by
  obtain ⟨begun, third, ended, begins, steps, ends, rfl⟩ := (Spares.stepwise s).compileRound h
  have spares := steps (.startRound begins)
  obtain ⟨rfl, outcome⟩ := Attempt.commit_eq_ok.mp ends
  have moved := Progress.eachTracker_eq_ok (Attempt.commit_eq_ok.mpr ⟨rfl, outcome⟩)
  refine ⟨spares.included, ?_⟩
  rwa [← spares.trackers]

end SyndromeSchedule
