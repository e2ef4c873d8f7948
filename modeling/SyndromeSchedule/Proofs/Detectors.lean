import SyndromeSchedule.Proofs.Code
import SyndromeSchedule.Proofs.Resolver

/-!
Detectors of a round. When a round begins, one instance is added for each of its detectors, unless
the initial state would have to stand in for outcomes and does not; all outcomes an instance waits
for are made by the end of its round.
-/

namespace SyndromeSchedule

open List Outcome

variable {α : Type}

lemma nodup_eraseDups [DecidableEq α] : ∀ items : List α, items.eraseDups.Nodup
  | [] => by simp
  | a :: rest => by
    rw [eraseDups_cons, nodup_cons]
    refine ⟨?_, nodup_eraseDups _⟩
    rw [mem_eraseDups, mem_filter]
    simp
termination_by items => items.length
decreasing_by
  exact Nat.lt_succ_of_le (length_filter_le ..)

lemma oddItems_nodup [DecidableEq α] (items : List α) : (oddItems items).Nodup :=
  (nodup_eraseDups items).filter _

lemma mem_oddItems [DecidableEq α] {items : List α} {a : α} :
    a ∈ oddItems items ↔ items.count a % 2 = 1 := by
  simp only [oddItems, mem_filter, mem_eraseDups, decide_eq_true_eq]
  constructor
  · exact fun h => h.2
  · intro odd
    refine ⟨count_pos_iff.mp (by omega), odd⟩

lemma mem_of_mem_oddItems [DecidableEq α] {items : List α} {a : α} (h : a ∈ oddItems items) :
    a ∈ items :=
  mem_eraseDups.mp (mem_filter.mp h).1

namespace Detector

/-- Outcomes of a detector that closes in a round, from round zero on. -/
def keys (d : Detector) (round : Int) : List Key :=
  oddItems ((d.timed.filter fun t => 0 ≤ round + t.offset).map fun t =>
    Key.of t.check (round + t.offset))

/-- Whether outcomes before round zero are left out. -/
def isCut (d : Detector) (round : Int) : Bool :=
  d.timed.any fun t => round + t.offset < 0

lemma triggers_eq_ok {d : Detector} {round : Int} {all : List (Check × Int)}
    (h : d.triggers round = .ok all) :
    all = d.timed.map fun t => (t.check, round + t.offset) := by
  have pairs := mapM_eq_ok.mp h
  clear h
  generalize d.timed = timed at pairs
  induction pairs with
  | nil => rfl
  | cons first _ ih =>
    rw [map_cons, ← ih]
    split at first
    · cases first
      rfl
    · cases first

lemma triggers_within {room : Prop} (d : Detector) (round : Int)
    (fits : room → ∀ t ∈ d.timed, Word.isInt64 (round + t.offset) = true) :
    (d.triggers round).Within room fun all =>
      all = d.timed.map fun t => (t.check, round + t.offset) := by
  have safe : (d.triggers round).Within room (Forall₂ (fun _ _ => True) d.timed) := by
    refine Outcome.Meets.mapM d.timed fun t mem => ?_
    split_ifs with inside
    · exact meets_ok trivial
    · exact within_overflow fun room => inside (fits room t mem)
  exact safe.strengthen fun all found _ => triggers_eq_ok found

lemma filter_keys (d : Detector) (round : Int) :
    ((d.timed.map fun t => (t.check, round + t.offset)).filter (0 ≤ ·.2)).map
        (fun t => Key.of t.1 t.2) =
      (d.timed.filter fun t => 0 ≤ round + t.offset).map fun t =>
        Key.of t.check (round + t.offset) := by
  rw [filter_map, map_map]
  rfl

end Detector

namespace Code

/-- A key is that of a check in one of the first rounds. -/
def Provides (code : Code) (rounds : Nat) (key : Key) : Prop :=
  ∃ r < rounds, ∃ c ∈ code.checksIn r, key = Key.of c (Word.signed r)

lemma Provides.mono {code : Code} {rounds more : Nat} {key : Key} (h : code.Provides rounds key)
    (le : rounds ≤ more) : code.Provides more key := by
  obtain ⟨r, below, rest⟩ := h
  exact ⟨r, by omega, rest⟩

lemma signed_add_offset {round : Nat} {offset : Int} (past : offset ≤ 0)
    (kept : 0 ≤ Word.signed round + offset) :
    ∃ r : Nat, (r : Int) = round + offset ∧ r ≤ round ∧
      Word.signed r = Word.signed round + offset := by
  have small : (Word.half : Int) ≤ Word.size := by decide
  refine ⟨(round + offset).toNat, ?_⟩
  unfold Word.signed at kept ⊢
  by_cases low : round < Word.half
  · rw [if_pos low] at kept ⊢
    have same : ((round + offset).toNat : Int) = round + offset := by omega
    rw [if_pos (by omega)]
    exact ⟨same, by omega, same⟩
  · rw [if_neg low] at kept ⊢
    have same : ((round + offset).toNat : Int) = round + offset := by omega
    rw [if_neg (by omega)]
    exact ⟨same, by omega, by omega⟩

lemma provides_of_mem_keys (code : Code) {round : Nat} {d : Detector}
    (mem : d ∈ code.detectorsIn round) {key : Key} (inside : key ∈ d.keys (Word.signed round)) :
    code.Provides (round + 1) key := by
  obtain ⟨t, kept, rfl⟩ := mem_map.mp (mem_of_mem_oddItems inside)
  obtain ⟨timed, nonneg⟩ := mem_filter.mp kept
  obtain ⟨_, past, scheduled⟩ := code.timed_scheduled mem timed
  obtain ⟨r, same, le, signed⟩ := signed_add_offset past (by simpa using nonneg)
  obtain ⟨c, found, content⟩ := scheduled r same
  refine ⟨r, by omega, c, found, ?_⟩
  rw [signed, Key.of, Key.of, content]

end Code

namespace Resolver

/-- Whether a detector is dropped: outcomes are cut off, and the initial state does not stand in for
them. -/
def discards (r : Resolver) (cut : Bool) (keys : List Key) : Bool :=
  cut && (keys.isEmpty || !r.fixes (keys.foldl (fun q key => q.mul key.product) .identity))

lemma discards_congr {r other : Resolver} (same : r.initial = other.initial) (cut : Bool)
    (keys : List Key) : r.discards cut keys = other.discards cut keys := by
  have bases : r.initialBasis = other.initialBasis := by
    funext q
    simp only [initialBasis, same]
  simp only [discards, fixes, bases]

/-- The instance of a detector in a round, unless it is dropped. -/
def opened (r : Resolver) (entryRound : Nat) (round : Int) (e : Detector × Nat) :
    List (Entry × Int × List Key) :=
  if r.discards (e.1.isCut round) (e.1.keys round) then []
  else [(⟨entryRound, e.2⟩, round, e.1.keys round)]

/-- The instances of a round. -/
def openedIn (r : Resolver) (code : Code) (round : Nat) : List (Entry × Int × List Key) :=
  (code.detectorsIn round).zipIdx.flatMap (r.opened (round % code.period) (Word.signed round))

end Resolver

namespace Progress

variable {room : Prop} {reasons : Halt → Prop} {p : Progress} {P : Key → Prop} {round : Int}

lemma modify_push (instances : Array Instance) (i : Instance) (change : Instance → Instance) :
    (instances.push i).modify instances.size change = instances.push (change i) := by
  refine Array.ext_getElem? fun k => ?_
  simp only [Array.getElem?_modify, Array.getElem?_push]
  by_cases last : k = instances.size
  · simp [last]
  · simp [last, Ne.symm last]

def missingKeys (s : Store) (keys : List Key) : List Key :=
  keys.filter fun key => !s.record.contains key

lemma commit_openInstance (p : Progress) (entry : Entry) (round : Int) (cut : Bool)
    (keys : List Key) :
    (p.openInstance entry round cut keys).commit =
      if p.resolver.discards cut keys then
        .ok (⟨{ p.resolver with discarded := p.resolver.discarded + 1 }, p.store⟩, ())
      else if (missingKeys p.store keys).isEmpty then
        ((⟨p.resolver.wait entry round keys (missingKeys p.store keys), p.store⟩ :
          Progress).trigger p.resolver.instances.size).commit
      else .ok (⟨p.resolver.wait entry round keys (missingKeys p.store keys), p.store⟩, ()) := by
  unfold openInstance Resolver.discards missingKeys
  simp only
  split_ifs <;> rfl

lemma commit_openDetector (p : Progress) (entryRound : Nat) (round : Int) (e : Detector × Nat) :
    (p.openDetector entryRound round e).commit = e.1.triggers round >>= fun _ =>
      (p.openInstance ⟨entryRound, e.2⟩ round (e.1.isCut round) (e.1.keys round)).commit := by
  unfold openDetector
  cases found : e.1.triggers round with
  | error halt => rfl
  | ok all =>
    have listed := Detector.triggers_eq_ok found
    subst listed
    simp only [Detector.filter_keys, any_map]
    rfl

lemma openInstance_eq_ok {next : Progress} {entry : Entry} {cut : Bool} {keys : List Key} {u : Unit}
    (h : (p.openInstance entry round cut keys).commit = .ok (next, u)) :
    if p.resolver.discards cut keys then
      next = { p with resolver := { p.resolver with discarded := p.resolver.discarded + 1 } }
    else if keys.filter (!p.store.record.contains ·) = [] then
      ∃ store, Written p.store keys store ∧ next = ⟨{ p.resolver with
          instances := p.resolver.instances.push ⟨entry, round, keys, .resolved, 0⟩ }, store⟩
    else
      next = { p with resolver :=
        p.resolver.wait entry round keys (keys.filter (!p.store.record.contains ·)) } := by
  rw [commit_openInstance] at h
  unfold missingKeys at h
  split_ifs at h with dropped complete
  · rw [if_pos dropped]
    cases h
    rfl
  · have empty := isEmpty_iff.mp complete
    obtain ⟨i, store, found, written, rfl⟩ := trigger_eq_ok h
    simp only [empty, Resolver.wait, length_nil, foldl_nil,
      Array.getElem?_push_size, Option.some.injEq] at found
    subst found
    rw [if_neg dropped, if_pos empty]
    refine ⟨store, written, ?_⟩
    simp [empty, Resolver.wait, Resolver.modify, length_nil, modify_push]
  · rw [if_neg dropped, if_neg (mt List.isEmpty_iff.mpr complete)]
    cases h
    rfl

lemma openInstance_within (roomy : room → p.store.record.Roomy) (entry : Entry) (round : Int)
    (cut : Bool) (keys : List Key) :
    (p.openInstance entry round cut keys).Within room fun _ _ => True := by
  simp only [openInstance]
  split_ifs with dropped complete
  · exact meets_ok trivial
  · refine trigger_within roomy (i := ⟨entry, round, keys, .pending,
      (keys.filter fun key => !p.store.record.contains key).length⟩) ?_ ?_
    · simp [Resolver.wait]
    · intro key mem
      simpa using filter_eq_nil_iff.mp (isEmpty_iff.mp complete) key mem
  · exact meets_ok trivial

/-- A new instance waits for all of its outcomes that are not on record. -/
lemma Consistent.push (consistent : p.Consistent) {i : Instance}
    {triggers : List (Key × List Nat)} {store : Store} (record : store.record = p.store.record)
    (settled : i.Settled p.store.record 0)
    (listed : ∀ key, (triggers.lookup key).getD [] = p.resolver.waiting key ++
      if key ∈ i.constituents.filter (!p.store.record.contains ·) then
        [p.resolver.instances.size] else []) :
    (⟨{ p.resolver with instances := p.resolver.instances.push i, triggers }, store⟩ :
      Progress).Consistent := by
  refine ⟨nodup_nil, by simp, ?_, ?_⟩
  · intro id j found
    simp only [Array.getElem?_push] at found
    simp only [record]
    split_ifs at found with last
    · obtain rfl := Option.some.inj found
      exact settled
    · exact consistent.settled found
  · intro key
    simp only [Resolver.waiting, Array.size_push, range_succ, filter_append] at listed ⊢
    rw [listed key]
    have old := consistent.listed key
    simp only [Resolver.waiting] at old
    rw [old]
    congr 1
    · refine filter_congr fun id below => ?_
      have inside : id ≠ p.resolver.instances.size := ne_of_lt (mem_range.mp below)
      simp [waitsFor, record, Array.getElem?_push, inside]
    · by_cases mem : key ∈ i.constituents.filter (!p.store.record.contains ·)
      · have both := mem_filter.mp mem
        simp [mem, waitsFor, record, both.1, both.2]
      · have not_both : ¬ (p.store.record.contains key = false ∧ key ∈ i.constituents) := by
          simpa [mem_filter, and_comm] using mem
        simp only [mem, if_false]
        symm
        rw [filter_eq_nil_iff]
        simpa [waitsFor, record] using not_both

lemma plan_push (p : Progress) (i : Instance) (triggers : List (Key × List Nat)) (store : Store) :
    (⟨{ p.resolver with instances := p.resolver.instances.push i, triggers }, store⟩ :
      Progress).plan = p.plan ++ [(i.entry, i.round, i.constituents)] := by
  simp [plan]

lemma written_push (p : Progress) (i : Instance) (triggers : List (Key × List Nat))
    (store : Store) :
    (⟨{ p.resolver with instances := p.resolver.instances.push i, triggers }, store⟩ :
      Progress).written =
      p.written ++ if i.stage = .resolved then [i.constituents] else [] := by
  by_cases done : i.stage = .resolved
  · simp [written, done]
  · simp [written, done]

lemma Consistent.openInstance {next : Progress} {entry : Entry} {cut : Bool}
    {keys : List Key} {u : Unit} (consistent : p.Consistent) (distinct : keys.Nodup)
    (h : (p.openInstance entry round cut keys).commit = .ok (next, u)) :
    next.Consistent ∧ p.Extends
      (if p.resolver.discards cut keys then [] else [(entry, round, keys)]) next := by
  have result := openInstance_eq_ok h
  split_ifs at result ⊢ with dropped complete
  · subst result
    refine ⟨{ consistent with }, ?_⟩
    exact ⟨⟨[], [], rfl, .nil, by simp [written]⟩, rfl, rfl, by simp [plan]⟩
  · obtain ⟨store, written, rfl⟩ := result
    obtain ⟨e, rfl, noted⟩ := written.notes
    constructor
    · refine consistent.push (Store.record_withNotes ..) ⟨distinct, by simp [complete], rfl⟩
        fun key => ?_
      simp [complete, Resolver.waiting]
    · refine ⟨⟨[e], _, rfl, .cons noted .nil, ?_⟩, rfl, rfl, plan_push ..⟩
      rw [written_push]
      exact .refl _
  · subst result
    have pos : (keys.filter (!p.store.record.contains ·)).length ≠ 0 := by
      simpa using complete
    constructor
    · refine consistent.push rfl ⟨distinct, rfl, by simp [pos]⟩ fun key => ?_
      exact Resolver.lookup_addTriggers _ (distinct.filter _) _ _ _
    · refine ⟨⟨[], [], rfl, .nil, ?_⟩, rfl, rfl, plan_push ..⟩
      exact .of_eq (written_push p ⟨entry, round, keys, .pending, _⟩ _ p.store)

lemma Consistent.openDetector_within (consistent : p.Consistent)
    (roomy : room → p.store.record.Roomy) (entryRound : Nat) {e : Detector × Nat}
    (fits : room → ∀ t ∈ e.1.timed, Word.isInt64 (round + t.offset) = true) :
    (p.openDetector entryRound round e).Within room fun next _ =>
      next.Consistent ∧ p.Extends (p.resolver.opened entryRound round e) next := by
  apply Attempt.Meets.of_commit
  rw [commit_openDetector]
  refine (e.1.triggers_within round fits).bind fun _ _ => ?_
  refine (openInstance_within roomy _ _ _ _).commit.strengthen fun _ result _ => ?_
  exact consistent.openInstance (oddItems_nodup _) result

lemma Consistent.beginRound_within (consistent : p.Consistent)
    (roomy : room → p.store.record.Roomy) {code : Code} {round : Nat}
    (fits : room → ∀ d ∈ code.detectorsIn round, ∀ t ∈ d.timed,
      Word.isInt64 (Word.signed round + t.offset) = true) :
    (p.beginRound code round).Within room fun next _ =>
      next.Consistent ∧ p.Extends (p.resolver.openedIn code round) next := by
  let all := (code.detectorsIn round).zipIdx
  let opened := p.resolver.opened (round % code.period) (Word.signed round)
  change Attempt.Within room _
    (Attempt.forEach (openDetector (round % code.period) (Word.signed round)) p all)
  refine (Attempt.Meets.forEach (fun rest q => q.Consistent ∧
    ∃ done, all = done ++ rest ∧ p.Extends (done.flatMap opened) q) ?_ all p
      ⟨consistent, [], rfl, .refl p⟩).imp fun _ => ?_
  · rintro e rest q ⟨before, done, split, extended⟩
    have listed : e ∈ all := by simp [split]
    refine (before.openDetector_within (by rw [extended.record]; exact roomy) _
      fun room => fits room e.1 (fst_mem_of_mem_zipIdx listed)).imp fun _ => ?_
    rintro ⟨after, step⟩
    have same : q.resolver.opened (round % code.period) (Word.signed round) e = opened e := by
      simp only [opened, Resolver.opened, Resolver.discards_congr extended.initial]
    rw [same] at step
    refine ⟨after, done ++ [e], by simp [split], ?_⟩
    simpa using extended.trans step
  · rintro ⟨after, done, split, extended⟩
    rw [append_nil] at split
    rw [← split] at extended
    exact ⟨after, extended⟩

/-! Detectors that close on the final measurements. -/

lemma lastMeasured?_eq_some {code : Code} {c : Check} {steps round measured : Nat}
    (h : lastMeasured? code c steps round = some measured) :
    measured ≤ round ∧ round < measured + steps ∧
      ∃ c' ∈ code.checksIn measured, c.content = c'.content := by
  induction steps generalizing round with
  | zero => simp [lastMeasured?] at h
  | succ steps ih =>
    simp only [lastMeasured?] at h
    split at h
    · next found =>
        obtain rfl := Option.some.inj h
        obtain ⟨c', mem, alike⟩ := any_eq_true.mp found
        exact ⟨le_rfl, by omega, c', mem, by simpa [Check.same] using alike⟩
    · obtain ⟨le, back, rest⟩ := ih h
      exact ⟨by omega, by omega, rest⟩

end Progress

/-- A detector of final measurements: the check and the round in which it was measured last, the
handle of that outcome, those of the final measurements of its qubits, and the tick in which it is
written. -/
structure FinalDetector where
  check : Check
  round : Nat
  handle : Nat
  others : List Nat
  tick : Nat

namespace FinalDetector

open Progress

def handles (f : FinalDetector) : List Nat := oddItems (f.handle :: f.others)

def note (f : FinalDetector) : Nat × Note := (f.tick, .detector f.handles)

/-- What makes a detector close on the final measurements: its check was measured in one of the last
rounds and undisturbed since, and its qubits are measured by its letters. -/
structure Closes (code : Code) (last : Nat) (finals : Table (Pauli × Nat)) (r : Record)
    (f : FinalDetector) : Prop where
  listed : f.check ∈ code.distinctChecks
  covered : isCovered finals f.check = true
  found : lastMeasured? code f.check (min code.period (last + 1)) last = some f.round
  calm : isDisturbed code f.check f.round last = false
  made : r.handle? (.of f.check (Word.signed f.round)) = some f.handle
  finals : finalHandles finals f.check = .ok f.others
  some_handle : f.handles ≠ []
  latest : r.Latest f.handles f.tick

end FinalDetector

namespace Progress

variable {code : Code} {last placed n : Nat} {finals : Table (Pauli × Nat)} {s : Store}
variable {p : Progress} {reasons : Halt → Prop} {c : Check}

/-- When a check closes on the final measurements, and with which handles. -/
lemma commit_closeCheck (code : Code) (last : Nat) (finals : Table (Pauli × Nat))
    (x : Store × Nat) (c : Check) :
    (closeCheck code last finals x c).commit =
      if !isCovered finals c then .ok (x, ())
      else
        match lastMeasured? code c (min code.period (last + 1)) last with
        | none => .ok (x, ())
        | some measured =>
          if isDisturbed code c measured last then .ok (x, ())
          else
            match x.1.record.lookupMade (.of c (Word.signed measured)) with
            | .error _ => .fail (.notYetMeasured (.outcome c.product measured))
            | .ok handle => finalHandles finals c >>= fun hs =>
              placeFinal x (oddItems (handle :: hs)) >>= fun next => .ok (next, ()) := by
  unfold closeCheck
  split_ifs
  · rfl
  · cases lastMeasured? code c (min code.period (last + 1)) last with
    | none => rfl
    | some measured =>
      simp only
      split_ifs
      · rfl
      · cases x.1.record.lookupMade (.of c (Word.signed measured)) with
        | error halt => rfl
        | ok handle =>
          simp only
          cases finalHandles finals c with
          | error halt => rfl
          | ok hs =>
            cases placed : placeFinal x (oddItems (handle :: hs)) with
            | error halt | ok next => simp only [bind, Except.bind, placed]; rfl

/-- A check adds one detector to the final ones, or none. -/
lemma closeCheck_eq_ok {next : Store × Nat} {u : Unit} (listed : c ∈ code.distinctChecks)
    (h : (closeCheck code last finals (s, n) c).commit = .ok (next, u)) :
    next = (s, n) ∨ ∃ f : FinalDetector, f.Closes code last finals s.record ∧
      next = (s.withNotes [f.note], n + 1) := by
  rw [commit_closeCheck] at h
  split_ifs at h with uncovered
  · cases h
    exact .inl rfl
  split at h
  · cases h
    exact .inl rfl
  · next measured found =>
      split_ifs at h with disturbed
      · cases h
        exact .inl rfl
      split at h
      · cases h
      · next handle made =>
          obtain ⟨others, read, h⟩ := of_bind h
          obtain ⟨_, closes, h⟩ := of_bind h
          cases h
          unfold placeFinal at closes
          split_ifs at closes with empty
          · cases closes
            exact .inl rfl
          · obtain ⟨store, placed, closes⟩ := of_bind closes
            cases closes
            obtain ⟨tick, latest, rfl⟩ := placeDetector_eq_ok placed
            exact .inr ⟨⟨c, measured, handle, others, tick⟩, ⟨listed, by simpa using uncovered,
              found, by simpa using disturbed, Record.lookupMade_eq_ok.mp made, read,
              mt isEmpty_iff.mpr empty, latest⟩, rfl⟩

lemma finalHandles_eq_ok {handles : List Nat}
    (h : finalHandles finals c = .ok handles) (covered : isCovered finals c = true) :
    Forall₂ (fun (m : Member) h => finals.get? m.qubit = some (m.operator.letter, h))
      c.members handles := by
  rw [finalHandles, Check.qubits] at h
  have found := forall₂_map_left_iff.mp (mapM_eq_ok.mp h)
  have letters := all_eq_true.mp covered
  refine ((forall₂_and_left ..).mpr ⟨letters, found⟩).imp ?_
  rintro m handle ⟨letter, read⟩
  obtain ⟨e, found, rfl⟩ := map_eq_ok.mp read
  have entry := ofIndex_eq_ok.mp found
  rw [entry, decide_eq_true_eq] at letter
  rw [entry, ← Option.some.inj letter]

lemma commit_finalDetectors (p : Progress) (code : Code) (last : Nat)
    (finals : Table (Pauli × Nat)) :
    (p.finalDetectors code last finals).commit =
      if Word.size ≤ last + 1 then .overflow
      else (Attempt.forEach (closeCheck code last finals) (p.store, 0)
        code.distinctChecks).commit >>= fun r => .ok (⟨p.resolver, r.1.1⟩, r.1.2) := by
  unfold finalDetectors
  split_ifs
  · rfl
  · generalize Attempt.forEach (closeCheck code last finals) (p.store, 0) code.distinctChecks = a
    cases a with
    | mk state outcome =>
      cases outcome <;> rfl

lemma finalDetectors_eq_ok {next : Progress}
    (h : (p.finalDetectors code last finals).commit = .ok (next, placed)) :
    last + 1 < Word.size ∧ next.resolver = p.resolver ∧ ∃ u,
      (Attempt.forEach (closeCheck code last finals) (p.store, 0) code.distinctChecks).commit =
        .ok ((next.store, placed), u) := by
  rw [commit_finalDetectors] at h
  split_ifs at h with large
  · cases h
  · obtain ⟨⟨r, u⟩, run, h⟩ := of_bind h
    cases h
    exact ⟨by omega, rfl, u, run⟩

lemma finalDetectors_closes {next : Progress}
    (h : (p.finalDetectors code last finals).commit = .ok (next, placed)) :
    ∃ closing : List FinalDetector,
      next.store = p.store.withNotes (closing.map FinalDetector.note) ∧ closing.length = placed ∧
      ∀ f ∈ closing, f.Closes code last finals p.store.record := by
  obtain ⟨_, _, u, run⟩ := finalDetectors_eq_ok h
  refine Attempt.forEach_keeps (fun mid : Store × Nat => ∃ closing : List FinalDetector,
    mid.1 = p.store.withNotes (closing.map FinalDetector.note) ∧ closing.length = mid.2 ∧
    ∀ f ∈ closing, f.Closes code last finals p.store.record) ?_ run ⟨[], rfl, rfl, forall_mem_nil _⟩
  rintro c listed ⟨_, _⟩ after _ ⟨closing, rfl, rfl, known⟩ here
  rcases closeCheck_eq_ok listed here with rfl | ⟨f, closes, rfl⟩
  · exact ⟨closing, rfl, rfl, known⟩
  · rw [Store.record_withNotes] at closes
    refine ⟨closing ++ [f], ?_, length_append, ?_⟩
    · rw [map_append, Store.withNotes_append]
      rfl
    · exact forall_mem_append.mpr ⟨known, forall_mem_singleton.mpr closes⟩

lemma finalDetectors_marks {next : Progress}
    (h : (p.finalDetectors code last finals).commit = .ok (next, placed)) : p.Marks next := by
  obtain ⟨_, same, _⟩ := finalDetectors_eq_ok h
  obtain ⟨closing, made, _⟩ := finalDetectors_closes h
  refine ⟨⟨_, made, ?_⟩, congrArg Resolver.trackers same⟩
  exact forall_mem_map.mpr fun f _ => ⟨f.handles, rfl⟩

/-- The checks of the last period are on record. -/
def HoldsLast (code : Code) (last : Nat) (r : Record) : Prop :=
  ∀ round ≤ last, last < round + code.period → ∀ c ∈ code.checksIn round,
    r.contains (.of c (Word.signed round)) = true

/-- Every final measurement has its outcome on record. -/
def HoldsFinals (finals : Table (Pauli × Nat)) (r : Record) : Prop :=
  ∀ q e, finals.get? q = some e → e.2 < r.size

lemma finalHandles_meets {r : Record} (covered : isCovered finals c = true)
    (made : HoldsFinals finals r) :
    (finalHandles finals c).Meets reasons fun handles => ∀ h ∈ handles, h < r.size := by
  have found : (finalHandles finals c).Meets reasons
      (Forall₂ (fun _ h => h < r.size) c.qubits) := by
    refine Outcome.Meets.mapM c.qubits fun q mem => ?_
    obtain ⟨m, inside, rfl⟩ := mem_map.mp mem
    have at_q := all_eq_true.mp covered m inside
    simp only [decide_eq_true_eq, Option.map_eq_some_iff] at at_q
    obtain ⟨e, final, _⟩ := at_q
    refine (meets_ofIndex final (made _ _ final)).map (fun _ h => h)
  refine found.imp fun handles pairs h mem => ?_
  obtain ⟨_, _, entry⟩ := exists_left_of_forall₂ pairs mem
  exact entry

lemma placeFinal_meets {handles : List Nat} (known : ∀ h ∈ handles, h < s.record.size) :
    (placeFinal (s, n) handles).Bounded fun next => next.1.record = s.record := by
  simp only [placeFinal]
  split_ifs
  · exact meets_ok rfl
  · refine (placeDetector_within False.elim known).bind ?_
    rintro store ⟨tick, _, rfl⟩
    exact meets_ok rfl

lemma closeCheck_meets (c : Check) (measured : HoldsLast code last s.record)
    (made : HoldsFinals finals s.record) :
    (closeCheck code last finals (s, n) c).Bounded fun next _ => next.1.record = s.record := by
  apply Attempt.Meets.of_commit
  rw [commit_closeCheck]
  split_ifs with covered
  · exact meets_ok rfl
  · split
    · exact meets_ok rfl
    · next round found =>
        split_ifs
        · exact meets_ok rfl
        · obtain ⟨le, back, c', mem, content⟩ := lastMeasured?_eq_some found
          have filed := measured round le (by omega) c' mem
          rw [Key.of, ← content] at filed
          obtain ⟨handle, t, looked, _, entry⟩ := Record.lookupMade_of_contains filed
          simp only [Key.of, looked]
          refine (finalHandles_meets (by simpa using covered) made).bind fun hs known => ?_
          refine (placeFinal_meets fun h inside => ?_).bind fun _ same => meets_ok same
          rcases mem_cons.mp (mem_of_mem_oddItems inside) with rfl | old
          · exact Record.lt_size entry
          · exact known h old

lemma finalDetectors_meets (measured : HoldsLast code last p.store.record)
    (made : HoldsFinals finals p.store.record) :
    (p.finalDetectors code last finals).Bounded fun _ _ => True := by
  have run : (Attempt.forEach (closeCheck code last finals) (p.store, 0)
      code.distinctChecks).Bounded fun next _ => next.1.record = p.store.record := by
    refine Attempt.Meets.forEach (fun _ (state : Store × Nat) => state.1.record = p.store.record)
      ?_ _ _ rfl
    rintro c rest ⟨store, n⟩ same
    rw [← same] at measured made
    exact (closeCheck_meets c measured made).imp fun _ step => step.trans same
  apply Attempt.Meets.of_commit
  rw [commit_finalDetectors]
  split_ifs
  · exact within_overflow id
  · exact run.commit.bind fun _ _ => meets_ok trivial

end Progress

end SyndromeSchedule
