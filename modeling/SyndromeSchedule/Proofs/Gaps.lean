import SyndromeSchedule.Proofs.Interleaving
import SyndromeSchedule.Proofs.Letters
import SyndromeSchedule.Proofs.Runs

/-!
Checks without an ancilla between the gates of those that have one. A check without an ancilla is
measured as soon as its qubits are free, so its measurement shares no tick with a gate on one of
them; but it may fall into a gap between two gates of a check with an ancilla. If there is no such
gap, it comes before or after all of the gates with which it clashes, and of these there is an even
number if the checks commute.
-/

namespace SyndromeSchedule

open List Outcome

namespace Check

/-- Data qubits on which two checks carry different letters. -/
def clashes (a b : Check) : List Qubit :=
  a.qubits.filter fun q => b.actsOn q && a.product.letter q ≠ b.product.letter q

lemma actsOn_iff (c : Check) (q : Qubit) : c.actsOn q = true ↔ q ∈ c.qubits := by
  simp [actsOn, qubits]

lemma mem_clashes {a b : Check} {q : Qubit} :
    q ∈ a.clashes b ↔ q ∈ a.qubits ∧ q ∈ b.qubits ∧ a.product.letter q ≠ b.product.letter q := by
  simp [clashes, actsOn_iff]

lemma not_commutes_iff (a b : Check) (q : Qubit) :
    (a.product.letter q).commutes (b.product.letter q) = false ↔ q ∈ a.clashes b := by
  rw [mem_clashes]
  constructor
  · intro h
    have different : a.product.letter q ≠ .I ∧ b.product.letter q ≠ .I ∧
        a.product.letter q ≠ b.product.letter q := by
      simpa [Pauli.commutes, not_or, and_assoc] using h
    refine ⟨?_, ?_, different.2.2⟩
    · exact Decidable.by_contra fun outside => different.1 (a.letter_product_of_not_mem outside)
    · exact Decidable.by_contra fun outside => different.2.1 (b.letter_product_of_not_mem outside)
  · rintro ⟨first, second, different⟩
    simp [Pauli.commutes, a.letter_product_ne_I first, b.letter_product_ne_I second, different]

lemma commutes_iff (a b : Check) : a.commutes b = true ↔ Even (a.clashes b).length := by
  have same : ((a.product.factors.entries.filter fun e =>
      !e.2.commutes (b.product.letter e.1)).map (·.1)).Perm (a.clashes b) := by
    have distinct : (a.clashes b).Nodup := a.qubits_nodup.filter _
    apply (perm_ext_iff_of_nodup ?_ distinct).mpr
    · intro q
      rw [← not_commutes_iff]
      simp only [mem_map, mem_filter, Bool.not_eq_true', Prod.exists, exists_and_right,
        exists_eq_right]
      constructor
      · rintro ⟨letter, entry, clash⟩
        have some_letter : letter ≠ .I := by
          rintro rfl
          simp [Pauli.commutes] at clash
        rwa [(a.product.letter_eq_iff some_letter).mpr entry]
      · intro clash
        have some_letter : a.product.letter q ≠ .I := by
          intro none
          simp [none, Pauli.commutes] at clash
        exact ⟨_, (a.product.letter_eq_iff some_letter).mp rfl, clash⟩
    · exact a.product.factors.keys_nodup.sublist (filter_sublist.map _)
  rw [← same.length_eq, length_map, Nat.even_iff]
  simp [commutes, Product.commutes]

end Check

namespace Record

end Record

namespace Session

open Extracted

variable {s next : Session} {round : Nat} {task : Task} {checks : List Check} {d a : Check}
  {ancilla : Qubit}

/-- Whether a gate that acts on two given qubits was added to a tick. -/
def meetsIn (s next : Session) (p q : Qubit) (t : Nat) : Bool :=
  (s.store.addedIn next.store t).any fun g => p ∈ g.2 && q ∈ g.2

variable {last : Session} {moves later : List Move}

/-- Gates are placed, and ticks perhaps marked. -/
structure LaysMoves (s : Session) (moves : List Move) (next : Session) : Prop where
  writes : ∃ log, Store.Writes s.store log { next.store with region := s.store.region } ∧
    Store.moves log = moves
  free : ∀ t q, next.occupancy.isFree t q =
    (s.occupancy.isFree t q && !moves.any (·.takes t q))

lemma DoesMoves.lays (h : s.DoesMoves moves next) : s.LaysMoves moves next := by
  have free := h.free
  obtain ⟨log, effect, rfl⟩ := h
  refine ⟨⟨log, ?_, rfl⟩, free⟩
  rw [← effect.writes.region]
  exact effect.writes

lemma LaysMoves.addedIn_eq (h : s.LaysMoves moves next) (t : Nat) :
    s.store.addedIn next.store t = (moves.filter (·.tick = t)).map Move.application := by
  obtain ⟨log, writes, rfl⟩ := h.writes
  exact writes.addedIn_eq t

lemma LaysMoves.mem_addedIn (h : s.LaysMoves moves next) {t : Nat} {g : Gate × List Qubit} :
    g ∈ s.store.addedIn next.store t ↔ ∃ m ∈ moves, m.tick = t ∧ m.application = g := by
  rw [h.addedIn_eq]
  simp [and_assoc]

lemma LaysMoves.taken (h : s.LaysMoves moves next) {m : Move} (mem : m ∈ moves) {q : Qubit}
    (acted : q ∈ m.qubits) : next.occupancy.isFree m.tick q = false := by
  have takes : moves.any (·.takes m.tick q) = true :=
    any_eq_true.mpr ⟨m, mem, by simp [Move.takes, acted]⟩
  rw [h.free, takes]
  simp

lemma LaysMoves.refl (s : Session) : s.LaysMoves [] s := (DoesMoves.refl s).lays

lemma writes_setRegion {store after : Store} {log : List Write}
    (h : Store.Writes store log after) (region : Option Region) :
    Store.Writes { store with region } log { after with region } := by
  induction h with
  | refl => exact .refl
  | number longer _ longer_of ih => exact .number longer ih longer_of
  | put w _ named ih => exact .put w ih named

lemma LaysMoves.trans (h : s.LaysMoves moves next) (h' : next.LaysMoves later last) :
    s.LaysMoves (moves ++ later) last := by
  obtain ⟨log, writes, rfl⟩ := h.writes
  obtain ⟨log', writes', rfl⟩ := h'.writes
  refine ⟨⟨log ++ log', writes.trans (writes_setRegion writes' s.store.region), ?_⟩, ?_⟩
  · exact Store.moves_append log log'
  · intro t q
    rw [h'.free, h.free, any_append, Bool.not_or, Bool.and_assoc]

lemma LaysMoves.addedIn_append (h : s.LaysMoves moves next) (h' : next.LaysMoves later last)
    (t : Nat) :
    s.store.addedIn last.store t =
      s.store.addedIn next.store t ++ next.store.addedIn last.store t := by
  rw [(h.trans h').addedIn_eq, h.addedIn_eq, h'.addedIn_eq, filter_append, map_append]

lemma startRound_lays {p : Progress} {code : Code} {u : Unit}
    (h : (s.progress.beginRound code round).commit = .ok (p, u)) :
    s.LaysMoves [] (startRound code { s with progress := p }) := by
  obtain ⟨items, made, _⟩ := (Progress.beginRound_marks h).notes
  exact { (does_notes made).lays with }

lemma roundNoises_does {qubits : List Qubit} (run : qubits.foldlM (roundNoise task) s = .ok next) :
    s.DoesMoves [] next := by
  apply foldlM_keeps (s.DoesMoves []) ?_ run (.refl s)
  exact fun _ _ _ _ kept run => kept.trans ((roundNoise_meets ..).of_ok run).does

end Session

namespace GapChecks

def left : Qubit := ⟨[0]⟩

def middle : Qubit := ⟨[1]⟩

def right : Qubit := ⟨[2]⟩

def ancilla : Qubit := ⟨[3]⟩

/-- A product of Z that meets the middle qubit between the other two. -/
def long : Check :=
  ⟨[⟨⟨[-3]⟩, left, .positive .Z⟩, ⟨⟨[-2]⟩, middle, .positive .Z⟩,
    ⟨⟨[-1]⟩, right, .positive .Z⟩], some ancilla, some ancilla, by decide⟩

/-- A product of X on the outer qubits, measured without an ancilla. -/
def pair : Check :=
  ⟨[⟨⟨[0]⟩, left, .positive .X⟩, ⟨⟨[2]⟩, right, .positive .X⟩], some left, none, by decide⟩

/-- A code of one round whose first check has a gap that its second one acts in. -/
def code : Code := ⟨.ofList [left, middle, right], [[long, pair]], [[]], [], by decide⟩

/-- One layer, with given states of the data qubits before it. -/
def task (extractor : Extractor) (initial : Table State) : Task :=
  ⟨⟨.noiseless, extractor, {}, NoiseModel.noiseless_sound⟩, code, { layers := 1, initial }⟩

end GapChecks

end SyndromeSchedule
