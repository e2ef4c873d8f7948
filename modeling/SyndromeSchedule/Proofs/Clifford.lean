import Mathlib.Data.List.Perm.Basic
import SyndromeSchedule.Proofs.Session

/-!
Products of letters pulled back through gates, up to a sign. A gate changes the letters on its own
qubits and depends on no others, so the order of two gates matters only where they share a qubit.
-/

namespace SyndromeSchedule

open List

namespace Pauli

/-- Product of two letters without its phase. -/
def times (a b : Pauli) : Pauli := (a.mul b).1

/-- Exchanges two letters. -/
def swap (a b : Pauli) (c : Pauli) : Pauli := if c = a then b else if c = b then a else c

/-- Whether X is a factor of a letter, which is a product of X and Z. -/
def hasX (a : Pauli) : Bool := a = X || a = Y

/-- Whether Z is a factor of a letter. -/
def hasZ (a : Pauli) : Bool := a = Z || a = Y

end Pauli

/-- What X and Z on the first and on the second qubit of a gate become. -/
structure Images where
  firstX : Pauli × Pauli
  firstZ : Pauli × Pauli
  secondX : Pauli × Pauli
  secondZ : Pauli × Pauli

namespace Images

def factor (present : Bool) (image product : Pauli × Pauli) : Pauli × Pauli :=
  if present then (image.1.times product.1, image.2.times product.2) else product

/-- What two letters become: the product of what their factors become. -/
def pull (images : Images) (a b : Pauli) : Pauli × Pauli :=
  factor a.hasX images.firstX <| factor a.hasZ images.firstZ <|
    factor b.hasX images.secondX <| factor b.hasZ images.secondZ (.I, .I)

end Images

namespace Gate

/-- The action of a gate on two qubits. -/
def images? : Gate → Option Images
  | CX => some ⟨(.X, .X), (.Z, .I), (.I, .X), (.Z, .Z)⟩
  | CY => some ⟨(.X, .Y), (.Z, .I), (.Z, .X), (.Z, .Z)⟩
  | CZ => some ⟨(.X, .Z), (.Z, .I), (.Z, .X), (.I, .Z)⟩
  | _ => none

/-- The action of a gate on one qubit. -/
def turn : Gate → Pauli → Pauli
  | H => .swap .X .Z
  | sqrtYDag => .swap .X .Z
  | HYZ => .swap .Y .Z
  | sqrtX => .swap .Y .Z
  | sqrtXDag => .swap .Y .Z
  | _ => id

/-- Letters pulled back through a unitary gate on some qubits. -/
def pull (gate : Gate) (qubits : List Qubit) (letters : Qubit → Pauli) (q : Qubit) : Pauli :=
  match gate.images?, qubits with
  | some images, [a, b] =>
    if q = a then (images.pull (letters a) (letters b)).1
    else if q = b then (images.pull (letters a) (letters b)).2
    else letters q
  | _, _ => if q ∈ qubits then gate.turn (letters q) else letters q

variable {gate : Gate} {qubits : List Qubit} {letters other : Qubit → Pauli} {q : Qubit}

lemma pull_of_not_mem (outside : q ∉ qubits) : gate.pull qubits letters q = letters q := by
  simp only [pull]
  split
  · simp only [mem_cons, not_mem_nil, or_false, not_or] at outside
    simp [outside]
  · simp [outside]

lemma pull_congr (same : ∀ p ∈ qubits, letters p = other p) (inside : q ∈ qubits) :
    gate.pull qubits letters q = gate.pull qubits other q := by
  simp only [pull]
  split
  · next a b _ =>
      have first := same a (by simp)
      have second := same b (by simp)
      simp only [first, second, same q inside]
  · simp [inside, same q inside]

lemma pull_comm (gate later : Gate) {others : List Qubit}
    (apart : ∀ q ∈ qubits, q ∉ others) (letters : Qubit → Pauli) :
    gate.pull qubits (later.pull others letters) =
      later.pull others (gate.pull qubits letters) := by
  funext q
  by_cases here : q ∈ qubits
  · have kept : later.pull others (gate.pull qubits letters) q = gate.pull qubits letters q :=
      pull_of_not_mem (apart q here)
    rw [kept]
    exact pull_congr (fun p inside => pull_of_not_mem (apart p inside)) here
  · rw [pull_of_not_mem here]
    by_cases there : q ∈ others
    · refine (pull_congr (fun p inside => ?_) there).symm
      exact pull_of_not_mem fun both => apart p both inside
    · rw [pull_of_not_mem there, pull_of_not_mem there, pull_of_not_mem here]

/-- A controlled letter: letters that clash with it add Z to the control, and letters of the control
that clash with Z add it to the target. -/
theorem pull_controlled {letter : Pauli} (found : Gate.controlled letter = .ok gate)
    (control target : Qubit) (letters : Qubit → Pauli) (q : Qubit) :
    gate.pull [control, target] letters q =
      if q = control then
        if (letters target).commutes letter then letters control else (letters control).times .Z
      else if q = target then
        if (letters control).commutes .Z then letters target else (letters target).times letter
      else letters q := by
  have pair : ∃ images, gate.images? = some images ∧ ∀ a b : Pauli, images.pull a b =
      (if b.commutes letter then a else a.times .Z,
        if a.commutes .Z then b else b.times letter) := by
    cases letter with
    | I => cases found
    | X | Y | Z =>
      cases found
      refine ⟨_, rfl, fun a b => ?_⟩
      cases a <;> cases b <;> rfl
  obtain ⟨images, has, act⟩ := pair
  simp only [pull, has, act]

lemma pull_single (none : gate.images? = none) (p : Qubit) (letters : Qubit → Pauli) (q : Qubit) :
    gate.pull [p] letters q = if q = p then gate.turn (letters p) else letters q := by
  simp only [pull, none, mem_singleton]
  split_ifs with here
  · rw [here]
  · rfl

end Gate

/-- Letters pulled back through gates, the last one first. -/
def pullBack (gates : List (Gate × List Qubit)) (letters : Qubit → Pauli) : Qubit → Pauli :=
  gates.foldr (fun g letters => g.1.pull g.2 letters) letters

@[simp] lemma pullBack_cons (g : Gate × List Qubit) (rest : List (Gate × List Qubit))
    (letters : Qubit → Pauli) :
    pullBack (g :: rest) letters = g.1.pull g.2 (pullBack rest letters) := rfl

lemma pullBack_append (gates later : List (Gate × List Qubit)) (letters : Qubit → Pauli) :
    pullBack (gates ++ later) letters = pullBack gates (pullBack later letters) :=
  foldr_append ..

namespace Move

def application (m : Move) : Gate × List Qubit := (m.gate, m.qubits)

/-- Gates that share a qubit are in the order of their ticks. -/
def Before (a b : Move) : Prop := ∀ q ∈ a.qubits, q ∈ b.qubits → a.tick < b.tick

end Move

lemma pullBack_middle {earlier later : List Move} {m : Move}
    (apart : ∀ n ∈ earlier, ∀ q ∈ n.qubits, q ∉ m.qubits) (letters : Qubit → Pauli) :
    pullBack ((earlier ++ m :: later).map Move.application) letters =
      pullBack ((m :: (earlier ++ later)).map Move.application) letters := by
  induction earlier with
  | nil => rfl
  | cons n rest ih =>
    have rest_apart : ∀ n ∈ rest, ∀ q ∈ n.qubits, q ∉ m.qubits := fun k mem => apart k (.tail _ mem)
    have first := apart n (.head _)
    simp only [cons_append, map_cons, pullBack_cons] at ih ⊢
    rw [ih rest_apart]
    exact Gate.pull_comm n.gate m.gate first _

/-- Runs of the same gates that keep to the order of ticks do the same. -/
theorem pullBack_perm {moves others : List Move} (perm : moves.Perm others)
    (ordered : moves.Pairwise Move.Before) (ordered' : others.Pairwise Move.Before)
    (letters : Qubit → Pauli) :
    pullBack (moves.map Move.application) letters =
      pullBack (others.map Move.application) letters := by
  induction moves generalizing others with
  | nil => rw [nil_perm.mp perm]
  | cons m rest ih =>
    obtain ⟨earlier, later, rfl⟩ := append_of_mem (perm.mem_iff.mp (.head _))
    have perm_rest : rest.Perm (earlier ++ later) := List.Perm.cons_inv (perm.trans perm_middle)
    obtain ⟨after, ordered_rest⟩ := pairwise_cons.mp ordered
    obtain ⟨ordered_earlier, ordered_later, between⟩ := pairwise_append.mp ordered'
    -- a gate before the first one that shares a qubit with it would have to come later
    have apart : ∀ n ∈ earlier, ∀ q ∈ n.qubits, q ∉ m.qubits := by
      intro n mem q acted acted'
      have before := between n mem m (.head _) q acted acted'
      have inside : n ∈ rest := perm_rest.mem_iff.mpr (mem_append_left _ mem)
      exact lt_asymm before (after n inside q acted' acted)
    have ordered_both : (earlier ++ later).Pairwise Move.Before :=
      pairwise_append.mpr ⟨ordered_earlier, (pairwise_cons.mp ordered_later).2,
        fun a ha b hb => between a ha b (.tail _ hb)⟩
    rw [pullBack_middle apart, map_cons, map_cons, pullBack_cons, pullBack_cons,
      ih perm_rest ordered_rest ordered_both]

end SyndromeSchedule
