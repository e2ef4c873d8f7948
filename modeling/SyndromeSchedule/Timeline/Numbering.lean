import SyndromeSchedule.Lattice.Table

/-!
Numbers of qubits in order of first use: a list of the qubits, and a map that leads from a qubit
back to its place in the list.
-/

namespace SyndromeSchedule

/-- Qubits in order of their numbers, and the number of each. -/
structure Numbering where
  qubits : List Qubit
  indices : Table Nat
  /-- The map is the inverse of the list. -/
  inverse : ∀ q n, indices.get? q = some n ↔ qubits[n]? = some q

namespace Numbering

def empty : Numbering := ⟨[], .empty, by simp⟩

/-- A qubit without a number gets the next one. -/
theorem inverse_append {qubits : List Qubit} {indices : Table Nat} {q : Qubit}
    (inverse : ∀ q n, indices.get? q = some n ↔ qubits[n]? = some q)
    (fresh : indices.get? q = none) (p : Qubit) (n : Nat) :
    (indices.insert q qubits.length).get? p = some n ↔ (qubits ++ [q])[n]? = some p := by
  rw [Table.get?_insert, List.getElem?_append]
  split
  · next same =>
      subst same
      split
      · next inside =>
          rw [← inverse, fresh]
          simp only [Option.some.injEq, reduceCtorEq, iff_false]
          omega
      · next past =>
          rw [List.getElem?_singleton]
          simp only [Option.some.injEq]
          split
          · simp only [iff_true]
            omega
          · simp only [reduceCtorEq, iff_false]
            omega
  · next other =>
      split
      · exact inverse p n
      · next past =>
          rw [inverse, List.getElem?_eq_none (by omega), List.getElem?_singleton]
          split
          · simp [Ne.symm other]
          · simp

/-- The number of a qubit, new if the qubit is. -/
def number (m : Numbering) (q : Qubit) : Numbering × Nat :=
  match fresh : m.indices.get? q with
  | some n => (m, n)
  | none => (⟨m.qubits ++ [q], m.indices.insert q m.qubits.length, inverse_append m.inverse fresh⟩,
      m.qubits.length)

end Numbering

end SyndromeSchedule
