import SyndromeSchedule.Lattice.Coordinates

/-!
Finite maps from qubits, kept as association lists in strictly increasing order of qubits. Since the
order is part of the type, two tables are equal exactly when they hold the same entries.
-/

namespace SyndromeSchedule

/-- Entries are strictly increasing. -/
def Ordered {α : Type} (entries : List (Qubit × α)) : Prop :=
  entries.Pairwise fun a b => Coordinates.Before a.1 b.1

structure Table (α : Type) where
  entries : List (Qubit × α)
  ordered : Ordered entries
deriving DecidableEq

namespace Table

variable {α β : Type}

def empty : Table α := ⟨[], .nil⟩

instance : Inhabited (Table α) := ⟨empty⟩

/-- Inserts an entry into increasing entries, in place of one at the same qubit. -/
def insertEntry (q : Qubit) (a : α) : List (Qubit × α) → List (Qubit × α)
  | [] => [(q, a)]
  | (p, b) :: rest =>
      match Coordinates.compare q p with
      | .lt => (q, a) :: (p, b) :: rest
      | .eq => (q, a) :: rest
      | .gt => (p, b) :: insertEntry q a rest

theorem mem_insertEntry {q : Qubit} {a : α} {entries : List (Qubit × α)} {e : Qubit × α}
    (h : e ∈ insertEntry q a entries) : e = (q, a) ∨ e ∈ entries := by
  induction entries with
  | nil => simpa [insertEntry] using h
  | cons head rest ih =>
      obtain ⟨p, b⟩ := head
      simp only [insertEntry] at h
      split at h <;> simp only [List.mem_cons] at h ⊢
      · exact h
      · rcases h with h | h
        · exact .inl h
        · exact .inr (.inr h)
      · rcases h with h | h
        · exact .inr (.inl h)
        · rcases ih h with h | h
          · exact .inl h
          · exact .inr (.inr h)

theorem insertEntry_ordered (q : Qubit) (a : α) {entries : List (Qubit × α)}
    (h : Ordered entries) : Ordered (insertEntry q a entries) := by
  induction entries with
  | nil => exact List.pairwise_singleton _ _
  | cons head rest ih =>
      obtain ⟨p, b⟩ := head
      have below := List.pairwise_cons.mp h
      simp only [insertEntry]
      split
      · next hlt =>
          refine List.pairwise_cons.mpr ⟨fun e he => ?_, h⟩
          rcases List.mem_cons.mp he with rfl | he
          · exact hlt
          · exact Coordinates.Before.trans hlt (below.1 e he)
      · next heq =>
          have same : q = p := Coordinates.eq_of_compare heq
          subst same
          exact List.pairwise_cons.mpr below
      · next hgt =>
          refine List.pairwise_cons.mpr ⟨fun e he => ?_, ih below.2⟩
          rcases mem_insertEntry he with rfl | he
          · exact Coordinates.before_of_compare_gt hgt
          · exact below.1 e he

def insert (t : Table α) (q : Qubit) (a : α) : Table α :=
  ⟨insertEntry q a t.entries, insertEntry_ordered q a t.ordered⟩

def erase (t : Table α) (q : Qubit) : Table α :=
  ⟨t.entries.filter (·.1 ≠ q), t.ordered.filter _⟩

def get? (t : Table α) (q : Qubit) : Option α :=
  (t.entries.find? (·.1 = q)).map (·.2)

def contains (t : Table α) (q : Qubit) : Bool :=
  t.entries.any (·.1 = q)

def keys (t : Table α) : List Qubit :=
  t.entries.map (·.1)

def size (t : Table α) : Nat :=
  t.entries.length

theorem find?_insertEntry (q p : Qubit) (a : α) (entries : List (Qubit × α)) :
    (insertEntry q a entries).find? (·.1 = p) =
      if p = q then some (q, a) else entries.find? (·.1 = p) := by
  induction entries with
  | nil =>
    by_cases h : q = p
    · simp [insertEntry, h]
    · simp [insertEntry, h, Ne.symm h]
  | cons head rest ih =>
    obtain ⟨r, b⟩ := head
    simp only [insertEntry]
    split
    · by_cases h : q = p
      · simp [h]
      · simp [h, Ne.symm h]
    · next heq =>
        have same : q = r := Coordinates.eq_of_compare heq
        subst same
        by_cases h : q = p
        · simp [h]
        · simp [h, Ne.symm h]
    · next hgt =>
        have apart : r ≠ q := by
          rintro rfl
          simp [Coordinates.compare_self] at hgt
        by_cases h : r = p
        · subst h
          simp [apart]
        · simp [h, ih]

@[simp] theorem get?_empty (p : Qubit) : (empty : Table α).get? p = none := rfl

@[simp] theorem get?_insert (t : Table α) (q p : Qubit) (a : α) :
    (t.insert q a).get? p = if p = q then some a else t.get? p := by
  simp only [get?, insert, find?_insertEntry]
  split <;> rfl

/-- Later entries replace earlier ones at the same qubit. -/
def ofList (entries : List (Qubit × α)) : Table α :=
  entries.foldl (fun t e => t.insert e.1 e.2) empty

end Table

end SyndromeSchedule
