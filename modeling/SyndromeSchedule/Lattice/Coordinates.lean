import SyndromeSchedule.Number.Word

/-!
Places on the lattice. A place is a list of integers of any dimension, and places are in
lexicographic order. A qubit is named by its place.
-/

namespace SyndromeSchedule

structure Coordinates where
  values : List Int
deriving DecidableEq, Repr, Inhabited

/-- A qubit is the place where it sits. -/
abbrev Qubit := Coordinates

namespace Coordinates

/-- Lexicographic comparison; a shorter list comes before its extensions. -/
def compareValues : List Int → List Int → Ordering
  | [], [] => .eq
  | [], _ :: _ => .lt
  | _ :: _, [] => .gt
  | a :: as, b :: bs =>
      if a < b then .lt else if b < a then .gt else compareValues as bs

def compare (p q : Coordinates) : Ordering :=
  compareValues p.values q.values

def Before (p q : Coordinates) : Prop := compare p q = .lt

instance : DecidableRel Before := fun p q => inferInstanceAs (Decidable (compare p q = .lt))

theorem compareValues_self (a : List Int) : compareValues a a = .eq := by
  induction a with
  | nil => rfl
  | cons x xs ih => simp [compareValues, ih]

theorem compareValues_eq {a b : List Int} (h : compareValues a b = .eq) : a = b := by
  induction a generalizing b with
  | nil => cases b <;> simp_all [compareValues]
  | cons x xs ih =>
      cases b with
      | nil => simp [compareValues] at h
      | cons y ys =>
          simp only [compareValues] at h
          split at h
          · contradiction
          · split at h
            · contradiction
            · have : x = y := by omega
              rw [this, ih h]

theorem compareValues_swap (a b : List Int) :
    compareValues b a = (compareValues a b).swap := by
  induction a generalizing b with
  | nil => cases b <;> rfl
  | cons x xs ih =>
      cases b with
      | nil => rfl
      | cons y ys =>
          simp only [compareValues]
          split
          · split
            · omega
            · rfl
          · split
            · rfl
            · exact ih ys

theorem compareValues_trans {a b c : List Int} (hab : compareValues a b = .lt)
    (hbc : compareValues b c = .lt) : compareValues a c = .lt := by
  induction a generalizing b c with
  | nil => cases b <;> cases c <;> simp_all [compareValues]
  | cons x xs ih =>
      cases b with
      | nil => simp [compareValues] at hab
      | cons y ys =>
          cases c with
          | nil => simp [compareValues] at hbc
          | cons z zs =>
              simp only [compareValues] at hab hbc ⊢
              split at hab <;> split at hbc
              · rw [if_pos (by omega)]
              · split at hbc
                · contradiction
                · rw [if_pos (by omega)]
              · split at hab
                · contradiction
                · rw [if_pos (by omega)]
              · split at hab
                · contradiction
                · split at hbc
                  · contradiction
                  · rw [if_neg (by omega), if_neg (by omega)]
                    exact ih hab hbc

theorem compare_self (p : Coordinates) : compare p p = .eq :=
  compareValues_self p.values

theorem eq_of_compare {p q : Coordinates} (h : compare p q = .eq) : p = q := by
  cases p
  cases q
  simp only [Coordinates.mk.injEq]
  exact compareValues_eq h

theorem Before.trans {p q r : Coordinates} (hpq : Before p q) (hqr : Before q r) :
    Before p r :=
  compareValues_trans hpq hqr

theorem Before.irrefl (p : Coordinates) : ¬ Before p p := by
  simp [Before, compare_self]

/-- What is neither before nor equal comes after. -/
theorem before_of_compare_gt {p q : Coordinates} (h : compare p q = .gt) : Before q p := by
  have swapped := compareValues_swap p.values q.values
  have greater : compareValues p.values q.values = .gt := h
  rw [greater] at swapped
  exact swapped

/-- Difference by component; none if the dimensions differ. -/
def difference (p origin : Coordinates) : Option Coordinates :=
  if p.values.length = origin.values.length then
    some ⟨List.zipWith (· - ·) p.values origin.values⟩
  else none

def isSmall (p : Coordinates) : Bool :=
  p.values.all Word.isInt32

def text (p : Coordinates) : String :=
  "(" ++ ", ".intercalate (p.values.map fun z => toString z) ++ ")"

end Coordinates

end SyndromeSchedule
