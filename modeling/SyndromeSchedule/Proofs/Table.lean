import Mathlib.Data.List.Nodup
import SyndromeSchedule.Lattice.Table

/-!
Tables as functions: what is found at a qubit after an entry is inserted or erased. Since a table
keeps its entries in order, it is determined by what is found in it.
-/

namespace SyndromeSchedule.Table

open List

variable {α : Type}

@[simp] lemma get?_erase (t : Table α) (q p : Qubit) :
    (t.erase q).get? p = if p = q then none else t.get? p := by
  simp only [get?, erase, find?_filter]
  by_cases h : p = q
  · subst h
    simp
  · rw [if_neg h]
    congr 2
    funext e
    by_cases he : e.1 = p
    · simp [he, h]
    · simp [he]

lemma keys_nodup (t : Table α) : t.keys.Nodup := by
  have ordered := t.ordered
  unfold Ordered at ordered
  rw [keys, List.Nodup, pairwise_map]
  refine ordered.imp ?_
  intro a b before same
  rw [same] at before
  exact Coordinates.Before.irrefl _ before

lemma find?_map_eq_some_iff {entries : List (Qubit × α)} (distinct : (entries.map (·.1)).Nodup)
    {q : Qubit} {a : α} :
    (entries.find? (·.1 = q)).map (·.2) = some a ↔ (q, a) ∈ entries := by
  constructor
  · intro h
    obtain ⟨e, found, rfl⟩ := Option.map_eq_some_iff.mp h
    have same := find?_some found
    simp only [decide_eq_true_eq] at same
    subst same
    exact mem_of_find?_eq_some found
  · intro h
    have some : (entries.find? (·.1 = q)).isSome := by
      rw [find?_isSome]
      exact ⟨(q, a), h, by simp⟩
    obtain ⟨e, found⟩ := Option.isSome_iff_exists.mp some
    have same := find?_some found
    simp only [decide_eq_true_eq] at same
    have unique : e = (q, a) := inj_on_of_nodup_map distinct (mem_of_find?_eq_some found) h same
    simp [found, unique]

lemma get?_eq_some_iff (t : Table α) (q : Qubit) (a : α) :
    t.get? q = some a ↔ (q, a) ∈ t.entries :=
  find?_map_eq_some_iff t.keys_nodup

lemma contains_iff (t : Table α) (q : Qubit) : t.contains q = true ↔ (t.get? q).isSome := by
  simp [contains, get?, find?_isSome]

lemma mem_keys (t : Table α) (q : Qubit) : q ∈ t.keys ↔ (t.get? q).isSome := by
  rw [← contains_iff]
  simp [contains, keys]

lemma ext_get? {t u : Table α} (h : ∀ q, t.get? q = u.get? q) : t = u := by
  have members : ∀ e, e ∈ t.entries ↔ e ∈ u.entries := by
    intro e
    rw [← t.get?_eq_some_iff, ← u.get?_eq_some_iff, h]
  have irreflexive : ∀ (v : Table α), v.entries.Nodup := by
    intro v
    exact List.Nodup.of_map Prod.fst v.keys_nodup
  have same : t.entries = u.entries := by
    refine List.Perm.eq_of_pairwise ?_ t.ordered u.ordered
      ((perm_ext_iff_of_nodup (irreflexive t) (irreflexive u)).mpr members)
    intro a b _ _ hab hba
    exact absurd (hab.trans hba) (Coordinates.Before.irrefl _)
  cases t
  cases u
  simpa using same

end SyndromeSchedule.Table
