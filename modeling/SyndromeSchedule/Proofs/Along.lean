import Mathlib.Tactic.SplitIfs
import SyndromeSchedule.Proofs.Outcome

/-!
Computations side by side. Two computations go along with each other if their results are related
whenever both have one; a strict comparison also asks that they fail together and for the same
reason. Loops over related items go along with each other if their steps do.
-/

namespace SyndromeSchedule

open List

namespace Outcome

variable {α α' β β' σ σ' : Type} {strict : Prop} {f : σ → α → Outcome σ} {items : List α}

/-- Two runs give related results if both succeed; strict ones fail together and alike. -/
def Along (strict : Prop) (R : α → α' → Prop) : Outcome α → Outcome α' → Prop
  | .ok a, .ok a' => R a a'
  | .error halt, .error halt' => strict → halt = halt'
  | .ok _, .error _ => ¬ strict
  | .error _, .ok _ => ¬ strict

section

variable {R : α → α' → Prop} {x : Outcome α} {x' : Outcome α'} {a' : α'} {a : α}

lemma along_ok (h : R a a') : Along strict R (.ok a) (.ok a') := h

lemma along_pure (h : R a a') : Along strict R (pure a : Outcome α) (pure a' : Outcome α') := h

lemma along_error {halt halt' : Halt} (h : strict → halt = halt') :
    Along strict R (.error halt) (.error halt') := h

lemma along_of_ok (loose : ¬ strict) (h : ∀ a a', x = .ok a → x' = .ok a' → R a a') :
    Along strict R x x' := by
  cases x with
  | ok a =>
    cases x' with
    | ok a' => exact h a a' rfl rfl
    | error halt => exact loose
  | error halt =>
    cases x' with
    | ok a' => exact loose
    | error halt' => exact fun h => absurd h loose

section

variable (h : Along strict R x x')
include h

lemma Along.of_ok (left : x = .ok a) (right : x' = .ok a') : R a a' := by
  subst left right
  exact h

lemma Along.strengthen {S : α → α' → Prop}
    (implies : ∀ a a', x = .ok a → x' = .ok a' → R a a' → S a a') : Along strict S x x' := by
  cases x with
  | ok a =>
    cases x' with
    | ok a' => exact implies a a' rfl rfl h
    | error halt => exact h
  | error halt =>
    cases x' <;> exact h

lemma Along.imp {S : α → α' → Prop} (implies : ∀ a a', R a a' → S a a') : Along strict S x x' :=
  h.strengthen fun a a' _ _ => implies a a'

lemma Along.meets {reasons : Halt → Prop} {P : α → Prop} {P' : α' → Prop} (left : Meets reasons P x)
    (right : Meets reasons P' x') : Along strict (fun a a' => R a a' ∧ P a ∧ P' a') x x' :=
  h.strengthen fun _ _ found found' both => ⟨both, left.of_ok found, right.of_ok found'⟩

lemma Along.bind {S : β → β' → Prop} {f : α → Outcome β} {f' : α' → Outcome β'}
    (next : ∀ a a', R a a' → Along strict S (f a) (f' a')) :
    Along strict S (x >>= f) (x' >>= f') := by
  cases x with
  | ok a =>
    cases x' with
    | ok a' => exact next a a' h
    | error halt => exact along_of_ok h fun _ _ _ right => nomatch right
  | error halt =>
    cases x' with
    | ok a' => exact along_of_ok h fun _ _ left _ => nomatch left
    | error halt' => exact h

end

lemma along_of_eq {x' : Outcome α} {S : α → α → Prop} (same : strict → x = x')
    (h : ∀ a a', x = .ok a → x' = .ok a' → S a a') : Along strict S x x' := by
  cases x with
  | ok a =>
    cases x' with
    | ok a' => exact h a a' rfl rfl
    | error halt => exact fun tight => nomatch same tight
  | error halt =>
    cases x' with
    | ok a' => exact fun tight => nomatch same tight
    | error halt' => exact fun tight => Except.error.inj (same tight)

lemma along_guard {past past' : Prop}
    [Decidable past] [Decidable past'] (same : strict → (past ↔ past'))
    (h : ¬ past → ¬ past' → Along strict R x x') :
    Along strict R (if past then .overflow else x) (if past' then .overflow else x') := by
  split_ifs with left right right
  · exact along_error fun _ => rfl
  · apply along_of_ok fun tight => right ((same tight).mp left)
    intro _ _ ended _
    cases ended
  · apply along_of_ok fun tight => left ((same tight).mpr right)
    intro _ _ _ ended
    cases ended
  · exact h left right

end

lemma Along.foldlM {P : α → α' → Prop} {R : σ → σ' → Prop}
    {f' : σ' → α' → Outcome σ'} {items' : List α'}
    (related : Forall₂ P items items')
    (step : ∀ a a' s s', P a a' → R s s' → Along strict R (f s a) (f' s' a')) {s : σ} {s' : σ'}
    (h : R s s') : Along strict R (items.foldlM f s) (items'.foldlM f' s') := by
  induction related generalizing s s' with
  | nil => exact along_pure h
  | cons head _ ih =>
    rw [foldlM_cons, foldlM_cons]
    exact (step _ _ s s' head h).bind fun _ _ next => ih next

lemma Along.foldlM_same {R : σ → σ' → Prop} {f' : σ' → α → Outcome σ'}
    (step : ∀ a ∈ items, ∀ s s', R s s' → Along strict R (f s a) (f' s' a)) {s : σ} {s' : σ'}
    (h : R s s') : Along strict R (items.foldlM f s) (items.foldlM f' s') := by
  have related : Forall₂ (fun a a' => a ∈ items ∧ a' = a) items items :=
    forall₂_same.mpr fun a mem => ⟨mem, rfl⟩
  apply Along.foldlM related _ h
  rintro a a' s s' ⟨mem, rfl⟩ state
  exact step a' mem s s' state

lemma Along.mapM {P : α → α' → Prop} {Q : β → β' → Prop} {f : α → Outcome β}
    {f' : α' → Outcome β'} {items' : List α'}
    (related : Forall₂ P items items')
    (step : ∀ a a', P a a' → Along strict Q (f a) (f' a')) :
    Along strict (Forall₂ Q) (items.mapM f) (items'.mapM f') := by
  induction related with
  | nil => exact along_pure .nil
  | cons head _ ih =>
    rw [mapM_cons, mapM_cons]
    refine (step _ _ head).bind fun b b' first => ?_
    exact ih.bind fun bs bs' others => along_pure (.cons first others)

end Outcome

namespace Attempt

variable {σ σ' α α' : Type} {strict : Prop} {action : σ → α → Attempt σ Unit}

lemma along_forEach {P : α → α' → Prop} {R : σ → σ' → Prop}
    {action' : σ' → α' → Attempt σ' Unit} {items : List α} {items' : List α'}
    (related : Forall₂ P items items')
    (step : ∀ a a' s s', P a a' → R s s' → (action s a).commit.Along strict
      (fun r r' => R r.1 r'.1) (action' s' a').commit) {s : σ} {s' : σ'} (h : R s s') :
    (forEach action s items).commit.Along strict (fun r r' => R r.1 r'.1)
      (forEach action' s' items').commit := by
  induction related generalizing s s' with
  | nil => exact Outcome.along_ok h
  | cons head _ ih =>
    rw [forEach, forEach, commit_andThen, commit_andThen]
    exact (step _ _ s s' head h).bind fun _ _ next => ih next

lemma along_forEach_same {R : σ → σ' → Prop} {action' : σ' → α → Attempt σ' Unit} {items : List α}
    (step : ∀ a ∈ items, ∀ s s', R s s' → (action s a).commit.Along strict
      (fun r r' => R r.1 r'.1) (action' s' a).commit) {s : σ} {s' : σ'} (h : R s s') :
    (forEach action s items).commit.Along strict (fun r r' => R r.1 r'.1)
      (forEach action' s' items).commit := by
  have related : Forall₂ (fun a a' => a ∈ items ∧ a' = a) items items :=
    forall₂_same.mpr fun a mem => ⟨mem, rfl⟩
  refine along_forEach related ?_ h
  rintro a a' s s' ⟨mem, rfl⟩ state
  exact step a' mem s s' state

end Attempt

end SyndromeSchedule
