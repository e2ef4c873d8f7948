import Mathlib.Data.List.Forall2
import SyndromeSchedule.Timeline.Attempt

/-!
Reasoning about computations that may end without a result. A computation meets a postcondition if
its result does, or if it ended for one of some reasons. These are a word that is too small, or any
reason that a request or the size of the machine can give: also a check that cannot be measured and
an observable that is not followed to its end.
-/

namespace SyndromeSchedule

open List

/-- Reasons to end that lie in the request or in the size of words. -/
def Halt.IsExpected (halt : Halt) : Prop :=
  (∃ cause, halt = .fault (.extraction cause)) ∨ (∃ cause, halt = .fault (.observable cause)) ∨
    halt = @Halt.overflow .word

/-- A word is too small, which is not if there is room. -/
def Halt.LacksRoom (room : Prop) (halt : Halt) : Prop := halt = @Halt.overflow .word ∧ ¬ room

section Lists

variable {α β : Type} {R : α → β → Prop} {as : List α} {bs : List β}

lemma exists_right_of_forall₂ (h : Forall₂ R as bs) {a : α} (mem : a ∈ as) : ∃ b ∈ bs, R a b := by
  induction h with
  | nil => simp at mem
  | cons related _ ih =>
    rcases mem_cons.mp mem with rfl | mem
    · exact ⟨_, .head _, related⟩
    · obtain ⟨b, inside, rest⟩ := ih mem
      exact ⟨b, .tail _ inside, rest⟩

lemma lt_of_getElem? {i : Nat} {a : α} (found : as[i]? = some a) : i < as.length :=
  (List.getElem?_eq_some_iff.mp found).1

lemma maps_eq_iff {γ : Type} {f : α → γ} {g : β → γ} :
    as.map f = bs.map g ↔ Forall₂ (fun a b => f a = g b) as bs := by
  rw [← forall₂_eq_eq_eq, forall₂_map_left_iff, forall₂_map_right_iff]

lemma forall₂_flatMap {γ : Type} {R : β → γ → Prop} {items : List α} {f : α → List β}
    {g : α → List γ} (h : ∀ a ∈ items, Forall₂ R (f a) (g a)) :
    Forall₂ R (items.flatMap f) (items.flatMap g) := by
  induction items with
  | nil => exact .nil
  | cons a rest ih =>
    rw [flatMap_cons, flatMap_cons]
    exact rel_append (h a (.head _)) (ih fun b mem => h b (.tail _ mem))

lemma exists_left_of_forall₂ (h : Forall₂ R as bs) {b : β} (mem : b ∈ bs) : ∃ a ∈ as, R a b :=
  exists_right_of_forall₂ (R := fun b a => R a b) h.flip mem

lemma exists_forall₂ (h : ∀ b ∈ bs, ∃ a, R a b) : ∃ as, Forall₂ R as bs := by
  induction bs with
  | nil => exact ⟨[], .nil⟩
  | cons b rest ih =>
    obtain ⟨a, here⟩ := h b (.head _)
    obtain ⟨as, others⟩ := ih fun b mem => h b (.tail _ mem)
    exact ⟨a :: as, .cons here others⟩

lemma foldl_max_le_iff (f : α → Nat) (items : List α) (init n : Nat) :
    items.foldl (fun m a => max m (f a)) init ≤ n ↔ init ≤ n ∧ ∀ a ∈ items, f a ≤ n := by
  induction items generalizing init with
  | nil => simp
  | cons a rest ih => rw [foldl_cons, ih, Nat.max_le, forall_mem_cons, and_assoc]

lemma le_foldl_max (f : α → Nat) (items : List α) (init : Nat) :
    init ≤ items.foldl (fun m a => max m (f a)) init :=
  ((foldl_max_le_iff f items init _).mp Nat.le.refl).1

lemma mem_le_foldl_max {f : α → Nat} {items : List α} {a : α} (mem : a ∈ items) (init : Nat) :
    f a ≤ items.foldl (fun m a => max m (f a)) init :=
  ((foldl_max_le_iff f items init _).mp Nat.le.refl).2 a mem

lemma foldl_max_spec (ticks : List Nat) (init : Nat) :
    init ≤ ticks.foldl max init ∧ (∀ t ∈ ticks, t ≤ ticks.foldl max init) ∧
      (ticks.foldl max init = init ∨ ticks.foldl max init ∈ ticks) := by
  refine ⟨le_foldl_max id ticks init, fun t mem => mem_le_foldl_max (f := id) mem init, ?_⟩
  induction ticks generalizing init with
  | nil => exact .inl rfl
  | cons t rest ih =>
    rcases ih (max init t) with same | inside
    · rw [foldl_cons, same, mem_cons]
      rcases Nat.le_total t init with le | le
      · exact .inl (Nat.max_eq_left le)
      · exact .inr (.inl (Nat.max_eq_right le))
    · exact .inr (.tail _ inside)

end Lists

namespace Outcome

variable {α β : Type} {reasons : Halt → Prop} {room : Prop} {post : α → Prop} {next : β → Prop}
  {x : Outcome α} {ε : Type} {f : α → Outcome β} {a : α}

/-- A result with a property, or an end for one of some reasons. -/
def Meets (reasons : Halt → Prop) (post : α → Prop) : Outcome α → Prop
  | .ok a => post a
  | .error halt => reasons halt

/-- A result with a property, which is missing only if a word is too small; if there is room, none
is. -/
abbrev Within (room : Prop) (post : α → Prop) (x : Outcome α) : Prop :=
  x.Meets (Halt.LacksRoom room) post

/-- A result with a property, or a word that is too small. -/
abbrev Bounded (post : α → Prop) (x : Outcome α) : Prop := x.Within False post

lemma meets_ok (h : post a) : Meets reasons post (.ok a) := h

lemma within_overflow (tight : ¬ room) : Within room post (overflow : Outcome α) := ⟨rfl, tight⟩

lemma meets_extraction {cause : ExtractionError} :
    Meets Halt.IsExpected post (fail (.extraction cause) : Outcome α) :=
  .inl ⟨cause, rfl⟩

lemma meets_observable {cause : ObservableError} :
    Meets Halt.IsExpected post (fail (.observable cause) : Outcome α) :=
  .inr (.inl ⟨cause, rfl⟩)

lemma Meets.strengthen {stronger : α → Prop} (h : Meets reasons post x)
    (implies : ∀ a, x = .ok a → post a → stronger a) : Meets reasons stronger x := by
  cases x with
  | ok a => exact implies a rfl h
  | error halt => exact h

lemma Meets.imp {weaker : α → Prop} (h : Meets reasons post x)
    (implies : ∀ a, post a → weaker a) : Meets reasons weaker x :=
  h.strengthen fun a _ => implies a

lemma Meets.bind_of_ok (hx : Meets reasons post x)
    (hf : ∀ a, x = .ok a → post a → Meets reasons next (f a)) : Meets reasons next (x >>= f) := by
  cases x with
  | ok a => exact hf a rfl hx
  | error halt => exact hx

lemma Meets.bind (hx : Meets reasons post x)
    (hf : ∀ a, post a → Meets reasons next (f a)) : Meets reasons next (x >>= f) :=
  hx.bind_of_ok fun a _ => hf a

lemma Meets.map {f : α → β} (hx : Meets reasons post x) (hf : ∀ a, post a → next (f a)) :
    Meets reasons next (f <$> x) := by
  cases x with
  | ok a => exact hf a hx
  | error halt => exact hx

lemma Meets.of_ok (h : Meets reasons post x) (result : x = .ok a) : post a := by
  subst result
  exact h

lemma Bounded.mono (h : Bounded post x) (full : reasons (@Halt.overflow .word)) :
    Meets reasons post x := by
  cases x with
  | ok a => exact h
  | error halt => exact h.1 ▸ full

lemma Bounded.expected (h : Bounded post x) : Meets Halt.IsExpected post x :=
  h.mono (.inr (.inr rfl))

lemma Bounded.cases (h : Bounded post x) : x = .overflow ∨ ∃ a, x = .ok a ∧ post a := by
  cases x with
  | ok a => exact .inr ⟨a, rfl, h⟩
  | error halt => exact .inl (congrArg Except.error h.1)

lemma bind_eq_ok {x : Except ε α} {f : α → Except ε β} {b : β} :
    x >>= f = .ok b ↔ ∃ a, x = .ok a ∧ f a = .ok b := by
  cases x <;> simp [bind, Except.bind]

lemma of_bind {x : Except ε α} {f : α → Except ε β} {b : β} (h : x >>= f = .ok b) :
    ∃ a, x = .ok a ∧ f a = .ok b := bind_eq_ok.mp h

lemma of_bind_pure {x : Except ε α} {f : α → β} {b : β} (h : (x >>= fun a => pure (f a)) = .ok b) :
    ∃ a, x = .ok a ∧ f a = b := by
  obtain ⟨a, found, same⟩ := of_bind h
  exact ⟨a, found, Except.ok.inj same⟩

lemma map_eq_ok {x : Except ε α} {f : α → β} {b : β} :
    f <$> x = .ok b ↔ ∃ a, x = .ok a ∧ f a = b := by
  cases x <;> simp [Functor.map, Except.map]

lemma eq_ok_of_toOption {x : Except ε α} (h : x.toOption = some a) : x = .ok a := by
  cases x with
  | ok b => exact congrArg Except.ok (Option.some.inj h)
  | error cause => cases h

lemma exists_ok_of_map {x : Except ε α} {f : α → β} {b : β} (h : x.toOption.map f = some b) :
    ∃ a, x = .ok a ∧ f a = b := by
  obtain ⟨a, found, same⟩ := Option.map_eq_some_iff.mp h
  exact ⟨a, eq_ok_of_toOption found, same⟩

lemma pure_eq_ok {b : α} : (pure a : Except ε α) = .ok b ↔ a = b := by
  simp [pure, Except.pure]

/-- What holds of the remaining items at the start of each step holds of none at the end. -/
theorem Meets.foldlM {σ : Type} (holds : List α → σ → Prop) {f : σ → α → Outcome σ}
    (step : ∀ a rest s, holds (a :: rest) s → Meets reasons (holds rest) (f s a)) :
    ∀ (items : List α) (s : σ), holds items s → Meets reasons (holds []) (items.foldlM f s)
  | [], s, h => h
  | a :: rest, s, h => by
    rw [foldlM_cons]
    exact (step a rest s h).bind (Meets.foldlM holds step rest)

lemma Meets.mapM {post : α → β → Prop} :
    ∀ (items : List α), (∀ a ∈ items, Meets reasons (post a) (f a)) →
      Meets reasons (Forall₂ post items) (items.mapM f)
  | [], _ => by
    rw [mapM_nil]
    exact Forall₂.nil
  | a :: rest, h => by
    rw [mapM_cons]
    refine (h a (.head _)).bind fun b hb => ?_
    refine (Meets.mapM rest fun c hc => h c (.tail _ hc)).bind fun bs hbs => ?_
    exact Forall₂.cons hb hbs

lemma mapM_eq_ok {f : α → Except ε β} {items : List α} {results : List β} :
    items.mapM f = .ok results ↔ Forall₂ (fun a b => f a = .ok b) items results := by
  induction items generalizing results with
  | nil =>
    rw [mapM_nil, pure_eq_ok, forall₂_nil_left_iff]
    exact eq_comm
  | cons a rest ih =>
    simp only [mapM_cons, bind_eq_ok, pure_eq_ok, forall₂_cons_left_iff, ih]
    constructor
    · rintro ⟨b, first, bs, others, rfl⟩
      exact ⟨b, bs, first, others, rfl⟩
    · rintro ⟨b, bs, first, others, rfl⟩
      exact ⟨b, first, bs, others, rfl⟩

lemma foldlM_cons_eq_ok {σ : Type} {f : σ → α → Outcome σ} {rest : List α}
    {s t : σ} : (a :: rest).foldlM f s = .ok t ↔
      ∃ next, f s a = .ok next ∧ rest.foldlM f next = .ok t := by
  rw [foldlM_cons, bind_eq_ok]

lemma meets_ofIndex {x : Option α} (found : x = some a) (h : post a) :
    Meets reasons post (ofIndex x) := by
  subst found
  exact h

lemma ofIndex_eq_ok {x : Option α} : ofIndex x = .ok a ↔ x = some a := by
  cases x with
  | none => simp [ofIndex, outside]
  | some b => simp [ofIndex]

lemma ofExcept_eq_ok {wrap : ε → Error} {x : Except ε α} :
    ofExcept wrap x = .ok a ↔ x = .ok a := by
  cases x with
  | ok b => simp [ofExcept]
  | error cause => simp [ofExcept, fail]

lemma pred_eq_ok {n m : Nat} : pred n = .ok m ↔ n = m + 1 := by
  cases n with
  | zero => simp [pred, outside]
  | succ n => simp [pred]

lemma meets_pred {post : Nat → Prop} {n : Nat} (pos : 0 < n) (h : post (n - 1)) :
    Meets reasons post (pred n) := by
  cases n with
  | zero => contradiction
  | succ n => exact h

end Outcome

namespace Attempt

variable {σ α β : Type} {reasons : Halt → Prop} {room : Prop} {post : σ → α → Prop}
  {a : Attempt σ α} {f : σ → α → Attempt σ β}

/-- An attempt that fails may leave any state behind. -/
def Meets (reasons : Halt → Prop) (post : σ → α → Prop) (a : Attempt σ α) : Prop :=
  a.outcome.Meets reasons (post a.state)

abbrev Within (room : Prop) (post : σ → α → Prop) (a : Attempt σ α) : Prop :=
  a.Meets (Halt.LacksRoom room) post

abbrev Bounded (post : σ → α → Prop) (a : Attempt σ α) : Prop := a.Within False post

lemma Within.mono {less : Prop} (h : a.Within room post)
    (implies : less → room) : a.Within less post := by
  cases a with
  | mk state outcome =>
    cases outcome with
    | ok result => exact h
    | error halt => exact ⟨h.1, fun fits => h.2 (implies fits)⟩

lemma Meets.commit (h : a.Meets reasons post) : a.commit.Meets reasons fun r => post r.1 r.2 := by
  cases a with
  | mk state outcome =>
    cases outcome <;> exact h

lemma Meets.of_commit (h : a.commit.Meets reasons fun r => post r.1 r.2) :
    a.Meets reasons post := by
  cases a with
  | mk state outcome =>
    cases outcome <;> exact h

lemma commit_andThen (a : Attempt σ α) (next : σ → α → Attempt σ β) :
    (a.andThen next).commit = a.commit >>= fun r => (next r.1 r.2).commit := by
  cases a with
  | mk state outcome =>
    cases outcome <;> rfl

lemma commit_eq_ok {s : σ} {r : α} : a.commit = .ok (s, r) ↔ a.state = s ∧ a.outcome = .ok r := by
  cases a with
  | mk state outcome =>
    cases outcome <;> simp [Attempt.commit]

lemma Meets.andThen {next : σ → β → Prop} (ha : a.Meets reasons post)
    (hf : ∀ s r, a.commit = .ok (s, r) → post s r → (f s r).Meets reasons next) :
    (a.andThen f).Meets reasons next := by
  cases a with
  | mk state outcome =>
    cases outcome with
    | ok result => exact hf state result rfl ha
    | error halt => exact ha

lemma andThen_eq_ok {s : σ} {r : β} : (a.andThen f).commit = .ok (s, r) ↔
      ∃ mid x, a.commit = .ok (mid, x) ∧ (f mid x).commit = .ok (s, r) := by
  cases a with
  | mk state outcome =>
    cases outcome <;> simp [Attempt.andThen, Attempt.commit]

lemma Meets.forEach (holds : List α → σ → Prop) {action : σ → α → Attempt σ Unit}
    (step : ∀ a rest s, holds (a :: rest) s → (action s a).Meets reasons fun s _ => holds rest s) :
    ∀ (items : List α) (s : σ), holds items s →
      (forEach action s items).Meets reasons fun s _ => holds [] s
  | [], _, h => h
  | a :: rest, s, h => (step a rest s h).andThen fun s _ _ hs => Meets.forEach holds step rest s hs

section ForEach

variable {action : σ → α → Attempt σ Unit} {s last : σ} {u : Unit}

lemma forEach_nil_eq_ok : (forEach action s []).commit = .ok (last, u) ↔ s = last := by
  constructor
  · intro h
    cases h
    rfl
  · rintro rfl
    rfl

lemma forEach_cons_eq_ok {a : α} {rest : List α} :
    (forEach action s (a :: rest)).commit = .ok (last, u) ↔
      ∃ next v, (action s a).commit = .ok (next, v) ∧
        (forEach action next rest).commit = .ok (last, u) :=
  andThen_eq_ok

lemma forEach_keeps {items : List α} (keeps : σ → Prop)
    (step : ∀ a ∈ items, ∀ s next u, keeps s → (action s a).commit = .ok (next, u) → keeps next)
    (h : (forEach action s items).commit = .ok (last, u)) (first : keeps s) : keeps last := by
  induction items generalizing s with
  | nil =>
    obtain rfl := forEach_nil_eq_ok.mp h
    exact first
  | cons a rest ih =>
    obtain ⟨next, v, here, others⟩ := forEach_cons_eq_ok.mp h
    apply ih (fun b mem => step b (.tail _ mem)) others
    exact step a (.head _) s next v first here

end ForEach

end Attempt

end SyndromeSchedule
