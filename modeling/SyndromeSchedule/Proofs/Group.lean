import Mathlib.Algebra.BigOperators.Finprod
import SyndromeSchedule.Proofs.Letters

/-!
Products of letters as a group. The phase of a product of two products is the product of their
phases and of what their letters pick up qubit by qubit, so laws of products follow from laws of
letters on one qubit. Two products commute if they clash on an even number of qubits, and otherwise
differ by a sign.
-/

namespace SyndromeSchedule

open List

instance : CommMonoid Phase where
  mul := Phase.mul
  one := .one
  mul_assoc a b c := by cases a <;> cases b <;> cases c <;> rfl
  mul_comm a b := by cases a <;> cases b <;> rfl
  one_mul a := by cases a <;> rfl
  mul_one a := by cases a <;> rfl

namespace Pauli

variable (a b : Pauli)

/-- The phase that a product of two letters picks up. -/
def twist (a b : Pauli) : Phase := (a.mul b).2

def clash (a b : Pauli) : Phase := if a.commutes b then 1 else .minusOne

@[simp] lemma twist_I : a.twist .I = 1 := by
  cases a <;> rfl

lemma twist_assoc (c : Pauli) :
    a.twist b * (a.times b).twist c = b.twist c * a.twist (b.times c) := by
  cases a <;> cases b <;> cases c <;> rfl

lemma twist_comm : a.twist b = b.twist a * a.clash b := by
  cases a <;> cases b <;> rfl

lemma clash_I : clash .I b = 1 := by
  cases b <;> rfl

end Pauli

namespace Product

/-- A product without identities. -/
def Reduced (p : Product) : Prop := ∀ e ∈ p.factors.entries, e.2 ≠ .I

/-- Products that can be made from operators and by multiplication. -/
inductive Reachable : Product → Prop where
  | ofOperators (operators : List (Qubit × Operator)) : Reachable (ofOperators operators)
  | mulOperator {p : Product} (made : Reachable p) (q : Qubit) (op : Operator) :
      Reachable (p.mulOperator q op)
  | mul {p r : Product} (made : Reachable p) (other : Reachable r) : Reachable (p.mul r)

variable {p r s : Product}

lemma reduced_identity : identity.Reduced := forall_mem_nil _

lemma reduced_iff : p.Reduced ↔ ∀ q, p.factors.get? q ≠ some .I := by
  constructor
  · intro reduced q found
    exact reduced (q, .I) ((p.factors.get?_eq_some_iff q .I).mp found) rfl
  · rintro none ⟨q, a⟩ mem rfl
    exact none q ((p.factors.get?_eq_some_iff q .I).mpr mem)

lemma Reduced.mulOperator (h : p.Reduced) (q : Qubit) (op : Operator) :
    (p.mulOperator q op).Reduced := by
  rw [reduced_iff] at h ⊢
  intro other
  simp only [Product.mulOperator]
  split_ifs with cancelled
  · rw [Table.get?_erase]
    split_ifs
    · simp
    · exact h other
  · rw [Table.get?_insert]
    split_ifs
    · simpa using cancelled
    · exact h other

lemma Reduced.foldl (h : p.Reduced) (operators : List (Qubit × Operator)) :
    (operators.foldl (fun p e => p.mulOperator e.1 e.2) p).Reduced := by
  induction operators generalizing p with
  | nil => exact h
  | cons e rest ih => exact ih (h.mulOperator e.1 e.2)

lemma mul_eq_foldl (p r : Product) :
    p.mul r = { (r.factors.entries.map fun e => (e.1, Operator.positive e.2)).foldl
      (fun p e => p.mulOperator e.1 e.2) p with phase := (p.mul r).phase } := by
  rw [foldl_map]
  rfl

lemma Reduced.mul (h : p.Reduced) (r : Product) : (p.mul r).Reduced := by
  rw [mul_eq_foldl]
  exact h.foldl _

lemma Reachable.reduced (made : p.Reachable) : p.Reduced := by
  induction made with
  | ofOperators operators => exact reduced_identity.foldl operators
  | mulOperator _ q op ih => exact ih.mulOperator q op
  | mul _ _ ih _ => exact ih.mul _

lemma Reduced.factors_eq (h : p.Reduced) (h' : r.Reduced)
    (letters : ∀ q, p.letter q = r.letter q) : p.factors = r.factors := by
  apply Table.ext_get?
  intro q
  have same := letters q
  have left := reduced_iff.mp h q
  have right := reduced_iff.mp h' q
  simp only [letter] at same
  cases hp : p.factors.get? q <;> cases hr : r.factors.get? q <;> simp_all

lemma Reduced.ext (h : p.Reduced) (h' : r.Reduced) (letters : ∀ q, p.letter q = r.letter q)
    (phase : p.phase = r.phase) : p = r := by
  have factors := h.factors_eq h' letters
  cases p
  cases r
  simp_all

/-! Phases. -/

lemma phase_mulOperator (p : Product) (q : Qubit) (op : Operator) :
    (p.mulOperator q op).phase = p.phase * op.phase * (p.letter q).twist op.letter := rfl

lemma phase_foldl {entries : List (Qubit × Pauli)} (distinct : (entries.map (·.1)).Nodup)
    (p : Product) :
    (entries.foldl (fun p e => p.mulOperator e.1 (.positive e.2)) p).phase =
      p.phase * (entries.map fun e => (p.letter e.1).twist e.2).prod := by
  induction entries generalizing p with
  | nil => exact (mul_one _).symm
  | cons e rest ih =>
    obtain ⟨fresh, distinct⟩ := nodup_cons.mp distinct
    have others : ∀ f ∈ rest, ((p.mulOperator e.1 (.positive e.2)).letter f.1).twist f.2 =
        (p.letter f.1).twist f.2 := by
      intro f mem
      have different : f.1 ≠ e.1 := fun same => fresh (mem_map.mpr ⟨f, mem, same⟩)
      rw [letter_mulOperator, if_neg different]
    rw [foldl_cons, ih distinct, map_congr_left others, map_cons, prod_cons,
      ← mul_assoc, phase_mulOperator]
    congr 2
    exact mul_one _

lemma letter_of_mem {e : Qubit × Pauli} (mem : e ∈ p.factors.entries) : p.letter e.1 = e.2 := by
  simp [letter, (p.factors.get?_eq_some_iff e.1 e.2).mpr mem]

section Finprod

variable {f : Qubit → Phase} (trivial : ∀ q, p.letter q = .I → f q = 1)
include trivial

lemma mulSupport_subset : Function.mulSupport f ⊆ p.factors.keys.toFinset := by
  intro q acts
  rw [coe_toFinset, Set.mem_ofPred_eq, Table.mem_keys]
  by_contra none
  exact acts (trivial q (by simp [letter, Option.not_isSome_iff_eq_none.mp none]))

lemma finite_mulSupport : (Function.mulSupport f).Finite :=
  (Finset.finite_toSet _).subset (mulSupport_subset trivial)

lemma finprod_letters : ∏ᶠ q, f q = (p.factors.entries.map fun e => f e.1).prod := by
  rw [finprod_eq_prod_of_mulSupport_subset f (mulSupport_subset trivial),
    prod_toFinset f p.factors.keys_nodup, Table.keys, map_map]
  rfl

end Finprod

/-- The phase that a product picks up, over all qubits. -/
noncomputable def cross (p r : Product) : Phase := ∏ᶠ q, (p.letter q).twist (r.letter q)

lemma phase_mul (p r : Product) : (p.mul r).phase = p.phase * r.phase * p.cross r := by
  have crossed : p.cross r = (r.factors.entries.map fun e => (p.letter e.1).twist e.2).prod := by
    rw [cross, finprod_letters (p := r) fun q none => by rw [none, Pauli.twist_I]]
    exact congrArg _ (map_congr_left fun e (mem : e ∈ r.factors.entries) => by
      rw [letter_of_mem mem])
  rw [crossed, mul_right_comm, ← phase_foldl r.factors.keys_nodup]
  rfl

lemma finite_twist (a : Qubit → Pauli) (r : Product) :
    (Function.mulSupport fun q => (a q).twist (r.letter q)).Finite :=
  finite_mulSupport fun q none => by rw [none, Pauli.twist_I]

lemma cross_assoc (p r s : Product) :
    p.cross r * (p.mul r).cross s = r.cross s * p.cross (r.mul s) := by
  simp only [cross]
  rw [← finprod_mul_distrib (finite_twist _ r) (finite_twist _ s),
    ← finprod_mul_distrib (finite_twist _ s) (finite_twist p.letter (r.mul s))]
  refine finprod_congr fun q => ?_
  rw [letter_mul, letter_mul, Pauli.twist_assoc]

lemma Reduced.mul_assoc (h : p.Reduced) (r s : Product) : (p.mul r).mul s = p.mul (r.mul s) := by
  refine ((h.mul r).mul s).ext (h.mul _) (fun q => ?_) ?_
  · simp only [letter_mul, Pauli.times_assoc]
  · simp only [phase_mul]
    calc p.phase * r.phase * p.cross r * s.phase * (p.mul r).cross s
        = p.phase * r.phase * s.phase * (p.cross r * (p.mul r).cross s) := by ac_rfl
      _ = p.phase * (r.phase * s.phase * r.cross s) * p.cross (r.mul s) := by
        rw [cross_assoc]
        ac_rfl

/-! Units and inverses. -/

lemma mul_identity (p : Product) : p.mul identity = p := by
  cases p with
  | mk factors phase => exact congrArg _ (mul_one phase)

lemma Reduced.identity_mul (h : p.Reduced) : identity.mul p = p := by
  refine (reduced_identity.mul p).ext h (fun q => letter_mul ..) ?_
  have crossed : identity.cross p = 1 := finprod_eq_one_of_forall_eq_one fun q => rfl
  rw [phase_mul, crossed, mul_one]
  exact one_mul _

lemma Reduced.factors_mul_self (h : p.Reduced) : (p.mul p).factors = .empty :=
  (h.mul p).factors_eq reduced_identity fun q => by rw [letter_mul, Pauli.times_self]; rfl

lemma Reachable.scale (made : p.Reachable) (phase : Phase) :
    Reachable { p with phase := p.phase * phase } := by
  have scaled : p.mulOperator ⟨[]⟩ ⟨.I, phase⟩ = { p with phase := p.phase * phase } := by
    refine (made.reduced.mulOperator _ _).ext made.reduced (fun q => ?_) ?_
    · rw [letter_mulOperator]
      split_ifs with here
      · rw [here]
        exact Pauli.times_I _
      · rfl
    · rw [phase_mulOperator, Pauli.twist_I, mul_one]
  exact scaled ▸ made.mulOperator _ _

lemma Reachable.exists_inverse (made : p.Reachable) :
    ∃ r, Reachable r ∧ p.mul r = identity ∧ r.mul p = identity := by
  have scaled := made.scale (p.mul p).phase.inverse
  have phases : p.phase * p.phase * p.cross p * (p.mul p).phase.inverse = identity.phase := by
    rw [← phase_mul]
    cases (p.mul p).phase <;> rfl
  have square : ∀ q, (p.letter q).times (p.letter q) = .I := fun q => Pauli.times_self _
  refine ⟨_, scaled, (made.reduced.mul _).ext reduced_identity (fun q => ?_) ?_,
    (scaled.reduced.mul _).ext reduced_identity (fun q => ?_) ?_⟩
  · exact (letter_mul ..).trans (square q)
  · rw [phase_mul, ← phases]
    change p.phase * (p.phase * _) * p.cross p = _
    ac_rfl
  · exact (letter_mul ..).trans (square q)
  · rw [phase_mul, ← phases]
    change p.phase * _ * p.phase * p.cross p = _
    ac_rfl

/-! Exchange of two products. -/

lemma prod_signs {α : Type} (c : α → Bool) (items : List α) :
    (items.map fun a => if c a then (1 : Phase) else .minusOne).prod =
      if (items.filter (!c ·)).length % 2 = 0 then 1 else .minusOne := by
  induction items with
  | nil => rfl
  | cons a rest ih =>
    rw [map_cons, prod_cons, ih]
    cases known : c a with
    | true => simp [known]
    | false =>
      rcases Nat.mod_two_eq_zero_or_one (rest.filter (!c ·)).length with even | odd
      · simp [known, even, Nat.add_mod]
      · simp [known, odd, Nat.add_mod]
        rfl

lemma phase_mul_comm (p r : Product) :
    (p.mul r).phase = (r.mul p).phase * if p.commutes r then 1 else .minusOne := by
  have trivial : ∀ q, p.letter q = .I → (p.letter q).clash (r.letter q) = 1 := by
    intro q none
    rw [none, Pauli.clash_I]
  have signs : ∏ᶠ q, (p.letter q).clash (r.letter q) =
      if p.commutes r then 1 else .minusOne := by
    rw [finprod_letters trivial, map_congr_left fun e mem => by rw [letter_of_mem mem]]
    simpa [commutes, Pauli.clash] using
      prod_signs (fun e : Qubit × Pauli => e.2.commutes (r.letter e.1)) p.factors.entries
  have crossed : p.cross r = r.cross p * ∏ᶠ q, (p.letter q).clash (r.letter q) := by
    rw [cross, cross, ← finprod_mul_distrib (finite_twist _ p) (finite_mulSupport trivial)]
    exact finprod_congr fun q => Pauli.twist_comm _ _
  rw [phase_mul, phase_mul, crossed, signs]
  ac_rfl

lemma Reduced.factors_mul_comm (h : p.Reduced) (h' : r.Reduced) :
    (p.mul r).factors = (r.mul p).factors :=
  (h.mul r).factors_eq (h'.mul p) fun q => by rw [letter_mul, letter_mul, Pauli.times_comm]

lemma Reduced.commutes_iff (h : p.Reduced) (h' : r.Reduced) :
    p.commutes r = true ↔ p.mul r = r.mul p := by
  have phases := phase_mul_comm p r
  constructor
  · intro commutes
    rw [if_pos commutes, mul_one] at phases
    exact (h.mul r).ext (h'.mul p) (fun q => by rw [letter, h.factors_mul_comm h', letter]) phases
  · intro same
    by_contra clashes
    rw [if_neg clashes, same] at phases
    cases known : (r.mul p).phase <;> rw [known] at phases <;> cases phases

/-! Lists of operators. -/

lemma Reduced.mulOperator_eq_mul (h : p.Reduced) (q : Qubit) (op : Operator) :
    p.mulOperator q op = p.mul (identity.mulOperator q op) := by
  have letters : ∀ x, (identity.mulOperator q op).letter x = if x = q then op.letter else .I :=
    fun x => letter_mulOperator ..
  have crossed : p.cross (identity.mulOperator q op) = (p.letter q).twist op.letter := by
    rw [cross, finprod_eq_single _ q]
    · rw [letters, if_pos rfl]
    · intro x other
      rw [letters, if_neg other, Pauli.twist_I]
  refine (h.mulOperator q op).ext (h.mul _) (fun x => ?_) ?_
  · rw [letter_mulOperator, letter_mul, letters]
    split_ifs with here
    · rw [here]
      rfl
    · exact (Pauli.times_I _).symm
  · rw [phase_mul, crossed, phase_mulOperator, phase_mulOperator]
    congr 2
    cases op.phase <;> rfl

lemma ofOperators_append (operators more : List (Qubit × Operator)) :
    ofOperators (operators ++ more) = (ofOperators operators).mul (ofOperators more) := by
  have made : ∀ list, (ofOperators list).Reduced := fun list => (Reachable.ofOperators list).reduced
  induction more using reverseRecOn with
  | nil => rw [append_nil]; exact (mul_identity _).symm
  | append_singleton more e ih =>
    have last : ∀ list, ofOperators (list ++ [e]) = (ofOperators list).mulOperator e.1 e.2 :=
      fun list => foldl_append
    rw [← append_assoc, last, last, ih, ((made _).mul _).mulOperator_eq_mul,
      (made operators).mul_assoc, ← (made more).mulOperator_eq_mul]

/-- Products form a group in which commutation is decided by clashes. No identity letter is kept;
multiplication is associative, phases included, with the identity as its unit, every product has an
inverse, and its square has no letters. Products commute exactly if they pass the test, and
otherwise they have the same letters and opposite signs in either order. Operators listed one after
the other multiply up to the product of the parts. -/
theorem group_laws {a b : Product} (ha : a.Reachable) (hb : b.Reachable) (c : Product) :
    (∀ e ∈ a.factors.entries, e.2 ≠ .I) ∧
    (a.mul b).mul c = a.mul (b.mul c) ∧
    a.mul identity = a ∧ identity.mul a = a ∧
    (∃ r, Reachable r ∧ a.mul r = identity ∧ r.mul a = identity) ∧
    (a.mul a).factors = .empty ∧
    (a.commutes b = true ↔ a.mul b = b.mul a) ∧
    (a.commutes b = false → (a.mul b).factors = (b.mul a).factors ∧
      (a.mul b).phase = (b.mul a).phase.mul .minusOne) ∧
    ∀ operators more : List (Qubit × Operator),
      ofOperators (operators ++ more) = (ofOperators operators).mul (ofOperators more) := by
  refine ⟨ha.reduced, ha.reduced.mul_assoc b c, mul_identity a, ha.reduced.identity_mul,
    ha.exists_inverse, ha.reduced.factors_mul_self, ha.reduced.commutes_iff hb.reduced,
    fun clashes => ⟨ha.reduced.factors_mul_comm hb.reduced, ?_⟩, ofOperators_append⟩
  have phases := phase_mul_comm a b
  rwa [if_neg (by simp [clashes])] at phases

/-- Products on overlapping qubits, with phases of all kinds, that clash on one qubit. -/
theorem group_laws_overlapping :
    ∃ a b c : Product, a.Reachable ∧ b.Reachable ∧ a.commutes b = false ∧
      (a.mul b).mul c = a.mul (b.mul c) ∧
      (a.mul b).phase = (b.mul a).phase.mul .minusOne ∧ a.mul b ≠ b.mul a := by
  have made := Reachable.ofOperators
  obtain ⟨-, assoc, -, -, -, -, commute, clash, -⟩ := group_laws
    (made [(⟨[0]⟩, ⟨.X, .i⟩), (⟨[1]⟩, ⟨.Z, .one⟩)])
    ((made [(⟨[1]⟩, ⟨.Z, .minusI⟩)]).mulOperator ⟨[0]⟩ ⟨.Y, .one⟩)
    (ofOperators [(⟨[2]⟩, ⟨.Y, .one⟩), (⟨[0]⟩, ⟨.Z, .minusOne⟩)])
  refine ⟨_, _, _, made _, (made _).mulOperator _ _, by decide, assoc,
    (clash (by decide)).2, fun same => ?_⟩
  exact absurd (commute.mpr same) (by decide)

end Product

end SyndromeSchedule
