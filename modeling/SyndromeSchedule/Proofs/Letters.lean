import SyndromeSchedule.Proofs.Clifford
import SyndromeSchedule.Proofs.Detectors

/-!
Products of letters up to a sign. Letters of one qubit multiply like a group in which everything is
its own inverse, so a product does not depend on order and factors that occur twice may be left out.
What a key stands for has the letters of its check, and the letters of a detector's outcomes cancel.
-/

namespace SyndromeSchedule

open List

namespace Pauli

variable (a b : Pauli)

@[simp] lemma times_I : a.times .I = a := by
  cases a <;> rfl

@[simp] lemma I_times : times .I a = a := rfl

@[simp] lemma times_self : a.times a = .I := by
  cases a <;> rfl

lemma times_comm : a.times b = b.times a := by
  cases a <;> cases b <;> rfl

lemma times_assoc (c : Pauli) : (a.times b).times c = a.times (b.times c) := by
  cases a <;> cases b <;> cases c <;> rfl

lemma times_cancel : a.times (a.times b) = b := by
  rw [← times_assoc, times_self, I_times]

lemma times_left_comm (c : Pauli) : a.times (b.times c) = b.times (a.times c) := by
  rw [← times_assoc, times_comm a b, times_assoc]

lemma times_eq_iff {a b c : Pauli} : a.times b = c ↔ b = a.times c := by
  constructor
  · rintro rfl
    rw [times_cancel]
  · rintro rfl
    rw [times_cancel]

lemma eq_I_of_times {a b : Pauli} (h : a = a.times b) : b = .I := by
  rw [times_eq_iff.mp h.symm, times_self]

/-- Product of letters without its phase. -/
def prod (letters : List Pauli) : Pauli := letters.foldr times .I

@[simp] lemma prod_nil : prod [] = .I := rfl

@[simp] lemma prod_cons (letters : List Pauli) :
    prod (a :: letters) = a.times (prod letters) := rfl

lemma prod_append (letters more : List Pauli) :
    prod (letters ++ more) = (prod letters).times (prod more) := by
  induction letters with
  | nil => rfl
  | cons a rest ih => rw [cons_append, prod_cons, ih, prod_cons, times_assoc]

lemma prod_perm {letters others : List Pauli} (same : letters.Perm others) :
    prod letters = prod others := by
  induction same with
  | nil => rfl
  | cons a _ ih => rw [prod_cons, prod_cons, ih]
  | swap a b rest => simp only [prod_cons, times_left_comm]
  | trans _ _ first second => exact first.trans second

lemma prod_of_forall_I {letters : List Pauli} (trivial : ∀ a ∈ letters, a = .I) :
    prod letters = .I := by
  induction letters with
  | nil => rfl
  | cons a rest ih =>
    rw [prod_cons, trivial a (.head _), I_times]
    exact ih fun b mem => trivial b (.tail _ mem)

/-- Items that occur an even number of times cancel. -/
lemma prod_map_odd {α : Type} [DecidableEq α] (f : α → Pauli) (items : List α) :
    ∀ odd : List α, odd.Nodup → (∀ a, a ∈ odd ↔ items.count a % 2 = 1) →
      prod (odd.map f) = prod (items.map f) := by
  induction items with
  | nil =>
    intro odd _ parity
    have none : odd = [] := eq_nil_iff_forall_not_mem.mpr fun a mem => by
      simpa using (parity a).mp mem
    rw [none]
  | cons b rest ih =>
    intro odd distinct parity
    rw [map_cons, prod_cons]
    by_cases listed : b ∈ odd
    · have split := perm_cons_erase listed
      rw [prod_perm (split.map f), map_cons, prod_cons]
      congr 1
      refine ih _ (distinct.erase b) fun a => ?_
      rw [distinct.mem_erase_iff, parity, count_cons]
      have here := (parity b).mp listed
      rw [count_cons_self] at here
      by_cases same : a = b
      · subst same
        simp only [ne_eq, not_true_eq_false, false_and, false_iff]
        omega
      · simp [same, Ne.symm same]
    · have more := ih (b :: odd) (nodup_cons.mpr ⟨listed, distinct⟩) fun a => by
        rw [mem_cons, parity, count_cons]
        have here := mt (parity b).mpr listed
        rw [count_cons_self] at here
        by_cases same : a = b
        · subst same
          simp only [true_or, true_iff]
          omega
        · simp [same, Ne.symm same]
      rw [← more, map_cons, prod_cons, times_cancel]

lemma prod_map_oddItems {α : Type} [DecidableEq α] (f : α → Pauli) (items : List α) :
    prod ((oddItems items).map f) = prod (items.map f) :=
  prod_map_odd f items _ (oddItems_nodup items) fun _ => mem_oddItems

end Pauli

/-! Letters of products. -/

namespace Product

variable (q : Qubit) (p : Product)

lemma letter_identity : identity.letter q = .I := rfl

lemma letter_foldl_mulOperator (operators : List (Qubit × Operator)) (p : Product) (q : Qubit) :
    (operators.foldl (fun p e => p.mulOperator e.1 e.2) p).letter q = (p.letter q).times
        (Pauli.prod (operators.map fun e => if q = e.1 then e.2.letter else .I)) := by
  induction operators generalizing p with
  | nil => simp
  | cons e rest ih =>
    rw [foldl_cons, ih, letter_mulOperator, map_cons, Pauli.prod_cons, ← Pauli.times_assoc]
    congr 1
    split_ifs with here
    · rw [here]
      rfl
    · rw [Pauli.times_I]

lemma prod_operators {operators : List (Qubit × Operator)}
    (distinct : (operators.map (·.1)).Nodup) (q : Qubit) :
    Pauli.prod (operators.map fun e => if q = e.1 then e.2.letter else .I) =
      ((operators.find? (·.1 = q)).map (·.2.letter)).getD .I := by
  induction operators with
  | nil => rfl
  | cons e rest ih =>
    obtain ⟨fresh, distinct⟩ := nodup_cons.mp distinct
    rw [map_cons, Pauli.prod_cons, find?_cons]
    split_ifs with here
    · have others : Pauli.prod (rest.map fun f => if q = f.1 then f.2.letter else .I) = .I := by
        apply Pauli.prod_of_forall_I
        intro a mem
        obtain ⟨f, inside, rfl⟩ := mem_map.mp mem
        have different : q ≠ f.1 := by
          rintro rfl
          exact fresh (mem_map.mpr ⟨f, inside, here⟩)
        rw [if_neg different]
      rw [others]
      simp [here]
    · rw [ih distinct]
      simp [Ne.symm here]

lemma letter_mul (r : Product) (q : Qubit) :
    (p.mul r).letter q = (p.letter q).times (r.letter q) := by
  have fold : (p.mul r).letter q =
      ((r.factors.entries.map fun e => (e.1, Operator.positive e.2)).foldl
        (fun p e => p.mulOperator e.1 e.2) p).letter q := by
    rw [foldl_map]
    rfl
  have distinct : ((r.factors.entries.map fun e => (e.1, Operator.positive e.2)).map
      (·.1)).Nodup := by
    rw [map_map]
    exact r.factors.keys_nodup
  rw [fold, letter_foldl_mulOperator, prod_operators distinct, find?_map, Option.map_map]
  rfl

lemma letter_foldl_mul {α : Type} (f : α → Product) (items : List α) (p : Product) (q : Qubit) :
    (items.foldl (fun p a => p.mul (f a)) p).letter q =
      (p.letter q).times (Pauli.prod (items.map fun a => (f a).letter q)) := by
  induction items generalizing p with
  | nil => simp
  | cons a rest ih => rw [foldl_cons, ih, letter_mul, map_cons, Pauli.prod_cons,
      Pauli.times_assoc]

lemma letter_eq_iff {q : Qubit} {a : Pauli} (some_letter : a ≠ .I) :
    p.letter q = a ↔ (q, a) ∈ p.factors.entries := by
  rw [← Table.get?_eq_some_iff, letter]
  cases p.factors.get? q with
  | none => simp [some_letter.symm]
  | some other => simp

end Product

lemma Table.get?_ofList {α : Type} {entries : List (Qubit × α)}
    (distinct : (entries.map (·.1)).Nodup) (q : Qubit) :
    (Table.ofList entries).get? q = (entries.find? (·.1 = q)).map (·.2) := by
  have general : ∀ t : Table α, (entries.foldl (fun t e => t.insert e.1 e.2) t).get? q =
      ((entries.find? (·.1 = q)).map (·.2)).or (t.get? q) := by
    induction entries with
    | nil => simp
    | cons e rest ih =>
      obtain ⟨fresh, distinct⟩ := nodup_cons.mp distinct
      intro t
      rw [foldl_cons, ih distinct, find?_cons, Table.get?_insert]
      by_cases here : e.1 = q
      · subst here
        have none : rest.find? (·.1 = e.1) = none := by
          rw [find?_eq_none]
          intro f mem
          have different : f.1 ≠ e.1 := fun same => fresh (mem_map.mpr ⟨f, mem, same⟩)
          simpa using different
        simp [none]
      · simp [here, Ne.symm here]
  rw [Table.ofList, general]
  simp

namespace Check

lemma operators_nodup (c : Check) :
    ((c.members.map fun m => (m.qubit, m.operator)).map (·.1)).Nodup := by
  rw [map_map]
  exact c.qubits_nodup

lemma prod_members (c : Check) (q : Qubit) :
    Pauli.prod (c.members.map fun m => if q = m.qubit then m.operator.letter else .I) =
      c.product.letter q := by
  rw [product, Member.product, Product.ofOperators, Product.letter_foldl_mulOperator,
    Product.letter_identity, Pauli.I_times, map_map]
  rfl

lemma Reads.letter {c : Check} {q : Qubit} {basis : Pauli} (reads : c.Reads q basis)
    (p : Qubit) : c.product.letter p = if p = q then basis else .I := by
  obtain ⟨_, m, single, rfl, rfl⟩ := reads
  split_ifs with here
  · subst here
    exact c.letter_product (by simp [single])
  · exact c.letter_product_of_not_mem (by simpa [qubits, single] using here)

end Check

lemma Key.letter_of (c : Check) (round : Int) (q : Qubit) :
    (Key.of c round).product.letter q = c.product.letter q := by
  have known := Table.get?_ofList c.operators_nodup q
  rw [Key.product, Key.of, Product.ofOperators,
    Product.letter_foldl_mulOperator, Product.prod_operators c.content.keys_nodup, Check.product,
    Member.product, Product.ofOperators, Product.letter_foldl_mulOperator,
    Product.prod_operators c.operators_nodup]
  congr 1
  rw [Table.get?, ← Check.content] at known
  have letters := congrArg (fun found => (found.map Operator.letter).getD .I) known
  simp only [Option.map_map] at letters
  exact letters

/-! Detectors. -/

namespace Detector

variable (d : Detector) (q : Qubit)

lemma letters_eq :
    (TimedCheck.product d.floor).letter q = (TimedCheck.product d.lid).letter q := by
  obtain ⟨_, _, agree⟩ := DetectorError.find?_eq_none.mp d.sound
  simp only [Product.matchesUpToSign, Product.sameLetters, Bool.and_eq_true, decide_eq_true_eq]
    at agree
  rw [Product.letter, agree.1, Product.letter]

lemma prod_timed : Pauli.prod (d.timed.map fun t => t.check.product.letter q) = .I := by
  have letters : ∀ side : List TimedCheck, (TimedCheck.product side).letter q =
      Pauli.prod (side.map fun t => t.check.product.letter q) := by
    intro side
    rw [TimedCheck.product, Product.letter_foldl_mul, Product.letter_identity, Pauli.I_times]
  rw [timed, map_append, Pauli.prod_append, ← letters, ← letters, d.letters_eq, Pauli.times_self]

lemma prod_keys (round : Int) (q : Qubit) :
    Pauli.prod ((d.keys round).map fun key => key.product.letter q) =
      Pauli.prod ((d.timed.filter fun t => 0 ≤ round + t.offset).map
        fun t => t.check.product.letter q) := by
  rw [keys, Pauli.prod_map_oddItems (fun key : Key => key.product.letter q), map_map]
  congr 1
  exact map_congr_left fun t _ => Key.letter_of ..

lemma prod_keys_of_not_isCut {d : Detector} {round : Int} (whole : d.isCut round = false)
    (q : Qubit) : Pauli.prod ((d.keys round).map fun key => key.product.letter q) = .I := by
  rw [isCut, any_eq_false] at whole
  have all : (d.timed.filter fun t => 0 ≤ round + t.offset) = d.timed := by
    rw [filter_eq_self]
    intro t mem
    have := whole t mem
    simp only [decide_eq_true_eq] at this ⊢
    omega
  rw [prod_keys, all, prod_timed]

end Detector

namespace Resolver

lemma fixes_iff (r : Resolver) (p : Product) :
    r.fixes p = true ↔ ∀ e ∈ p.factors.entries, r.initialBasis e.1 = e.2 := by
  simp [fixes]

lemma letter_of_fixes {r : Resolver} {p : Product} (fixed : r.fixes p = true) (q : Qubit) :
    p.letter q = .I ∨ p.letter q = r.initialBasis q := by
  rcases eq_or_ne (p.letter q) .I with none | some_letter
  · exact .inl none
  · have entry := (p.letter_eq_iff some_letter).mp rfl
    exact .inr ((r.fixes_iff p).mp fixed _ entry).symm

/-- A detector that is kept, though outcomes were cut off, has letters of the initial state. -/
theorem letter_of_not_discards {r : Resolver} {keys : List Key}
    (kept : r.discards true keys = false) (q : Qubit) :
    Pauli.prod (keys.map fun key => key.product.letter q) = .I ∨
      Pauli.prod (keys.map fun key => key.product.letter q) = r.initialBasis q := by
  have fixed : r.fixes (keys.foldl (fun p key => p.mul key.product) .identity) = true := by
    simp only [discards, Bool.true_and, Bool.or_eq_false_iff, Bool.not_eq_false'] at kept
    exact kept.2
  have letter := letter_of_fixes fixed q
  rwa [Product.letter_foldl_mul, Product.letter_identity, Pauli.I_times] at letter

end Resolver

end SyndromeSchedule
