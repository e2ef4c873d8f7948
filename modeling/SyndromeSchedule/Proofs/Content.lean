import SyndromeSchedule.Proofs.Group
import SyndromeSchedule.Proofs.Plan
import SyndromeSchedule.Timeline.Record

/-!
Checks by their content and detectors up to the order of their outcomes. Checks are the same if they
have the same operators in some order; since no qubit occurs twice, the order does not show in their
product. A detector compares products up to a sign, and all that an exchange of two factors can cost
is a sign.
-/

namespace SyndromeSchedule

open List

lemma Table.mem_ofList_iff {α : Type} {entries : List (Qubit × α)}
    (distinct : (entries.map (·.1)).Nodup) {e : Qubit × α} :
    e ∈ (Table.ofList entries).entries ↔ e ∈ entries := by
  rw [← Table.get?_eq_some_iff, Table.get?_ofList distinct, Table.find?_map_eq_some_iff distinct]

namespace Product

variable {p p' r : Product}

lemma phase_ofOperators {operators : List (Qubit × Operator)}
    (distinct : (operators.map (·.1)).Nodup) :
    (ofOperators operators).phase = (operators.map (·.2.phase)).prod := by
  induction operators using reverseRecOn with
  | nil => rfl
  | append_singleton rest e ih =>
    rw [map_append, nodup_append] at distinct
    obtain ⟨distinct, _, apart⟩ := distinct
    have fresh : (ofOperators rest).letter e.1 = .I :=
      letter_foldl_of_not_mem rest (fun old => apart e.1 old e.1 (.head _) rfl) identity
    have last : ofOperators (rest ++ [e]) = (ofOperators rest).mulOperator e.1 e.2 := foldl_append
    rw [last, phase_mulOperator, fresh, ih distinct, map_append, prod_append, map_singleton,
      prod_singleton]
    exact mul_one _

lemma ofOperators_perm {operators others : List (Qubit × Operator)}
    (distinct : (operators.map (·.1)).Nodup) (same : operators.Perm others) :
    ofOperators operators = ofOperators others := by
  have distinct' : (others.map (·.1)).Nodup := (same.map _).nodup_iff.mp distinct
  refine (Reachable.ofOperators _).reduced.ext (Reachable.ofOperators _).reduced (fun q => ?_) ?_
  · rw [ofOperators, ofOperators, letter_foldl_mulOperator, letter_foldl_mulOperator,
      Pauli.prod_perm (same.map _)]
  · rw [phase_ofOperators distinct, phase_ofOperators distinct', (same.map _).prod_eq]

/-- A product up to a sign: its letters, and whether its phase is real. -/
def unsigned (p : Product) : Table Pauli × Bool := (p.factors, p.phase.isReal)

lemma matchesUpToSign_iff : p.matchesUpToSign r = true ↔ p.unsigned = r.unsigned := by
  have phases : (p.phase.mul r.phase.inverse).isReal = true ↔ p.phase.isReal = r.phase.isReal := by
    cases p.phase <;> cases r.phase <;> decide
  simp [matchesUpToSign, sameLetters, unsigned, phases]

lemma isReal_mul (a b : Phase) : (a * b).isReal = (a.isReal == b.isReal) := by
  cases a <;> cases b <;> rfl

lemma unsigned_mul_right (h : p.Reduced) (h' : p'.Reduced) (same : p.unsigned = p'.unsigned)
    (r : Product) : (p.mul r).unsigned = (p'.mul r).unsigned := by
  obtain ⟨factors, phase⟩ := Prod.mk.inj same
  have letters : ∀ q, p.letter q = p'.letter q := fun q => by rw [letter, factors, letter]
  refine Prod.ext ((h.mul r).factors_eq (h'.mul r) fun q => ?_) ?_
  · rw [letter_mul, letter_mul, letters]
  · simp only [unsigned, phase_mul, isReal_mul, phase, cross, letters]

lemma unsigned_mul_comm (h : p.Reduced) (h' : r.Reduced) :
    (p.mul r).unsigned = (r.mul p).unsigned := by
  refine Prod.ext (h.factors_mul_comm h') ?_
  simp only [unsigned]
  rw [phase_mul_comm, isReal_mul]
  split_ifs <;> cases (r.mul p).phase.isReal <;> rfl

lemma unsigned_mul_mul (h : p.Reduced) (h' : p'.Reduced) (same : p.unsigned = p'.unsigned)
    {a b : Product} (ha : a.Reduced) (hb : b.Reduced) :
    ((p.mul a).mul b).unsigned = ((p'.mul b).mul a).unsigned := by
  have exchange := unsigned_mul_right (ha.mul b) (hb.mul a) (unsigned_mul_comm ha hb) p
  rw [h.mul_assoc, unsigned_mul_comm h (ha.mul b), exchange, unsigned_mul_comm (hb.mul a) h,
    unsigned_mul_right h h' same, h'.mul_assoc]

lemma unsigned_foldl {α : Type} {f : α → Product} (reduced : ∀ a, (f a).Reduced)
    {items others : List α} (perm : items.Perm others) (h : p.Reduced) (h' : p'.Reduced)
    (same : p.unsigned = p'.unsigned) :
    (items.foldl (fun p a => p.mul (f a)) p).unsigned =
      (others.foldl (fun p a => p.mul (f a)) p').unsigned := by
  induction perm using Perm.recOnSwap' generalizing p p' with
  | nil => exact same
  | cons a _ ih => exact ih (h.mul _) (h'.mul _) (unsigned_mul_right h h' same _)
  | swap' a b _ ih =>
    exact ih ((h.mul _).mul _) ((h'.mul _).mul _)
      (unsigned_mul_mul h h' same (reduced b) (reduced a))
  | trans _ _ first second => exact (first h h rfl).trans (second h h' same)

lemma Reduced.unsigned_mul_self (h : p.Reduced) : (p.mul p).unsigned = identity.unsigned := by
  refine Prod.ext h.factors_mul_self ?_
  have crossed : p.cross p = 1 := finprod_eq_one_of_forall_eq_one fun q => by
    cases p.letter q <;> rfl
  simp only [unsigned, phase_mul, crossed, mul_one, isReal_mul, beq_self_eq_true]
  rfl

end Product

namespace Check

variable {a b : Check}

/-- Operators in the order of the members. -/
def operators (c : Check) : List (Qubit × Operator) := c.members.map fun m => (m.qubit, m.operator)

lemma same_iff : a.same b = true ↔ a.operators.Perm b.operators := by
  have listed : ∀ (c : Check) e, e ∈ c.content.entries ↔ e ∈ c.operators :=
    fun c e => Table.mem_ofList_iff c.operators_nodup
  have distinct : ∀ c : Check, c.operators.Nodup := fun c => .of_map _ c.operators_nodup
  rw [same, decide_eq_true_iff, perm_ext_iff_of_nodup (distinct a) (distinct b)]
  constructor
  · intro content e
    rw [← listed a, content, listed b]
  · intro operators
    refine Table.ext_get? fun q => Option.ext fun op => ?_
    rw [Table.get?_eq_some_iff, Table.get?_eq_some_iff, listed a, operators, listed b]

lemma product_eq_of_same (h : a.same b = true) : a.product = b.product :=
  Product.ofOperators_perm a.operators_nodup (same_iff.mp h)

lemma pureLetter?_eq_of_same (h : a.same b = true) : a.pureLetter? = b.pureLetter? := by
  have letters : ∀ (c : Check) letter, c.pureLetter? = some letter ↔
      ∀ e ∈ c.operators, e.2.letter = letter := by
    intro c letter
    simp [pureLetter?_eq_some_iff, operators]
  refine Option.ext fun letter => ?_
  rw [letters, letters]
  simp only [(same_iff.mp h).mem_iff]

end Check

lemma TimedCheck.reduced (t : TimedCheck) : t.check.product.Reduced :=
  (Product.Reachable.ofOperators _).reduced

namespace Detector

variable {floor floor' lid lid' : List TimedCheck} {ends : Nat}

lemma isOk_make_iff : (make floor lid ends).isOk = true ↔
    (∀ offset ∈ (floor ++ lid).map (·.offset), offset ≤ 0) ∧ 0 ∈ lid.map (·.offset) ∧
      (TimedCheck.product floor).unsigned = (TimedCheck.product lid).unsigned := by
  have accepted : (make floor lid ends).isOk = true ↔ DetectorError.find? floor lid = none := by
    unfold make
    split
    · next cause found => simp [found, Except.isOk, Except.toBool]
    · next found => simp [found, Except.isOk, Except.toBool]
  rw [accepted, DetectorError.find?_eq_none, ← Product.matchesUpToSign_iff, forall_mem_map, mem_map]

/-- Whether a detector is accepted does not depend on the order in which its floor and its lid are
listed, whether or not their checks commute, nor on outcomes of one check that are added to the
floor in pairs. -/
theorem accepted_in_any_order (floors : floor.Perm floor') (lids : lid.Perm lid') (ends : Nat) :
    (make floor lid ends).isOk = (make floor' lid' ends).isOk ∧
    ∀ (before middle after : List TimedCheck) (t u : TimedCheck),
      floor = before ++ middle ++ after →
      t.check.same u.check = true → t.offset ≤ 0 → u.offset ≤ 0 →
      (make (before ++ t :: middle ++ u :: after) lid ends).isOk = (make floor lid ends).isOk := by
  have unordered : ∀ {timed others : List TimedCheck}, timed.Perm others →
      (TimedCheck.product timed).unsigned = (TimedCheck.product others).unsigned :=
    fun perm => Product.unsigned_foldl TimedCheck.reduced perm Product.reduced_identity
      Product.reduced_identity rfl
  constructor
  · rw [Bool.eq_iff_iff, isOk_make_iff, isOk_make_iff, unordered floors, unordered lids,
      (lids.map _).mem_iff]
    simp only [((floors.append lids).map _).mem_iff]
  · rintro before middle after t u rfl same past past'
    have perm : (before ++ t :: middle ++ u :: after).Perm
        (t :: u :: (before ++ middle ++ after)) :=
      perm_middle.trans ((perm_middle.append_right _).cons _) |>.trans (.swap ..)
    -- a check against itself leaves nothing but a sign
    have pair : ((Product.identity.mul t.check.product).mul u.check.product).unsigned =
        Product.identity.unsigned := by
      rw [t.reduced.identity_mul, ← Check.product_eq_of_same same, t.reduced.unsigned_mul_self]
    have rest := Product.unsigned_foldl TimedCheck.reduced (.refl (before ++ middle ++ after))
      ((Product.reduced_identity.mul _).mul _) Product.reduced_identity pair
    have product : (TimedCheck.product (before ++ t :: middle ++ u :: after)).unsigned =
        (TimedCheck.product (before ++ middle ++ after)).unsigned := (unordered perm).trans rest
    rw [Bool.eq_iff_iff, isOk_make_iff, isOk_make_iff, product]
    simp only [((perm.append_right lid).map _).mem_iff, cons_append, map_cons, forall_mem_cons,
      past, past', true_and]

/-- Checks that clash, in either order, and one more check twice, once with its members exchanged
and read by another ancilla. -/
theorem accepted_in_any_order_clashing :
    ∃ (x z y y' : TimedCheck) (lid : List TimedCheck), x.check.commutes z.check = false ∧
      y.check ≠ y'.check ∧ y.check.same y'.check = true ∧ (make [x, z] lid 0).isOk = true ∧
      (make [z, x] lid 0).isOk = true ∧ (make [y, x, y', z] lid 0).isOk = true := by
  let x : Check := ⟨[⟨⟨[0]⟩, ⟨[0]⟩, ⟨.X, .one⟩⟩], none, none, rfl⟩
  let z : Check := ⟨[⟨⟨[0]⟩, ⟨[0]⟩, ⟨.Z, .one⟩⟩], none, none, rfl⟩
  let y : Check := ⟨[⟨⟨[]⟩, ⟨[1]⟩, ⟨.Y, .one⟩⟩, ⟨⟨[]⟩, ⟨[2]⟩, ⟨.X, .minusOne⟩⟩], none, none, rfl⟩
  let y' : Check :=
    ⟨[⟨⟨[]⟩, ⟨[2]⟩, ⟨.X, .minusOne⟩⟩, ⟨⟨[]⟩, ⟨[1]⟩, ⟨.Y, .one⟩⟩], none, some ⟨[3]⟩, rfl⟩
  have accepted : (make [⟨-1, x⟩, ⟨-1, z⟩] [⟨0, z⟩, ⟨0, x⟩] 0).isOk = true := by decide
  obtain ⟨swapped, inserted⟩ := accepted_in_any_order (.swap ⟨-1, z⟩ ⟨-1, x⟩ [])
    (.refl [⟨0, z⟩, ⟨0, x⟩]) 0
  refine ⟨⟨-1, x⟩, ⟨-1, z⟩, ⟨-2, y⟩, ⟨0, y'⟩, [⟨0, z⟩, ⟨0, x⟩], by decide, by decide, by decide,
    accepted, swapped ▸ accepted, ?_⟩
  exact (inserted [] [⟨-1, x⟩] [⟨-1, z⟩] ⟨-2, y⟩ ⟨0, y'⟩ rfl (by decide) (by decide)
    (by decide)).trans accepted

end Detector

namespace TimedCheck

variable {a b : Check} {timed others : List TimedCheck}

/-- Outcomes of one round, of one check or of two that stand for each other. -/
def Exchanged (a b : Check) (t u : TimedCheck) : Prop :=
  t.offset = u.offset ∧ (t.check = u.check ∨ t.check = a ∧ u.check = b)

lemma eq_of_exchanged (same : a.same b = true) (h : Forall₂ (Exchanged a b) timed others) :
    timed.map (·.offset) = others.map (·.offset) ∧ product timed = product others := by
  let pair (t : TimedCheck) := (t.offset, t.check.product)
  have pairs : timed.map pair = others.map pair := by
    rw [maps_eq_iff]
    refine h.imp fun t u ⟨offsets, checks⟩ => Prod.ext offsets ?_
    rcases checks with equal | ⟨old, new⟩
    · exact congrArg Check.product equal
    · simp only [pair, old, new, Check.product_eq_of_same same]
  have products : ∀ list, product list = (list.map pair).foldl (fun p e => p.mul e.2) .identity :=
    fun list => by rw [foldl_map]; rfl
  have offsets : ∀ list : List TimedCheck, list.map (·.offset) = (list.map pair).map (·.1) :=
    fun list => by rw [map_map]; rfl
  rw [offsets, offsets, products, products, pairs]
  exact ⟨rfl, rfl⟩

end TimedCheck

/-- Checks are the same exactly if they have the same operators in some order, and then nothing
tells them apart: they have the same product, its sign included, the same weight and letter, they
commute with the same checks, detectors are accepted with either, and their outcomes are filed under
the same key. -/
theorem Check.content_decides (a b : Check) :
    (a.same b = true ↔ (a.members.map fun m => (m.qubit, m.operator)).Perm
      (b.members.map fun m => (m.qubit, m.operator))) ∧
    (∀ r r' : Int, Key.of a r = Key.of b r' ↔ r = r' ∧ a.same b = true) ∧
    (a.same b = true → a.product = b.product ∧ a.weight = b.weight ∧
      a.pureLetter? = b.pureLetter? ∧
      (∀ c : Check, a.commutes c = b.commutes c ∧ c.commutes a = c.commutes b) ∧
      (∀ floor floor' lid lid' ends, Forall₂ (TimedCheck.Exchanged a b) floor floor' →
        Forall₂ (TimedCheck.Exchanged a b) lid lid' →
        (Detector.make floor lid ends).isOk = (Detector.make floor' lid' ends).isOk) ∧
      ∀ (record : Record) (round : Int),
        record.handle? (Key.of a round) = record.handle? (Key.of b round)) := by
  have keys : ∀ r r' : Int, Key.of a r = Key.of b r' ↔ r = r' ∧ a.same b = true := by
    simp [Key.of, same]
  refine ⟨same_iff, keys, fun alike => ?_⟩
  have product := product_eq_of_same alike
  refine ⟨product, by simpa [operators, weight] using (same_iff.mp alike).length_eq,
    pureLetter?_eq_of_same alike, fun c => by simp only [commutes, product, and_self],
    fun floor floor' lid lid' ends floors lids => ?_,
    fun record round => by rw [(keys round round).mpr ⟨rfl, alike⟩]⟩
  obtain ⟨offsets, products⟩ := TimedCheck.eq_of_exchanged alike floors
  obtain ⟨offsets', products'⟩ := TimedCheck.eq_of_exchanged alike lids
  rw [Bool.eq_iff_iff, Detector.isOk_make_iff, Detector.isOk_make_iff, map_append, map_append,
    offsets, offsets', products, products']

/-- Listings of one check with different offsets, anchors and ancillas. -/
theorem Check.content_decides_relisted :
    ∃ a b : Check, a.members ≠ b.members ∧ a.anchor ≠ b.anchor ∧ a.ancilla ≠ b.ancilla ∧
      a.same b = true ∧ a.product = b.product ∧ Key.of a 3 = Key.of b 3 ∧
      (Detector.make [⟨-1, a⟩] [⟨0, a⟩] 0).isOk = (Detector.make [⟨-1, b⟩] [⟨0, a⟩] 0).isOk := by
  let a : Check := ⟨[⟨⟨[-1]⟩, ⟨[0]⟩, ⟨.Z, .minusI⟩⟩, ⟨⟨[1]⟩, ⟨[2]⟩, ⟨.X, .i⟩⟩], some ⟨[1]⟩,
    some ⟨[1]⟩, rfl⟩
  let b : Check := ⟨[⟨⟨[0]⟩, ⟨[2]⟩, ⟨.X, .i⟩⟩, ⟨⟨[-2]⟩, ⟨[0]⟩, ⟨.Z, .minusI⟩⟩], some ⟨[2]⟩,
    none, rfl⟩
  obtain ⟨perm, keys, respected⟩ := content_decides a b
  have same : a.same b = true := perm.mpr (.swap ..)
  obtain ⟨product, _, _, _, detectors, _⟩ := respected same
  exact ⟨a, b, by decide, by decide, by decide, same, product, (keys 3 3).mpr ⟨rfl, same⟩,
    detectors _ _ _ _ 0 (.cons ⟨rfl, .inr ⟨rfl, rfl⟩⟩ .nil) (.cons ⟨rfl, .inl rfl⟩ .nil)⟩

end SyndromeSchedule
