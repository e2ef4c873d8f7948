import Mathlib
import SyndromeSchedule.Proofs.Lexing

/-!
Decimals and doubles. A ratio is rounded to the double in whose interval it lies, and the shortest
decimal of a double lies in its interval, so that the text of a double is read as the double. Whole
numbers with few digits in base two are doubles themselves.
-/

namespace SyndromeSchedule

open List

namespace Double

variable {num den m n digits places significand : Nat} {v : ℚ} {x : Double} {tie : Tie} {k : ℤ}
variable (scale : Nat)

/-! Rounding a ratio. -/

/-- Distance between neighbouring doubles of a scale. -/
def unit (scale : Nat) : ℚ := 2 ^ ((scale : ℤ) - 1075)

lemma unit_pos : 0 < unit scale := by
  unfold unit
  positivity

lemma zpow_sub_natCast (a b : Nat) :
    (2 : ℚ) ^ ((a : ℤ) - (b : ℤ)) = 2 ^ (a - b) / 2 ^ (b - a) := by
  have split : (a : ℤ) - (b : ℤ) = ((a - b : Nat) : ℤ) - ((b - a : Nat) : ℤ) := by omega
  rw [split, zpow_sub₀ (by norm_num), zpow_natCast, zpow_natCast]

lemma unit_eq : unit scale = (2 ^ (scale - 1075) : ℚ) / 2 ^ (1075 - scale) :=
  zpow_sub_natCast scale 1075

lemma unit_succ : unit (scale + 1) = 2 * unit scale := by
  unfold unit
  rw [Nat.cast_add, Nat.cast_one, add_sub_right_comm, zpow_add_one₀ (by norm_num), mul_comm]

lemma two_zpow_mono {a b : ℤ} (h : a ≤ b) : (2 : ℚ) ^ a ≤ 2 ^ b :=
  zpow_le_zpow_right₀ (by norm_num) h

lemma unit_mono {a b : Nat} (h : a ≤ b) : unit a ≤ unit b := two_zpow_mono (by omega)

lemma hidden_eq : (hidden : ℚ) = 2 ^ 52 := by
  norm_num [hidden]

/-- Rounding of a quotient, with ties to even. -/
lemma roundDiv_eq (den_pos : 0 < den) (low : ((m : ℚ) - 1 / 2) ≤ num / den)
    (high : (num : ℚ) / den ≤ m + 1 / 2)
    (strict : m % 2 = 1 → ((m : ℚ) - 1 / 2) < num / den ∧ (num : ℚ) / den < m + 1 / 2) :
    roundDiv num den = m := by
  have den_pos' : (0 : ℚ) < den := by exact_mod_cast den_pos
  rw [le_div_iff₀ den_pos'] at low
  rw [div_le_iff₀ den_pos'] at high
  rw [lt_div_iff₀ den_pos', div_lt_iff₀ den_pos'] at strict
  have low' : 2 * m * den ≤ 2 * num + den := by
    have : (2 * m * den : ℚ) ≤ 2 * num + den := by linarith
    exact_mod_cast this
  have high' : 2 * num ≤ 2 * m * den + den := by
    have : (2 * num : ℚ) ≤ 2 * m * den + den := by linarith
    exact_mod_cast this
  have strict' : m % 2 = 1 → 2 * m * den < 2 * num + den ∧ 2 * num < 2 * m * den + den := by
    intro odd
    have one : (2 * m * den : ℚ) < 2 * num + den := by linarith [(strict odd).1]
    have two : (2 * num : ℚ) < 2 * m * den + den := by linarith [(strict odd).2]
    exact ⟨by exact_mod_cast one, by exact_mod_cast two⟩
  have split := Nat.div_add_mod num den
  have small := Nat.mod_lt num den_pos
  unfold roundDiv
  simp only
  generalize num / den = down at *
  generalize num % den = rem at *
  have near : down = m ∨ down + 1 = m := by
    have upper : down ≤ m := by
      by_contra above
      have : (m + 1) * den ≤ down * den := Nat.mul_le_mul_right den (by omega)
      nlinarith
    have lower : m ≤ down + 1 := by
      by_contra below
      have : (down + 2) * den ≤ m * den := Nat.mul_le_mul_right den (by omega)
      nlinarith
    omega
  rcases near with rfl | rfl
  · have bound : 2 * rem ≤ den := by nlinarith
    have tight : down % 2 = 1 → 2 * rem < den := fun odd => by
      have := (strict' odd).2
      nlinarith
    split_ifs <;> omega
  · have bound : den ≤ 2 * rem := by nlinarith
    have tight : (down + 1) % 2 = 1 → den < 2 * rem := fun odd => by
      have := (strict' odd).1
      nlinarith
    split_ifs <;> omega

lemma two_pow_mul_unit (k scale : Nat) :
    (2 : ℚ) ^ k * unit scale = 2 ^ ((k : ℤ) + ((scale : ℤ) - 1075)) := by
  rw [unit, zpow_add₀ (by norm_num), zpow_natCast]

lemma zpow_le_ratio_iff (den_pos : 0 < den) (a b : Nat) :
    (2 : ℚ) ^ ((a : ℤ) - (b : ℤ)) ≤ n / den ↔ den * 2 ^ (a - b) ≤ n * 2 ^ (b - a) := by
  have den_pos' : (0 : ℚ) < den := by exact_mod_cast den_pos
  rw [zpow_sub_natCast, div_le_div_iff₀ (by positivity) den_pos', mul_comm]
  exact_mod_cast Iff.rfl

lemma ratio_log2 (num_pos : 0 < num) (den_pos : 0 < den) :
    (2 : ℚ) ^ ((num.log2 : ℤ) - den.log2 - 1) ≤ num / den ∧
      (num : ℚ) / den < 2 ^ ((num.log2 : ℤ) - den.log2 + 1) := by
  have den_pos' : (0 : ℚ) < den := by exact_mod_cast den_pos
  have num_low : (2 : ℚ) ^ num.log2 ≤ num := by
    exact_mod_cast Nat.log2_self_le (ne_of_gt num_pos)
  have num_high : (num : ℚ) < 2 ^ (num.log2 + 1) := by
    exact_mod_cast Nat.lt_log2_self
  have den_low : (2 : ℚ) ^ den.log2 ≤ den := by
    exact_mod_cast Nat.log2_self_le (ne_of_gt den_pos)
  have den_high : (den : ℚ) < 2 ^ (den.log2 + 1) := by
    exact_mod_cast Nat.lt_log2_self
  have lower : (2 : ℚ) ^ ((num.log2 : ℤ) - den.log2 - 1) = 2 ^ num.log2 / 2 ^ (den.log2 + 1) := by
    rw [sub_sub, zpow_sub₀ (by norm_num), zpow_natCast]
    congr 1
  have upper : (2 : ℚ) ^ ((num.log2 : ℤ) - den.log2 + 1) = 2 ^ (num.log2 + 1) / 2 ^ den.log2 := by
    rw [add_comm, ← add_sub_assoc, zpow_sub₀ (by norm_num), zpow_natCast, add_comm]
    congr 1
  constructor
  · rw [lower]
    exact div_le_div₀ (by positivity) num_low den_pos' den_high.le
  · rw [upper]
    exact div_lt_div₀ num_high den_low (by positivity) (by positivity)

lemma scale_of_guess {guess : Nat} {reached : Prop} [Decidable reached]
    (reached_iff : reached ↔ (2 : ℚ) ^ ((guess : ℤ) - 1023) ≤ v)
    (upper : v < 2 ^ ((guess : ℤ) - 1023 + 1))
    (lower : 0 < guess → (2 : ℚ) ^ ((guess : ℤ) - 1023 - 1) ≤ v) :
    v < 2 ^ 53 * unit (max (if reached then guess else guess - 1) 1) ∧
      (max (if reached then guess else guess - 1) 1 = 1 ∨
        2 ^ 52 * unit (max (if reached then guess else guess - 1) 1) ≤ v) := by
  rw [two_pow_mul_unit, two_pow_mul_unit]
  by_cases h : reached
  · rw [if_pos h]
    refine ⟨upper.trans_le (two_zpow_mono (by omega)), ?_⟩
    rcases lt_or_ge 1 guess with large | small
    · exact .inr ((two_zpow_mono (by omega)).trans (reached_iff.mp h))
    · exact .inl (by omega)
  · rw [if_neg h]
    have missed := lt_of_not_ge (fun reach => h (reached_iff.mpr reach))
    refine ⟨missed.trans_le (two_zpow_mono (by omega)), ?_⟩
    rcases lt_or_ge 2 guess with large | small
    · exact .inr ((two_zpow_mono (by omega)).trans (lower (by omega)))
    · exact .inl (by omega)

lemma scaleOf_spec (num_pos : 0 < num) (den_pos : 0 < den) :
    (num : ℚ) / den < 2 ^ 53 * unit (scaleOf num den) ∧
      (scaleOf num den = 1 ∨ 2 ^ 52 * unit (scaleOf num den) ≤ (num : ℚ) / den) := by
  obtain ⟨lower, upper⟩ := ratio_log2 num_pos den_pos
  have decides := zpow_le_ratio_iff (n := num) den_pos (num.log2 + 1023 - den.log2) 1023
  unfold scaleOf
  simp only [Nat.pow_eq]
  generalize hguess : num.log2 + 1023 - den.log2 = guess at *
  apply scale_of_guess
  · rw [Nat.cast_ofNat] at decides
    rw [decides]
    split_ifs with large
    · rw [Nat.sub_eq_zero_of_le large, pow_zero, Nat.mul_one]
    · rw [Nat.sub_eq_zero_of_le (Nat.le_of_not_le large), pow_zero, Nat.mul_one]
  · exact upper.trans_le (two_zpow_mono (by omega))
  · intro pos
    exact (two_zpow_mono (by omega)).trans lower

lemma scaleOf_pos (num den : Nat) : 1 ≤ scaleOf num den := le_max_right _ 1

/-! The interval of a double. -/

/-- A number lies where rounding gives the double; its ends belong to it if the significand is
even. -/
structure Within (x : Double) (v : ℚ) : Prop where
  low : (x.interval.1 : ℚ) * (unit x.scale / 4) ≤ v
  high : v ≤ (x.interval.2 : ℚ) * (unit x.scale / 4)
  strict : x.significand % 2 = 1 →
    (x.interval.1 : ℚ) * (unit x.scale / 4) < v ∧ v < (x.interval.2 : ℚ) * (unit x.scale / 4)

lemma magnitude_eq (x : Double) : x.magnitude.val = (x.scale - 1) * hidden + x.significand := by
  unfold scale significand hidden
  split_ifs <;> omega

lemma scale_pos (x : Double) : 1 ≤ x.scale := le_max_right _ 1

lemma significand_lt (x : Double) : x.significand < 2 * hidden := by
  unfold significand hidden
  split_ifs <;> omega

lemma significand_succ_le (x : Double) : (x.significand : ℚ) + 1 ≤ 2 ^ 53 := by
  exact_mod_cast x.significand_lt

lemma scale_eq_one_or (x : Double) : x.scale = 1 ∨ hidden ≤ x.significand := by
  unfold scale significand hidden
  split_ifs <;> omega

lemma significand_pos (nonzero : x.isZero = false) : 0 < x.significand := by
  unfold isZero at nonzero
  have pos : x.magnitude.val ≠ 0 := of_decide_eq_false nonzero
  unfold significand hidden
  split_ifs <;> omega

lemma interval_snd (x : Double) : (x.interval.2 : ℚ) = 4 * x.significand + 2 := by
  unfold interval
  push_cast
  ring

lemma le_interval_fst (pos : 0 < x.significand) : (4 * x.significand - 2 : ℚ) ≤ x.interval.1 := by
  have natural : 4 * x.significand ≤ x.interval.1 + 2 := by
    unfold interval
    simp only
    split_ifs <;> omega
  have : (4 * x.significand : ℚ) ≤ x.interval.1 + 2 := by exact_mod_cast natural
  linarith

lemma interval_fst_of_hidden (least : x.significand = hidden) (above : 1 < x.scale) :
    (x.interval.1 : ℚ) = 4 * 2 ^ 52 - 1 := by
  have natural : x.interval.1 = 4 * hidden - 1 := by
    unfold interval
    simp [least, above]
  rw [natural]
  norm_num [hidden]

lemma scaled_ratio (num den scale : Nat) :
    ((num * Nat.pow 2 (1075 - scale) : Nat) : ℚ) / ((den * Nat.pow 2 (scale - 1075) : Nat) : ℚ) =
      (num : ℚ) / den / unit scale := by
  rw [unit_eq, Nat.pow_eq, Nat.pow_eq]
  push_cast
  field_simp

lemma Within.significand_le (within : x.Within v) (nonzero : x.isZero = false) :
    (4 * x.significand - 2 : ℚ) * (unit x.scale / 4) ≤ v := by
  have unit_positive := unit_pos x.scale
  exact (mul_le_mul_of_nonneg_right (le_interval_fst (significand_pos nonzero))
    (by positivity : 0 ≤ unit x.scale / 4)).trans within.low

/-- The scale of a ratio within the interval of a double is that of the double, or one less just
below a power of two. -/
theorem scaleOf_of_within (nonzero : x.isZero = false) (num_pos : 0 < num) (den_pos : 0 < den)
    (within : x.Within ((num : ℚ) / den)) :
    scaleOf num den = x.scale ∨ scaleOf num den + 1 = x.scale ∧ x.significand = hidden ∧
        (num : ℚ) / den < 2 ^ 52 * unit x.scale := by
  obtain ⟨below, reached⟩ := scaleOf_spec num_pos den_pos
  have least := scaleOf_pos num den
  generalize scaleOf num den = s at *
  generalize (num : ℚ) / den = v at *
  have low := within.significand_le nonzero
  have high := within.high
  rw [interval_snd] at high
  rcases Nat.lt_trichotomy s x.scale with less | same | more
  · right
    have half : 2 * unit s ≤ unit x.scale := by
      rw [← unit_succ]
      exact unit_mono less
    have under : v < 2 ^ 52 * unit x.scale := by linarith
    have large : hidden ≤ x.significand := x.scale_eq_one_or.resolve_left (by omega)
    have significand : x.significand = hidden := by
      by_contra other
      have more : hidden + 1 ≤ x.significand := by omega
      have more' : (2 ^ 52 + 1 : ℚ) ≤ x.significand := by
        rw [← hidden_eq]
        exact_mod_cast more
      nlinarith
    refine ⟨?_, significand, under⟩
    by_contra apart
    have quarter : 4 * unit s ≤ unit x.scale := by
      have twice : unit (s + 2) = 4 * unit s := by
        rw [unit_succ, unit_succ]
        ring
      rw [← twice]
      exact unit_mono (by omega)
    rw [significand, hidden_eq] at low
    linarith
  · exact .inl same
  · exfalso
    have twice : 2 * unit x.scale ≤ unit s := by
      rw [← unit_succ]
      exact unit_mono more
    have reach := reached.resolve_left (by have := x.scale_pos; omega)
    have bound := x.significand_succ_le
    nlinarith

lemma roundDiv_of_within (nonzero : x.isZero = false) (den_pos : 0 < den)
    (within : x.Within ((num : ℚ) / den)) :
    roundDiv (num * Nat.pow 2 (1075 - x.scale)) (den * Nat.pow 2 (x.scale - 1075)) =
      x.significand := by
  have unit_positive := unit_pos x.scale
  have low := within.significand_le nonzero
  have high := within.high
  rw [interval_snd] at high
  have den_pos' : 0 < den * Nat.pow 2 (x.scale - 1075) := mul_pos den_pos (Nat.pow_pos (by decide))
  apply roundDiv_eq den_pos'
  · rw [scaled_ratio, le_div_iff₀ unit_positive]
    linarith
  · rw [scaled_ratio, div_le_iff₀ unit_positive]
    linarith
  · intro odd
    obtain ⟨above, below⟩ := within.strict odd
    have low' := (mul_le_mul_of_nonneg_right (le_interval_fst (significand_pos nonzero))
      (by positivity : 0 ≤ unit x.scale / 4)).trans_lt above
    rw [interval_snd] at below
    rw [scaled_ratio, lt_div_iff₀ unit_positive, div_lt_iff₀ unit_positive]
    constructor <;> linarith

lemma roundDiv_below_power {scale : Nat} (den_pos : 0 < den) (scale_pos : 0 < scale)
    (less : scale + 1 = x.scale) (least : x.significand = hidden)
    (within : x.Within ((num : ℚ) / den)) (under : (num : ℚ) / den < 2 ^ 52 * unit x.scale) :
    roundDiv (num * Nat.pow 2 (1075 - scale)) (den * Nat.pow 2 (scale - 1075)) = 2 * hidden := by
  have half : unit x.scale = 2 * unit scale := by rw [← less, unit_succ]
  have above := within.low
  rw [interval_fst_of_hidden least (by omega)] at above
  have den_pos' : 0 < den * Nat.pow 2 (scale - 1075) := mul_pos den_pos (Nat.pow_pos (by decide))
  apply roundDiv_eq den_pos'
  · rw [scaled_ratio, le_div_iff₀ (unit_pos _)]
    push_cast
    rw [hidden_eq]
    linarith
  · rw [scaled_ratio, div_le_iff₀ (unit_pos _)]
    push_cast
    rw [hidden_eq]
    linarith
  · intro odd
    exact absurd ((Nat.mul_mod_right 2 hidden).symm.trans odd) (by decide)

/-- A number that is closest to a double is read as it. -/
lemma ofRatio_of_within (finite : x.isFinite = true) (nonzero : x.isZero = false)
    (den_pos : 0 < den) (within : x.Within ((num : ℚ) / den)) :
    ofRatio x.negative num den = x := by
  have num_pos : 0 < num := by
    apply pos_of_ne_zero
    rintro rfl
    have low := within.significand_le nonzero
    have unit_positive := unit_pos x.scale
    rw [Nat.cast_zero, zero_div] at low
    have : (1 : ℚ) ≤ x.significand := by exact_mod_cast significand_pos nonzero
    nlinarith
  have magnitude : (scaleOf num den - 1) * hidden +
      roundDiv (num * Nat.pow 2 (1075 - scaleOf num den))
        (den * Nat.pow 2 (scaleOf num den - 1075)) = x.magnitude.val := by
    have scale_pos := scaleOf_pos num den
    rw [magnitude_eq]
    rcases scaleOf_of_within nonzero num_pos den_pos within with same | ⟨less, least, under⟩
    · rw [same, roundDiv_of_within nonzero den_pos within]
    · rw [roundDiv_below_power den_pos scale_pos less least within under, least]
      unfold hidden
      omega
  have below : x.magnitude.val < infinite := of_decide_eq_true finite
  unfold ofRatio
  rw [if_neg (ne_of_gt num_pos)]
  simp only [magnitude]
  unfold ofMagnitude
  cases x with
  | mk negative value =>
    apply congrArg (Double.mk negative)
    exact Fin.ext (min_eq_left (below.le))

/-! Shortest decimals. -/

/-- Quarters of the unit of a double, on the scale of a grid. -/
def quarters (x : Double) (k : ℤ) : Nat :=
  Nat.pow 2 (x.scale - 1077) * Nat.pow 10 (-k).toNat

def step (x : Double) (k : ℤ) : Nat :=
  Nat.pow 2 (1077 - x.scale) * Nat.pow 10 k.toNat

/-- Whether a multiple of the step lies in the interval. -/
def isInside (x : Double) (k : ℤ) (c : Nat) : Bool :=
  if x.significand % 2 = 0 then
    x.interval.1 * x.quarters k ≤ c * x.step k && c * x.step k ≤ x.interval.2 * x.quarters k
  else x.interval.1 * x.quarters k < c * x.step k && c * x.step k < x.interval.2 * x.quarters k

/-- The multiple of the step just below a double, or at it. -/
def gridBelow (x : Double) (k : ℤ) : Nat := 4 * x.significand * x.quarters k / x.step k

lemma isInside_of_onGrid? (found : x.onGrid? tie k = some digits) :
    x.isInside k digits = true := by
  have parity : x.gridBelow k % 2 = 0 ∨ x.gridBelow k % 2 = 1 := by omega
  unfold onGrid? at found
  simp only at found
  split at found
  · contradiction
  · next first _ =>
      cases found
      exact first
  · next _ second =>
      cases found
      exact second
  · next first second =>
      split_ifs at found
      · cases found
        exact first
      · cases found
        exact second
      · split at found
        · cases found
          exact second
        · have even : x.gridBelow k + x.gridBelow k % 2 = digits := Option.some.inj found
          rw [← even]
          rcases parity with zero | one
          · rwa [zero]
          · rwa [one]

lemma onGrid?_ne_none (inside : x.isInside k (x.gridBelow k + 1) = true) :
    x.onGrid? tie k ≠ none := by
  unfold onGrid?
  simp only
  split
  iterate 2 next second => exact absurd (second.symm.trans inside) Bool.false_ne_true
  · exact Option.some_ne_none _
  · split_ifs
    · exact Option.some_ne_none _
    · exact Option.some_ne_none _
    · split <;> exact Option.some_ne_none _

lemma grid_scale (x : Double) (k : ℤ) :
    ∃ r : ℚ, 0 < r ∧ (x.quarters k : ℚ) = unit x.scale / 4 * r ∧ (x.step k : ℚ) = 10 ^ k * r := by
  have quarter : unit x.scale / 4 = 2 ^ (x.scale - 1077) / 2 ^ (1077 - x.scale) := by
    rw [← zpow_sub_natCast, unit, div_eq_iff (by norm_num)]
    have four : (4 : ℚ) = 2 ^ (2 : ℤ) := by norm_num
    rw [four, ← zpow_add₀ (by norm_num)]
    apply congrArg ((2 : ℚ) ^ ·)
    push_cast
    ring
  have power : (10 : ℚ) ^ k = 10 ^ k.toNat / 10 ^ (-k).toNat := by
    have split : k = (k.toNat : ℤ) - ((-k).toNat : ℤ) := by omega
    nth_rewrite 1 [split]
    rw [zpow_sub₀ (by norm_num), zpow_natCast, zpow_natCast]
  refine ⟨2 ^ (1077 - x.scale) * 10 ^ (-k).toNat, by positivity, ?_, ?_⟩
  · rw [quarter, quarters, Nat.pow_eq, Nat.pow_eq]
    push_cast
    field_simp
  · rw [power, step, Nat.pow_eq, Nat.pow_eq]
    push_cast
    field_simp

lemma within_of_isInside {c : Nat} (inside : x.isInside k c = true) : x.Within (c * 10 ^ k) := by
  obtain ⟨r, pos, quarters, step⟩ := x.grid_scale k
  have multiple : ((c * x.step k : Nat) : ℚ) = c * 10 ^ k * r := by
    rw [Nat.cast_mul, step, mul_assoc]
  have bound : ∀ a : Nat, ((a * x.quarters k : Nat) : ℚ) = a * (unit x.scale / 4) * r := by
    intro a
    rw [Nat.cast_mul, quarters, mul_assoc]
  unfold isInside at inside
  split_ifs at inside with even
  · simp only [Bool.and_eq_true, decide_eq_true_eq, ← Nat.cast_le (α := ℚ), multiple, bound,
      mul_le_mul_iff_left₀ pos] at inside
    exact ⟨inside.1, inside.2, fun odd => absurd (even.symm.trans odd) (by decide)⟩
  · simp only [Bool.and_eq_true, decide_eq_true_eq, ← Nat.cast_lt (α := ℚ), multiple, bound,
      mul_lt_mul_iff_left₀ pos] at inside
    exact ⟨inside.1.le, inside.2.le, fun _ => inside⟩

/-- On a grid finer than the doubles there is a numeral for each. -/
lemma onGrid?_of_fine (pos : 0 < x.significand) (fine : (10 : ℚ) ^ k < unit x.scale / 2) :
    x.onGrid? tie k ≠ none := by
  obtain ⟨r, r_pos, quarters, step⟩ := x.grid_scale k
  have narrow : x.step k < 2 * x.quarters k := by
    have cast : (x.step k : ℚ) < 2 * x.quarters k := by
      rw [quarters, step]
      nlinarith
    exact_mod_cast cast
  have step_pos : 0 < x.step k := by
    have cast : (0 : ℚ) < x.step k := by
      rw [step]
      positivity
    exact_mod_cast cast
  have reached : x.gridBelow k * x.step k ≤ 4 * x.significand * x.quarters k :=
    Nat.div_mul_le_self _ _
  have above : 4 * x.significand * x.quarters k < (x.gridBelow k + 1) * x.step k :=
    Nat.lt_mul_of_div_lt (Nat.lt_succ_self _) step_pos
  have below : (x.gridBelow k + 1) * x.step k < (4 * x.significand + 2) * x.quarters k := by
    rw [add_mul, add_mul]
    linarith
  have low : x.interval.1 * x.quarters k ≤ 4 * x.significand * x.quarters k := by
    apply Nat.mul_le_mul_right
    unfold interval
    simp only
    split_ifs <;> omega
  have high : x.interval.2 = 4 * x.significand + 2 := rfl
  apply onGrid?_ne_none
  unfold isInside
  rw [high]
  split_ifs
  all_goals
    simp only [Bool.and_eq_true, decide_eq_true_eq]
    omega

lemma zpow_pow_swap (a : ℚ) (j : ℤ) (k : Nat) : (a ^ j) ^ k = (a ^ k) ^ j := by
  rw [← zpow_natCast, ← zpow_natCast, zpow_comm]

lemma zpow_natCast_mul (a : ℚ) (k : Nat) (j : ℤ) : a ^ (k * j) = (a ^ k) ^ j := by
  rw [zpow_mul, zpow_natCast]

lemma ten_zpow_lt_two_zpow {n j : ℤ} (low : -1100 ≤ n) (high : n ≤ 1100)
    (places : 100000 * (j + 22) ≤ n * 30103) : (10 : ℚ) ^ j < 2 ^ (n - 54) := by
  rcases le_or_gt 0 j with whole | fraction
  · apply lt_of_pow_lt_pow_left₀ 3 (by positivity)
    calc ((10 : ℚ) ^ j) ^ 3 = (10 ^ 3) ^ j := zpow_pow_swap 10 j 3
      _ ≤ (2 ^ 10) ^ j := zpow_le_zpow_left₀ whole (by norm_num) (by norm_num)
      _ = 2 ^ (10 * j) := (zpow_natCast_mul 2 10 j).symm
      _ < 2 ^ (3 * (n - 54)) := zpow_lt_zpow_right₀ (by norm_num) (by omega)
      _ = ((2 : ℚ) ^ (n - 54)) ^ 3 := (zpow_natCast_mul 2 3 _).trans (zpow_pow_swap 2 _ 3).symm
  · apply lt_of_pow_lt_pow_left₀ 28 (by positivity)
    calc ((10 : ℚ) ^ j) ^ 28 = (10 ^ 28) ^ j := zpow_pow_swap 10 j 28
      _ ≤ (2 ^ 93) ^ j := by
          obtain ⟨i, rfl⟩ : ∃ i : ℤ, j = -i := ⟨-j, by omega⟩
          have base : ((2 : ℚ) ^ 93) ^ i ≤ (10 ^ 28) ^ i :=
            zpow_le_zpow_left₀ (by omega) (by positivity) (by norm_num)
          rw [zpow_neg, zpow_neg]
          exact inv_anti₀ (by positivity) base
      _ = 2 ^ (93 * j) := (zpow_natCast_mul 2 93 j).symm
      _ < 2 ^ (28 * (n - 54)) := zpow_lt_zpow_right₀ (by norm_num) (by omega)
      _ = ((2 : ℚ) ^ (n - 54)) ^ 28 := (zpow_natCast_mul 2 28 _).trans (zpow_pow_swap 2 _ 28).symm

lemma search_spec {steps : Nat} {i : Nat} (within : i < steps)
    (found : x.onGrid? tie (k - i) ≠ none) :
    x.onGrid? tie (x.search tie steps k).exponent = some (x.search tie steps k).digits := by
  induction steps generalizing k i with
  | zero => contradiction
  | succ steps ih =>
    unfold search
    split
    · next digits here => exact here
    · next none_here =>
        cases i with
        | zero =>
          rw [Nat.cast_zero, sub_zero] at found
          contradiction
        | succ i =>
          apply ih (Nat.lt_of_succ_lt_succ within)
          rwa [sub_sub, add_comm, ← Nat.cast_succ]

lemma scale_lt (finite : x.isFinite = true) : x.scale < 2047 := by
  have below : x.magnitude.val < infinite := of_decide_eq_true finite
  unfold infinite hidden at below
  unfold scale hidden
  omega

lemma within_shortest (finite : x.isFinite = true) (nonzero : x.isZero = false) (tie : Tie) :
    x.Within ((x.shortest tie).digits * 10 ^ (x.shortest tie).exponent) := by
  have pos := significand_pos nonzero
  have fine : (10 : ℚ) ^ (x.coarsest - (23 : Nat)) < unit x.scale / 2 := by
    have bits : x.significand.log2 < 53 := by
      rw [Nat.log2_lt (ne_of_gt pos)]
      have := x.significand_lt
      unfold hidden at this
      omega
    have scales := scale_lt finite
    calc (10 : ℚ) ^ (x.coarsest - (23 : Nat)) <
          2 ^ ((x.significand.log2 : ℤ) + x.scale - 1074 - 54) := by
          apply ten_zpow_lt_two_zpow
          · omega
          · omega
          · unfold coarsest
            omega
      _ ≤ 2 ^ ((x.scale : ℤ) - 1075 - 1) := zpow_le_zpow_right₀ (by norm_num) (by omega)
      _ = unit x.scale / 2 := by rw [zpow_sub_one₀ (by norm_num), unit, div_eq_mul_inv]
  apply within_of_isInside
  apply isInside_of_onGrid?
  exact search_spec (by decide : 23 < 24) (onGrid?_of_fine pos fine)

/-! Reading decimals. -/

lemma two_pow_lt_ten_pow : (2 : ℚ) ^ (1100 : ℤ) < 10 ^ (400 : ℤ) := by
  have two : (2 : ℚ) ^ (1100 : ℤ) = 2048 ^ 100 := by
    rw [show (1100 : ℤ) = ((11 * 100 : Nat) : ℤ) from rfl, zpow_natCast, pow_mul]
    norm_num
  have ten : (10 : ℚ) ^ (400 : ℤ) = 10000 ^ 100 := by
    rw [show (400 : ℤ) = ((4 * 100 : Nat) : ℤ) from rfl, zpow_natCast, pow_mul]
    norm_num
  rw [two, ten]
  exact pow_lt_pow_left₀ (by norm_num) (by norm_num) (by norm_num)

lemma within_bounds (finite : x.isFinite = true) (nonzero : x.isZero = false)
    (within : x.Within v) : v < 2 ^ (1100 : ℤ) ∧ (2 : ℚ) ^ (-1100 : ℤ) < v := by
  have pos : (1 : ℚ) ≤ x.significand := by exact_mod_cast significand_pos nonzero
  have bound := x.significand_succ_le
  have unit_positive := unit_pos x.scale
  constructor
  · have high := within.high
    rw [interval_snd] at high
    calc v ≤ (4 * x.significand + 2) * (unit x.scale / 4) := high
      _ < 2 ^ 54 * unit x.scale := by nlinarith
      _ = 2 ^ ((54 : Nat) + ((x.scale : ℤ) - 1075)) := two_pow_mul_unit 54 x.scale
      _ ≤ 2 ^ (1100 : ℤ) := by
          apply zpow_le_zpow_right₀ (by norm_num)
          have := scale_lt finite
          omega
  · have low := within.significand_le nonzero
    calc (2 : ℚ) ^ (-1100 : ℤ) < 2 ^ ((x.scale : ℤ) - 1075 - 1) := by
          apply zpow_lt_zpow_right₀ (by norm_num)
          have := x.scale_pos
          omega
      _ = unit x.scale / 2 := by rw [zpow_sub_one₀ (by norm_num), unit, div_eq_mul_inv]
      _ ≤ v := by nlinarith

lemma digits_bounds (pos : 0 < digits) :
    (10 : ℚ) ^ (((Nat.toDigits 10 digits).length : ℤ) - 1) ≤ digits ∧
      (digits : ℚ) < 10 ^ ((Nat.toDigits 10 digits).length : ℤ) := by
  have some_digit : 0 < (Nat.toDigits 10 digits).length := length_pos_iff.mpr Nat.toDigits_ne_nil
  constructor
  · obtain ⟨n, count⟩ := Nat.exists_eq_succ_of_ne_zero (ne_of_gt some_digit)
    have reached : 10 ^ n ≤ digits := by
      rcases Nat.eq_zero_or_pos n with rfl | more
      · exact pos
      · by_contra below
        have shorter := (Nat.length_toDigits_le_iff (by decide : 1 < 10) more).mpr
          (Nat.lt_of_not_le below)
        omega
    rw [count, Nat.cast_succ, add_sub_cancel_right, zpow_natCast]
    exact_mod_cast reached
  · rw [zpow_natCast]
    exact_mod_cast (Nat.length_toDigits_le_iff (by decide : 1 < 10) some_digit).mp le_rfl

/-- A decimal in the interval of a double is read as the double. -/
theorem ofDecimal_of_within (finite : x.isFinite = true) (nonzero : x.isZero = false) {exponent : ℤ}
    (within : x.Within (digits * 10 ^ exponent)) :
    ofDecimal x.negative digits exponent = x := by
  obtain ⟨huge, tiny⟩ := within_bounds finite nonzero within
  have pos : 0 < digits := by
    apply pos_of_ne_zero
    rintro rfl
    rw [Nat.cast_zero, zero_mul] at tiny
    exact absurd tiny (not_lt_of_gt (by positivity))
  obtain ⟨least, most⟩ := digits_bounds pos
  have power : (0 : ℚ) < 10 ^ exponent := by positivity
  have small : ¬ (400 : ℤ) < (Nat.toDigits 10 digits).length + exponent := by
    intro large
    have reached : (10 : ℚ) ^ (400 : ℤ) ≤ digits * 10 ^ exponent :=
      calc (10 : ℚ) ^ (400 : ℤ) ≤ 10 ^ (((Nat.toDigits 10 digits).length : ℤ) - 1 + exponent) :=
            zpow_le_zpow_right₀ (by norm_num) (by omega)
        _ = 10 ^ (((Nat.toDigits 10 digits).length : ℤ) - 1) * 10 ^ exponent :=
            zpow_add₀ (by norm_num) _ _
        _ ≤ digits * 10 ^ exponent := mul_le_mul_of_nonneg_right least power.le
    exact absurd (reached.trans_lt huge) (not_lt_of_gt two_pow_lt_ten_pow)
  have large : ¬ ((Nat.toDigits 10 digits).length : ℤ) + exponent < -400 := by
    intro below
    have reached : digits * 10 ^ exponent ≤ (10 : ℚ) ^ (-400 : ℤ) :=
      calc (digits : ℚ) * 10 ^ exponent ≤
            10 ^ ((Nat.toDigits 10 digits).length : ℤ) * 10 ^ exponent :=
            mul_le_mul_of_nonneg_right most.le power.le
        _ = 10 ^ (((Nat.toDigits 10 digits).length : ℤ) + exponent) :=
            (zpow_add₀ (by norm_num) _ _).symm
        _ ≤ 10 ^ (-400 : ℤ) := zpow_le_zpow_right₀ (by norm_num) (by omega)
    have apart : (10 : ℚ) ^ (-400 : ℤ) < 2 ^ (-1100 : ℤ) := by
      rw [zpow_neg, zpow_neg]
      exact inv_strictAnti₀ (by positivity) two_pow_lt_ten_pow
    exact absurd (tiny.trans_le reached) (not_lt_of_gt apart)
  unfold ofDecimal
  rw [if_neg (ne_of_gt pos)]
  simp only [if_neg small, if_neg large, Nat.pow_eq]
  split_ifs with whole
  · apply ofRatio_of_within finite nonzero (by decide)
    obtain ⟨n, rfl⟩ := Int.eq_ofNat_of_zero_le whole
    simpa using within
  · obtain ⟨n, rfl⟩ : ∃ n : Nat, exponent = -(n : ℤ) := ⟨(-exponent).toNat, by omega⟩
    apply ofRatio_of_within finite nonzero (Nat.pow_pos (by decide))
    rw [zpow_neg, ← div_eq_mul_inv, zpow_natCast] at within
    simpa using within

/-- Digits with a point are a numeral of what they are closest to. -/
lemma numeral_pointed (finite : x.isFinite = true) (nonzero : x.isZero = false)
    (within : x.Within (digits * 10 ^ (-(places : ℤ)))) :
    Grammar.Numeral (Grammar.signed x.negative (pointed (natChars digits) places)) x := by
  have read : ∀ whole fraction : List Char, fraction.length = places →
      Nat.ofDigitChars 10 (whole ++ fraction) 0 = digits → whole ≠ [] →
      (∀ c ∈ whole, c.isDigit = true) → (∀ c ∈ fraction, c.isDigit = true) →
      Grammar.Numeral (Grammar.signed x.negative (whole ++ '.' :: fraction)) x := by
    intro whole fraction length value some_digit before after
    have numeral := Grammar.numeral_fraction x.negative some_digit before after
    rwa [value, length, ofDecimal_of_within finite nonzero within] at numeral
  have digit : ∀ c ∈ natChars digits, c.isDigit = true := fun _ => Grammar.isDigit_natChars
  unfold pointed
  split_ifs with inside
  · apply read
    · rw [length_drop]
      omega
    · rw [take_append_drop, Grammar.ofDigitChars_natChars]
    · apply ne_nil_of_length_pos
      rw [length_take]
      omega
    · exact fun c mem => digit c (mem_of_mem_take mem)
    · exact fun c mem => digit c (mem_of_mem_drop mem)
  · apply read ['0'] (replicate (places - (natChars digits).length) '0' ++ natChars digits)
    · rw [length_append, length_replicate]
      omega
    · rw [singleton_append, Nat.ofDigitChars_cons, Nat.ofDigitChars_append,
        Nat.ofDigitChars_replicate_zero]
      exact Grammar.ofDigitChars_natChars digits
    · exact cons_ne_nil _ _
    · exact Grammar.isDigit_zeros (n := 1)
    · exact forall_mem_append.mpr ⟨Grammar.isDigit_zeros, digit⟩

/-- The text of a double is a numeral of it. -/
lemma numeral_text (finite : x.isFinite = true) : Grammar.Numeral x.text.toList x := by
  have number : x.isNaN = false := by
    unfold isFinite at finite
    unfold isNaN
    have := of_decide_eq_true finite
    exact decide_eq_false (by omega)
  have text : x.text.toList = Grammar.signed x.negative
      (if x.isZero then ['0'] else (x.shortest .up).positional) := by
    simp [text, number, finite, Grammar.signed, String.toList_ofList]
  rw [text]
  cases nonzero : x.isZero with
  | true =>
    have zero : x.magnitude.val = 0 := of_decide_eq_true nonzero
    have whole := Grammar.numeral_whole x.negative (cons_ne_nil '0' [])
      (Grammar.isDigit_zeros (n := 1))
    have same : ofDecimal x.negative (Nat.ofDigitChars 10 ['0'] 0) 0 = x := by
      cases x with
      | mk negative magnitude =>
        apply congrArg (Double.mk negative)
        exact Fin.ext zero.symm
    rwa [same] at whole
  | false =>
    have within := within_shortest finite nonzero .up
    simp only [Bool.false_eq_true, if_false, Decimal.positional]
    split_ifs with large
    · have whole := Grammar.numeral_whole x.negative
        (append_ne_nil_of_left_ne_nil (Grammar.natChars_ne_nil (x.shortest .up).digits) _)
        (forall_mem_append.mpr ⟨fun _ => Grammar.isDigit_natChars,
          Grammar.isDigit_zeros (n := (x.shortest .up).exponent.toNat)⟩)
      rw [Nat.ofDigitChars_append, Nat.ofDigitChars_replicate_zero,
        Grammar.ofDigitChars_natChars, mul_comm] at whole
      have same : ofDecimal x.negative ((x.shortest .up).digits *
          10 ^ (x.shortest .up).exponent.toNat) 0 = x := by
        apply ofDecimal_of_within finite nonzero
        have power : (10 : ℚ) ^ (x.shortest .up).exponent =
            10 ^ (x.shortest .up).exponent.toNat := by
          rw [← zpow_natCast, Int.toNat_of_nonneg large]
        rw [power] at within
        simpa using within
      rwa [same] at whole
    · apply numeral_pointed finite nonzero
      rwa [Int.toNat_of_nonneg (by omega), neg_neg]

/-! Whole numbers. -/

lemma within_value (nonzero : x.isZero = false) : x.Within (x.significand * unit x.scale) := by
  have unit_positive := unit_pos x.scale
  have pos := significand_pos nonzero
  have low : (x.interval.1 : ℚ) < 4 * x.significand := by
    have natural : x.interval.1 < 4 * x.significand := by
      unfold interval
      simp only
      split_ifs <;> omega
    exact_mod_cast natural
  have high := x.interval_snd
  constructor
  · nlinarith
  · nlinarith
  · intro _
    constructor <;> nlinarith

/-- A whole number is a double if few of its binary digits count. -/
theorem exists_eq_whole (few : significand < 2 * hidden)
    (represented : n = significand * 2 ^ places) (pos : 0 < n) (fits : n < Word.size)
    (negative : Bool) : ∃ x : Double, x.negative = negative ∧
      x.isFinite = true ∧ x.isZero = false ∧ x.significand * unit x.scale = n := by
  have some_digit : significand ≠ 0 := by
    rintro rfl
    simp [represented] at pos
  have short : significand.log2 ≤ 52 := Nat.lt_succ_iff.mp ((Nat.log2_lt some_digit).mpr few)
  have places_lt : places < 64 := by
    rw [← Nat.pow_lt_pow_iff_right (a := 2) (by decide)]
    exact (Nat.le_mul_of_pos_left _ (Nat.pos_of_ne_zero some_digit)).trans_lt (represented ▸ fits)
  -- all 53 digits of the significand are used
  obtain ⟨m, s, lower, upper, large, small, whole⟩ : ∃ m s, hidden ≤ m ∧ m < 2 * hidden ∧
      1023 ≤ s ∧ s < 1139 ∧ (m * unit s : ℚ) = n := by
    refine ⟨significand * 2 ^ (52 - significand.log2), 1023 + significand.log2 + places, ?_, ?_,
      by omega, by omega, ?_⟩
    · have least := Nat.mul_le_mul_right (2 ^ (52 - significand.log2)) (Nat.log2_self_le some_digit)
      rwa [← pow_add, Nat.add_sub_cancel' short] at least
    · have most := Nat.mul_lt_mul_of_pos_right (@Nat.lt_log2_self significand)
        (Nat.two_pow_pos (52 - significand.log2))
      rwa [← pow_add, show significand.log2 + 1 + (52 - significand.log2) = 53 by omega] at most
    · have exponent : ((1023 + significand.log2 + places : Nat) : ℤ) - 1075 =
          (places : ℤ) - (52 - significand.log2 : Nat) := by omega
      rw [unit, exponent, zpow_sub₀ (by norm_num), zpow_natCast, zpow_natCast, represented]
      push_cast
      field_simp
  have inside : (s - 1) * hidden + m < infinite := by
    unfold infinite hidden at *
    omega
  obtain ⟨x, sign, magnitude⟩ : ∃ x : Double, x.negative = negative ∧
      x.magnitude.val = (s - 1) * hidden + m :=
    ⟨ofMagnitude negative ((s - 1) * hidden + m), rfl, min_eq_left inside.le⟩
  have scale : x.scale = s := by
    have digit : m / hidden = 1 := Nat.div_eq_of_lt_le (by rwa [one_mul]) upper
    rw [Double.scale, magnitude, mul_comm, Nat.mul_add_div (by decide), digit]
    omega
  have eq := x.magnitude_eq
  rw [scale, magnitude] at eq
  refine ⟨x, sign, decide_eq_true (magnitude.trans_lt inside), decide_eq_false ?_, ?_⟩
  · unfold hidden at lower
    omega
  · rw [scale, ← add_left_cancel eq, whole]

lemma truncate_of_value (finite : x.isFinite = true) (value : x.significand * unit x.scale = n)
    (cap : Nat) : x.truncate cap = min n cap := by
  have quotient : x.ratio.1 / x.ratio.2 = n := by
    rw [unit_eq, mul_div_assoc', div_eq_iff (by positivity)] at value
    have natural : x.ratio.1 = n * x.ratio.2 := by exact_mod_cast value
    rw [natural]
    exact Nat.mul_div_cancel n (Nat.two_pow_pos _)
  have number : x.isNaN = false := decide_eq_false (Nat.not_lt_of_lt (of_decide_eq_true finite))
  rw [truncate, number, finite, quotient]
  rfl

lemma truncate_ofRatio (few : significand < 2 * hidden)
    (represented : n = significand * 2 ^ places) (fits : n < Word.size) (negative : Bool)
    (cap : Nat) : (ofRatio negative n 1).truncate cap = min n cap := by
  rcases Nat.eq_zero_or_pos n with rfl | pos
  · simp [ofRatio, truncate, ratio, Double.significand, isNaN, isFinite, infinite, hidden]
  obtain ⟨x, rfl, finite, nonzero, value⟩ := exists_eq_whole few represented pos fits negative
  have within := within_value nonzero
  rw [value, ← div_one (n : ℚ), ← Nat.cast_one] at within
  rw [ofRatio_of_within finite nonzero one_pos within]
  exact truncate_of_value finite value cap

lemma negative_ofRatio (negative : Bool) (num den : Nat) :
    (ofRatio negative num den).negative = negative := by
  unfold ofRatio
  split_ifs <;> rfl

lemma isNonnegative_ofNat (n : Nat) : (ofNat n).isNonnegative = true := by
  have sign : (ofNat n).negative = false := negative_ofRatio false n 1
  have number : (ofNat n).isNaN = false := by
    unfold ofNat ofRatio
    split_ifs
    · rfl
    · exact decide_eq_false (Nat.not_lt_of_le (min_le_right _ _))
  simp [isNonnegative, sign, number]

lemma length_toDigits_le (fits : n < Word.size) : (Nat.toDigits 10 n).length ≤ 20 := by
  rw [Nat.length_toDigits_le_iff (by decide) (by decide)]
  unfold Word.size at fits
  omega

lemma ofDecimal_whole (negative : Bool) (fits : n < Word.size) :
    ofDecimal negative n 0 = ofRatio negative n 1 := by
  have length := length_toDigits_le fits
  rcases Nat.eq_zero_or_pos n with rfl | pos
  · rfl
  · unfold ofDecimal
    rw [if_neg (ne_of_gt pos)]
    simp only
    rw [if_neg (by omega), if_neg (by omega), if_pos (Int.le_refl 0)]
    apply congrArg (ofRatio negative · 1)
    exact mul_one n

lemma ofDecimal_eq_ofNat (fits : n < Word.size) : ofDecimal false n 0 = ofNat n :=
  ofDecimal_whole false fits

lemma toInt32_ofDecimal {z : Int} (fits : Word.isInt32 z) :
    (ofDecimal (z < 0) z.natAbs 0).toInt32 = z := by
  unfold Word.isInt32 at fits
  simp only [Bool.and_eq_true, decide_eq_true_eq] at fits
  have small : z.natAbs < Word.size := by
    unfold Word.size
    omega
  have few : z.natAbs < 2 * hidden := by
    unfold hidden
    omega
  have represented : z.natAbs = z.natAbs * 2 ^ 0 := (mul_one _).symm
  rw [ofDecimal_whole _ small]
  unfold toInt32
  rw [negative_ofRatio, truncate_ofRatio few represented small,
    truncate_ofRatio few represented small]
  split_ifs with sign
  · have := of_decide_eq_true sign
    omega
  · have := of_decide_eq_false (Bool.eq_false_iff.mpr sign)
    omega

lemma truncate_le (cap : Nat) (x : Double) : x.truncate cap ≤ cap := by
  unfold truncate
  split_ifs <;> omega

lemma isInt32_toInt32 (x : Double) : Word.isInt32 x.toInt32 = true := by
  have low := truncate_le 2147483648 x
  have high := truncate_le 2147483647 x
  unfold Word.isInt32 toInt32
  simp only [Bool.and_eq_true, decide_eq_true_eq]
  split_ifs <;> omega

lemma toWord_lt (x : Double) : x.toWord < Word.size := by
  have bound := truncate_le 18446744073709551615 x
  unfold toWord Word.size
  split_ifs <;> omega

lemma toWord_ofNat (few : significand < 2 * hidden) (represented : n = significand * 2 ^ places)
    (fits : n < Word.size) :
    (ofNat n).toWord = n := by
  have sign : (ofNat n).negative = false := negative_ofRatio false n 1
  unfold toWord
  rw [sign]
  have cut : (ofNat n).truncate 18446744073709551615 = min n 18446744073709551615 :=
    truncate_ofRatio few represented fits false _
  unfold Word.size at fits
  simp only [Bool.false_eq_true, if_false]
  omega

lemma toWord_ofNat_max : (ofNat 18446744073709551615).toWord = 18446744073709551615 := by
  decide +kernel

lemma toWord_ofNat_toWord (x : Double) : (ofNat x.toWord).toWord = x.toWord := by
  have fits := x.toWord_lt
  have zero : (ofNat 0).toWord = 0 :=
    toWord_ofNat (by decide : 0 < 2 * hidden) (zero_mul (2 ^ 0)).symm (by decide)
  by_cases full : x.toWord = 18446744073709551615
  · rw [full]
    exact toWord_ofNat_max
  have cut : x.toWord = 0 ∨ x.toWord = x.ratio.1 / x.ratio.2 := by
    unfold toWord truncate at full ⊢
    split_ifs at full ⊢ <;> omega
  rcases cut with none | value
  · rw [none]
    exact zero
  · have few := x.significand_lt
    rcases le_total x.scale 1075 with small | large
    · have whole : x.toWord ≤ x.significand := by
        rw [value]
        unfold ratio
        rw [Nat.sub_eq_zero_of_le small]
        simpa using Nat.div_le_self _ _
      have represented : x.toWord = x.toWord * 2 ^ 0 := (mul_one _).symm
      exact toWord_ofNat (whole.trans_lt few) represented fits
    · have whole : x.toWord = x.significand * 2 ^ (x.scale - 1075) := by
        rw [value]
        unfold ratio
        rw [Nat.sub_eq_zero_of_le large]
        simp
      exact toWord_ofNat few whole fits

end Double

end SyndromeSchedule
