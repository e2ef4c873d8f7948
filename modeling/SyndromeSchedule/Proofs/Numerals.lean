import SyndromeSchedule.Json.Number
import SyndromeSchedule.Json.Reader
import SyndromeSchedule.Json.Writer
import SyndromeSchedule.Proofs.Rounding

/-!
Numbers in the text of documents. A numeral is read back digit by digit as long as no zero stands in
front of other digits, which holds of everything that is written for integers and doubles. Integers
that fit a word are read back as they are; whatever is read as a double is finite.
-/

namespace SyndromeSchedule

open List

open Grammar (Stops stops_cons takeWhile_of_stops dropWhile_of_stops ne_of_isDigit first_digit
  isDigit_zeros)

def areDigits (text : List Char) : Bool := !text.isEmpty && text.all Char.isDigit

lemma areDigits_iff {text : List Char} :
    areDigits text = true ↔ text ≠ [] ∧ ∀ c ∈ text, c.isDigit = true := by
  simp [areDigits]

/-- Whether a numeral has digits wherever there have to be some, and no zero in front of others. -/
def Numeral.isPlain (n : Numeral) : Bool :=
  areDigits n.whole && (n.whole.head? ≠ some '0' || n.whole.length = 1) &&
    n.fraction.all areDigits && n.exponent.all fun e => areDigits e.2

lemma Numeral.isPlain_iff {n : Numeral} : n.isPlain = true ↔
    areDigits n.whole = true ∧ (n.whole.head? ≠ some '0' ∨ n.whole.length = 1) ∧
      n.fraction.all areDigits = true ∧ n.exponent.all (fun e => areDigits e.2) = true := by
  simp only [isPlain, Bool.and_eq_true, Bool.or_eq_true, decide_eq_true_eq, and_assoc]

def continuesNumber (c : Char) : Bool := c.isDigit || c = '.' || c = 'e' || c = 'E'

lemma Grammar.Stops.imp {p q : Char → Bool} {rest : List Char} (stops : Stops p rest)
    (implies : ∀ c, p c = false → q c = false) : Stops q rest :=
  fun c first => implies c (stops c first)

namespace Json

variable {rest : List Char} {n : Numeral}

/-! Reading a numeral. -/

lemma digits?_append {body : List Char} (digits : areDigits body = true)
    (stops : Stops Char.isDigit rest) : digits? (body ++ rest) = some (body, rest) := by
  obtain ⟨some_digit, inside⟩ := areDigits_iff.mp digits
  unfold digits?
  rw [takeWhile_of_stops inside stops, dropWhile_of_stops inside stops]
  cases body with
  | nil => contradiction
  | cons d more => rfl

lemma whole?_append {body : List Char} (digits : areDigits body = true)
    (leading : body.head? ≠ some '0' ∨ body.length = 1) (stops : Stops Char.isDigit rest) :
    whole? (body ++ rest) = some (body, rest) := by
  unfold whole?
  rw [digits?_append digits stops]
  split
  · next same =>
      -- A zero in front of another digit is excluded.
      obtain ⟨rfl, _⟩ := Prod.mk.inj (Option.some.inj same)
      simp at leading
  · rfl

def fractionText : Option (List Char) → List Char
  | none => []
  | some digits => '.' :: digits

def exponentText : Option (ExponentSign × List Char) → List Char
  | none => []
  | some (.absent, digits) => 'e' :: digits
  | some (.plus, digits) => 'e' :: '+' :: digits
  | some (.minus, digits) => 'e' :: '-' :: digits

lemma exponentTail?_digits {digits : List Char} (plain : areDigits digits = true)
    (stops : Stops Char.isDigit rest) :
    exponentTail? (digits ++ rest) = some ((.absent, digits), rest) := by
  have split_off := digits?_append plain stops
  obtain ⟨some_digit, inside⟩ := areDigits_iff.mp plain
  obtain ⟨d, more, rfl, digit⟩ := first_digit some_digit inside
  rw [cons_append] at split_off ⊢
  unfold exponentTail?
  split
  iterate 2 next same => exact absurd (cons.inj same).1 (ne_of_isDigit digit rfl)
  · rw [split_off]
    rfl

lemma exponent?_text {e : Option (ExponentSign × List Char)}
    (plain : e.all (fun e => areDigits e.2) = true) (stops : Stops continuesNumber rest) :
    exponent? (exponentText e ++ rest) = some (e, rest) := by
  have no_digit : Stops Char.isDigit rest := stops.imp fun c h => by
    simp only [continuesNumber, Bool.or_eq_false_iff] at h
    exact h.1.1.1
  match e with
  | none =>
    unfold exponentText exponent?
    rw [nil_append]
    split
    · exact absurd (stops 'e' rfl) (by decide)
    · exact absurd (stops 'E' rfl) (by decide)
    · rfl
  | some (.absent, digits) => simp [exponentText, exponent?, exponentTail?_digits plain no_digit]
  | some (.plus, digits) | some (.minus, digits) =>
    simp [exponentText, exponent?, exponentTail?, digits?_append plain no_digit]

lemma stops_exponentText (e : Option (ExponentSign × List Char))
    (stops : Stops continuesNumber rest) :
    Stops (fun c => c.isDigit || c = '.') (exponentText e ++ rest) := by
  match e with
  | none =>
    refine stops.imp fun c h => ?_
    simp only [continuesNumber, Bool.or_eq_false_iff] at h ⊢
    exact h.1.1
  | some (.absent, _) | some (.plus, _) | some (.minus, _) => exact stops_cons rfl _

lemma fraction?_text {f : Option (List Char)} (plain : f.all areDigits = true)
    (stops : Stops (fun c => c.isDigit || c = '.') rest) :
    fraction? (fractionText f ++ rest) = some (f, rest) := by
  have no_digit : Stops Char.isDigit rest := stops.imp fun c h => (Bool.or_eq_false_iff.mp h).1
  cases f with
  | none =>
    unfold fractionText fraction?
    rw [nil_append]
    split
    · exact absurd (stops '.' rfl) (by decide)
    · rfl
  | some digits => simp [fractionText, fraction?, digits?_append plain no_digit]

lemma stops_fractionText (f : Option (List Char)) (stops : Stops Char.isDigit rest) :
    Stops Char.isDigit (fractionText f ++ rest) := by
  cases f with
  | none => exact stops
  | some digits => exact stops_cons rfl _

lemma text_eq (n : Numeral) : n.text = (if n.negative then ['-'] else []) ++
      (n.whole ++ (fractionText n.fraction ++ exponentText n.exponent)) := by
  obtain ⟨negative, whole, fraction, exponent⟩ := n
  rcases exponent with _ | ⟨_ | _ | _, _⟩ <;> cases fraction <;>
    simp [Numeral.text, fractionText, exponentText]

variable (plain : n.isPlain = true)
include plain

lemma unsigned?_text (stops : Stops continuesNumber rest) :
    unsigned? n.negative
        (n.whole ++ (fractionText n.fraction ++ (exponentText n.exponent ++ rest))) =
      some (n, rest) := by
  obtain ⟨digits, leading, fraction, exponent⟩ := Numeral.isPlain_iff.mp plain
  have after_fraction := stops_exponentText n.exponent stops
  have after_whole := stops_fractionText n.fraction
    (after_fraction.imp fun c h => (Bool.or_eq_false_iff.mp h).1)
  simp only [unsigned?, whole?_append digits leading after_whole,
    fraction?_text fraction after_fraction, exponent?_text exponent stops, Option.bind_eq_bind,
    Option.bind_some]
  rfl

lemma whole_eq_cons : ∃ c cs, n.whole = c :: cs ∧ c.isDigit = true := by
  obtain ⟨some_digit, inside⟩ := areDigits_iff.mp (Numeral.isPlain_iff.mp plain).1
  exact first_digit some_digit inside

lemma text_eq_cons : ∃ c cs, n.text = c :: cs ∧ (c = '-' ∨ c.isDigit = true) := by
  obtain ⟨d, more, whole, digit⟩ := whole_eq_cons plain
  rw [text_eq, whole]
  cases n.negative with
  | true => exact ⟨'-', _, rfl, .inl rfl⟩
  | false => exact ⟨d, _, rfl, .inr digit⟩

lemma numeral?_text (stops : Stops continuesNumber rest) :
    numeral? (n.text ++ rest) = some (n, rest) := by
  have body := unsigned?_text plain stops
  obtain ⟨d, more, whole, digit⟩ := whole_eq_cons plain
  simp only [text_eq, append_assoc]
  cases sign : n.negative with
  | true =>
    rwa [sign] at body
  | false =>
    rw [sign] at body
    simp only [Bool.false_eq_true, if_false, nil_append]
    rw [whole, cons_append] at body ⊢
    unfold numeral?
    split
    · next same => exact absurd (cons.inj same).1 (ne_of_isDigit digit rfl)
    · exact body

end Json

/-! What is written. -/

namespace Numeral

variable {n : Nat} {digits : List Char}

lemma areDigits_toDigits (n : Nat) : areDigits (Nat.toDigits 10 n) = true :=
  areDigits_iff.mpr ⟨Nat.toDigits_ne_nil, fun _ =>
    Nat.isDigit_of_mem_toDigits (by decide) (by decide)⟩

lemma head_toDigits (pos : 0 < n) : (Nat.toDigits 10 n).head? ≠ some '0' := by
  induction n using Nat.strongRecOn with
  | ind n ih =>
    by_cases small : n < 10
    · rw [Nat.toDigits_of_lt_base small]
      interval_cases n <;> decide
    · rw [Nat.toDigits_of_base_le (by decide) (by omega), head?_append_of_ne_nil]
      · exact ih (n / 10) (by omega) (by omega)
      · exact Nat.toDigits_ne_nil

lemma leading_toDigits (n : Nat) :
    (Nat.toDigits 10 n).head? ≠ some '0' ∨ (Nat.toDigits 10 n).length = 1 := by
  rcases Nat.eq_zero_or_pos n with rfl | pos
  · exact .inr rfl
  · exact .inl (head_toDigits pos)

lemma isPlain_ofInt (z : Int) : (ofInt z).isPlain = true :=
  isPlain_iff.mpr ⟨areDigits_toDigits _, leading_toDigits _, rfl, rfl⟩

lemma areDigits_append {more : List Char} (first : areDigits digits = true)
    (rest : ∀ c ∈ more, c.isDigit = true) : areDigits (digits ++ more) = true := by
  obtain ⟨some_digit, inside⟩ := areDigits_iff.mp first
  refine areDigits_iff.mpr ⟨by simp [some_digit], fun c mem => ?_⟩
  rcases mem_append.mp mem with old | new
  · exact inside c old
  · exact rest c new

lemma areDigits_of_subset {part : List Char} (all : areDigits digits = true) (left : part ≠ [])
    (subset : part ⊆ digits) : areDigits part = true :=
  areDigits_iff.mpr ⟨left, fun c mem => (areDigits_iff.mp all).2 c (subset mem)⟩

lemma head_take (pos : 0 < n) (leading : digits.head? ≠ some '0') :
    (digits.take n).head? ≠ some '0' := by
  rwa [head?_take, if_neg (by omega)]

lemma isPlain_fixed (negative : Bool) {d : Decimal} (pos : 0 < d.digits) :
    (fixed negative d).isPlain = true := by
  have digits := areDigits_toDigits d.digits
  have leading := head_toDigits pos
  have some_digit := (areDigits_iff.mp digits).1
  unfold fixed
  simp only
  split_ifs with whole inside
  · refine isPlain_iff.mpr ⟨areDigits_append digits isDigit_zeros, .inl ?_, rfl, rfl⟩
    rwa [head?_append_of_ne_nil _ some_digit]
  · have before : areDigits ((Nat.toDigits 10 d.digits).take
        ((Nat.toDigits 10 d.digits).length - (-d.exponent).toNat)) = true := by
      apply areDigits_of_subset digits _ (take_subset _ _)
      rw [← length_pos_iff, length_take]
      omega
    have after : areDigits ((Nat.toDigits 10 d.digits).drop
        ((Nat.toDigits 10 d.digits).length - (-d.exponent).toNat)) = true := by
      apply areDigits_of_subset digits _ (drop_subset _ _)
      rw [← length_pos_iff, length_drop]
      omega
    exact isPlain_iff.mpr ⟨before, .inl (head_take (by omega) leading), after, rfl⟩
  · have after : areDigits (replicate
        ((-d.exponent).toNat - (Nat.toDigits 10 d.digits).length) '0' ++
          Nat.toDigits 10 d.digits) = true := by
      refine areDigits_iff.mpr ⟨by simp [some_digit], fun c mem => ?_⟩
      rcases mem_append.mp mem with zero | digit
      · exact isDigit_zeros c zero
      · exact (areDigits_iff.mp digits).2 c digit
    exact isPlain_iff.mpr ⟨rfl, .inr rfl, after, rfl⟩

lemma isPlain_scientific (negative : Bool) {d : Decimal} (pos : 0 < d.digits)
    (power : Int) : (scientific negative d power).isPlain = true := by
  have digits := areDigits_toDigits d.digits
  have some_digit := (areDigits_iff.mp digits).1
  have before : areDigits ((Nat.toDigits 10 d.digits).take 1) = true := by
    apply areDigits_of_subset digits _ (take_subset _ _)
    rw [← length_pos_iff, length_take]
    have := length_pos_iff.mpr some_digit
    omega
  have after : (if ((Nat.toDigits 10 d.digits).drop 1).isEmpty then none
      else some ((Nat.toDigits 10 d.digits).drop 1)).all areDigits = true := by
    split_ifs with none_left
    · rfl
    · rw [Option.all_some]
      apply areDigits_of_subset digits _ (drop_subset _ _)
      simpa using none_left
  exact isPlain_iff.mpr ⟨before, .inl (head_take (by decide) (head_toDigits pos)), after,
    areDigits_toDigits _⟩

lemma shortest_pos {x : Double} (finite : x.isFinite = true) (nonzero : x.isZero = false)
    (tie : Tie) : 0 < (x.shortest tie).digits := by
  have above := (Double.within_bounds finite nonzero (Double.within_shortest finite nonzero tie)).2
  by_contra none_left
  rw [Nat.eq_zero_of_not_pos none_left, Nat.cast_zero, zero_mul] at above
  exact absurd above (not_lt_of_gt (by positivity))

lemma isPlain_ofDouble {x : Double} (finite : x.isFinite = true) :
    (ofDouble x).isPlain = true := by
  unfold ofDouble
  cases zero : x.isZero with
  | true => exact isPlain_iff.mpr ⟨rfl, .inr rfl, rfl, rfl⟩
  | false =>
    have pos := shortest_pos finite zero .even
    simp only [Bool.false_eq_true, if_false]
    split_ifs
    · exact isPlain_fixed _ pos
    · exact isPlain_scientific _ pos _

lemma toInt?_ofInt {z : Int} (low : -(Word.half : Int) ≤ z) (high : z < Word.size) :
    (ofInt z).toInt? = some z := by
  have value : (ofInt z).wholeValue = z.natAbs := Nat.ofDigitChars_toDigits (by decide) (by decide)
  have same : (ofInt z).negative = decide (z < 0) := rfl
  simp only [toInt?, value, same]
  simp only [ofInt, decide_eq_true_eq]
  split_ifs with below nonzero fits
  · exact congrArg some (by omega)
  · simp only [ne_eq, Bool.and_eq_true, decide_eq_true_eq, not_and] at nonzero
    have := nonzero (by simp; omega)
    omega
  · exact congrArg some (by omega)
  · omega

end Numeral

/-! Doubles that are read. -/

namespace Double

lemma roundDiv_le (num den : Nat) : roundDiv num den ≤ num / den + 1 := by
  unfold roundDiv
  simp only
  split_ifs <;> omega

/-- A ratio below a power of two is rounded to a finite double, not much larger. -/
theorem ofRatio_below (negative : Bool) {num den n : Nat} (den_pos : 0 < den)
    (small : num < den * 2 ^ n) (room : n ≤ 900) :
    (ofRatio negative num den).isFinite = true ∧
      (ofRatio negative num den).ratio.1 < (ofRatio negative num den).ratio.2 * 2 ^ (n + 2) := by
  have bound : (ofRatio negative num den).magnitude.val ≤ (n + 1024) * hidden := by
    rcases Nat.eq_zero_or_pos num with rfl | pos
    · exact Nat.zero_le _
    rw [ofRatio, if_neg (ne_of_gt pos)]
    refine (min_le_left _ _).trans ?_
    obtain ⟨below, reached⟩ := scaleOf_spec pos den_pos
    have cast : (num : ℚ) / den < 2 ^ (n : ℤ) := by
      rw [div_lt_iff₀ (by exact_mod_cast den_pos), zpow_natCast, mul_comm]
      exact_mod_cast small
    have scale : scaleOf num den ≤ n + 1023 := by
      rcases reached with least | reached
      · omega
      · by_contra large
        have far : (2 : ℚ) ^ (n : ℤ) ≤ 2 ^ 52 * unit (scaleOf num den) := by
          rw [two_pow_mul_unit]
          exact zpow_le_zpow_right₀ (by norm_num) (by omega)
        linarith
    have significand : roundDiv (num * Nat.pow 2 (1075 - scaleOf num den))
        (den * Nat.pow 2 (scaleOf num den - 1075)) ≤ 2 * hidden := by
      refine (roundDiv_le _ _).trans ?_
      have den_pos' : 0 < den * Nat.pow 2 (scaleOf num den - 1075) :=
        mul_pos den_pos (Nat.pow_pos (by decide))
      have ratio := scaled_ratio num den (scaleOf num den)
      have less : (num : ℚ) / den / unit (scaleOf num den) < (2 * hidden : Nat) := by
        rw [div_lt_iff₀ (unit_pos _)]
        push_cast
        rw [hidden_eq]
        linarith
      rw [← ratio, div_lt_iff₀ (by exact_mod_cast den_pos')] at less
      have natural : num * Nat.pow 2 (1075 - scaleOf num den) <
          2 * hidden * (den * Nat.pow 2 (scaleOf num den - 1075)) := by exact_mod_cast less
      exact (Nat.div_lt_iff_lt_mul den_pos').mpr natural
    have product : (scaleOf num den - 1) * hidden ≤ (n + 1022) * hidden :=
      Nat.mul_le_mul_right _ (by omega)
    have split : (n + 1024) * hidden = (n + 1022) * hidden + 2 * hidden := by ring
    omega
  generalize ofRatio negative num den = x at bound ⊢
  have scale : x.scale ≤ n + 1024 := by
    unfold Double.scale
    have := Nat.div_le_of_le_mul (by rw [mul_comm]; exact bound :
      x.magnitude.val ≤ hidden * (n + 1024))
    omega
  constructor
  · refine decide_eq_true (bound.trans_lt ?_)
    unfold infinite
    exact Nat.mul_lt_mul_of_pos_right (by omega) (by decide)
  · have few : x.significand < 2 ^ 53 := x.significand_lt
    unfold ratio
    simp only [Nat.pow_eq]
    calc x.significand * 2 ^ (x.scale - 1075) < 2 ^ 53 * 2 ^ (x.scale - 1075) :=
          Nat.mul_lt_mul_of_pos_right few (by positivity)
      _ = 2 ^ (53 + (x.scale - 1075)) := (pow_add ..).symm
      _ ≤ 2 ^ (1075 - x.scale + (n + 2)) := Nat.pow_le_pow_right (by decide) (by omega)
      _ = 2 ^ (1075 - x.scale) * 2 ^ (n + 2) := pow_add ..

lemma isFinite_of_isZero {x : Double} (zero : x.isZero = true) : x.isFinite = true := by
  have least : x.magnitude.val = 0 := of_decide_eq_true zero
  exact decide_eq_true (by rw [least]; decide)

end Double

namespace Numeral

open Double

variable {x : Double}

lemma one_le_ofNat_pow : ∀ e < 309, 0 < (Double.ofNat (Nat.pow 10 e)).ratio.2 ∧
      (Double.ofNat (Nat.pow 10 e)).ratio.2 ≤ (Double.ofNat (Nat.pow 10 e)).ratio.1 := by
  decide +kernel

lemma divPositive_below {n e : Nat} (small : x.ratio.1 < x.ratio.2 * 2 ^ n) (room : n ≤ 900)
    (inside : e ≤ 308) :
    (x.divPositive (.ofNat (Nat.pow 10 e))).isFinite = true ∧
      (x.divPositive (.ofNat (Nat.pow 10 e))).ratio.1 <
        (x.divPositive (.ofNat (Nat.pow 10 e))).ratio.2 * 2 ^ (n + 2) := by
  obtain ⟨den_pos, large⟩ := one_le_ofNat_pow e (by omega)
  have pos : 0 < x.ratio.2 := Nat.pow_pos (by decide)
  refine Double.ofRatio_below false (mul_pos pos (den_pos.trans_le large)) ?_ room
  calc x.ratio.1 * (Double.ofNat (Nat.pow 10 e)).ratio.2 <
        x.ratio.2 * 2 ^ n * (Double.ofNat (Nat.pow 10 e)).ratio.2 :=
        Nat.mul_lt_mul_of_pos_right small den_pos
    _ ≤ x.ratio.2 * 2 ^ n * (Double.ofNat (Nat.pow 10 e)).ratio.1 := Nat.mul_le_mul_left _ large
    _ = x.ratio.2 * (Double.ofNat (Nat.pow 10 e)).ratio.1 * 2 ^ n := by ring

lemma isFinite_scaleDown {steps : Nat} {n : Nat} (exponent : Nat)
    (small : x.ratio.1 < x.ratio.2 * 2 ^ n) (room : n + 2 * steps ≤ 900) :
    (scaleDown steps x exponent).isFinite = true := by
  induction steps generalizing x n exponent with
  | zero => exact Double.isFinite_of_isZero rfl
  | succ steps ih =>
    have later : ∀ e ≤ 308, ∀ k,
        (scaleDown steps (x.divPositive (.ofNat (Nat.pow 10 e))) k).isFinite = true :=
      fun e inside k => ih k (divPositive_below small (by omega) inside).2 (by omega)
    unfold scaleDown
    split_ifs with zero near
    · exact Double.isFinite_of_isZero zero
    · exact (divPositive_below small (by omega) near).1
    · exact later 308 le_rfl _

lemma absorb_lt {significand : Nat} (fits : significand < Word.size) (digits : List Char) :
    (absorb significand digits).1 < Word.size := by
  induction digits generalizing significand with
  | nil => exact fits
  | cons c rest ih =>
    unfold absorb
    simp only
    split_ifs with more
    · exact ih more
    · exact fits

lemma isFinite_scale? {significand : Nat} (fits : significand < Word.size) {exponent : Int}
    (read : scale? significand exponent = some x) : x.isFinite = true := by
  have below := (Double.ofRatio_below false one_pos
    (by rw [one_mul]; exact fits : significand < 1 * 2 ^ 64) (by decide)).2
  unfold scale? at read
  simp only at read
  split_ifs at read with zero far whole finite
  · rw [← Option.some.inj read]
    exact Double.isFinite_of_isZero zero
  · rw [← Option.some.inj read]
    exact finite
  · rw [← Option.some.inj read]
    exact isFinite_scaleDown _ below (by decide)

lemma isFinite_of_toDouble? {n : Numeral} (read : n.toDouble? = some x) : x.isFinite = true := by
  obtain ⟨y, size, rfl⟩ := Option.map_eq_some_iff.mp read
  have finite : y.isFinite = true := by
    unfold magnitude? at size
    simp only at size
    have fits := absorb_lt (absorb_lt (by decide : 0 < Word.size) n.whole) (n.fraction.getD [])
    split at size
    · exact isFinite_scale? fits size
    · split_ifs at size
      · rw [← Option.some.inj size]
        decide
      · exact isFinite_scale? fits size
      · exact isFinite_scale? fits size
  split_ifs <;> exact finite

end Numeral

end SyndromeSchedule
