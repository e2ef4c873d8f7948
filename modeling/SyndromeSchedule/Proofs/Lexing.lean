import Mathlib.Data.List.Basic
import SyndromeSchedule.Program.Grammar
import SyndromeSchedule.Program.Text

/-!
Reading what was written, token by token. Each kind of token is read back from its written form as
long as what follows cannot be taken for more of it.
-/

namespace SyndromeSchedule.Grammar

open List

variable {p : Char → Bool} {c : Char} {body rest text : List Char} {offset : Int} {q : Nat}
  {factors : List (Pauli × Nat)} {pairs : List (List Char × Double)} {n : Nat}
variable {bound : Nat} (negative : Bool)

/-- A text does not go on with a character of a class. -/
def Stops (p : Char → Bool) (rest : List Char) : Prop :=
  ∀ c ∈ rest.head?, p c = false

lemma stops_cons (h : p c = false) (rest : List Char) : Stops p (c :: rest) := by
  intro d first
  rw [head?_cons, Option.mem_some_iff] at first
  rwa [← first]

lemma takeWhile_of_stops (inside : ∀ c ∈ body, p c = true) (stops : Stops p rest) :
    (body ++ rest).takeWhile p = body := by
  rw [takeWhile_append_of_pos inside]
  cases rest with
  | nil => simp
  | cons c more => simp [stops c rfl]

lemma dropWhile_of_stops (inside : ∀ c ∈ body, p c = true) (stops : Stops p rest) :
    (body ++ rest).dropWhile p = rest := by
  rw [dropWhile_append_of_pos inside]
  cases rest with
  | nil => rfl
  | cons c more => simp [stops c rfl]

lemma skipSpaces_of_stops (stops : Stops isSpace rest) : skipSpaces rest = rest := by
  have inside : ∀ c ∈ ([] : List Char), isSpace c = true := fun _ none => nomatch none
  exact dropWhile_of_stops inside stops

lemma skipSpaces_replicate (n : Nat) (stops : Stops isSpace rest) :
    skipSpaces (List.replicate n ' ' ++ rest) = rest := by
  apply dropWhile_of_stops _ stops
  intro c blank
  rw [eq_of_mem_replicate blank]
  rfl

/-! Digits and counters. -/

lemma digits?_append (some_digit : body ≠ []) (inside : ∀ c ∈ body, c.isDigit = true)
    (stops : Stops Char.isDigit rest) :
    digits? (body ++ rest) = some (body, rest) := by
  unfold digits?
  rw [takeWhile_of_stops inside stops, dropWhile_of_stops inside stops]
  cases body with
  | nil => contradiction
  | cons d more => rfl

lemma isDigit_natChars (h : c ∈ natChars n) : c.isDigit = true :=
  Nat.isDigit_of_mem_toDigits (by decide) (by decide) h

lemma isDigit_zeros : ∀ c ∈ List.replicate n '0', c.isDigit = true := by
  intro c mem
  rw [eq_of_mem_replicate mem]
  rfl

lemma natChars_ne_nil (n : Nat) : natChars n ≠ [] := Nat.toDigits_ne_nil

lemma natChars_eq_cons (n : Nat) : ∃ c cs, natChars n = c :: cs ∧ c.isDigit = true := by
  cases written : natChars n with
  | nil => exact absurd written (natChars_ne_nil n)
  | cons c cs =>
    refine ⟨c, cs, rfl, isDigit_natChars (n := n) ?_⟩
    rw [written]
    exact .head _

lemma digits?_natChars (n : Nat) (stops : Stops Char.isDigit rest) :
    digits? (natChars n ++ rest) = some (natChars n, rest) :=
  digits?_append (natChars_ne_nil n) (fun _ => isDigit_natChars) stops

lemma ofDigitChars_natChars (n : Nat) : Nat.ofDigitChars 10 (natChars n) 0 = n :=
  Nat.ofDigitChars_toDigits (by decide) (by decide)

lemma counter?_natChars (fits : n < Word.size) (stops : Stops Char.isDigit rest) :
    counter? (natChars n ++ rest) = some (n, rest) := by
  unfold counter?
  rw [digits?_natChars n stops]
  simp [ofDigitChars_natChars, fits]

lemma ne_of_isDigit {d : Char} (h : c.isDigit = true) (other : d.isDigit = false) : c ≠ d := by
  rintro rfl
  rw [h] at other
  contradiction

/-! Targets. -/

lemma outcome?_recordChars (earlier : offset < 0) (fits : Word.isInt64 offset) (rest : List Char) :
    outcome? (Instruction.recordChars offset ++ rest) = some (offset, rest) := by
  have written : Instruction.recordChars offset ++ rest =
      'r' :: 'e' :: 'c' :: '[' :: '-' :: (natChars offset.natAbs ++ ']' :: rest) := by
    simp [Instruction.recordChars, intChars, earlier]
  have split := digits?_natChars offset.natAbs (stops_cons (rfl : ']'.isDigit = false) rest)
  have size : -(offset.natAbs : Int) = offset := by omega
  rw [written]
  unfold outcome?
  simp only [split, Option.bind_eq_bind, Option.bind_some, ofDigitChars_natChars, if_true]
  rw [size, if_pos fits]

lemma outcome?_eq_none (h : c ≠ 'r') : outcome? (c :: rest) = none := by
  unfold outcome?
  split
  · next same =>
      exact absurd (cons.inj same).1 h
  · rfl

lemma factor?_chars {letter : Pauli} (acts : letter ≠ .I) (fits : q < Word.size)
    (stops : Stops Char.isDigit rest) :
    factor? (letter.char :: (natChars q ++ rest)) = some ((letter, q), rest) := by
  cases letter with
  | I => contradiction
  | X | Y | Z => simp [Pauli.char, factor?, counter?_natChars fits stops]

lemma factor?_eq_none (h : c.isDigit = true) : factor? (c :: rest) = none := by
  unfold factor?
  split <;> first
    | rfl
    | (next same =>
      exact absurd (cons.inj same).1 (ne_of_isDigit h rfl))

def starred (factors : List (Pauli × Nat)) : List Char :=
  factors.flatMap fun f => '*' :: f.1.char :: natChars f.2

lemma productChars_cons (f : Pauli × Nat) (factors : List (Pauli × Nat)) :
    Target.productChars (f :: factors) = f.1.char :: natChars f.2 ++ starred factors := by
  induction factors generalizing f with
  | nil => simp [Target.productChars, starred]
  | cons next rest ih => simp [Target.productChars, ih, starred]

lemma stops_starred (factors : List (Pauli × Nat)) (stops : Stops Char.isDigit rest) :
    Stops Char.isDigit (starred factors ++ rest) := by
  cases factors with
  | nil => exact stops
  | cons f more => exact stops_cons rfl _

lemma moreFactors_starred (sound : ∀ f ∈ factors, f.1 ≠ .I ∧ f.2 < Word.size) {bound : Nat}
    (enough : factors.length ≤ bound) (apart : c ≠ '*') (stops : c.isDigit = false)
    (rest : List Char) :
    moreFactors bound (starred factors ++ c :: rest) = (factors, c :: rest) := by
  induction factors generalizing bound with
  | nil =>
    cases bound with
    | zero => rfl
    | succ bound => simp [starred, moreFactors, apart]
  | cons f more ih =>
    obtain ⟨acts, fits⟩ := sound f (.head _)
    have others := @ih fun g mem => sound g (mem_cons_of_mem f mem)
    cases bound with
    | zero => contradiction
    | succ bound =>
      have first := factor?_chars acts fits (stops_starred more (stops_cons stops (rest)))
      have text : starred (f :: more) ++ c :: rest =
          '*' :: f.1.char :: (natChars f.2 ++ (starred more ++ c :: rest)) := by
        simp [starred]
      rw [text, moreFactors, first]
      simp [others (Nat.le_of_succ_le_succ enough)]

lemma length_starred_le (factors : List (Pauli × Nat)) :
    factors.length ≤ (starred factors).length := by
  induction factors with
  | nil => exact Nat.le_refl 0
  | cons f more ih =>
    simp only [starred, flatMap_cons, length_append, length_cons] at ih ⊢
    omega

lemma target?_product {f : Pauli × Nat} (sound : ∀ g ∈ f :: factors, g.1 ≠ .I ∧ g.2 < Word.size)
    (apart : c ≠ '*') (stops : c.isDigit = false) :
    target? (Target.productChars (f :: factors) ++ c :: rest) =
      some (.product (f :: factors), c :: rest) := by
  obtain ⟨acts, fits⟩ := sound f (.head _)
  have first := factor?_chars acts fits (stops_starred factors (stops_cons stops (rest)))
  have others := moreFactors_starred (fun g mem => sound g (mem_cons_of_mem f mem))
    (Nat.le_trans (length_starred_le factors) (by simp : _ ≤ (starred factors ++ c :: rest).length))
    apart stops rest
  have plain : f.1.char ≠ 'r' := by cases f.1 <;> decide
  rw [productChars_cons]
  simp only [cons_append, append_assoc, target?, outcome?_eq_none plain, first, others]

lemma target?_qubit (fits : q < Word.size) (stops : Stops Char.isDigit rest) :
    target? (natChars q ++ rest) = some (.qubit q, rest) := by
  obtain ⟨c, cs, written, digit⟩ := natChars_eq_cons q
  have counted := counter?_natChars fits stops
  rw [written, cons_append] at counted ⊢
  simp [target?, outcome?_eq_none (ne_of_isDigit digit rfl), factor?_eq_none digit, counted]

lemma target?_record (earlier : offset < 0) (fits : Word.isInt64 offset) (rest : List Char) :
    target? (Instruction.recordChars offset ++ rest) = some (.outcome offset, rest) := by
  simp [target?, outcome?_recordChars earlier fits]

/-- A written target is read back before a blank or a line end. -/
structure Targets {α : Type} (chars : α → List Char) (raw : α → RawTarget) (t : α) : Prop where
  solid : ∃ c cs, chars t = c :: cs ∧ isSpace c = false
  reads : ∀ {c : Char} {rest : List Char}, c = ' ' ∨ c = '\n' →
    target? (chars t ++ c :: rest) = some (raw t, c :: rest)

lemma isSpace_of_isDigit (h : c.isDigit = true) : isSpace c = false := by
  have blank := ne_of_isDigit (d := ' ') h rfl
  have tab := ne_of_isDigit (d := '\t') h rfl
  simp [isSpace, blank, tab]

lemma targets_qubit (fits : q < Word.size) : Targets natChars .qubit q where
  solid := by
    obtain ⟨c, cs, written, digit⟩ := natChars_eq_cons q
    exact ⟨c, cs, written, isSpace_of_isDigit digit⟩
  reads := by
    rintro c rest (rfl | rfl)
    · exact target?_qubit fits (stops_cons rfl _)
    · exact target?_qubit fits (stops_cons rfl _)

lemma targets_record (earlier : offset < 0) (fits : Word.isInt64 offset) :
    Targets Instruction.recordChars .outcome offset where
  solid := ⟨'r', _, rfl, rfl⟩
  reads := fun _ => target?_record earlier fits _

def rawTarget : Target → RawTarget
  | .qubit q => .qubit q
  | .product factors => .product factors

lemma targets_product {f : Pauli × Nat} (sound : ∀ g ∈ f :: factors, g.1 ≠ .I ∧ g.2 < Word.size) :
    Targets Target.chars rawTarget (.product (f :: factors)) where
  solid := by
    refine ⟨f.1.char, natChars f.2 ++ starred factors, productChars_cons f factors, ?_⟩
    cases f.1 <;> rfl
  reads := by
    rintro c rest (rfl | rfl)
    · exact target?_product sound (by decide) rfl
    · exact target?_product sound (by decide) rfl

/-- Targets are read back from their words, up to the end of the line. -/
lemma targets_targetChars {α : Type} {chars : α → List Char} {raw : α → RawTarget}
    {ts : List α} (sound : ∀ t ∈ ts, Targets chars raw t) {bound : Nat}
    (enough : ts.length ≤ bound) (rest : List Char) :
    targets bound (Instruction.targetChars chars ts ++ '\n' :: rest) =
      (ts.map raw, '\n' :: rest) := by
  induction ts generalizing bound with
  | nil => cases bound <;> rfl
  | cons t more ih =>
    have others := @ih fun u mem => sound u (mem_cons_of_mem t mem)
    obtain ⟨⟨c, cs, written, solid⟩, reads⟩ := sound t (.head _)
    cases bound with
    | zero => contradiction
    | succ bound =>
      have text : Instruction.targetChars chars (t :: more) ++ '\n' :: rest =
          ' ' :: (chars t ++ (Instruction.targetChars chars more ++ '\n' :: rest)) := by
        simp [Instruction.targetChars]
      have first : target? (chars t ++ (Instruction.targetChars chars more ++ '\n' :: rest)) =
          some (raw t, Instruction.targetChars chars more ++ '\n' :: rest) := by
        cases more with
        | nil => exact reads (.inr rfl)
        | cons u rest => exact reads (.inl rfl)
      have blanks : skipSpaces (chars t ++ (Instruction.targetChars chars more ++ '\n' :: rest)) =
          chars t ++ (Instruction.targetChars chars more ++ '\n' :: rest) := by
        rw [written]
        exact skipSpaces_of_stops (stops_cons solid _)
      have apart : spaces? (' ' :: (chars t ++
          (Instruction.targetChars chars more ++ '\n' :: rest))) =
          some (chars t ++ (Instruction.targetChars chars more ++ '\n' :: rest)) := by
        simp [spaces?, isSpace, blanks]
      rw [text, targets, apart]
      simp [first, others (Nat.le_of_succ_le_succ enough)]

lemma length_targetChars_le {α : Type} (chars : α → List Char) (ts : List α) :
    ts.length ≤ (Instruction.targetChars chars ts).length := by
  induction ts with
  | nil => exact Nat.le_refl 0
  | cons t more ih =>
    simp only [Instruction.targetChars, flatMap_cons, length_append, length_cons] at ih ⊢
    omega

/-! Numbers and arguments. -/

/-- A text is read as a number before a comma or a parenthesis. -/
structure Numeral (text : List Char) (x : Double) : Prop where
  solid : ∃ c cs, text = c :: cs ∧ isSpace c = false
  reads : ∀ {c : Char} {rest : List Char}, c = ',' ∨ c = ')' →
    number (text ++ c :: rest) = .ok (some (x, c :: rest))

lemma sign_of_isDigit (h : c.isDigit = true) : sign (c :: rest) = (false, c :: rest) := by
  have plus := ne_of_isDigit (d := '+') h rfl
  have minus := ne_of_isDigit (d := '-') h rfl
  unfold sign
  split
  · next same =>
      exact absurd (cons.inj same).1 plus
  · next same =>
      exact absurd (cons.inj same).1 minus
  · rfl

/-- Written digits with their sign. -/
def signed (negative : Bool) (text : List Char) : List Char :=
  if negative then '-' :: text else text

lemma sign_signed (first : ∃ c cs, text = c :: cs ∧ c.isDigit = true) (rest : List Char) :
    sign (signed negative text ++ rest) = (negative, text ++ rest) := by
  obtain ⟨c, cs, rfl, digit⟩ := first
  cases negative with
  | true => rfl
  | false => exact sign_of_isDigit digit

lemma solid_signed (first : ∃ c cs, text = c :: cs ∧ c.isDigit = true) :
    ∃ c cs, signed negative text = c :: cs ∧ isSpace c = false := by
  obtain ⟨c, cs, rfl, digit⟩ := first
  cases negative with
  | true => exact ⟨'-', c :: cs, rfl, rfl⟩
  | false => exact ⟨c, cs, rfl, isSpace_of_isDigit digit⟩

lemma first_digit (some_digit : text ≠ []) (inside : ∀ c ∈ text, c.isDigit = true) :
    ∃ c cs, text = c :: cs ∧ c.isDigit = true := by
  cases text with
  | nil => contradiction
  | cons c cs => exact ⟨c, cs, rfl, inside c (.head _)⟩

lemma exponent_of_ne (small : c ≠ 'e') (large : c ≠ 'E') (start rest : List Char) :
    exponent start (c :: rest) = .ok (0, c :: rest) := by
  simp [exponent, small, large]

lemma numeral_whole {whole : List Char} (some_digit : whole ≠ [])
    (inside : ∀ c ∈ whole, c.isDigit = true) :
    Numeral (signed negative whole) (.ofDecimal negative (Nat.ofDigitChars 10 whole 0) 0) where
  solid := solid_signed negative (first_digit some_digit inside)
  reads := by
    intro c rest ends
    have start := sign_signed negative (first_digit some_digit inside) (c :: rest)
    have apart : c.isDigit = false ∧ c ≠ '.' ∧ c ≠ 'e' ∧ c ≠ 'E' := by
      rcases ends with rfl | rfl <;> decide
    have split := digits?_append some_digit inside (stops_cons apart.1 rest)
    have parts : mantissa? (whole ++ c :: rest) = some ((whole, []), c :: rest) := by
      simp [mantissa?, split, apart.2.1]
    simp only [number, start, parts, exponent_of_ne apart.2.2.1 apart.2.2.2]
    simp [bind, Except.bind, pure, Except.pure]

lemma numeral_fraction {whole fraction : List Char} (some_digit : whole ≠ [])
    (inside : ∀ c ∈ whole, c.isDigit = true) (after : ∀ c ∈ fraction, c.isDigit = true) :
    Numeral (signed negative (whole ++ '.' :: fraction))
      (.ofDecimal negative (Nat.ofDigitChars 10 (whole ++ fraction) 0) (-(fraction.length : Int)))
    where
  solid := by
    obtain ⟨c, cs, rfl, digit⟩ := first_digit some_digit inside
    exact solid_signed negative ⟨c, cs ++ '.' :: fraction, rfl, digit⟩
  reads := by
    intro c rest ends
    have first : ∃ d ds, whole ++ '.' :: fraction = d :: ds ∧ d.isDigit = true := by
      obtain ⟨d, ds, rfl, digit⟩ := first_digit some_digit inside
      exact ⟨d, ds ++ '.' :: fraction, rfl, digit⟩
    have start := sign_signed negative first (c :: rest)
    have apart : c.isDigit = false ∧ c ≠ 'e' ∧ c ≠ 'E' := by
      rcases ends with rfl | rfl <;> decide
    have stops : Stops Char.isDigit (c :: rest) := stops_cons apart.1 _
    have split := digits?_append some_digit inside
      (stops_cons (rfl : '.'.isDigit = false) (fraction ++ c :: rest))
    have parts : mantissa? (whole ++ '.' :: fraction ++ c :: rest) =
        some ((whole, fraction), c :: rest) := by
      simp [mantissa?, split, takeWhile_of_stops after stops, dropWhile_of_stops after stops]
    simp only [number, start, parts, exponent_of_ne apart.2.1 apart.2.2]
    simp [bind, Except.bind, pure, Except.pure]

lemma numeral_intChars (z : Int) : Numeral (intChars z) (.ofDecimal (z < 0) z.natAbs 0) := by
  have written : intChars z = signed (z < 0) (natChars z.natAbs) := by
    simp [intChars, signed]
  have whole := numeral_whole (z < 0) (natChars_ne_nil z.natAbs) fun _ => isDigit_natChars
  rw [ofDigitChars_natChars] at whole
  rwa [written]

lemma numeral_natChars (n : Nat) : Numeral (natChars n) (.ofDecimal false n 0) := by
  have whole := numeral_whole false (natChars_ne_nil n) fun _ => isDigit_natChars
  rwa [ofDigitChars_natChars] at whole

/-- Numbers after the first, each with its comma. -/
def listed (texts : List (List Char)) : List Char :=
  texts.flatMap fun text => ',' :: ' ' :: text

lemma commaJoin_cons (text : List Char) (texts : List (List Char)) :
    commaJoin (text :: texts) = text ++ listed texts := by
  induction texts generalizing text with
  | nil => simp [commaJoin, listed]
  | cons next rest ih => simp [commaJoin, ih, listed]

lemma Numeral.number_listed {text : List Char} {x : Double} (h : Numeral text x)
    (more : List (List Char)) (rest : List Char) :
    number (text ++ (listed more ++ ')' :: rest)) = .ok (some (x, listed more ++ ')' :: rest)) := by
  cases more with
  | nil => exact h.2 (.inr rfl)
  | cons next others => exact h.2 (.inl rfl)

lemma moreNumbers_listed
    (sound : ∀ e ∈ pairs, Numeral e.1 e.2) {bound : Nat} (enough : pairs.length ≤ bound)
    (rest : List Char) :
    moreNumbers bound (listed (pairs.map (·.1)) ++ ')' :: rest) =
      .ok (pairs.map (·.2), ')' :: rest) := by
  induction pairs generalizing bound with
  | nil =>
    cases bound with
    | zero | succ bound => rfl
  | cons e more ih =>
    have others := @ih fun u mem => sound u (mem_cons_of_mem e mem)
    have numeral := sound e (.head _)
    obtain ⟨c, cs, written, solid⟩ := numeral.1
    cases bound with
    | zero => contradiction
    | succ bound =>
      have text : listed ((e :: more).map (·.1)) ++ ')' :: rest =
          ',' :: ' ' :: (e.1 ++ (listed (more.map (·.1)) ++ ')' :: rest)) := by
        simp [listed]
      have after : comma? (',' :: ' ' :: (e.1 ++ (listed (more.map (·.1)) ++ ')' :: rest))) =
          some (e.1 ++ (listed (more.map (·.1)) ++ ')' :: rest)) := by
        have blank : skipSpaces (' ' :: (e.1 ++ (listed (more.map (·.1)) ++ ')' :: rest))) =
            e.1 ++ (listed (more.map (·.1)) ++ ')' :: rest) := by
          rw [written]
          exact skipSpaces_replicate 1 (stops_cons solid _)
        simp [comma?, skipSpaces_of_stops (stops_cons (rfl : isSpace ',' = false) _), blank]
      rw [text, moreNumbers, after]
      simp [bind, Except.bind, pure, Except.pure, numeral.number_listed,
        others (Nat.le_of_succ_le_succ enough)]

lemma length_listed_le (texts : List (List Char)) : texts.length ≤ (listed texts).length := by
  induction texts with
  | nil => exact Nat.le_refl 0
  | cons t more ih =>
    simp only [listed, flatMap_cons, length_append, length_cons] at ih ⊢
    omega

lemma arguments_argumentChars (sound : ∀ e ∈ pairs, Numeral e.1 e.2) (rest : List Char) :
    arguments (argumentChars (pairs.map (·.1)) ++ rest) = .ok (pairs.map (·.2), rest) := by
  cases pairs with
  | nil => rfl
  | cons e more =>
    have numeral := sound e (.head _)
    obtain ⟨c, cs, written, solid⟩ := numeral.1
    have others := moreNumbers_listed (fun u mem => sound u (mem_cons_of_mem e mem))
      (Nat.le_trans (by simpa using length_listed_le (more.map (·.1)))
        (by simp : _ ≤ (listed (more.map (·.1)) ++ ')' :: rest).length)) rest
    have text : argumentChars ((e :: more).map (·.1)) ++ rest =
        '(' :: (e.1 ++ (listed (more.map (·.1)) ++ ')' :: rest)) := by
      simp [argumentChars, commaJoin_cons]
    have blanks : skipSpaces (e.1 ++ (listed (more.map (·.1)) ++ ')' :: rest)) =
        e.1 ++ (listed (more.map (·.1)) ++ ')' :: rest) := by
      rw [written]
      exact skipSpaces_of_stops (stops_cons solid _)
    have close : skipSpaces (')' :: rest) = ')' :: rest := skipSpaces_of_stops (stops_cons rfl _)
    rw [text]
    simp only [arguments, blanks, numbers, bind, Except.bind, pure, Except.pure,
      numeral.number_listed, others, close]
    rfl

lemma arguments_of_ne (h : c ≠ '(') (rest : List Char) :
    arguments (c :: rest) = .ok ([], c :: rest) := by
  unfold arguments
  split
  · next same =>
      exact absurd (cons.inj same).1 h
  · rfl

end SyndromeSchedule.Grammar
