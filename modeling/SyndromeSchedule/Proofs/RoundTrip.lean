import SyndromeSchedule.Proofs.Outcome
import SyndromeSchedule.Proofs.Rounding

/-!
Programs and their texts. A program is well formed if its instructions carry what their names ask
for and its numbers fit their words. Texts are read as well-formed programs, and a well-formed
program is read back from its text.
-/

namespace SyndromeSchedule

open List

/-! Well-formed programs. -/

/-- Whether a letter of a product acts on a qubit that has a number. -/
def Target.isFactor (f : Pauli × Nat) : Bool :=
  f.1 ≠ .I && f.2 < Word.size

/-- Whether a gate measures targets of this kind. -/
def Target.isFor (g : Gate) : Target → Bool
  | qubit q => g ≠ .MPP && q < Word.size
  | product factors => g = .MPP && !factors.isEmpty && factors.all isFactor

namespace Instruction

/-- Whether an offset counts back from the latest outcome. -/
def isOffset (offset : Int) : Bool := offset < 0 && Word.isInt64 offset

mutual
/-- Whether an instruction carries what its name asks for. -/
def isWellFormed : Instruction → Bool
  | coords q values => q < Word.size && values.all Word.isInt32
  | gate g targets => !g.isMeasurement && targets.all (· < Word.size)
  | noise c parameters targets =>
    parameters.length = c.parameterCount && parameters.all Double.isFinite &&
      targets.all (· < Word.size)
  | measure g flip targets =>
    g.isMeasurement && flip.all Double.isFinite && targets.all (Target.isFor g)
  | detector offsets => offsets.all isOffset
  | observable index offsets => (Double.ofNat index).toWord = index && offsets.all isOffset
  | tick => true
  | loop count body => count < Word.size && areWellFormed body
termination_by structural i => i

def areWellFormed : List Instruction → Bool
  | [] => true
  | i :: rest => isWellFormed i && areWellFormed rest
termination_by structural is => is
end

mutual
/-- Whether the parameters of noise and the flips of measurements are finite. -/
def isFinite : Instruction → Bool
  | noise _ parameters _ => parameters.all Double.isFinite
  | measure _ flip _ => flip.all Double.isFinite
  | loop _ body => areFinite body
  | coords _ _ => true
  | gate _ _ => true
  | detector _ => true
  | observable _ _ => true
  | tick => true
termination_by structural i => i

def areFinite : List Instruction → Bool
  | [] => true
  | i :: rest => isFinite i && areFinite rest
termination_by structural is => is
end

end Instruction

/-- Whether all instructions are well formed, at every depth. -/
def Program.isWellFormed (p : Program) : Bool := Instruction.areWellFormed p.instructions

/-- Whether the parameters of noise and the flips are finite, at every depth. -/
def Program.isFinite (p : Program) : Bool := Instruction.areFinite p.instructions

namespace Grammar

open Instruction Outcome

variable {name : String} {rest text : List Char} {xs : List Double} {ts : List RawTarget}
  {i : Instruction} {α β : Type} {offsets : List Int} {g : Gate} {bound count : Nat}
  {is : List Instruction} {parameters : List Double}
variable {indent : Nat} {more : List Char} (c : Channel)

/-! Writing, then reading. -/

/-- A word that is read as the name of an instruction. -/
def isName (name : String) : Bool :=
  match name.toList with
  | [] => false
  | c :: cs => c.isAlpha && cs.all isNameChar

lemma name?_append (named : isName name) (stops : Stops isNameChar rest) :
    name? (name.toList ++ rest) = some (name.toList, rest) := by
  unfold isName at named
  split at named
  · contradiction
  · next c cs written =>
      rw [Bool.and_eq_true, all_eq_true] at named
      simp [written, name?, named.1, takeWhile_of_stops named.2 stops,
        dropWhile_of_stops named.2 stops]

lemma instruction_line (named : isName name) (given : List Char) {body : List Char}
    (stops : Stops isNameChar (given ++ body)) (reads : arguments (given ++ body) = .ok (xs, body))
    (meets : targets body.length body = (ts, rest)) (means : meaning? name xs ts = some i) :
    instruction (name.toList ++ (given ++ body)) = .ok (i, rest) := by
  unfold instruction
  simp only [name?_append named stops, reads, bind, Except.bind, meets, String.ofList_toList,
    means, pure, Except.pure]

lemma mapM_map_eq_some {f : β → Option α} {raw : α → β} {items : List α}
    (h : ∀ a ∈ items, f (raw a) = some a) : (items.map raw).mapM f = some items := by
  induction items with
  | nil => rfl
  | cons a rest ih =>
    have others := ih fun b mem => h b (mem_cons_of_mem a mem)
    simp [mapM_cons, h a mem_cons_self, others]

lemma offsets?_map (sound : offsets.all isOffset) :
    offsets? (offsets.map .outcome) = some offsets := by
  apply mapM_map_eq_some
  intro offset mem
  have here := all_eq_true.mp sound offset mem
  simp only [isOffset, Bool.and_eq_true, decide_eq_true_eq] at here
  exact if_pos here.1

lemma qubits?_map (qubits : List Nat) : qubits? (qubits.map .qubit) = some qubits :=
  mapM_map_eq_some fun _ _ => rfl

lemma measured?_map {ts : List Target} (sound : ts.all (Target.isFor g)) :
    measured? g (ts.map rawTarget) = some ts := by
  apply mapM_map_eq_some
  intro t mem
  have here := all_eq_true.mp sound t mem
  cases t with
  | qubit q =>
    simp only [Target.isFor, Bool.and_eq_true, decide_eq_true_eq] at here
    exact if_neg here.1
  | product factors =>
    simp only [Target.isFor, Bool.and_eq_true, decide_eq_true_eq] at here
    exact if_pos here.1.1

lemma targets_records (sound : offsets.all isOffset) :
    ∀ offset ∈ offsets, Targets recordChars .outcome offset := by
  intro offset mem
  have here := all_eq_true.mp sound offset mem
  simp only [isOffset, Bool.and_eq_true, decide_eq_true_eq] at here
  exact targets_record here.1 here.2

lemma targets_qubits {qubits : List Nat} (sound : qubits.all (· < Word.size)) :
    ∀ q ∈ qubits, Targets natChars .qubit q := by
  intro q mem
  have here := all_eq_true.mp sound q mem
  exact targets_qubit (of_decide_eq_true here)

lemma targets_measured {ts : List Target} (sound : ts.all (Target.isFor g)) :
    ∀ t ∈ ts, Targets Target.chars rawTarget t := by
  intro t mem
  have here := all_eq_true.mp sound t mem
  cases t with
  | qubit q =>
    simp only [Target.isFor, Bool.and_eq_true, decide_eq_true_eq] at here
    have plain := targets_qubit here.2
    exact ⟨plain.solid, plain.reads⟩
  | product factors =>
    simp only [Target.isFor, Bool.and_eq_true, Bool.not_eq_true', isEmpty_eq_false_iff,
      all_eq_true] at here
    cases factors with
    | nil => exact absurd rfl here.1.2
    | cons f rest =>
      apply targets_product
      intro f mem
      have factor := here.2 f mem
      simpa [Target.isFactor] using factor

lemma instruction_written {chars : α → List Char} {raw : α → RawTarget} (named : isName name)
    {pairs : List (List Char × Double)} (numbers : ∀ e ∈ pairs, Numeral e.1 e.2) {ts : List α}
    (sound : ∀ t ∈ ts, Targets chars raw t)
    (means : meaning? name (pairs.map (·.2)) (ts.map raw) = some i) (rest : List Char) :
    instruction (name.toList ++ (argumentChars (pairs.map (·.1)) ++
      (targetChars chars ts ++ '\n' :: rest))) = .ok (i, '\n' :: rest) := by
  apply instruction_line named _ _ (arguments_argumentChars numbers _) _ means
  · exact stops_cons rfl _
  · apply targets_targetChars sound
    have length := length_targetChars_le chars ts
    simp only [length_append]
    omega

lemma instruction_bare {chars : α → List Char} {raw : α → RawTarget} (named : isName name)
    {ts : List α} (sound : ∀ t ∈ ts, Targets chars raw t)
    (means : meaning? name [] (ts.map raw) = some i) (rest : List Char) :
    instruction (name.toList ++ (targetChars chars ts ++ '\n' :: rest)) =
      .ok (i, '\n' :: rest) := by
  have enough : ts.length ≤ (targetChars chars ts ++ '\n' :: rest).length := by
    have length := length_targetChars_le chars ts
    simp only [length_append]
    omega
  have meets := targets_targetChars sound enough rest
  have first : Stops isNameChar (targetChars chars ts ++ '\n' :: rest) ∧
      arguments (targetChars chars ts ++ '\n' :: rest) =
        .ok ([], targetChars chars ts ++ '\n' :: rest) := by
    cases ts <;> exact ⟨stops_cons rfl _, arguments_of_ne (by decide) _⟩
  exact instruction_line named [] first.1 first.2 meets means

lemma isName_gate (g : Gate) : isName g.name = true := by
  cases g <;> decide

lemma isName_channel : isName c.name = true := by
  cases c <;> decide

lemma meaning?_gate (g : Gate) (xs : List Double) (ts : List RawTarget) :
    meaning? g.name xs ts = gateInstruction? g xs ts := by
  cases g <;> rfl

lemma meaning?_channel (xs : List Double) (ts : List RawTarget) :
    meaning? c.name xs ts = noiseInstruction? c xs ts := by
  cases c <;> rfl

/-- First word of the line of an instruction. -/
def heading : Instruction → String
  | .coords _ _ => "QUBIT_COORDS"
  | .gate g _ => g.name
  | .noise c _ _ => c.name
  | .measure g _ _ => g.name
  | .detector _ => "DETECTOR"
  | .observable _ _ => "OBSERVABLE_INCLUDE"
  | .tick => "TICK"
  | .loop _ _ => "REPEAT"

/-- What follows the name on the line of an instruction that is no block. -/
def following : Instruction → List Char
  | .coords q values =>
    argumentChars (values.map intChars) ++ targetChars natChars [q]
  | .gate _ targets => targetChars natChars targets
  | .noise _ parameters targets =>
    argumentChars (parameters.map (·.text.toList)) ++ targetChars natChars targets
  | .measure _ flip targets =>
    flipChars flip ++ targetChars Target.chars targets
  | .detector offsets => targetChars recordChars offsets
  | .observable index offsets =>
    argumentChars [natChars index] ++ targetChars recordChars offsets
  | .tick => []
  | .loop _ _ => []

/-- The line of an instruction that is no block, without indentation and line end. -/
def line (i : Instruction) : List Char := (heading i).toList ++ following i

def isLine : Instruction → Bool
  | .loop _ _ => false
  | _ => true

lemma chars_eq_line (single : isLine i) (depth : Nat) :
    chars depth i = List.replicate (4 * depth) ' ' ++ (line i ++ ['\n']) := by
  unfold line
  cases i with
  | loop count body => contradiction
  | tick => rfl
  | coords q values =>
    simp [chars, heading, following, targetChars]
  | _ => simp [chars, heading, following]

lemma numerals_text (finite : parameters.all Double.isFinite) :
    ∀ e ∈ parameters.map fun x => (x.text.toList, x), Numeral e.1 e.2 := by
  rw [forall_mem_map]
  exact fun x listed => Double.numeral_text (all_eq_true.mp finite x listed)

lemma meaning?_coords (xs : List Double) (q : Nat) :
    meaning? "QUBIT_COORDS" xs [.qubit q] = some (.coords q (xs.map Double.toInt32)) := rfl

lemma meaning?_observable (x : Double) (ts : List RawTarget) :
    meaning? "OBSERVABLE_INCLUDE" [x] ts =
      if x.isNonnegative then (offsets? ts).map (.observable x.toWord) else none := rfl

lemma coords_line {q : Nat} {values : List Int} (fits : q < Word.size)
    (small : values.all Word.isInt32) (rest : List Char) :
    instruction (line (.coords q values) ++ '\n' :: rest) =
      .ok (.coords q values, '\n' :: rest) := by
  have numbers : ∀ e ∈ values.map fun z => (intChars z, Double.ofDecimal (z < 0) z.natAbs 0),
      Numeral e.1 e.2 := forall_mem_map.mpr fun z _ => numeral_intChars z
  have single : ∀ p ∈ [q], Targets natChars .qubit p :=
    forall_mem_singleton.mpr (targets_qubit fits)
  have back : (values.map fun z => (Double.ofDecimal (z < 0) z.natAbs 0).toInt32) = values := by
    calc _ = values.map id := map_congr_left fun z mem =>
          Double.toInt32_ofDecimal (all_eq_true.mp small z mem)
      _ = values := map_id values
  have means : meaning? "QUBIT_COORDS" ((values.map fun z =>
      (intChars z, Double.ofDecimal (z < 0) z.natAbs 0)).map (·.2)) ([q].map .qubit) =
      some (.coords q values) := by
    rw [map_singleton, meaning?_coords, map_map, map_map]
    exact congrArg (some ∘ Instruction.coords q) back
  have read := instruction_written (by decide) numbers single means rest
  rw [map_map] at read
  simp only [line, heading, following, append_assoc]
  exact read

lemma noise_line {c : Channel} {targets : List Nat}
    (count : parameters.length = c.parameterCount) (finite : parameters.all Double.isFinite)
    (fits : targets.all (· < Word.size)) (rest : List Char) :
    instruction (line (.noise c parameters targets) ++ '\n' :: rest) =
      .ok (.noise c parameters targets, '\n' :: rest) := by
  have means : meaning? c.name ((parameters.map fun x => (x.text.toList, x)).map (·.2))
      (targets.map .qubit) = some (.noise c parameters targets) := by
    have same : (parameters.map fun x => (x.text.toList, x)).map (·.2) = parameters := by
      rw [map_map]
      exact map_id parameters
    rw [same, meaning?_channel, noiseInstruction?, if_pos count, qubits?_map]
    rfl
  have read := instruction_written (isName_channel c) (numerals_text finite) (targets_qubits fits)
    means rest
  rw [map_map] at read
  simp only [line, heading, following, append_assoc]
  exact read

lemma measure_line {flip : Option Double} {targets : List Target}
    (measures : g.isMeasurement = true) (finite : flip.all Double.isFinite)
    (fits : targets.all (Target.isFor g)) (rest : List Char) :
    instruction (line (.measure g flip targets) ++ '\n' :: rest) =
      .ok (.measure g flip targets, '\n' :: rest) := by
  have means : ∀ xs : List Double, meaning? g.name xs (targets.map rawTarget) =
      some (.measure g xs.head? targets) := by
    intro xs
    rw [meaning?_gate, gateInstruction?, if_pos measures, measured?_map fits]
    rfl
  cases flip with
  | none =>
    have read := instruction_bare (isName_gate g) (targets_measured fits) (means []) rest
    simp only [line, heading, following, flipChars, nil_append, append_assoc]
    exact read
  | some x =>
    have numbers : ∀ e ∈ [(x.text.toList, x)], Numeral e.1 e.2 :=
      forall_mem_singleton.mpr (Double.numeral_text finite)
    have read := instruction_written (isName_gate g) numbers (targets_measured fits)
      (means [x]) rest
    simp only [line, heading, following, flipChars, append_assoc]
    exact read

lemma detector_line (sound : offsets.all isOffset) (rest : List Char) :
    instruction (line (.detector offsets) ++ '\n' :: rest) =
      .ok (.detector offsets, '\n' :: rest) := by
  have means : meaning? "DETECTOR" [] (offsets.map .outcome) = some (.detector offsets) :=
    congrArg (Option.map detector) (offsets?_map sound)
  have read := instruction_bare (by decide) (targets_records sound) means rest
  simp only [line, heading, following, append_assoc]
  exact read

lemma observable_line {index : Nat} (exact_index : (Double.ofNat index).toWord = index)
    (sound : offsets.all isOffset) (rest : List Char) :
    instruction (line (.observable index offsets) ++ '\n' :: rest) =
      .ok (.observable index offsets, '\n' :: rest) := by
  have fits : index < Word.size := by
    rw [← exact_index]
    exact Double.toWord_lt _
  have numbers : ∀ e ∈ [(natChars index, Double.ofNat index)], Numeral e.1 e.2 := by
    rw [forall_mem_singleton, ← Double.ofDecimal_eq_ofNat fits]
    exact numeral_natChars index
  have means : meaning? "OBSERVABLE_INCLUDE" [Double.ofNat index] (offsets.map .outcome) =
      some (.observable index offsets) := by
    rw [meaning?_observable, if_pos (Double.isNonnegative_ofNat index), offsets?_map sound,
      exact_index]
    rfl
  have read := instruction_written (by decide) numbers (targets_records sound) means rest
  simp only [line, heading, following, append_assoc]
  exact read

lemma instruction_eq_line (single : isLine i) (sound : i.isWellFormed) (rest : List Char) :
    instruction (line i ++ '\n' :: rest) = .ok (i, '\n' :: rest) := by
  cases i with
  | loop count body => contradiction
  | coords q values =>
    simp only [isWellFormed, Bool.and_eq_true, decide_eq_true_eq] at sound
    exact coords_line sound.1 sound.2 rest
  | gate g targets =>
    simp only [isWellFormed, Bool.and_eq_true, Bool.not_eq_true'] at sound
    have means : meaning? g.name [] (targets.map .qubit) = some (.gate g targets) := by
      rw [meaning?_gate, gateInstruction?, sound.1, qubits?_map]
      rfl
    have read := instruction_bare (isName_gate g) (targets_qubits sound.2) means rest
    simp only [line, heading, following, append_assoc]
    exact read
  | noise c parameters targets =>
    simp only [isWellFormed, Bool.and_eq_true, decide_eq_true_eq] at sound
    exact noise_line sound.1.1 sound.1.2 sound.2 rest
  | measure g flip targets =>
    simp only [isWellFormed, Bool.and_eq_true] at sound
    exact measure_line sound.1.1 sound.1.2 sound.2 rest
  | detector offsets => exact detector_line sound rest
  | observable index offsets =>
    simp only [isWellFormed, Bool.and_eq_true, decide_eq_true_eq] at sound
    exact observable_line sound.1 sound.2 rest
  | tick => rfl

/-! Blocks. -/

lemma instruction_eq_ok (read : instruction text = .ok (i, rest)) :
    ∃ name after xs left ts, name? text = some (name, after) ∧ arguments after = .ok (xs, left) ∧
      targets left.length left = (ts, rest) ∧ meaning? (String.ofList name) xs ts = some i := by
  unfold instruction at read
  split at read
  · contradiction
  · next name after named =>
      obtain ⟨⟨xs, left⟩, given, read⟩ := of_bind read
      simp only at read
      split at read
      · next means =>
          cases read
          exact ⟨name, after, xs, left, _, named, given, rfl, means⟩
      · contradiction

/-- A block is no instruction, whatever fails in it. -/
lemma blockStart?_eq_none (read : instruction text = .ok (i, rest)) : blockStart? text = none := by
  obtain ⟨name, _, xs, _, ts, named, -, -, means⟩ := instruction_eq_ok read
  unfold blockStart?
  split
  · next after =>
      cases after with
      | nil => rfl
      | cons c more =>
        cases blank : isSpace c with
        | false => simp [spaces?, blank]
        | true =>
          have apart : isNameChar c = false := by
            simp only [isSpace, Bool.or_eq_true, decide_eq_true_eq] at blank
            rcases blank with rfl | rfl <;> rfl
          have whole : name? ('R' :: 'E' :: 'P' :: 'E' :: 'A' :: 'T' :: c :: more) =
              some (['R', 'E', 'P', 'E', 'A', 'T'], c :: more) :=
            name?_append (by decide : isName "REPEAT" = true) (stops_cons apart more)
          rw [whole, Option.some.injEq, Prod.mk.injEq] at named
          rw [← named.1] at means
          contradiction
  · rfl

/-- Blanks, and what starts a comment or a line end. -/
def isQuiet (c : Char) : Bool := isSpace c || c = '#' || isLineEnd c

/-- A text that is neither blank at its start nor starts with a comment. -/
def isSolid (text : List Char) : Bool := text.head?.all (!isQuiet ·)

def isEnd : List Char → Bool
  | [] => true
  | c :: _ => c = '\x7d'

lemma isSolid_of_instruction (read : instruction text = .ok (i, rest)) :
    isSolid text = true ∧ isEnd text = false := by
  obtain ⟨_, _, _, _, _, named, -⟩ := instruction_eq_ok read
  cases text with
  | nil => contradiction
  | cons c cs =>
    rw [name?] at named
    split_ifs at named with letter
    have apart : ∀ d : Char, d.isAlpha = false → c ≠ d := by
      rintro d other rfl
      rw [letter] at other
      contradiction
    simp [isSolid, isQuiet, isEnd, isSpace, isLineEnd, apart ' ' rfl, apart '\t' rfl, apart '#' rfl,
      apart '\n' rfl, apart '\r' rfl, apart '\x7d' rfl]

lemma isSolid_of_blockStart? {inner : List Char} (opened : blockStart? text = some (count, inner)) :
    isSolid text = true ∧ isEnd text = false := by
  unfold blockStart? at opened
  split at opened
  · exact ⟨rfl, rfl⟩
  · contradiction

/-- Where the first instruction of a block starts. -/
def start (text : List Char) : List Char := skipSpaces (skipBlankLines text.length text)

lemma blankLine?_of_solid (solid : isSolid (skipSpaces text)) : blankLine? text = none := by
  rw [blankLine?]
  cases skipped : skipSpaces text with
  | nil => rfl
  | cons c rest =>
    simp only [isSolid, isQuiet, skipped, head?_cons, Option.all_some, Bool.not_eq_true',
      Bool.or_eq_false_iff, isLineEnd, decide_eq_false_iff_not] at solid
    have plain : skipComment (c :: rest) = c :: rest := by
      unfold skipComment
      split
      · next same =>
          exact absurd (cons.inj same).1 solid.1.2
      · rfl
    rw [plain]
    unfold newline?
    split
    · next same =>
        exact absurd (cons.inj same).1 solid.2.1
    · next same =>
        exact absurd (cons.inj same).1 solid.2.2
    · rfl

lemma start_of_solid (solid : isSolid (skipSpaces text)) : start text = skipSpaces text := by
  cases text with
  | nil => rfl
  | cons c rest => rw [start, length_cons, skipBlankLines, blankLine?_of_solid solid]

lemma start_replicate (solid : isSolid text) (indent : Nat) :
    start (List.replicate indent ' ' ++ text) = text := by
  have stops : Stops isSpace text := by
    intro c first
    have here : text.head? = some c := first
    simp only [isSolid, isQuiet, here, Option.all_some, Bool.not_eq_true', Bool.or_eq_false_iff]
      at solid
    exact solid.1.1
  have bare := skipSpaces_replicate indent stops
  rw [start_of_solid (by rwa [bare]), bare]

/-- An instruction at the start of a text, or a block that is repeated. -/
def ReadsItem (bound : Nat) (text : List Char) (i : Instruction) (after : List Char) : Prop :=
  instruction text = .ok (i, after) ∨ ∃ count inner body, blockStart? text = some (count, inner) ∧
    block bound inner = .ok (body, '\x7d' :: after) ∧ i = .loop count body

lemma ReadsItem.solid {after : List Char} (item : ReadsItem bound text i after) :
    isSolid text = true ∧ isEnd text = false := by
  obtain read | ⟨_, _, _, opened, -⟩ := item
  · exact isSolid_of_instruction read
  · exact isSolid_of_blockStart? opened

lemma follow_eq_ok {first : Except Failure (Instruction × List Char)}
    {reads : Instruction → List Char → Prop}
    (same : ∀ i after, first = .ok (i, after) ↔ reads i after) :
    (first >>= fun x => lineEnd x.2 >>= fun left => block bound left >>= fun y =>
      pure (x.1 :: y.1, y.2)) = .ok (is, rest) ↔
    ∃ i after left others, reads i after ∧ lineEnd after = .ok left ∧
      block bound left = .ok (others, rest) ∧ is = i :: others := by
  simp only [bind_eq_ok, pure_eq_ok, Prod.exists, Prod.mk.injEq, same]
  constructor
  · rintro ⟨i, after, read, left, ended, others, _, later, rfl, rfl⟩
    exact ⟨i, after, left, others, read, ended, later, rfl⟩
  · rintro ⟨i, after, left, others, read, ended, later, rfl⟩
    exact ⟨i, after, read, left, ended, others, rest, later, rfl, rfl⟩

/-- A block is read instruction by instruction, up to its end. -/
lemma block_eq_ok : block (bound + 1) text = .ok (is, rest) ↔
    (isEnd (start text) = true ∧ is = [] ∧ rest = start text) ∨
    ∃ i after left others, ReadsItem bound (start text) i after ∧ lineEnd after = .ok left ∧
      block bound left = .ok (others, rest) ∧ is = i :: others := by
  have never : isEnd (start text) = true → ∀ {i after}, ¬ ReadsItem bound (start text) i after :=
    fun ends _ _ item => by cases item.solid.2.symm.trans ends
  rw [block]
  simp only [← start.eq_1]
  split
  · next nothing =>
    rw [nothing] at never ⊢
    simp [isEnd, never rfl, eq_comm]
  · next found =>
    rw [found] at never ⊢
    simp [isEnd, never rfl, eq_comm]
  · next nonempty closing =>
    have goes_on : isEnd (start text) = false := by
      cases shown : start text with
      | nil => exact absurd shown nonempty
      | cons c cs => exact decide_eq_false fun same => closing cs (same ▸ shown)
    simp only [goes_on, Bool.false_eq_true, false_and, false_or]
    split
    · next closed => exact follow_eq_ok fun i after => by simp [ReadsItem, closed]
    · next count inner opened =>
      have plain : ∀ i after, instruction (start text) ≠ .ok (i, after) := fun i after read => by
        cases (blockStart?_eq_none read).symm.trans opened
      split
      · next within =>
        exact follow_eq_ok fun i left => by
          simp [ReadsItem, plain, opened, within, eq_comm, and_comm]
      · next unclosed within =>
        refine follow_eq_ok fun i after => ?_
        simpa [ReadsItem, plain, opened, within] using
          fun body same => (unclosed body after same).elim
      · next within =>
        split_ifs <;> exact follow_eq_ok fun i after => by simp [ReadsItem, plain, opened, within]

lemma block_item (item : ReadsItem bound text i ('\n' :: more))
    (later : block bound more = .ok (is, rest)) (indent : Nat) :
    block (bound + 1) (List.replicate indent ' ' ++ text) = .ok (i :: is, rest) := by
  refine block_eq_ok.mpr (.inr ⟨i, '\n' :: more, more, is, ?_, rfl, later, rfl⟩)
  rwa [start_replicate item.solid.1]

lemma block_end (ends : isEnd rest) (bound indent : Nat) :
    block (bound + 1) (List.replicate indent ' ' ++ rest) = .ok ([], rest) := by
  have solid : isSolid rest = true := by
    cases rest with
    | nil => rfl
    | cons c more =>
      rw [of_decide_eq_true (p := c = '\x7d') ends]
      rfl
  have first := start_replicate solid indent
  exact block_eq_ok.mpr (.inl ⟨by rwa [first], rfl, first.symm⟩)

lemma lineEnd_newline (rest : List Char) : lineEnd ('\n' :: rest) = .ok rest := rfl

lemma blockStart?_loop (fits : count < Word.size) (inner : List Char) :
    blockStart? ("REPEAT ".toList ++ (natChars count ++ (" \x7b\n".toList ++ inner))) =
      some (count, inner) := by
  have text : "REPEAT ".toList ++ (natChars count ++ (" \x7b\n".toList ++ inner)) =
      'R' :: 'E' :: 'P' :: 'E' :: 'A' :: 'T' :: ' ' ::
        (natChars count ++ (' ' :: '\x7b' :: '\n' :: inner)) := rfl
  obtain ⟨c, cs, written, digit⟩ := natChars_eq_cons count
  have counted := counter?_natChars fits
    (stops_cons (rfl : ' '.isDigit = false) ('\x7b' :: '\n' :: inner))
  have apart : spaces? (' ' :: (natChars count ++ (' ' :: '\x7b' :: '\n' :: inner))) =
      some (natChars count ++ (' ' :: '\x7b' :: '\n' :: inner)) := by
    have blanks : skipSpaces (natChars count ++ (' ' :: '\x7b' :: '\n' :: inner)) =
        natChars count ++ (' ' :: '\x7b' :: '\n' :: inner) := by
      rw [written]
      exact skipSpaces_of_stops (stops_cons (isSpace_of_isDigit digit) _)
    simp [spaces?, isSpace, blanks]
  have brace : skipSpaces (' ' :: '\x7b' :: '\n' :: inner) = '\x7b' :: '\n' :: inner :=
    skipSpaces_replicate 1 (stops_cons rfl _)
  rw [text]
  simp [blockStart?, apart, counted, brace, lineEnd_newline]

lemma length_chars_pos (i : Instruction) (depth : Nat) : 0 < (chars depth i).length := by
  cases i with
  | loop count body => simp [chars]
  | _ =>
    rw [chars_eq_line rfl]
    simp only [length_append, length_singleton]
    omega

mutual
theorem block_chars (i : Instruction) (sound : i.isWellFormed) (depth : Nat) {bound : Nat}
    (enough : (chars depth i).length ≤ bound) {more rest : List Char}
    {is : List Instruction} (later : block bound more = .ok (is, rest)) :
    block (bound + 1) (chars depth i ++ more) = .ok (i :: is, rest) := by
  cases i with
  | loop count body =>
    simp only [isWellFormed, Bool.and_eq_true, decide_eq_true_eq] at sound
    have text : chars depth (.loop count body) ++ more =
        replicate (4 * depth) ' ' ++ ("REPEAT ".toList ++ (natChars count ++
          (" \x7b\n".toList ++ (charsList (depth + 1) body ++
            (replicate (4 * depth) ' ' ++ '\x7d' :: '\n' :: more))))) := by
      simp only [chars, append_assoc]
      rfl
    have inner : (charsList (depth + 1) body).length < bound := by
      simp only [chars, length_append, natChars] at enough
      have braces : 0 < "\x7d\n".toList.length := by decide
      omega
    rw [text]
    exact block_item (.inr ⟨count, _, body, blockStart?_loop sound.1 _,
      block_charsList body sound.2 (depth + 1) inner rfl, rfl⟩) later _
  | _ =>
    rw [chars_eq_line rfl, append_assoc, append_assoc]
    exact block_item (.inl (instruction_eq_line rfl sound more)) later _
termination_by structural i

theorem block_charsList (is : List Instruction) (sound : areWellFormed is)
    (depth : Nat) {bound : Nat} (enough : (charsList depth is).length < bound)
    {indent : Nat} {rest : List Char} (ends : isEnd rest) :
    block bound (charsList depth is ++ (List.replicate indent ' ' ++ rest)) = .ok (is, rest) := by
  obtain ⟨n, rfl⟩ := Nat.exists_eq_succ_of_ne_zero (Nat.ne_of_gt (Nat.zero_lt_of_lt enough))
  cases is with
  | nil => exact block_end ends n indent
  | cons i others =>
    simp only [areWellFormed, Bool.and_eq_true] at sound
    simp only [charsList, length_append] at enough
    have first := length_chars_pos i depth
    rw [charsList, append_assoc]
    exact block_chars i sound.1 depth (by omega)
      (block_charsList others sound.2 depth (by omega) ends)
termination_by structural is
end

/-! Reading gives well-formed programs. -/

lemma counter?_lt {n : Nat} (read : counter? text = some (n, rest)) : n < Word.size := by
  unfold counter? at read
  obtain ⟨⟨digits, after⟩, _, read⟩ := Option.bind_eq_some_iff.mp read
  simp only at read
  split_ifs at read with fits
  cases read
  exact fits

lemma isInt64_of_guard {value offset : Int} {after : List Char}
    (read : (if Word.isInt64 value then some (value, after) else none) = some (offset, rest)) :
    Word.isInt64 offset := by
  split_ifs at read with fits
  cases read
  exact fits

lemma outcome?_isInt64 {offset : Int} (read : outcome? text = some (offset, rest)) :
    Word.isInt64 offset := by
  unfold outcome? at read
  split at read
  · obtain ⟨⟨digits, after⟩, _, read⟩ := Option.bind_eq_some_iff.mp read
    simp only at read
    split at read
    · exact isInt64_of_guard read
    · contradiction
  · contradiction

lemma factor?_sound {f : Pauli × Nat} (read : factor? text = some (f, rest)) :
    Target.isFactor f := by
  unfold factor? at read
  split at read
  case h_4 => contradiction
  all_goals
    obtain ⟨⟨q, after⟩, counted, made⟩ := Option.map_eq_some_iff.mp read
    cases made
    simpa [Target.isFactor] using counter?_lt counted

lemma moreFactors_sound (bound : Nat) (text : List Char) :
    (moreFactors bound text).1.all Target.isFactor := by
  induction bound generalizing text with
  | zero => rfl
  | succ bound ih =>
    unfold moreFactors
    split
    · split
      · rfl
      · next f rest read =>
          rw [all_cons, factor?_sound read, Bool.true_and]
          exact ih rest
    · rfl

/-- A target with numbers of the machine. -/
def RawTarget.isSound : RawTarget → Bool
  | outcome offset => Word.isInt64 offset
  | product factors => !factors.isEmpty && factors.all Target.isFactor
  | qubit q => q < Word.size

lemma target?_sound {t : RawTarget} (read : target? text = some (t, rest)) : t.isSound := by
  unfold target? at read
  split at read
  · next offset after found =>
      cases read
      exact outcome?_isInt64 found
  · split at read
    · next f after found =>
        cases read
        simp only [RawTarget.isSound, isEmpty_cons, Bool.not_false, Bool.true_and,
          all_cons, factor?_sound found]
        exact moreFactors_sound _ _
    · obtain ⟨⟨q, after⟩, counted, made⟩ := Option.map_eq_some_iff.mp read
      cases made
      exact decide_eq_true (counter?_lt counted)

lemma targets_sound (bound : Nat) (text : List Char) :
    ∀ t ∈ (targets bound text).1, t.isSound := by
  induction bound generalizing text with
  | zero => exact forall_mem_nil _
  | succ bound ih =>
    unfold targets
    split
    · exact forall_mem_nil _
    · next t rest read =>
        obtain ⟨after, _, found⟩ := Option.bind_eq_some_iff.mp read
        exact forall_mem_cons.mpr ⟨target?_sound found, ih rest⟩

lemma all_of_mapM {f : α → Option β} {p : β → Bool} {items : List α} {results : List β}
    (run : items.mapM f = some results) (each : ∀ a ∈ items, ∀ b, f a = some b → p b = true) :
    results.all p = true := by
  induction items generalizing results with
  | nil =>
    cases run
    rfl
  | cons a rest ih =>
    rw [mapM_cons] at run
    obtain ⟨b, first, run⟩ := Option.bind_eq_some_iff.mp run
    obtain ⟨bs, others, run⟩ := Option.bind_eq_some_iff.mp run
    cases run
    rw [all_cons, each a mem_cons_self b first, Bool.true_and]
    exact ih others fun c mem => each c (mem_cons_of_mem a mem)

lemma offsets?_sound (read : offsets? ts = some offsets) (sound : ∀ t ∈ ts, t.isSound) :
    offsets.all isOffset := by
  apply all_of_mapM read
  intro t mem offset given
  have here := sound t mem
  split at given
  · split_ifs at given with earlier
    cases given
    exact Bool.and_eq_true_iff.mpr ⟨decide_eq_true earlier, here⟩
  · contradiction

lemma qubits?_sound {qubits : List Nat} (read : qubits? ts = some qubits)
    (sound : ∀ t ∈ ts, t.isSound) :
    qubits.all (· < Word.size) := by
  apply all_of_mapM read
  intro t mem q given
  have here := sound t mem
  split at given
  · cases given
    exact here
  · contradiction

lemma measured?_sound {targets : List Target} (read : measured? g ts = some targets)
    (sound : ∀ t ∈ ts, t.isSound) :
    targets.all (Target.isFor g) := by
  apply all_of_mapM read
  intro t mem target given
  have here := sound t mem
  split at given
  · split_ifs at given with product
    cases given
    simp only [Target.isFor, product, decide_true, Bool.true_and]
    exact here
  · split_ifs at given with product
    cases given
    simp only [Target.isFor, ne_eq, product, not_false_eq_true, decide_true, Bool.true_and]
    exact here
  · contradiction

lemma gateInstruction?_sound (means : gateInstruction? g xs ts = some i)
    (sound : ∀ t ∈ ts, t.isSound) (finite : i.isFinite) : i.isWellFormed := by
  unfold gateInstruction? at means
  split_ifs at means with measures
  · obtain ⟨targets, read, rfl⟩ := Option.map_eq_some_iff.mp means
    simp only [isFinite] at finite
    simp only [isWellFormed, measures, finite, measured?_sound read sound, Bool.and_self]
  · obtain ⟨targets, read, rfl⟩ := Option.map_eq_some_iff.mp means
    simp only [isWellFormed, measures, qubits?_sound read sound, Bool.not_false, Bool.and_self]

lemma noiseInstruction?_sound {c : Channel} (means : noiseInstruction? c xs ts = some i)
    (sound : ∀ t ∈ ts, t.isSound) (finite : i.isFinite) : i.isWellFormed := by
  unfold noiseInstruction? at means
  split_ifs at means with count
  obtain ⟨targets, read, rfl⟩ := Option.map_eq_some_iff.mp means
  simp only [isFinite] at finite
  simp [isWellFormed, count, finite, qubits?_sound read sound, Bool.and_self]

lemma all_isInt32 (xs : List Double) : (xs.map Double.toInt32).all Word.isInt32 := by
  rw [all_map, all_eq_true]
  exact fun x _ => x.isInt32_toInt32

lemma meaning?_sound (means : meaning? name xs ts = some i) (sound : ∀ t ∈ ts, t.isSound)
    (finite : i.isFinite) : i.isWellFormed := by
  unfold meaning? at means
  split_ifs at means
  · cases means
    rfl
  · obtain ⟨offsets, read, rfl⟩ := Option.map_eq_some_iff.mp means
    exact offsets?_sound read sound
  · split at means
    · next x =>
        split_ifs at means
        obtain ⟨offsets, read, rfl⟩ := Option.map_eq_some_iff.mp means
        simp [isWellFormed, x.toWord_ofNat_toWord, offsets?_sound read sound, Bool.and_self]
    · contradiction
  · split at means
    · next q =>
        cases means
        have fits := sound (.qubit q) (mem_singleton_self _)
        simp only [isWellFormed, all_isInt32, Bool.and_true]
        exact fits
    · contradiction
  · split at means
    · exact gateInstruction?_sound means sound finite
    · obtain ⟨c, _, given⟩ := Option.bind_eq_some_iff.mp means
      exact noiseInstruction?_sound given sound finite

lemma instruction_sound (read : instruction text = .ok (i, rest)) (finite : i.isFinite) :
    i.isWellFormed := by
  obtain ⟨_, _, _, left, ts, -, -, met, means⟩ := instruction_eq_ok read
  refine meaning?_sound means ?_ finite
  have sound := targets_sound left.length left
  rwa [met] at sound

lemma blockStart?_lt {inner : List Char} (read : blockStart? text = some (count, inner)) :
    count < Word.size := by
  unfold blockStart? at read
  split at read
  · obtain ⟨⟨n, after⟩, counted, read⟩ := Option.bind_eq_some_iff.mp read
    obtain ⟨digits, _, counted⟩ := Option.bind_eq_some_iff.mp counted
    simp only at read
    split at read
    · split at read
      · cases read
        exact counter?_lt counted
      · contradiction
    · contradiction
  · contradiction

lemma block_sound (bound : Nat) (read : block bound text = .ok (is, rest))
    (finite : areFinite is) :
    areWellFormed is := by
  induction bound generalizing text rest is with
  | zero => contradiction
  | succ bound ih =>
    obtain ⟨-, rfl, -⟩ | ⟨i, _, _, others, item, -, later, rfl⟩ := block_eq_ok.mp read
    · rfl
    rw [areFinite, Bool.and_eq_true] at finite
    rw [areWellFormed, Bool.and_eq_true]
    refine ⟨?_, ih later finite.2⟩
    obtain read | ⟨count, inner, body, opened, within, rfl⟩ := item
    · exact instruction_sound read finite.1
    · rw [isFinite] at finite
      simp [isWellFormed, blockStart?_lt opened, ih within finite.1]

end Grammar

lemma Program.isWellFormed_of_ofText {text : String} {p : Program}
    (read : Program.ofText text = .ok p) (finite : p.isFinite) : p.isWellFormed := by
  unfold Program.ofText at read
  simp only at read
  split at read
  · next instructions rest blocks =>
      split_ifs at read
      cases read
      exact Grammar.block_sound _ blocks finite
  · contradiction

lemma Program.ofText_text_eq {p : Program} (sound : p.isWellFormed) :
    Program.ofText p.text = .ok p := by
  have read : Grammar.block _ (_ ++ (replicate 0 ' ' ++ [])) = .ok (p.instructions, []) :=
    Grammar.block_charsList p.instructions sound 0 (Nat.lt_succ_self _) rfl
  simp only [replicate_zero, append_nil] at read
  simp only [Program.ofText, Program.text, String.toList_ofList]
  rw [read]
  rfl

namespace Program

/-- The text of the program that a text describes. -/
def normalise (text : String) : Except Error String :=
  (Program.ofText text).map Program.text

/-- Texts with finite numbers are read as well-formed programs, well-formed programs are read back
from their texts, and so writing what was read is a normal form. -/
theorem text_roundTrip :
    (∀ (text : String) (p : Program), Program.ofText text = .ok p → p.isFinite →
      p.isWellFormed) ∧
    (∀ p : Program, p.isWellFormed → Program.ofText p.text = .ok p) ∧
    (∀ (text : String) (p : Program), Program.ofText text = .ok p → p.isFinite →
      normalise text = .ok p.text ∧ normalise p.text = .ok p.text) := by
  refine ⟨fun _ _ => isWellFormed_of_ofText, fun _ => ofText_text_eq, fun text p read finite => ?_⟩
  have back := ofText_text_eq (isWellFormed_of_ofText read finite)
  constructor
  · rw [normalise, read]
    rfl
  · rw [normalise, back]
    rfl

/-- A program with every kind of instruction, and numbers at the edges of their ranges. -/
def sampler : Program where
  instructions :=
    [.coords 7 [-2147483648, 2147483647], .gate .HYZ [0, 18446744073709551615],
      .loop 18446744073709551615
        [.noise .pauliChannel1 [.ofRatio true 1 3, .zero, .one] [3],
          .loop 0 [.measure .MPP (some (.ofRatio false 1 100)) [.product [(.X, 0), (.Z, 1)]]]],
      .detector [-1, -9223372036854775808], .detector [],
      .observable 18446744073709551615 [-2], .tick]

theorem text_roundTrip_sampler :
    sampler.isWellFormed = true ∧ Program.ofText sampler.text = .ok sampler := by
  have sound : sampler.isWellFormed = true := by decide +kernel
  exact ⟨sound, text_roundTrip.2.1 sampler sound⟩

end Program

end SyndromeSchedule
