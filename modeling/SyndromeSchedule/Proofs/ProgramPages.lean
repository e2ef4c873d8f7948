import SyndromeSchedule.Document.Program
import SyndromeSchedule.Proofs.Decoding
import SyndromeSchedule.Proofs.RoundTrip

/-!
Programs and their pages. The page of a program is its JSON, one item a line. Whatever its
instructions, a program is decoded again from its page as long as its integers fit their words, its
doubles are read back from their numerals and its blocks are not nested too deeply for the reader.
-/

namespace SyndromeSchedule

open List

/-- Whether words hold the numbers of the qubits. -/
def Target.fits : Target → Bool
  | qubit q => q < Word.size
  | product factors => factors.all fun f => f.2 < Word.size

namespace Instruction

mutual
/-- Whether the integers of an instruction fit the words they are kept in. -/
def fits : Instruction → Bool
  | coords q values => q < Word.size && values.all Word.isInt32
  | gate _ targets => targets.all (· < Word.size)
  | noise _ _ targets => targets.all (· < Word.size)
  | measure _ _ targets => targets.all Target.fits
  | detector offsets => offsets.all Word.isInt64
  | observable index offsets => index < Word.size && offsets.all Word.isInt64
  | tick => true
  | loop count body => count < Word.size && allFit body
termination_by structural i => i

def allFit : List Instruction → Bool
  | [] => true
  | i :: rest => fits i && allFit rest
termination_by structural is => is
end

mutual
/-- Parameters of noise and flips of measurements. -/
def numbers : Instruction → List Double
  | noise _ parameters _ => parameters
  | measure _ flip _ => flip.toList
  | loop _ body => numbersIn body
  | coords _ _ => []
  | gate _ _ => []
  | detector _ => []
  | observable _ _ => []
  | tick => []
termination_by structural i => i

def numbersIn : List Instruction → List Double
  | [] => []
  | i :: rest => numbers i ++ numbersIn rest
termination_by structural is => is
end

end Instruction

/-- Whether all integers fit their words, at every depth. -/
def Program.fits (p : Program) : Bool := Instruction.allFit p.instructions

/-- Parameters of noise and flips of measurements, at every depth. -/
def Program.numbers (p : Program) : List Double := Instruction.numbersIn p.instructions

/-! Numbers, names and targets. -/

lemma Gate.decode_toJson (g : Gate) : decode g.toJson = .ok g := by cases g <;> rfl

lemma Channel.decode_toJson (c : Channel) : decode c.toJson = .ok c := by cases c <;> rfl

lemma Decoder.words_encode {values : List Nat} (fits : values.all (· < Word.size) = true) :
    list word (.list (values.map .ofNat)) = .ok values :=
  list_encode fun n mem => word_ofNat (of_decide_eq_true (all_eq_true.mp fits n mem))

lemma Decoder.offsets_encode {offsets : List Int} (fits : offsets.all Word.isInt64 = true) :
    list int64 (.list (offsets.map .ofInt)) = .ok offsets :=
  list_encode fun z mem => int64_ofInt (all_eq_true.mp fits z mem)

lemma Target.decode_toJson {t : Target} (small : t.fits = true) : decode t.toJson = .ok t := by
  cases t with
  | qubit q =>
    have read := Decoder.word_ofNat (of_decide_eq_true small)
    simp only [toJson, Json.record, decode, if_true, read]
    rfl
  | product factors =>
    have read : Decoder.list (.pair Pauli.decode .word)
        (.list (factors.map fun e => .list [e.1.toJson, .ofNat e.2])) = .ok factors := by
      refine Decoder.list_encode fun f mem => ?_
      have fits := of_decide_eq_true (all_eq_true.mp small f mem)
      exact Decoder.pair_encode f.1.decode_toJson (Decoder.word_ofNat fits)
    have other : ("Product" = "Qubit") = False := by decide
    simp only [toJson, Json.record, decode, other, if_true, if_false, read]
    rfl

lemma Target.isPlain_toJson (t : Target) : t.toJson.isPlain = true := by
  cases t with
  | qubit q => simp [toJson]
  | product factors =>
    simp only [toJson, Json.isPlain_record, Json.isPlain_list, forall_mem_singleton, forall_mem_map]
    simp [Pauli.toJson]

namespace Instruction

open Decoder

lemma toJsonList_eq_map (is : List Instruction) : toJsonList is = is.map toJson := by
  induction is with
  | nil => rfl
  | cons i rest ih => rw [toJsonList, ih, map_cons]

/-! Pages of instructions. -/

mutual
theorem isPlain_toJson : ∀ i : Instruction, i.toJson.isPlain = true
  | coords _ _ => by simp [toJson]
  | gate g _ => by simp [toJson, Gate.toJson]
  | noise c _ _ => by simp [toJson, Channel.toJson]
  | measure g _ targets => by simp [toJson, Gate.toJson, Target.isPlain_toJson]
  | detector _ | observable _ _ => by simp [toJson]
  | tick => rfl
  | loop _ body => by simpa [toJson] using areWritten_toJsonList body
termination_by structural i => i

theorem areWritten_toJsonList : ∀ is : List Instruction, ∀ item ∈ toJsonList is, item.isPlain = true
  | [] => by simp [toJsonList]
  | i :: rest => by
    rw [toJsonList, forall_mem_cons]
    exact ⟨isPlain_toJson i, areWritten_toJsonList rest⟩
termination_by structural is => is
end

lemma depth_loop (count : Nat) (body : List Instruction) :
    (loop count body).toJson.depth = Json.depthItems (toJsonList body) + 3 := by
  simp [toJson, Json.record, Json.list, Json.depth, Json.depthFields, Json.ofNat, Json.ofInt]

/-! Decoding. -/

lemma decodeBounded_record {b : Nat} {kind : String} {fields : List (Field InstructionParts)}
    {make : InstructionParts → Instruction} {value : Json} {parts : InstructionParts}
    {i : Instruction} (named : kind ≠ "Tick")
    (known : (kinds (.list (decodeBounded b))).lookup kind = some (fields, make))
    (read : Decoder.record fields {} value = .ok parts) (made : make parts = i) :
    decodeBounded (b + 1) (.record [(kind, value)]) = .ok i := by
  simp only [Json.record, decodeBounded, named, if_false, known, read, ← made]
  rfl

mutual
theorem decodeBounded_toJson : ∀ (i : Instruction) {b : Nat}, i.fits = true →
    ReadBack i.numbers → i.toJson.depth < b → decodeBounded b i.toJson = .ok i
  | coords q values, b + 1, small, _, _ => by
    rw [fits, Bool.and_eq_true, decide_eq_true_eq, all_eq_true] at small
    have places : list int32 (.list (values.map .ofInt)) = .ok values :=
      list_encode fun z mem => int32_ofInt (small.2 z mem)
    rw [toJson]
    exact decodeBounded_record (by decide) rfl (record_of_values [_, _] (by decide) rfl
      (.field (word_ofNat small.1) <| .field places <| .nil _)) rfl
  | gate g targets, b + 1, small, _, _ => by
    rw [fits] at small
    rw [toJson]
    exact decodeBounded_record (by decide) rfl (record_of_values [_, _] (by decide) rfl
      (.field g.decode_toJson <| .field (words_encode small) <| .nil _)) rfl
  | noise c parameters targets, b + 1, small, back, _ => by
    rw [fits] at small
    rw [numbers] at back
    rw [toJson]
    exact decodeBounded_record (by decide) rfl (record_of_values [_, _, _] (by decide) rfl
      (.field c.decode_toJson <| .field (list_encode back) <|
        .field (words_encode small) <| .nil _)) rfl
  | measure g flip targets, b + 1, small, back, _ => by
    rw [fits, all_eq_true] at small
    rw [numbers] at back
    have measured : list Target.decode (.list (targets.map Target.toJson)) = .ok targets :=
      list_encode fun t mem => Target.decode_toJson (small t mem)
    have flipped : option double (.ofOption .ofDouble flip) = .ok flip :=
      option_encode rfl fun x same => back x (Option.mem_toList.mpr same)
    rw [toJson]
    exact decodeBounded_record (by decide) rfl (record_of_values [_, _, _] (by decide) rfl
      (.field g.decode_toJson <| .field flipped <| .field measured <| .nil _)) rfl
  | detector offsets, b + 1, small, _, _ => by
    rw [fits] at small
    rw [toJson]
    exact decodeBounded_record (by decide) rfl (record_of_values [_] (by decide) rfl
      (.field (offsets_encode small) <| .nil _)) rfl
  | observable index offsets, b + 1, small, _, _ => by
    rw [fits, Bool.and_eq_true, decide_eq_true_eq] at small
    rw [toJson]
    exact decodeBounded_record (by decide) rfl (record_of_values [_, _] (by decide) rfl
      (.field (word_ofNat small.1) <| .field (offsets_encode small.2) <| .nil _)) rfl
  | tick, b + 1, _, _, _ => rfl
  | loop count body, b + 1, small, back, shallow => by
    rw [fits, Bool.and_eq_true, decide_eq_true_eq] at small
    rw [numbers] at back
    rw [depth_loop] at shallow
    have inner : list (decodeBounded b) (.list (toJsonList body)) = .ok body := by
      rw [toJsonList_eq_map]
      exact list_encode (decodeBounded_toJsonList body small.2 back (by omega))
    rw [toJson]
    refine decodeBounded_record (by decide) rfl (record_of_values [_, _] ?_ rfl
      (.field (word_ofNat small.1) <| .field inner <| .nil _)) rfl
    -- The fields depend on the bound, but their names do not.
    exact (by decide : ["count", "body"].Nodup)
termination_by structural i => i

theorem decodeBounded_toJsonList : ∀ (is : List Instruction) {b : Nat}, allFit is = true →
    ReadBack (numbersIn is) → Json.depthItems (toJsonList is) < b →
      ∀ i ∈ is, decodeBounded b i.toJson = .ok i
  | [], _, _, _, _ => forall_mem_nil _
  | i :: rest, b, small, back, shallow => by
    rw [allFit, Bool.and_eq_true] at small
    rw [numbersIn, ReadBack, forall_mem_append] at back
    rw [toJsonList, Json.depthItems] at shallow
    rw [forall_mem_cons]
    exact ⟨decodeBounded_toJson i small.1 back.1 (by omega),
      decodeBounded_toJsonList rest small.2 back.2 (by omega)⟩
termination_by structural is => is
end

mutual
theorem isFinite_iff : ∀ i : Instruction, i.isFinite = true ↔ ∀ x ∈ i.numbers, x.isFinite = true
  | noise _ parameters _ => by rw [isFinite, numbers, all_eq_true]
  | measure _ flip _ => by cases flip <;> simp [isFinite, numbers]
  | loop _ body => by rw [isFinite, numbers, areFinite_iff body]
  | coords _ _ | gate _ _ | detector _ | observable _ _ | tick => by simp [isFinite, numbers]
termination_by structural i => i

theorem areFinite_iff : ∀ is : List Instruction,
    areFinite is = true ↔ ∀ x ∈ numbersIn is, x.isFinite = true
  | [] => by simp [areFinite, numbersIn]
  | i :: rest => by
    rw [areFinite, numbersIn, Bool.and_eq_true, isFinite_iff i, areFinite_iff rest,
      forall_mem_append]
termination_by structural is => is
end

end Instruction

namespace Program

lemma isPlain_toJson (p : Program) : p.toJson.isPlain = true := by
  simpa [toJson] using Instruction.areWritten_toJsonList p.instructions

lemma depth_toJson (p : Program) :
    p.toJson.depth = Json.depthItems (Instruction.toJsonList p.instructions) + 2 := by
  simp [toJson, Json.record, Json.list, Json.depth, Json.depthFields]

/-- Every program with finite numbers, and integers that fit their words, whose page is nested no
deeper than the reader allows is decoded again from its page, provided that its doubles are read
back from the numerals they are written as. -/
theorem decode_page (p : Program) (fits : p.fits = true) (finite : p.isFinite = true)
    (shallow : p.toJson.depth ≤ Json.maxDepth)
    (read_back : ∀ x ∈ p.numbers, x.isFinite = true → (Numeral.ofDouble x).toDouble? = some x) :
    decode.run p.toJson.page = .ok p := by
  have doubles : Decoder.ReadBack p.numbers :=
    Decoder.readBack_of_numerals ((Instruction.areFinite_iff p.instructions).mp finite) read_back
  have nested : Json.depthItems (Instruction.toJsonList p.instructions) < Json.maxDepth + 1 := by
    have whole := p.depth_toJson
    omega
  have each := Instruction.decodeBounded_toJsonList p.instructions fits doubles nested
  rw [Decoder.run_page _ p.isPlain_toJson shallow, toJson, Instruction.toJsonList_eq_map]
  exact Decoder.record_of_values [_] (by decide) rfl (.field (Decoder.list_encode each) <| .nil _)

/-- A program that is not read back from its text: products with the identity or without letters,
offsets that count forward, a reset that measures, and a negative zero in blocks in blocks. -/
def oddities : Program where
  instructions :=
    [.coords 18446744073709551615 [-2147483648, 2147483647], .gate .MPP [0],
      .loop 18446744073709551615
        [.noise .depolarize1 [.ofRatio true 0 1, .ofRatio false 1 1000, .ofRatio false 1 3] [3],
          .loop 0
            [.measure .R (some (.ofRatio false 1 100)) [.product [(.I, 0)], .product [], .qubit 7],
              .loop 1 [.tick, .measure .M none []]]],
      .detector [9223372036854775807, -9223372036854775808],
      .observable 18446744073709551615 []]

theorem decode_page_oddities :
    oddities.fits = true ∧ oddities.isFinite = true ∧
      oddities.toJson.depth ≤ Json.maxDepth ∧
      (∀ x ∈ oddities.numbers,
        x.isFinite = true → (Numeral.ofDouble x).toDouble? = some x) ∧
      decode.run oddities.toJson.page = .ok oddities := by
  have fits : oddities.fits = true := by decide +kernel
  have finite : oddities.isFinite = true := by decide +kernel
  have shallow : oddities.toJson.depth ≤ Json.maxDepth := by decide +kernel
  have read_back : ∀ x ∈ oddities.numbers,
      x.isFinite = true → (Numeral.ofDouble x).toDouble? = some x := by decide +kernel
  exact ⟨fits, finite, shallow, read_back,
    decode_page oddities fits finite shallow read_back⟩

end Program

end SyndromeSchedule
