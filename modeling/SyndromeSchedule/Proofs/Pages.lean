import SyndromeSchedule.Json.Decode
import SyndromeSchedule.Proofs.Numerals

/-!
Reading the pages that are written. A value whose parts are all there is read back from its page,
character by character, and so is decoded as if it had never been written, as long as it is not
nested too deeply for the reader.
-/

namespace SyndromeSchedule.Json

open List
open Grammar (Stops stops_cons isSpace_of_isDigit ne_of_isDigit)

variable {bound d : Nat} {items : List Json} {fields : List (String × Json)}
  {space rest : List Char}
variable (chars : List Char)

/-! Strings. -/

lemma hexDigit?_digitChar : ∀ d < 16, hexDigit? (Nat.digitChar d) = some d := by decide

lemma hex4?_digitChar {n : Nat} (small : n < 256) :
    hex4? '0' '0' (Nat.digitChar (n / 16)) (Nat.digitChar (n % 16)) = some n := by
  have zero : hexDigit? '0' = some 0 := rfl
  have high := hexDigit?_digitChar (n / 16) (by omega)
  have low := hexDigit?_digitChar (n % 16) (by omega)
  simp only [hex4?, zero, high, low, Option.bind_eq_bind, Option.bind_some, Option.pure_def]
  congr 1
  omega

/-- A character is read back from its escape. -/
lemma pieces?_escapeChar (bound : Nat) (c : Char) (rest : List Char) :
    pieces? (bound + 1) (escapeChar c ++ rest) =
      (pieces? bound rest).map fun r => (.char c :: r.1, r.2) := by
  have step : ∀ piece : Piece, ((pieces? bound rest).bind fun r => some (piece :: r.1, r.2)) =
      (pieces? bound rest).map fun r => (piece :: r.1, r.2) := by
    intro piece
    cases pieces? bound rest <;> rfl
  unfold escapeChar
  split_ifs with quote slash line feed tab back page low
  · rw [quote]
    exact step _
  · rw [slash]
    exact step _
  · rw [line]
    exact step _
  · rw [feed]
    exact step _
  · rw [tab]
    exact step _
  · rw [back]
    exact step _
  · rw [page]
    exact step _
  · have escaped : escape? ('u' :: '0' :: '0' :: Nat.digitChar (c.toNat / 16) ::
        Nat.digitChar (c.toNat % 16) :: rest) = some (.char c, rest) := by
      have apart : (0xd800 ≤ c.toNat && c.toNat ≤ 0xdfff) = false := by
        simp only [Bool.and_eq_false_iff, decide_eq_false_iff_not]
        omega
      simp only [escape?, hex4?_digitChar (by omega : c.toNat < 256), Option.bind_eq_bind,
        Option.bind_some, apart, Char.ofNat_toNat]
      rfl
    simp only [cons_append, nil_append, pieces?, escaped, Option.bind_eq_bind, Option.bind_some]
    exact step _
  · rw [cons_append, nil_append, pieces?]
    · rw [if_neg low]
      exact step _
    · exact quote
    · exact slash

lemma pieces?_flatMap (enough : chars.length < bound) (rest : List Char) :
    pieces? bound (chars.flatMap escapeChar ++ '"' :: rest) = some (chars.map .char, rest) := by
  induction chars generalizing bound with
  | nil =>
    obtain ⟨b, rfl⟩ := Nat.exists_eq_add_of_lt enough
    rfl
  | cons c more ih =>
    obtain ⟨b, rfl⟩ : ∃ b, bound = b + 1 := ⟨bound - 1, by omega⟩
    rw [flatMap_cons, append_assoc, pieces?_escapeChar, ih (Nat.lt_of_succ_lt_succ enough)]
    rfl

lemma joinPieces_chars : joinPieces (chars.map .char) = some chars := by
  induction chars with
  | nil => rfl
  | cons c more ih => rw [map_cons, joinPieces, ih, Option.map_some]

lemma escapeChar_ne_nil (c : Char) : escapeChar c ≠ [] := by
  unfold escapeChar
  split_ifs <;> simp

lemma length_flatMap_escapeChar : chars.length ≤ (chars.flatMap escapeChar).length := by
  induction chars with
  | nil => exact le_refl 0
  | cons c more ih =>
    have some_char := length_pos_iff.mpr (escapeChar_ne_nil c)
    rw [flatMap_cons, length_append, length_cons]
    omega

lemma string?_text (text : String) (rest : List Char) :
    string? (text.toList.flatMap escapeChar ++ '"' :: rest) = some (some text, rest) := by
  have enough : text.toList.length <
      (text.toList.flatMap escapeChar ++ '"' :: rest).length + 1 := by
    have := length_flatMap_escapeChar text.toList
    rw [length_append]
    omega
  unfold string?
  rw [pieces?_flatMap _ enough]
  simp [joinPieces_chars, String.ofList_toList]

/-! Values that can be written. -/

mutual
/-- Whether all parts of a value are there and its numbers are plain. -/
def isPlain : Json → Bool
  | .null => true
  | .bool _ => true
  | .number n => n.isPlain
  | .string _ => true
  | .array items ending => arePlain items && ending = .closed
  | .object fields ending => fieldsPlain fields && ending = .closed
  | .unreadable => false
  | .broken => false
termination_by structural value => value

def arePlain : List Json → Bool
  | [] => true
  | item :: rest => isPlain item && arePlain rest
termination_by structural items => items

def fieldsPlain : List (String × Json) → Bool
  | [] => true
  | (_, value) :: rest => isPlain value && fieldsPlain rest
termination_by structural fields => fields
end

mutual
/-- Levels of arrays and objects in a value. -/
def depth : Json → Nat
  | .array items _ => depthItems items + 1
  | .object fields _ => depthFields fields + 1
  | .null => 0
  | .bool _ => 0
  | .number _ => 0
  | .string _ => 0
  | .unreadable => 0
  | .broken => 0
termination_by structural value => value

def depthItems : List Json → Nat
  | [] => 0
  | item :: rest => max (depth item) (depthItems rest)
termination_by structural items => items

def depthFields : List (String × Json) → Nat
  | [] => 0
  | (_, value) :: rest => max (depth value) (depthFields rest)
termination_by structural fields => fields
end

lemma arePlain_iff : arePlain items = true ↔ ∀ item ∈ items, item.isPlain = true := by
  induction items with
  | nil => simp [arePlain]
  | cons item rest ih => simp [arePlain, ih]

lemma fieldsPlain_iff : fieldsPlain fields = true ↔ ∀ f ∈ fields, f.2.isPlain = true := by
  induction fields with
  | nil => simp [fieldsPlain]
  | cons f rest ih =>
    obtain ⟨name, value⟩ := f
    simp [fieldsPlain, ih]

@[simp]
lemma isPlain_list : (list items).isPlain = true ↔ ∀ item ∈ items, item.isPlain = true := by
  simp [list, isPlain, arePlain_iff]

@[simp]
lemma isPlain_record : (record fields).isPlain = true ↔ ∀ f ∈ fields, f.2.isPlain = true := by
  simp [record, isPlain, fieldsPlain_iff]

lemma depthItems_le : depthItems items ≤ d ↔ ∀ item ∈ items, item.depth ≤ d := by
  induction items with
  | nil => simp [depthItems]
  | cons item rest ih => simp [depthItems, ih]

lemma depthFields_le : depthFields fields ≤ d ↔ ∀ f ∈ fields, f.2.depth ≤ d := by
  induction fields with
  | nil => simp [depthFields]
  | cons f rest ih =>
    obtain ⟨name, value⟩ := f
    simp [depthFields, ih]

lemma depth_list_le : (list items).depth ≤ d + 1 ↔ ∀ item ∈ items, item.depth ≤ d := by
  rw [list, depth, Nat.add_le_add_iff_right, depthItems_le]

lemma depth_record_le : (record fields).depth ≤ d + 1 ↔ ∀ f ∈ fields, f.2.depth ≤ d := by
  rw [record, depth, Nat.add_le_add_iff_right, depthFields_le]

mutual
theorem limit_of_depth_le {d : Nat} : ∀ j : Json, j.depth ≤ d → limit d j = j
  | .array items ending, shallow => by
    rw [depth] at shallow
    obtain ⟨e, rfl⟩ : ∃ e, d = e + 1 := ⟨d - 1, by omega⟩
    rw [limit, limitItems_of_depth_le items (by omega)]
  | .object fields ending, shallow => by
    rw [depth] at shallow
    obtain ⟨e, rfl⟩ : ∃ e, d = e + 1 := ⟨d - 1, by omega⟩
    rw [limit, limitFields_of_depth_le fields (by omega)]
  | .null, _ | .bool _, _ | .number _, _ | .string _, _ | .unreadable, _ | .broken, _ => by
    cases d <;> rfl
termination_by structural j => j

theorem limitItems_of_depth_le {d : Nat} :
    ∀ items : List Json, depthItems items ≤ d → limitItems d items = items
  | [], _ => rfl
  | item :: rest, shallow => by
    rw [depthItems] at shallow
    rw [limitItems, limit_of_depth_le item (by omega), limitItems_of_depth_le rest (by omega)]
termination_by structural items => items

theorem limitFields_of_depth_le {d : Nat} :
    ∀ fields : List (String × Json), depthFields fields ≤ d → limitFields d fields = fields
  | [], _ => rfl
  | (_, value) :: rest, shallow => by
    rw [depthFields] at shallow
    rw [limitFields, limit_of_depth_le value (by omega), limitFields_of_depth_le rest (by omega)]
termination_by structural fields => fields
end

/-! White space. -/

lemma skipSpace_append (blank : ∀ c ∈ space, isSpace c = true) (text : List Char) :
    skipSpace (space ++ text) = skipSpace text :=
  dropWhile_append_of_pos blank

lemma skipSpace_cons {c : Char} (solid : isSpace c = false) (text : List Char) :
    skipSpace (c :: text) = c :: text := by
  simp [skipSpace, solid]

lemma isSpace_indent (d : Nat) : ∀ c ∈ indent d, isSpace c = true := by
  intro c mem
  rcases mem_cons.mp mem with rfl | blank
  · rfl
  · rw [eq_of_mem_replicate blank]
    rfl

lemma isSpace_blank : ∀ c ∈ [' '], isSpace c = true := by
  intro c mem
  rw [mem_singleton.mp mem]
  rfl

lemma readValue_skip (bound : Nat) (blank : ∀ c ∈ space, isSpace c = true) (text : List Char) :
    readValue bound (space ++ text) = readValue bound text := by
  cases bound with
  | zero => rfl
  | succ b => rw [readValue, readValue, skipSpace_append blank]

lemma readItems_skip (bound : Nat) (blank : ∀ c ∈ space, isSpace c = true) (text : List Char) :
    readItems bound (space ++ text) = readItems bound text := by
  cases bound with
  | zero => rfl
  | succ b => rw [readItems, readItems, readValue_skip b blank]

lemma readFields_skip (bound : Nat) (blank : ∀ c ∈ space, isSpace c = true) (text : List Char) :
    readFields bound (space ++ text) = readFields bound text := by
  cases bound with
  | zero => rfl
  | succ b => rw [readFields, readFields, skipSpace_append blank]

/-! Values without parts. -/

lemma readValue_number (bound : Nat) {n : Numeral} (plain : n.isPlain = true)
    (stops : Stops continuesNumber rest) :
    readValue (bound + 1) (n.text ++ rest) = (.number n, some rest) := by
  have read := numeral?_text plain stops
  obtain ⟨c, cs, text, first⟩ := text_eq_cons plain
  have other : ∀ d : Char, d.isDigit = false → d ≠ '-' → c ≠ d := by
    intro d no_digit no_sign
    rcases first with rfl | digit
    · exact no_sign.symm
    · exact ne_of_isDigit digit no_digit
  have solid : isSpace c = false := by
    simp only [isSpace, Bool.or_eq_false_iff, decide_eq_false_iff_not]
    exact ⟨⟨⟨other _ rfl (by decide), other _ rfl (by decide)⟩, other _ rfl (by decide)⟩,
      other _ rfl (by decide)⟩
  rw [text, cons_append] at read ⊢
  rw [readValue, skipSpace_cons solid]
  split
  iterate 6 next same => exact absurd (cons.inj same).1 (other _ rfl (by decide))
  · rw [read]

lemma readValue_string (bound : Nat) (text : String) (rest : List Char) :
    readValue (bound + 1) (stringText text ++ rest) = (.string text, some rest) := by
  have written : stringText text ++ rest =
      '"' :: (text.toList.flatMap escapeChar ++ '"' :: rest) := by
    simp [stringText]
  rw [written, readValue, skipSpace_cons rfl]
  simp only [string?_text]

/-! Values with parts. -/

/-- The text of a value starts with a character that neither is white space nor closes an array. -/
theorem pretty_eq_cons {j : Json} (plain : j.isPlain = true) (d : Nat) :
    ∃ c cs, pretty d j = c :: cs ∧ isSpace c = false ∧ c ≠ ']' := by
  match j with
  | .null | .bool true | .bool false | .string _ | .array [] _ | .array (_ :: _) _ | .object [] _
  | .object (_ :: _) _ => exact ⟨_, _, rfl, rfl, by decide⟩
  | .number n =>
    obtain ⟨c, cs, text, first⟩ := text_eq_cons (n := n) plain
    refine ⟨c, cs, text, ?_⟩
    rcases first with rfl | digit
    · exact ⟨rfl, by decide⟩
    · refine ⟨?_, ne_of_isDigit digit rfl⟩
      have blank := isSpace_of_isDigit digit
      have line := ne_of_isDigit (d := '\n') digit rfl
      have feed := ne_of_isDigit (d := '\r') digit rfl
      simp only [Grammar.isSpace, Bool.or_eq_false_iff, decide_eq_false_iff_not] at blank
      simp [isSpace, blank, line, feed]

lemma readItems_of_readValue {text : List Char} {item : Json}
    (read : readValue bound text = (item, some rest)) (plain : item.isPlain = true) :
    readItems (bound + 1) text =
      match skipSpace rest with
      | ']' :: rest => ([item], some rest)
      | ',' :: rest => (item :: (readItems bound rest).1, (readItems bound rest).2)
      | _ => ([item], none) := by
  rw [readItems, read]
  cases item with
  | broken => cases plain
  | _ => rfl

lemma readFields_of_readValue {name : String} {text : List Char} {value : Json}
    (read : readValue bound text = (value, some rest)) (plain : value.isPlain = true) :
    readFields (bound + 1) (stringText name ++ ':' :: text) =
      match skipSpace rest with
      | '\x7d' :: rest => ([(some name, value)], some rest)
      | ',' :: rest => ((some name, value) :: (readFields bound rest).1, (readFields bound rest).2)
      | _ => ([(some name, value)], none) := by
  have written : stringText name ++ ':' :: text =
      '"' :: (name.toList.flatMap escapeChar ++ '"' :: ':' :: text) := by
    simp [stringText]
  rw [written, readFields, skipSpace_cons rfl]
  simp only [string?_text, skipSpace_cons (rfl : isSpace ':' = false), read]
  cases value with
  | broken => cases plain
  | _ => rfl

lemma prettyItems_cons (d : Nat) (item : Json) (items : List Json) :
    ∃ tail, prettyItems d (item :: items) = indent (d + 1) ++ (pretty (d + 1) item ++ tail) := by
  cases items with
  | nil => exact ⟨indent d ++ [']'], by simp [prettyItems]⟩
  | cons next more => exact ⟨',' :: prettyItems d (next :: more), by simp [prettyItems]⟩

lemma prettyFields_cons (d : Nat) (field : String × Json) (fields : List (String × Json)) :
    ∃ tail, prettyFields d (field :: fields) = indent (d + 1) ++ '"' :: tail := by
  obtain ⟨name, value⟩ := field
  cases fields with
  | nil =>
    exact ⟨name.toList.flatMap escapeChar ++ '"' :: ':' :: ' ' ::
      (pretty (d + 1) value ++ indent d ++ ['\x7d']), by simp [prettyFields, stringText]⟩
  | cons next more =>
    exact ⟨name.toList.flatMap escapeChar ++ '"' :: ':' :: ' ' ::
      (pretty (d + 1) value ++ ',' :: prettyFields d (next :: more)),
      by simp [prettyFields, stringText]⟩

lemma readValue_array {item : Json} (plain : item.isPlain = true)
    (read : readItems bound (prettyItems d (item :: items) ++ rest) = (item :: items, some rest)) :
    readValue (bound + 1) (pretty d (list (item :: items)) ++ rest) =
      (list (item :: items), some rest) := by
  obtain ⟨tail, written⟩ := prettyItems_cons d item items
  obtain ⟨c, cs, text, solid, other⟩ := pretty_eq_cons plain (d + 1)
  rw [written, text, append_assoc, readItems_skip bound (isSpace_indent _)] at read
  rw [list, pretty, written, text, cons_append, readValue, skipSpace_cons rfl]
  simp only [append_assoc, cons_append, skipSpace_append (isSpace_indent _),
    skipSpace_cons solid] at read ⊢
  split
  · next same => exact absurd (cons.inj same).1 other
  · rw [read]
    rfl

lemma closeObject_named (fields : List (String × Json)) (rest : List Char) :
    closeObject (fields.map fun f => (some f.1, f.2), some rest) = (record fields, some rest) := by
  have used : usable (fields.map fun f => (some f.1, f.2)) = fields := by
    induction fields with
    | nil => rfl
    | cons f more ih => rw [map_cons, usable, ih]
  have named : (fields.map fun f => (some f.1, f.2)).all (·.1.isSome) = true := by simp
  rw [closeObject, used, named]
  rfl

lemma readValue_object {field : String × Json}
    (read : readFields bound (prettyFields d (field :: fields) ++ rest) =
      ((field :: fields).map fun f => (some f.1, f.2), some rest)) :
    readValue (bound + 1) (pretty d (record (field :: fields)) ++ rest) =
      (record (field :: fields), some rest) := by
  obtain ⟨tail, written⟩ := prettyFields_cons d field fields
  rw [written, append_assoc, readFields_skip bound (isSpace_indent _)] at read
  rw [← closeObject_named, ← read, record, pretty, written, cons_append, readValue,
    skipSpace_cons rfl]
  simp only [append_assoc, cons_append, skipSpace_append (isSpace_indent _),
    skipSpace_cons (rfl : isSpace '"' = false)]
  rfl

lemma stops_indent (d : Nat) (rest : List Char) : Stops continuesNumber (indent d ++ rest) :=
  stops_cons rfl _

mutual
theorem readValue_pretty : ∀ (j : Json) {b d : Nat} {r : List Char},
    j.isPlain = true → (pretty d j).length < b → Stops continuesNumber r →
      readValue b (pretty d j ++ r) = (j, some r)
  | .null, b + 1, _, _, _, _, _ | .bool true, b + 1, _, _, _, _, _
  | .bool false, b + 1, _, _, _, _, _ => rfl
  | .number n, b + 1, _, _, plain, _, stops => readValue_number b plain stops
  | .string text, b + 1, _, rest, _, _, _ => readValue_string b text rest
  | .array [] ending, b + 1, d, rest, plain, _, _ => by
    obtain rfl : ending = .closed := by simpa [isPlain, arePlain] using plain
    rfl
  | .array (item :: items) ending, b + 1, d, rest, plain, enough, _ => by
    rw [isPlain, Bool.and_eq_true, decide_eq_true_eq] at plain
    obtain ⟨plain, rfl⟩ := plain
    rw [pretty, length_cons] at enough
    have first : item.isPlain = true := arePlain_iff.mp plain item (.head _)
    exact readValue_array first
      (readItems_pretty (item :: items) (cons_ne_nil _ _) plain (by omega))
  | .object [] ending, b + 1, d, rest, plain, _, _ => by
    obtain rfl : ending = .closed := by simpa [isPlain, fieldsPlain] using plain
    rfl
  | .object (field :: fields) ending, b + 1, d, rest, plain, enough, _ => by
    rw [isPlain, Bool.and_eq_true, decide_eq_true_eq] at plain
    obtain ⟨plain, rfl⟩ := plain
    rw [pretty, length_cons] at enough
    exact readValue_object (readFields_pretty (field :: fields) (cons_ne_nil _ _) plain (by omega))
termination_by structural j => j

theorem readItems_pretty : ∀ (items : List Json) {b d : Nat} {r : List Char},
    items ≠ [] → arePlain items = true → (prettyItems d items).length < b →
      readItems b (prettyItems d items ++ r) = (items, some r)
  | [item], b + 1, d, rest, _, plain, enough => by
    rw [arePlain, arePlain, Bool.and_true] at plain
    simp only [prettyItems, append_assoc, length_append, length_singleton]
      at enough ⊢
    have read := readValue_pretty item (b := b) (d := d + 1) plain (by omega)
      (stops_indent d (']' :: rest))
    rw [readItems_skip (b + 1) (isSpace_indent _)]
    simp only [cons_append, nil_append, readItems_of_readValue read plain,
      skipSpace_append (isSpace_indent _), skipSpace_cons (rfl : isSpace ']' = false)]
  | item :: next :: more, b + 1, d, rest, _, plain, enough => by
    rw [arePlain, Bool.and_eq_true] at plain
    simp only [prettyItems, append_assoc, length_append, length_cons] at enough ⊢
    have read := readValue_pretty item (b := b) (d := d + 1) plain.1 (by omega)
      (stops_cons (rfl : continuesNumber ',' = false) (prettyItems d (next :: more) ++ rest))
    have others := readItems_pretty (next :: more) (b := b) (d := d) (r := rest)
      (cons_ne_nil _ _) plain.2 (by omega)
    rw [readItems_skip (b + 1) (isSpace_indent _)]
    simp only [cons_append, readItems_of_readValue read plain.1,
      skipSpace_cons (rfl : isSpace ',' = false), others]
termination_by structural items => items

theorem readFields_pretty : ∀ (fields : List (String × Json)) {b d : Nat} {r : List Char},
    fields ≠ [] → fieldsPlain fields = true → (prettyFields d fields).length < b →
      readFields b (prettyFields d fields ++ r) = (fields.map fun f => (some f.1, f.2), some r)
  | [(name, value)], b + 1, d, rest, _, plain, enough => by
    rw [fieldsPlain, fieldsPlain, Bool.and_true] at plain
    simp only [prettyFields, append_assoc, length_append, length_cons] at enough ⊢
    have read := readValue_pretty value (b := b) (d := d + 1) plain (by omega)
      (stops_indent d ('\x7d' :: rest))
    have spaced := (readValue_skip b isSpace_blank _).trans read
    rw [readFields_skip (b + 1) (isSpace_indent _)]
    simp only [cons_append, nil_append] at spaced ⊢
    simp only [readFields_of_readValue spaced plain, skipSpace_append (isSpace_indent _),
      skipSpace_cons (rfl : isSpace '\x7d' = false)]
    rfl
  | (name, value) :: next :: more, b + 1, d, rest, _, plain, enough => by
    rw [fieldsPlain, Bool.and_eq_true] at plain
    simp only [prettyFields, append_assoc, length_append, length_cons] at enough ⊢
    have read := readValue_pretty value (b := b) (d := d + 1) plain.1 (by omega)
      (stops_cons (rfl : continuesNumber ',' = false) (prettyFields d (next :: more) ++ rest))
    have others := readFields_pretty (next :: more) (b := b) (d := d) (r := rest)
      (cons_ne_nil _ _) plain.2 (by omega)
    have spaced := (readValue_skip b isSpace_blank _).trans read
    rw [readFields_skip (b + 1) (isSpace_indent _)]
    simp only [cons_append, nil_append] at spaced ⊢
    simp only [readFields_of_readValue spaced plain.1, skipSpace_cons (rfl : isSpace ',' = false),
      others]
    rfl
termination_by structural fields => fields
end

lemma read_page {j : Json} (plain : j.isPlain = true) : read j.page = ⟨j, true⟩ := by
  have whole := readValue_pretty j (b := (pretty 0 j).length + 1) (d := 0) (r := [])
    plain (Nat.lt_succ_self _) (fun c first => by cases first)
  rw [append_nil] at whole
  simp only [read, page, String.toList_ofList, whole]
  rfl

end SyndromeSchedule.Json

namespace SyndromeSchedule

lemma Decoder.run_page {α : Type} (decode : Decoder α) {j : Json} (plain : j.isPlain = true)
    (shallow : j.depth ≤ Json.maxDepth) : decode.run j.page = decode j := by
  simp only [run, Json.read_page plain, Json.limit_of_depth_le j shallow]
  cases decode j <;> rfl

end SyndromeSchedule
