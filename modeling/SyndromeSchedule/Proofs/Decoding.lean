import SyndromeSchedule.Document.Pauli
import SyndromeSchedule.Proofs.Outcome
import SyndromeSchedule.Proofs.Pages

/-!
Decoders against encoders. A decoder is stable if whatever it gives is decoded again from what it is
encoded as; lists, pairs, options and records of stable parts are stable. The fields of a record are
decoded one by one, in the order in which they are written.
-/

namespace SyndromeSchedule

open List
open Outcome (mapM_eq_ok map_eq_ok of_bind of_bind_pure pure_eq_ok)

namespace Reading

variable {α : Type}

lemma require_eq_ok {condition : Bool} : require condition = .ok () ↔ condition = true := by
  cases condition <;> simp [require, misfit]

lemma ofOption_eq_ok {x : Option α} {a : α} : ofOption x = .ok a ↔ x = some a := by
  cases x <;> simp [ofOption, misfit]

lemma ofExcept_eq_ok {ε : Type} {wrap : ε → DesignError} {x : Except ε α} {a : α} :
    ofExcept wrap x = .ok a ↔ x = .ok a := by
  cases x <;> simp [ofExcept]

end Reading

namespace Decoder

open Reading

variable {α β : Type} {decode first : Decoder α} {encode : α → Json} {second : Decoder β}
variable {z : Int} {j : Json}

/-- The value is decoded from what it is encoded as. -/
def Restores (decode : Decoder α) (encode : α → Json) (a : α) : Prop :=
  decode (encode a) = .ok a

/-- What is decoded at all is decoded again from what it is encoded as. -/
def Stable (decode : Decoder α) (encode : α → Json) : Prop :=
  ∀ ⦃j : Json⦄ ⦃a : α⦄, decode j = .ok a → Restores decode encode a

def encodeList (encode : α → Json) (values : List α) : Json := .list (values.map encode)

def encodePair (encode : α → Json) (encode' : β → Json) (e : α × β) : Json :=
  .list [encode e.1, encode' e.2]

/-! Numbers. -/

lemma integer_ofInt {low high : Int} (above : -(Word.half : Int) ≤ z) (below : z < Word.size)
    (first : low ≤ z) (last : z ≤ high) : integer low high (.ofInt z) = .ok z := by
  simp [integer, Json.ofInt, Numeral.toInt?_ofInt above below, first, last, Bool.and_self]

lemma integer_eq_ok {low high : Int} (h : integer low high j = .ok z) : low ≤ z ∧ z ≤ high := by
  unfold integer at h
  split at h
  · split at h
    · split_ifs at h with inside
      · rw [← Except.ok.inj h]
        simpa using inside
      · cases h
    · cases h
  · cases h

lemma int32_ofInt (fits : Word.isInt32 z = true) : int32 (.ofInt z) = .ok z := by
  simp only [Word.isInt32, Bool.and_eq_true, decide_eq_true_eq] at fits
  exact integer_ofInt (by unfold Word.half; omega) (by unfold Word.size; omega) (by omega)
    (by omega)

lemma int64_ofInt (fits : Word.isInt64 z = true) : int64 (.ofInt z) = .ok z := by
  unfold Word.isInt64 Word.half at fits
  simp only [Bool.and_eq_true, decide_eq_true_eq] at fits
  exact integer_ofInt (by unfold Word.half; omega) (by unfold Word.size; omega) (by omega)
    (by omega)

lemma word_ofNat {n : Nat} (fits : n < Word.size) : word (.ofNat n) = .ok n := by
  have read : integer 0 18446744073709551615 (.ofInt n) = .ok n :=
    integer_ofInt (by unfold Word.half; omega) (by omega) (by omega)
      (by unfold Word.size at fits; omega)
  simp only [word, Json.ofNat, read]
  rfl

lemma stable_int32 : Stable int32 .ofInt := by
  intro j z h
  obtain ⟨low, high⟩ := integer_eq_ok h
  refine int32_ofInt ?_
  simp only [Word.isInt32, Bool.and_eq_true, decide_eq_true_eq]
  omega

lemma stable_int64 : Stable int64 .ofInt := by
  intro j z h
  obtain ⟨low, high⟩ := integer_eq_ok h
  refine int64_ofInt ?_
  unfold Word.isInt64 Word.half
  simp only [Bool.and_eq_true, decide_eq_true_eq]
  omega

lemma stable_word : Stable word .ofNat := by
  intro j n h
  obtain ⟨z, read, rfl⟩ := map_eq_ok.mp h
  obtain ⟨low, high⟩ := integer_eq_ok read
  exact word_ofNat (by unfold Word.size; omega)

lemma double_ofDouble {x : Double} (finite : x.isFinite = true)
    (exact_numeral : (Numeral.ofDouble x).toDouble? = some x) : double (.ofDouble x) = .ok x := by
  simp only [Json.ofDouble, finite, if_true, double, exact_numeral, ofOption]

lemma isFinite_of_double {x : Double} (h : double j = .ok x) : x.isFinite = true := by
  unfold double at h
  split at h
  · exact Numeral.isFinite_of_toDouble? (ofOption_eq_ok.mp h)
  · cases h

/-- Doubles are read back from the numerals they are written as. -/
def ReadBack (numbers : List Double) : Prop :=
  ∀ x ∈ numbers, Restores double .ofDouble x

lemma readBack_of_numerals {numbers : List Double} (finite : ∀ x ∈ numbers, x.isFinite = true)
    (numerals : ∀ x ∈ numbers, x.isFinite = true → (Numeral.ofDouble x).toDouble? = some x) :
    ReadBack numbers :=
  fun x mem => double_ofDouble (finite x mem) (numerals x mem (finite x mem))

/-! Lists, pairs and options. -/

lemma list_encode {values : List α} (each : ∀ a ∈ values, Restores decode encode a) :
    Restores (list decode) (encodeList encode) values := by
  have all : (values.map encode).mapM decode = .ok values := by
    rwa [mapM_eq_ok, forall₂_map_left_iff, forall₂_same]
  simp only [Restores, encodeList, list, Json.list, all]
  rfl

lemma list_eq_ok {values : List α} (h : list decode j = .ok values) :
    ∀ a ∈ values, ∃ item, decode item = .ok a := by
  unfold list at h
  split at h
  · obtain ⟨_, all, h⟩ := of_bind h
    obtain ⟨_, _, rfl⟩ := of_bind_pure h
    intro a mem
    obtain ⟨item, _, read⟩ := exists_left_of_forall₂ (mapM_eq_ok.mp all) mem
    exact ⟨item, read⟩
  · cases h

lemma Stable.list (h : Stable decode encode) : Stable (list decode) (encodeList encode) := by
  intro j values read
  refine list_encode fun a mem => ?_
  obtain ⟨item, found⟩ := list_eq_ok read a mem
  exact h found

lemma pair_encode {encode' : β → Json} {e : α × β} (left : Restores first encode e.1)
    (right : Restores second encode' e.2) :
    Restores (pair first second) (encodePair encode encode') e := by
  unfold Restores at left right
  simp only [Restores, encodePair, pair, Json.list, left, right]
  rfl

lemma pair_eq_ok {a : α} {b : β} (h : pair first second j = .ok (a, b)) :
    (∃ item, first item = .ok a) ∧ ∃ item, second item = .ok b := by
  unfold pair at h
  split at h
  · obtain ⟨x, left, h⟩ := of_bind h
    obtain ⟨y, right, h⟩ := of_bind h
    obtain ⟨_, _, h⟩ := of_bind h
    obtain ⟨rfl, rfl⟩ := Prod.mk.inj (pure_eq_ok.mp h)
    exact ⟨⟨_, left⟩, _, right⟩
  · obtain ⟨_, _, h⟩ := of_bind h
    cases h
  · cases h

lemma Stable.pair {encode' : β → Json} (h : Stable first encode) (h' : Stable second encode') :
    Stable (pair first second) (encodePair encode encode') := by
  rintro j ⟨a, b⟩ read
  obtain ⟨⟨_, left⟩, _, right⟩ := pair_eq_ok read
  exact pair_encode (h left) (h' right)

lemma option_encode {value : Option α}
    (nothing : decode .null = misfit) (each : ∀ a ∈ value, Restores decode encode a) :
    Restores (option decode) (.ofOption encode) value := by
  cases value with
  | none => rfl
  | some a =>
    have read := each a rfl
    unfold Restores at read
    rw [Restores, Json.ofOption]
    unfold option
    split
    · next same =>
        rw [same, nothing] at read
        cases read
    · rw [read]
      rfl

lemma option_eq_ok {a : α} (h : option decode j = .ok (some a)) :
    ∃ item, decode item = .ok a := by
  unfold option at h
  split at h
  · cases h
  · obtain ⟨b, read, same⟩ := map_eq_ok.mp h
    rw [Option.some.inj same] at read
    exact ⟨_, read⟩

lemma Stable.option (h : Stable decode encode)
    (nothing : decode .null = misfit) : Stable (option decode) (.ofOption encode) := by
  intro j value read
  refine option_encode nothing fun a same => ?_
  rw [Option.mem_def.mp same] at read
  obtain ⟨item, found⟩ := option_eq_ok read
  exact h found

end Decoder

/-! Records. -/

namespace Field

variable {σ α : Type}

/-- Whether a property of the record survives the field. -/
def Keeps (P : σ → Prop) (f : Field σ) : Prop :=
  ∀ ⦃s : σ⦄ ⦃j : Json⦄ ⦃next : σ⦄, P s → f.read s j = .ok next → P next

lemma keeps_of {P : σ → Prop} {name : String} {presence : Presence} {decode : Decoder α}
    {set : σ → α → σ} (h : ∀ {s j a}, P s → decode j = .ok a → P (set s a)) :
    (of name presence decode set).Keeps P := by
  intro s j next before read
  obtain ⟨a, found, rfl⟩ := map_eq_ok.mp read
  exact h before found

/-- Fields with their values, decoded one after the other. -/
inductive Fills : List (Field σ × Json) → σ → σ → Prop where
  | nil (s : σ) : Fills [] s s
  | cons {f : Field σ} {j : Json} {rest : List (Field σ × Json)} {s next last : σ}
      (read : f.read s j = .ok next) (others : Fills rest next last) :
      Fills ((f, j) :: rest) s last

lemma Fills.field {name : String} {presence : Presence} {decode : Decoder α} {set : σ → α → σ}
    {s last : σ} {j : Json} {a : α} {rest : List (Field σ × Json)} (h : decode j = .ok a)
    (others : Fills rest (set s a) last) :
    Fills ((of name presence decode set, j) :: rest) s last := by
  refine .cons ?_ others
  simp only [of, h]
  rfl

/-- The text of fields with their values. -/
def entries (filled : List (Field σ × Json)) : List (String × Json) :=
  filled.map fun e => (e.1.name, e.2)

lemma find?_of_mem {fields : List (Field σ)} (distinct : (fields.map (·.name)).Nodup)
    {f : Field σ} (mem : f ∈ fields) : fields.find? (·.name = f.name) = some f := by
  induction fields with
  | nil => cases mem
  | cons g rest ih =>
    rw [map_cons, nodup_cons] at distinct
    rcases mem_cons.mp mem with rfl | later
    · simp
    · have other : g.name ≠ f.name := fun same =>
        distinct.1 (same ▸ mem_map_of_mem later)
      rw [find?_cons_of_neg (by simpa using other)]
      exact ih distinct.2 later

end Field

namespace Decoder

open Reading

variable {σ : Type} {fields : List (Field σ)} {filled : List (Field σ × Json)}
  {last start s next : σ}
variable {seen : List String} {entries : List (String × Json)}

lemma named_of_fills (distinct : (fields.map (·.name)).Nodup) (fills : Field.Fills filled s last)
    (known : ∀ e ∈ filled, e.1 ∈ fields) (once : (filled.map (·.1.name)).Nodup)
    (fresh : ∀ e ∈ filled, e.1.name ∉ seen) :
    named fields seen s (Field.entries filled) =
      .ok (last, (filled.map (·.1.name)).reverse ++ seen) := by
  induction fills generalizing seen with
  | nil s => rfl
  | @cons f j rest s next last read _ ih =>
    rw [map_cons, nodup_cons] at once
    have found := Field.find?_of_mem distinct (known (f, j) (.head _))
    have new : (decide (f.name ∉ seen)) = true := decide_eq_true (fresh (f, j) (.head _))
    have later : ∀ e ∈ rest, e.1.name ∉ f.name :: seen := by
      intro e mem
      rw [mem_cons, not_or]
      refine ⟨fun same => once.1 ?_, fresh e (.tail _ mem)⟩
      exact same ▸ mem_map_of_mem mem
    have others := ih (fun e mem => known e (.tail _ mem)) once.2 later
    simp only [Field.entries, map_cons, named, found, new, require, if_true] at others ⊢
    simp [bind, Except.bind, read, others]

/-- A record is decoded from any of its fields, as long as those that have to be there are. -/
theorem object_of_fills (distinct : (fields.map (·.name)).Nodup)
    (fills : Field.Fills filled start last) (ordered : (filled.map (·.1)).Sublist fields)
    (complete : ∀ f ∈ fields, f.presence = .required → f ∈ filled.map (·.1)) :
    object fields start (.record (Field.entries filled)) = .ok last := by
  have known : ∀ e ∈ filled, e.1 ∈ fields := fun e mem =>
    ordered.subset (mem_map_of_mem mem)
  have once : (filled.map (·.1.name)).Nodup := by
    have names := ordered.map (·.name)
    rw [map_map] at names
    exact names.nodup distinct
  have read := named_of_fills distinct fills known once (fun _ _ => not_mem_nil)
  have present : (fields.all fun f => f.presence ≠ .required ||
      f.name ∈ (filled.map (·.1.name)).reverse ++ []) = true := by
    rw [all_eq_true]
    intro f mem
    by_cases required : f.presence = .required
    · obtain ⟨e, inside, rfl⟩ := mem_map.mp (complete f mem required)
      have listed : e.1.name ∈ filled.map (·.1.name) := mem_map_of_mem inside
      simp [required, listed]
    · simp [required]
  simp only [object, Json.record, read, bind, Except.bind, require, present, decide_true, if_true]
  rfl

lemma record_of_first (n : Nat) (values : List Json) (distinct : (fields.map (·.name)).Nodup)
    (count : (fields.take n).length = values.length)
    (optional : ∀ f ∈ fields.drop n, f.presence ≠ .required)
    (fills : Field.Fills ((fields.take n).zip values) start last) :
    record fields start (.record (Field.entries ((fields.take n).zip values))) = .ok last := by
  have first : ((fields.take n).zip values).map (·.1) = fields.take n :=
    map_fst_zip (le_of_eq count)
  refine object_of_fills distinct fills ?_ fun f mem required => ?_
  · rw [first]
    exact take_sublist n fields
  · rw [first]
    rw [← take_append_drop n fields, mem_append] at mem
    exact mem.resolve_right fun later => optional f later required

lemma record_of_values (values : List Json) (distinct : (fields.map (·.name)).Nodup)
    (count : fields.length = values.length)
    (fills : Field.Fills (fields.zip values) start last) :
    record fields start (.record (Field.entries (fields.zip values))) = .ok last := by
  have all : (fields.zip values).map (·.1) = fields := map_fst_zip (le_of_eq count)
  refine object_of_fills distinct fills ?_ fun f mem _ => ?_
  · rw [all]
  · rwa [all]

lemma named_seen {after : List String} (read : named fields seen s entries = .ok (next, after)) :
    ∀ name ∈ after, name ∈ seen ∨ name ∈ entries.map (·.1) := by
  induction entries generalizing seen s with
  | nil =>
    rw [named, Except.ok.injEq, Prod.mk.injEq] at read
    exact fun name mem => .inl (read.2 ▸ mem)
  | cons e rest ih =>
    obtain ⟨key, value⟩ := e
    intro name mem
    rw [map_cons, mem_cons]
    rw [named] at read
    split at read
    · obtain ⟨_, _, read⟩ := of_bind read
      exact (ih read name mem).imp_right .inr
    · obtain ⟨_, _, read⟩ := of_bind read
      obtain ⟨_, _, read⟩ := of_bind read
      rcases ih read name mem with earlier | later
      · rcases mem_cons.mp earlier with same | before
        · exact .inr (.inl same)
        · exact .inl before
      · exact .inr (.inr later)

lemma name_mem_of_object
    (read : object fields start (.record entries) = .ok last) {f : Field σ} (mem : f ∈ fields)
    (required : f.presence = .required) : f.name ∈ entries.map (·.1) := by
  obtain ⟨⟨s, seen⟩, first, read⟩ := of_bind read
  obtain ⟨_, _, read⟩ := of_bind read
  obtain ⟨_, complete, _⟩ := of_bind read
  have present := all_eq_true.mp (require_eq_ok.mp complete) f mem
  simp only [required, ne_eq, not_true_eq_false, decide_false, Bool.false_or,
    decide_eq_true_eq] at present
  exact (named_seen first f.name present).resolve_left not_mem_nil

lemma named_keeps {P : σ → Prop} (each : ∀ f ∈ fields, f.Keeps P) {after : List String}
    (before : P s) (read : named fields seen s entries = .ok (next, after)) : P next := by
  induction entries generalizing seen s with
  | nil =>
    rw [named, Except.ok.injEq, Prod.mk.injEq] at read
    exact read.1 ▸ before
  | cons e rest ih =>
    obtain ⟨key, value⟩ := e
    rw [named] at read
    split at read
    · obtain ⟨_, _, read⟩ := of_bind read
      exact ih before read
    · next f found =>
        obtain ⟨_, _, read⟩ := of_bind read
        obtain ⟨mid, first, read⟩ := of_bind read
        exact ih (each f (mem_of_find?_eq_some found) before first) read

lemma listed_keeps {P : σ → Prop} (each : ∀ f ∈ fields, f.Keeps P) {items : List Json}
    (before : P s) (read : listed fields s items = .ok next) : P next := by
  induction fields generalizing s items with
  | nil =>
    cases items with
    | nil =>
      obtain ⟨_, _, read⟩ := of_bind read
      exact pure_eq_ok.mp read ▸ before
    | cons _ _ => cases read
  | cons f more ih =>
    cases items with
    | nil =>
      obtain ⟨_, _, read⟩ := of_bind read
      exact pure_eq_ok.mp read ▸ before
    | cons value rest =>
      obtain ⟨mid, first, read⟩ := of_bind read
      exact ih (fun g mem => each g (.tail _ mem)) (each f (.head _) before first) read

lemma object_keeps (P : σ → Prop) {j : Json}
    (read : object fields start j = .ok last) (before : P start)
    (each : fields.Forall (Field.Keeps P)) : P last := by
  unfold object at read
  split at read
  · obtain ⟨⟨s, seen⟩, first, read⟩ := of_bind read
    obtain ⟨_, _, read⟩ := of_bind read
    obtain ⟨_, _, rfl⟩ := of_bind_pure read
    exact named_keeps (forall_iff_forall_mem.mp each) before first
  · cases read

lemma record_keeps (P : σ → Prop) {j : Json}
    (read : record fields start j = .ok last) (before : P start)
    (each : fields.Forall (Field.Keeps P)) : P last := by
  unfold record at read
  split at read
  · obtain ⟨s, first, read⟩ := of_bind read
    obtain ⟨_, _, rfl⟩ := of_bind_pure read
    exact listed_keeps (forall_iff_forall_mem.mp each) before first
  · exact object_keeps P read before each

end Decoder

/-! Readable values. -/

namespace Json

variable {α : Type} {fields : List (String × Json)}

lemma areReadable_iff {items : List Json} :
    areReadable items = true ↔ ∀ item ∈ items, item.isReadable = true := by
  induction items with
  | nil => simp [areReadable]
  | cons item rest ih => simp [areReadable, ih]

lemma fieldsReadable_iff :
    fieldsReadable fields = true ↔ ∀ f ∈ fields, f.2.isReadable = true := by
  induction fields with
  | nil => simp [fieldsReadable]
  | cons f rest ih =>
    obtain ⟨name, value⟩ := f
    simp [fieldsReadable, ih]

lemma isReadable_record (each : fields.Forall fun f => f.2.isReadable = true) :
    (record fields).isReadable = true := by
  rw [record, isReadable, fieldsReadable_iff.mpr (forall_iff_forall_mem.mp each)]
  rfl

lemma isReadable_encodeList {encode : α → Json} {values : List α}
    (each : ∀ a ∈ values, (encode a).isReadable = true) :
    (Decoder.encodeList encode values).isReadable = true := by
  rw [Decoder.encodeList, list, isReadable, areReadable_iff.mpr (forall_mem_map.mpr each)]
  rfl

end Json

namespace Decoder

/-- A decoder of what a text can hold. -/
def Strict {α : Type} (decode : Decoder α) : Prop :=
  ∀ ⦃j : Json⦄ ⦃a : α⦄, decode j = .ok a → j.isReadable = true

lemma strict_integer (low high : Int) : Strict (integer low high) := by
  intro j z read
  unfold integer at read
  split at read
  · split at read
    · next found => simp [Json.isReadable, found]
    · cases read
  · cases read

lemma strict_word : Strict word := by
  intro j n read
  obtain ⟨z, found, _⟩ := map_eq_ok.mp read
  exact strict_integer _ _ found

lemma strict_double : Strict double := by
  intro j x read
  unfold double at read
  split at read
  · simp [Json.isReadable, Reading.ofOption_eq_ok.mp read]
  · cases read

lemma Strict.list {α : Type} {decode : Decoder α} (h : Strict decode) : Strict (list decode) := by
  intro j values read
  unfold Decoder.list at read
  split at read
  · obtain ⟨_, all, read⟩ := of_bind read
    obtain ⟨_, closed, _⟩ := of_bind read
    rw [Json.isReadable, Reading.require_eq_ok.mp closed, Bool.and_true, Json.areReadable_iff]
    intro item mem
    obtain ⟨a, _, found⟩ := exists_right_of_forall₂ (mapM_eq_ok.mp all) mem
    exact h found
  · cases read

end Decoder

/-! What is written is plain. -/

namespace Json

/-- A plain value with no more than some levels. -/
def Fits (d : Nat) (j : Json) : Prop := j.isPlain = true ∧ j.depth ≤ d

variable {α : Type} {d : Nat} {encode : α → Json}

@[simp]
lemma isPlain_ofInt (z : Int) : (ofInt z).isPlain = true := Numeral.isPlain_ofInt z

@[simp]
lemma isPlain_ofNat (n : Nat) : (ofNat n).isPlain = true := isPlain_ofInt n

@[simp]
lemma isPlain_ofDouble (x : Double) : (ofDouble x).isPlain = true := by
  unfold ofDouble
  split_ifs with finite
  · exact Numeral.isPlain_ofDouble finite
  · rfl

@[simp]
lemma isPlain_nameIn [DecidableEq α] (names : List (String × α)) (a : α) :
    (nameIn names a).isPlain = true := rfl

@[simp]
lemma isPlain_ofOption (value : Option α)
    (plain : ∀ a, (encode a).isPlain = true) : (ofOption encode value).isPlain = true := by
  cases value with
  | none => rfl
  | some a => exact plain a

lemma fits_ofInt (z : Int) : (ofInt z).Fits d := ⟨isPlain_ofInt z, Nat.zero_le d⟩

lemma fits_ofNat (n : Nat) : (ofNat n).Fits d := fits_ofInt n

lemma fits_ofDouble (x : Double) : (ofDouble x).Fits d := by
  refine ⟨isPlain_ofDouble x, ?_⟩
  unfold ofDouble
  split_ifs <;> exact Nat.zero_le d

lemma fits_bool (b : Bool) : (bool b).Fits d := ⟨rfl, Nat.zero_le d⟩

lemma fits_string (text : String) : (string text).Fits d := ⟨rfl, Nat.zero_le d⟩

lemma fits_nameIn [DecidableEq α] (names : List (String × α)) (a : α) :
    (nameIn names a).Fits d := fits_string _

lemma fits_ofOption {value : Option α}
    (each : ∀ a, (encode a).Fits d) : (ofOption encode value).Fits d := by
  cases value with
  | none => exact ⟨rfl, Nat.zero_le d⟩
  | some a => exact each a

lemma fits_list {items : List Json} (each : ∀ item ∈ items, item.Fits d) :
    (list items).Fits (d + 1) :=
  ⟨isPlain_list.mpr fun item mem => (each item mem).1,
    depth_list_le.mpr fun item mem => (each item mem).2⟩

lemma fits_encodeList {values : List α} (each : ∀ a, (encode a).Fits d) :
    (Decoder.encodeList encode values).Fits (d + 1) :=
  fits_list (forall_mem_map.mpr fun a _ => each a)

lemma fits_encodePair {β : Type} {encode' : β → Json}
    (left : ∀ a, (encode a).Fits d) (right : ∀ b, (encode' b).Fits d) (e : α × β) :
    (Decoder.encodePair encode encode' e).Fits (d + 1) :=
  fits_list (forall_mem_cons.mpr ⟨left e.1, forall_mem_singleton.mpr (right e.2)⟩)

lemma fits_record {fields : List (String × Json)} (each : fields.Forall fun f => f.2.Fits d) :
    (record fields).Fits (d + 1) :=
  have all := forall_iff_forall_mem.mp each
  ⟨isPlain_record.mpr fun f mem => (all f mem).1, depth_record_le.mpr fun f mem => (all f mem).2⟩

end Json

/-! Letters, phases, states, qubits and operators. -/

lemma Pauli.decode_toJson (a : Pauli) : decode a.toJson = .ok a := by cases a <;> rfl

lemma Phase.decode_toJson (a : Phase) : decode a.toJson = .ok a := by cases a <;> rfl

lemma State.decode_toJson (a : State) : decode a.toJson = .ok a := by cases a <;> rfl

lemma Operator.decode_toJson (a : Operator) : decode a.toJson = .ok a :=
  Decoder.record_of_values [a.letter.toJson, a.phase.toJson] (by decide) rfl
    (.field a.letter.decode_toJson <| .field a.phase.decode_toJson <| .nil _)

lemma Operator.fits (a : Operator) {d : Nat} : a.toJson.Fits (d + 1) :=
  Json.fits_record ⟨Json.fits_nameIn _ _, Json.fits_nameIn _ _⟩

lemma Coordinates.stable_decode : Decoder.Stable decode toJson := by
  intro j p read
  obtain ⟨values, found, rfl⟩ := map_eq_ok.mp read
  exact map_eq_ok.mpr ⟨values, Decoder.stable_int32.list found, rfl⟩

lemma Coordinates.fits (p : Coordinates) {d : Nat} : p.toJson.Fits (d + 1) :=
  Json.fits_encodeList Json.fits_ofInt

end SyndromeSchedule
