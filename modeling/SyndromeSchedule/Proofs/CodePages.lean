import SyndromeSchedule.Document.Schedule
import SyndromeSchedule.Proofs.Decoding
import SyndromeSchedule.Proofs.Letters

/-!
Checks, detectors, logical operators and codes in documents. A description is validated when it is
read. What was made from it is written as a description that is as valid and makes the same value
again; data qubits are written in order, whatever the order they were read in.
-/

namespace SyndromeSchedule

open List Outcome

open Decoder

open SyndromeSchedule.Field (keeps_of)

variable {j : Json}

/-! Tables. -/

namespace Table

variable {α : Type} {entries : List (Qubit × α)}

lemma mem_foldl_insert {t : Table α} {e : Qubit × α}
    (mem : e ∈ (entries.foldl (fun t e => t.insert e.1 e.2) t).entries) :
    e ∈ entries ∨ e ∈ t.entries := by
  induction entries generalizing t with
  | nil => exact .inr mem
  | cons first rest ih =>
    rcases ih mem with later | before
    · exact .inl (.tail _ later)
    · rcases mem_insertEntry before with rfl | before
      · exact .inl (.head _)
      · exact .inr before

lemma mem_ofList {e : Qubit × α} (mem : e ∈ (ofList entries).entries) : e ∈ entries := by
  rcases mem_foldl_insert mem with found | none
  · exact found
  · cases none

lemma ofList_entries (t : Table α) : ofList t.entries = t :=
  ext_get? fun q => get?_ofList t.keys_nodup q

end Table

lemma QubitSet.ofList_keys (s : QubitSet) : ofList s.keys = s := by
  have same : s.keys.map (fun q => (q, ())) = s.entries := by
    rw [Table.keys, map_map]
    exact map_id _
  rw [ofList, same, Table.ofList_entries]

lemma firstRepeated?_of_nodup {α : Type} [DecidableEq α] {items : List α}
    (distinct : items.Nodup) {seen : List α} (fresh : ∀ a ∈ items, a ∉ seen) :
    firstRepeated? seen items = none := by
  induction items generalizing seen with
  | nil => rfl
  | cons a rest ih =>
    rw [nodup_cons] at distinct
    rw [firstRepeated?, if_neg (fresh a (.head _))]
    refine ih distinct.2 fun b mem => ?_
    rw [mem_cons, not_or]
    exact ⟨fun same => distinct.1 (same ▸ mem), fresh b (.tail _ mem)⟩

/-! Checks. -/

lemma Member.stable_decode : Stable decode toJson := by
  intro j m read
  obtain ⟨offset, qubit⟩ := record_keeps
    (fun m : Member => Restores Coordinates.decode Coordinates.toJson m.offset ∧
      Restores Coordinates.decode Coordinates.toJson m.qubit) read ⟨rfl, rfl⟩
    ⟨keeps_of fun before found => ⟨Coordinates.stable_decode found, before.2⟩,
      keeps_of fun before found => ⟨before.1, Coordinates.stable_decode found⟩,
      keeps_of fun before _ => before⟩
  exact record_of_values [_, _, _] (by decide) rfl (.field offset <| .field qubit <|
      .field m.operator.decode_toJson <| .nil _)

lemma Member.fits (m : Member) {d : Nat} : m.toJson.Fits (d + 2) :=
  Json.fits_record ⟨m.offset.fits, m.qubit.fits, m.operator.fits⟩

/-- Every part of a check is read back from what is written for it. -/
structure CheckDescription.Restored (e : CheckDescription) : Prop where
  members : Restores (.list Member.decode) (encodeList Member.toJson) e.members
  anchor : Restores (.option Coordinates.decode) (.ofOption Coordinates.toJson) e.anchor
  ancilla : Restores (.option Coordinates.decode) (.ofOption Coordinates.toJson) e.ancilla

lemma CheckDescription.restored_of_record {e : CheckDescription}
    (read : Decoder.record fields {} j = .ok e) : e.Restored :=
  record_keeps Restored read ⟨rfl, rfl, rfl⟩ ⟨keeps_of fun before found =>
        { before with members := Member.stable_decode.list found },
      keeps_of fun before found =>
        { before with anchor := Coordinates.stable_decode.option rfl found },
      keeps_of fun before found =>
        { before with ancilla := Coordinates.stable_decode.option rfl found }⟩

namespace Check

lemma of_make {members : List Member} {anchor : Option Coordinates} {ancilla : Option Qubit}
    {c : Check} (made : make members anchor ancilla = .ok c) :
    c.members = members ∧ c.anchor = anchor ∧ c.ancilla = ancilla := by
  unfold make at made
  split at made
  · cases made
  · cases made
    exact ⟨rfl, rfl, rfl⟩

lemma stable_decode : Stable decode toJson := by
  intro j c read
  obtain ⟨description, described, made⟩ := of_bind read
  have parts := CheckDescription.restored_of_record described
  refine bind_eq_ok.mpr ⟨description, ?_, made⟩
  obtain ⟨same_members, same_anchor, same_ancilla⟩ := of_make (Reading.ofExcept_eq_ok.mp made)
  rw [toJson, same_members, same_anchor, same_ancilla]
  exact record_of_values [_, _, _] (by decide) rfl (.field parts.members <| .field parts.anchor <|
      .field parts.ancilla <| .nil _)

lemma fits (c : Check) {d : Nat} : c.toJson.Fits (d + 4) :=
  Json.fits_record ⟨Json.fits_encodeList fun m => m.fits, Json.fits_ofOption fun p => p.fits,
    Json.fits_ofOption fun p => p.fits⟩

end Check

/-! Detectors. -/

namespace TimedCheck

lemma stable_decode : Stable decode toJson := by
  intro j t read
  obtain ⟨description, described, read⟩ := of_bind read
  obtain ⟨check, found, rfl⟩ := of_bind_pure read
  obtain ⟨offset, checks⟩ := record_keeps
    (fun e : TimedDescription => Restores .int64 .ofInt e.offset ∧
      ∀ c ∈ e.check, Restores Check.decode Check.toJson c)
    described ⟨rfl, fun _ none => by cases none⟩
    ⟨keeps_of fun before found => ⟨stable_int64 found, before.2⟩,
      keeps_of fun before found =>
        ⟨before.1, fun _ same => Option.some.inj same ▸ Check.stable_decode found⟩⟩
  have again : Decoder.record fields {} (toJson ⟨description.offset, check⟩) =
      .ok ⟨description.offset, some check⟩ :=
    record_of_values [_, _] (by decide) rfl (.field offset <|
        .field (checks check (Reading.ofOption_eq_ok.mp found)) <| .nil _)
  exact bind_eq_ok.mpr ⟨_, again, rfl⟩

lemma fits (t : TimedCheck) {d : Nat} : t.toJson.Fits (d + 5) :=
  Json.fits_record ⟨Json.fits_ofInt _, t.check.fits⟩

end TimedCheck

/-- Every part of a detector is read back from what is written for it. -/
structure DetectorDescription.Restored (e : DetectorDescription) : Prop where
  floor : Restores (.list TimedCheck.decode) (encodeList TimedCheck.toJson) e.floor
  lid : Restores (.list TimedCheck.decode) (encodeList TimedCheck.toJson) e.lid
  ends : Restores .word .ofNat e.ends

lemma DetectorDescription.restored_of_record {e : DetectorDescription}
    (read : Decoder.record Detector.fields {} j = .ok e) : e.Restored :=
  record_keeps Restored read ⟨rfl, rfl, rfl⟩ ⟨keeps_of fun before found =>
        { before with floor := TimedCheck.stable_decode.list found },
      keeps_of fun before found =>
        { before with lid := TimedCheck.stable_decode.list found },
      keeps_of fun before found => { before with ends := stable_word found }⟩

namespace Detector

lemma of_make {floor lid : List TimedCheck} {ends : Nat} {d : Detector}
    (made : make floor lid ends = .ok d) : d.floor = floor ∧ d.lid = lid ∧ d.ends = ends := by
  unfold make at made
  split at made
  · cases made
  · cases made
    exact ⟨rfl, rfl, rfl⟩

lemma stable_decode : Stable decode toJson := by
  intro j d read
  obtain ⟨description, described, made⟩ := of_bind read
  have parts := DetectorDescription.restored_of_record described
  refine bind_eq_ok.mpr ⟨description, ?_, made⟩
  obtain ⟨same_floor, same_lid, same_end⟩ := of_make (Reading.ofExcept_eq_ok.mp made)
  rw [toJson, same_floor, same_lid, same_end]
  exact record_of_values [_, _, _] (by decide) rfl (.field parts.floor <| .field parts.lid <|
      .field parts.ends <| .nil _)

lemma fits (d : Detector) {n : Nat} : d.toJson.Fits (n + 7) :=
  Json.fits_record ⟨Json.fits_encodeList fun t => t.fits, Json.fits_encodeList fun t => t.fits,
    Json.fits_ofNat _⟩

end Detector

/-! Logical operators. -/

namespace Logical

lemma of_make {operators : List (List (Qubit × Operator))} {l : Logical}
    (made : make operators = .ok l) : l.operators = operators := by
  unfold make at made
  split at made
  · cases made
  · cases made
    rfl

lemma stable_operator : Stable Operator.decode Operator.toJson := fun _ a _ => a.decode_toJson

lemma stable_decode : Stable decode toJson := by
  intro j l read
  obtain ⟨history, found, made⟩ := of_bind read
  have again := (Coordinates.stable_decode.pair stable_operator).list.list found
  refine bind_eq_ok.mpr ⟨history, ?_, made⟩
  rwa [toJson, of_make (Reading.ofExcept_eq_ok.mp made)]

lemma fits (l : Logical) {d : Nat} : l.toJson.Fits (d + 4) :=
  Json.fits_encodeList fun _ => Json.fits_encodeList
    (Json.fits_encodePair (fun q => q.fits) fun a => a.fits)

end Logical

/-! Codes. -/

/-- All parts of a description are decoded again, each data qubit by itself. -/
structure CodeDescription.Restored (e : CodeDescription) : Prop where
  data : ∀ q ∈ e.data, Restores Coordinates.decode Coordinates.toJson q
  checks : Restores (.list (.list Check.decode)) (encodeList (encodeList Check.toJson)) e.checks
  detectors : Restores (.list (.list Detector.decode)) (encodeList (encodeList Detector.toJson))
    e.detectors
  logicals : Restores (.list Logical.decode) (encodeList Logical.toJson) e.logicals

lemma CodeDescription.restored_of_record {e : CodeDescription}
    (read : Decoder.record Code.fields {} j = .ok e) : e.Restored :=
  record_keeps Restored read ⟨forall_mem_nil _, rfl, rfl, rfl⟩
    ⟨keeps_of fun before found =>
        { before with data := fun q mem =>
            have ⟨_, item⟩ := list_eq_ok found q mem
            Coordinates.stable_decode item },
      keeps_of fun before found =>
        { before with checks := Check.stable_decode.list.list found },
      keeps_of fun before found =>
        { before with detectors := Detector.stable_decode.list.list found },
      keeps_of fun before found =>
        { before with logicals := Logical.stable_decode.list found }⟩

namespace Code

lemma of_make {data : List Qubit} {checks : List (List Check)}
    {detectors : List (List Detector)} {logicals : List Logical} {c : Code}
    (made : make data checks detectors logicals = .ok c) :
    c.data = .ofList data ∧ c.checks = checks ∧ c.detectors = detectors ∧
      c.logicals = logicals := by
  unfold make at made
  split at made
  · cases made
  · split at made
    · cases made
    · cases made
      exact ⟨rfl, rfl, rfl, rfl⟩

lemma make_dataQubits (c : Code) : make c.dataQubits c.checks c.detectors c.logicals = .ok c := by
  have distinct : firstRepeated? [] c.dataQubits = none :=
    firstRepeated?_of_nodup c.data.keys_nodup fun _ _ => not_mem_nil
  have same : QubitSet.ofList c.dataQubits = c.data := QubitSet.ofList_keys c.data
  obtain ⟨data, checks, detectors, logicals, sound⟩ := c
  unfold make
  simp only [distinct]
  split
  · next found =>
      rw [same, sound] at found
      cases found
  · simp only [same]

lemma stable_decode : Stable decode toJson := by
  intro j c read
  obtain ⟨description, described, made⟩ := of_bind read
  obtain ⟨data, checks, detectors, logicals⟩ := CodeDescription.restored_of_record described
  obtain ⟨same_data, same_checks, same_detectors, same_logicals⟩ :=
    of_make (Reading.ofExcept_eq_ok.mp made)
  -- The data qubits come back sorted, but each of them was read.
  have sorted : Restores (.list Coordinates.decode) (encodeList Coordinates.toJson)
      c.dataQubits := by
    refine list_encode fun q mem => data q ?_
    rw [dataQubits, same_data] at mem
    obtain ⟨e, inside, rfl⟩ := mem_map.mp mem
    obtain ⟨q, listed, rfl⟩ := mem_map.mp (Table.mem_ofList inside)
    exact listed
  rw [← same_checks] at checks
  rw [← same_detectors] at detectors
  rw [← same_logicals] at logicals
  have again : Decoder.record fields {} c.toJson =
      .ok ⟨c.dataQubits, c.checks, c.detectors, c.logicals⟩ :=
    record_of_values [_, _, _, _] (by decide) rfl (.field sorted <| .field checks <|
        .field detectors <| .field logicals <| .nil _)
  exact bind_eq_ok.mpr ⟨_, again, Reading.ofExcept_eq_ok.mpr c.make_dataQubits⟩

lemma fits (c : Code) {d : Nat} : c.toJson.Fits (d + 10) :=
  Json.fits_record ⟨Json.fits_encodeList fun q => q.fits,
    Json.fits_encodeList fun _ => Json.fits_encodeList fun c => c.fits,
    Json.fits_encodeList fun _ => Json.fits_encodeList fun d => d.fits,
    Json.fits_encodeList fun l => l.fits⟩

end Code

end SyndromeSchedule
