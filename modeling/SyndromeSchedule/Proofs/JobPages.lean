import SyndromeSchedule.Document.Job
import SyndromeSchedule.Proofs.CodePages

/-!
Jobs and their pages. A job that was read from any text is read again from its own page, with
everything it describes; noise that is spelled out is never taken for noise with a name.
-/

namespace SyndromeSchedule

open List Outcome

open Decoder

open SyndromeSchedule.Field (keeps_of)

/-! Extractors. -/

lemma Style.decode_toJson (s : Style) : decode s.toJson = .ok s := by cases s <;> rfl

lemma Pauli.decodeAside_toJson (a : Pauli) : decodeAside a.toJson = .ok a := by cases a <;> rfl

namespace Slot

lemma restores_of_decode {j : Json} {s : Slot} (read : decode j = .ok s) :
    Restores Coordinates.decode Coordinates.toJson s.offset ∧ Restores .word .ofNat s.slot :=
  record_keeps (fun s : Slot => Restores Coordinates.decode Coordinates.toJson s.offset ∧
    Restores .word .ofNat s.slot) read ⟨rfl, rfl⟩
    ⟨keeps_of fun before _ => before,
      keeps_of fun before found => ⟨Coordinates.stable_decode found, before.2⟩,
      keeps_of fun before found => ⟨before.1, stable_word found⟩⟩

lemma stable_decode : Stable decode toJson := by
  intro j s read
  obtain ⟨offset, slot⟩ := restores_of_decode read
  exact record_of_values [_, _, _] (by decide) rfl
    (.field s.letter.decodeAside_toJson <| .field offset <| .field slot <| .nil _)

lemma isReadable_toJson {j : Json} {s : Slot} (read : decode j = .ok s) :
    s.toJson.isReadable = true := by
  obtain ⟨offset, slot⟩ := restores_of_decode read
  obtain ⟨values, found, _⟩ := map_eq_ok.mp offset
  exact Json.isReadable_record ⟨rfl, (strict_integer _ _).list found, strict_word slot⟩

lemma fits (s : Slot) {d : Nat} : s.toJson.Fits (d + 2) :=
  Json.fits_record ⟨Json.fits_nameIn _ _, s.offset.fits, Json.fits_ofNat _⟩

end Slot

namespace Order

lemma decode_eq_ok {j : Json} {slots : List Slot} (read : decode j = .ok (rotated slots)) :
    ∀ s ∈ slots, ∃ item, Slot.decode item = .ok s := by
  have inner : ∀ kind k, decodeKind kind k = .ok (rotated slots) →
      ∀ s ∈ slots, ∃ item, Slot.decode item = .ok s := by
    intro kind k found
    unfold decodeKind at found
    split_ifs at found
    · obtain ⟨_, _, same⟩ := map_eq_ok.mp found
      cases same
    · obtain ⟨_, found, same⟩ := map_eq_ok.mp found
      rw [Order.rotated.inj same] at found
      exact record_keeps (fun slots : List Slot => ∀ s ∈ slots, ∃ item, Slot.decode item = .ok s)
        found (forall_mem_nil _) (keeps_of fun _ found => list_eq_ok found)
    · cases found
  unfold decode at read
  split_ifs at read
  · split at read
    · split at read
      · exact inner _ _ read
      · cases read
    · exact inner _ _ read
    · cases read
  · cases read

lemma stable_decode : Stable decode toJson := by
  intro j order read
  cases order with
  | declared => rfl
  | rotated slots =>
    have each := decode_eq_ok read
    have again : Restores (.list Slot.decode) (encodeList Slot.toJson) slots :=
      list_encode fun s mem =>
        have ⟨_, found⟩ := each s mem
        Slot.stable_decode found
    have readable : (toJson (rotated slots)).isReadable = true :=
      Json.isReadable_record ⟨rfl, Json.isReadable_encodeList fun s mem =>
        have ⟨_, found⟩ := each s mem
        Slot.isReadable_toJson found⟩
    have inner : Decoder.record slotFields []
        (.record [("slots", encodeList Slot.toJson slots)]) = .ok slots :=
      record_of_values [_] (by decide) rfl (.field again <| .nil _)
    unfold Restores decode
    rw [if_pos readable]
    exact map_eq_ok.mpr ⟨slots, inner, rfl⟩

lemma fits (order : Order) {d : Nat} : order.toJson.Fits (d + 4) := by
  cases order with
  | declared => exact Json.fits_record (Json.fits_string _)
  | rotated slots =>
    exact Json.fits_record ⟨Json.fits_string _, Json.fits_encodeList fun s => s.fits⟩

end Order

namespace Extractor

lemma stable_decode : Stable decode toJson := by
  intro j e read
  have order := record_keeps (fun e : Extractor => Restores Order.decode Order.toJson e.order)
    read rfl
    ⟨keeps_of fun before _ => before, keeps_of fun _ found => Order.stable_decode found⟩
  exact record_of_values [_, _] (by decide) rfl
    (.field e.style.decode_toJson <| .field order <| .nil _)

lemma fits (e : Extractor) {d : Nat} : e.toJson.Fits (d + 5) :=
  Json.fits_record ⟨Json.fits_nameIn _ _, e.order.fits⟩

end Extractor

/-! Noise. -/

lemma NoiseKind.decode_toJson (k : NoiseKind) : decode k.toJson = .ok k := by
  cases k with
  | flip => rfl
  | channel c => cases c <;> rfl

namespace Disturbance

variable {d : Disturbance}

/-- Probability and weights. -/
def numbers (d : Disturbance) : List Double := d.probability :: d.terms.getD []

lemma isFinite_of_decode {j : Json} (read : decode j = .ok d) :
    ∀ x ∈ d.numbers, x.isFinite = true := by
  obtain ⟨probability, terms⟩ := record_keeps
    (fun d : Disturbance => d.probability.isFinite = true ∧
      ∀ x ∈ d.terms.getD [], x.isFinite = true) read ⟨rfl, forall_mem_nil _⟩
    ⟨keeps_of fun before _ => before,
      keeps_of fun before found => ⟨isFinite_of_double found, before.2⟩,
      keeps_of fun {_ _ terms} before found => ⟨before.1, by
        cases terms with
        | none => exact forall_mem_nil _
        | some terms =>
          obtain ⟨_, found⟩ := option_eq_ok found
          intro x mem
          obtain ⟨_, found⟩ := list_eq_ok found x mem
          exact isFinite_of_double found⟩⟩
  exact forall_mem_cons.mpr ⟨probability, terms⟩

lemma restores (back : ReadBack d.numbers) : Restores decode toJson d := by
  obtain ⟨kind, probability, terms⟩ := d
  obtain ⟨first, others⟩ := forall_mem_cons.mp back
  cases terms with
  | none =>
    exact record_of_first 2 [_, _] (by decide) rfl (by decide)
      (.field kind.decode_toJson <| .field first <| .nil _)
  | some terms =>
    have weights : Restores (option (list double)) (.ofOption (encodeList .ofDouble))
        (some terms) :=
      option_encode rfl fun _ same => Option.some.inj same ▸ list_encode others
    exact record_of_values [_, _, _] (by decide) rfl (.field kind.decode_toJson <| .field first <|
        .field weights <| .nil _)

lemma isReadable_toJson (back : ReadBack d.numbers) : d.toJson.isReadable = true := by
  obtain ⟨kind, probability, terms⟩ := d
  obtain ⟨first, others⟩ := forall_mem_cons.mp back
  cases terms with
  | none => exact Json.isReadable_record ⟨rfl, strict_double first⟩
  | some terms =>
    exact Json.isReadable_record ⟨rfl, strict_double first, strict_double.list (list_encode others)⟩

lemma fits (e : Disturbance) {d : Nat} : e.toJson.Fits (d + 2) := by
  obtain ⟨kind, probability, terms⟩ := e
  cases terms with
  | none => exact Json.fits_record ⟨Json.fits_string _, Json.fits_ofDouble _⟩
  | some terms =>
    exact Json.fits_record ⟨Json.fits_string _, Json.fits_ofDouble _,
      Json.fits_encodeList Json.fits_ofDouble⟩

end Disturbance

namespace NoiseModel

variable {m : NoiseModel}

/-- Probabilities and weights at all places. -/
def numbers (m : NoiseModel) : List Double := m.entries.flatMap (·.2.numbers)

lemma mem_numbers {place : Place} {d : Disturbance}
    (here : m.at? place = some d) : d.numbers ⊆ m.numbers := by
  intro x mem
  have listed : place ∈ Place.all := by cases place <;> decide
  refine mem_flatMap.mpr ⟨(place, d), ?_, mem⟩
  exact mem_filterMap.mpr ⟨place, listed, by rw [here]; rfl⟩

lemma at?_set (m : NoiseModel) (place : Place) (d : Option Disturbance) (other : Place) :
    (m.set place d).at? other = if other = place then d else m.at? other := by
  cases place <;> cases other <;> rfl

lemma isFinite_of_decode {j : Json} (read : decode j = .ok m) :
    ∀ x ∈ m.numbers, x.isFinite = true := by
  have everywhere := record_keeps
    (fun m : NoiseModel => ∀ place, ∀ d ∈ m.at? place, ∀ x ∈ d.numbers, x.isFinite = true)
    read (fun place _ none => by cases place <;> cases none) (by
      rw [fields, forall_iff_forall_mem, forall_mem_map]
      intro place _
      refine keeps_of fun before found other d here => ?_
      rw [at?_set] at here
      split_ifs at here
      · rw [Option.mem_def.mp here] at found
        obtain ⟨_, found⟩ := option_eq_ok found
        exact Disturbance.isFinite_of_decode found
      · exact before other d here)
  intro x mem
  obtain ⟨⟨place, d⟩, inside, mem⟩ := mem_flatMap.mp mem
  obtain ⟨place, _, here⟩ := mem_filterMap.mp inside
  obtain ⟨d, here, same⟩ := Option.map_eq_some_iff.mp here
  cases same
  exact everywhere place d here x mem

lemma restores (back : ReadBack m.numbers) : Restores decode toJson m := by
  have noise (place : Place) : Restores (.option Disturbance.decode)
      (.ofOption Disturbance.toJson) (m.at? place) :=
    option_encode rfl fun d here => Disturbance.restores fun x mem =>
      back x (mem_numbers here mem)
  exact record_of_values (Place.all.map fun place => .ofOption Disturbance.toJson (m.at? place))
    (by decide) rfl (.field (noise .initialisation) <| .field (noise .idling) <|
      .field (noise .roundStart) <| .field (noise .oneQubitGate) <| .field (noise .twoQubitGate) <|
      .field (noise .measurement) <| .nil _)

lemma isReadable_toJson (back : ReadBack m.numbers) : m.toJson.isReadable = true := by
  refine Json.isReadable_record (forall_iff_forall_mem.mpr (forall_mem_map.mpr ?_))
  intro place _
  cases here : m.at? place with
  | none => rfl
  | some d => exact Disturbance.isReadable_toJson fun x mem => back x (mem_numbers here mem)

lemma fits (m : NoiseModel) {d : Nat} : m.toJson.Fits (d + 3) := by
  refine Json.fits_record (forall_iff_forall_mem.mpr (forall_mem_map.mpr ?_))
  exact fun place _ => Json.fits_ofOption fun e => e.fits

end NoiseModel

namespace NoiseSource

variable {source : NoiseSource}

/-- Every number of a source. -/
def numbers : NoiseSource → List Double
  | preset _ probability => [probability]
  | explicit model => model.numbers

lemma isFinite_of_decode {j : Json} (read : decode j = .ok source) :
    ∀ x ∈ source.numbers, x.isFinite = true := by
  unfold decode at read
  split_ifs at read
  · split at read
    · next name probability found =>
        obtain rfl := Except.ok.inj read
        have finite := object_keeps (fun e : String × Double => e.2.isFinite = true) found rfl
          ⟨keeps_of fun before _ => before, keeps_of fun _ found => isFinite_of_double found⟩
        exact forall_mem_singleton.mpr finite
    · obtain ⟨model, found, rfl⟩ := map_eq_ok.mp read
      exact NoiseModel.isFinite_of_decode found
  · cases read

lemma object_explicit (m : NoiseModel) (found : String × Double) :
    Decoder.object presetFields ("", .zero) m.toJson ≠ .ok found := by
  intro read
  have named := name_mem_of_object read (.head _) rfl
  rw [map_map] at named
  have absent : "preset" ∉ Place.all.map Place.name := by decide
  exact absent named

lemma restores (back : ReadBack source.numbers) : Restores decode toJson source := by
  cases source with
  | preset name probability =>
    have strength := back probability (mem_singleton_self _)
    have readable : (toJson (preset name probability)).isReadable = true :=
      Json.isReadable_record ⟨rfl, strict_double strength⟩
    have again : Decoder.object presetFields ("", .zero) (toJson (preset name probability)) =
        .ok (name, probability) :=
      record_of_values [_, _] (by decide) rfl (.field rfl <| .field strength <| .nil _)
    rw [Restores, decode, if_pos readable, again]
  | explicit model =>
    have readable : (toJson (explicit model)).isReadable = true := NoiseModel.isReadable_toJson back
    rw [Restores, decode, if_pos readable]
    split
    · next found => exact absurd found (object_explicit model _)
    · exact map_eq_ok.mpr ⟨model, NoiseModel.restores back, rfl⟩

lemma fits (source : NoiseSource) {d : Nat} : source.toJson.Fits (d + 3) := by
  cases source with
  | preset name probability =>
    exact Json.fits_record ⟨Json.fits_string _, Json.fits_ofDouble _⟩
  | explicit model => exact model.fits

end NoiseSource

/-! Requests and options. -/

namespace Request

lemma stable_initial : Stable (.pair Coordinates.decode State.decode)
    (encodePair Coordinates.toJson State.toJson) :=
  Coordinates.stable_decode.pair fun _ a _ => a.decode_toJson

lemma stable_final : Stable (.pair Coordinates.decode Pauli.decode)
    (encodePair Coordinates.toJson Pauli.toJson) :=
  Coordinates.stable_decode.pair fun _ a _ => a.decode_toJson

/-- All parts of a request are decoded again, each initial state by itself. -/
structure Restored (r : Request) : Prop where
  layers : Restores .word .ofNat r.layers
  initial : ∀ e ∈ r.initial.entries, Restores (.pair Coordinates.decode State.decode)
    (encodePair Coordinates.toJson State.toJson) e
  finals : Restores (.list (.pair Coordinates.decode Pauli.decode))
    (encodeList (encodePair Coordinates.toJson Pauli.toJson)) r.finals
  observables : Restores (.list Logical.decode) (encodeList Logical.toJson) r.observables

lemma restored_of_decode {j : Json} {r : Request} (read : decode j = .ok r) : r.Restored :=
  record_keeps Restored read ⟨rfl, forall_mem_nil _, rfl, rfl⟩
    ⟨keeps_of fun before found => { before with layers := stable_word found },
      keeps_of fun before found =>
        { before with initial := fun e mem =>
            have ⟨_, item⟩ := list_eq_ok found e (Table.mem_ofList mem)
            stable_initial item },
      keeps_of fun before found => { before with finals := stable_final.list found },
      keeps_of fun before found =>
        { before with observables := Logical.stable_decode.list found }⟩

lemma stable_decode : Stable decode toJson := by
  intro j r read
  have parts := restored_of_decode read
  have again : decode r.toJson = .ok { r with initial := .ofList r.initial.entries } :=
    record_of_values [_, _, _, _] (by decide) rfl
      (.field parts.layers <| .field (list_encode parts.initial) <|
        .field parts.finals <| .field parts.observables <| .nil _)
  rwa [Table.ofList_entries] at again

lemma fits (r : Request) {d : Nat} : r.toJson.Fits (d + 6) := Json.fits_record ⟨Json.fits_ofNat _,
    Json.fits_encodeList (Json.fits_encodePair (fun q => q.fits) fun _ => Json.fits_nameIn _ _),
    Json.fits_encodeList (Json.fits_encodePair (fun q => q.fits) fun _ => Json.fits_nameIn _ _),
    Json.fits_encodeList fun l => l.fits⟩

end Request

lemma Layout.decode_toJson (l : Layout) : decode l.toJson = .ok l :=
  record_of_values [_, _] (by decide) rfl (.field rfl <| .field rfl <| .nil _)

lemma Options.decode_toJson (o : Options) : decode o.toJson = .ok o :=
  record_of_values [_, _] (by decide) rfl (.field rfl <| .field o.layout.decode_toJson <| .nil _)

lemma Options.fits (o : Options) {d : Nat} : o.toJson.Fits (d + 2) :=
  Json.fits_record ⟨Json.fits_bool _, Json.fits_record ⟨Json.fits_bool _, Json.fits_bool _⟩⟩

/-! Jobs. -/

/-- All parts of a description are decoded again, noise as far as its numbers are read back. -/
structure JobDescription.Restored (e : JobDescription) : Prop where
  code : ∀ c ∈ e.code, Restores Code.decode Code.toJson c
  request : Restores Request.decode Request.toJson e.request
  finite : ∀ x ∈ e.noise.numbers, x.isFinite = true
  extractor : Restores Extractor.decode Extractor.toJson e.extractor

lemma JobDescription.restored_of_record {j : Json} {e : JobDescription}
    (read : Decoder.record Job.fields {} j = .ok e) : e.Restored :=
  record_keeps Restored read ⟨fun _ none => (by cases none), rfl, forall_mem_nil _, rfl⟩
    ⟨keeps_of fun before found =>
        { before with code := fun _ same => Option.some.inj same ▸ Code.stable_decode found },
      keeps_of fun before found =>
        { before with request := Request.stable_decode found },
      keeps_of fun before found =>
        { before with finite := NoiseSource.isFinite_of_decode found },
      keeps_of fun before found =>
        { before with extractor := Extractor.stable_decode found },
      keeps_of fun before _ => { before with }⟩

namespace Job

lemma restored_of_decode {j : Json} {job : Job} (read : decode j = .ok job) :
    JobDescription.Restored ⟨job.code, job.request, job.noise, job.extractor, job.options⟩ := by
  obtain ⟨description, described, read⟩ := of_bind read
  obtain ⟨code, given, rfl⟩ := of_bind_pure read
  have parts := JobDescription.restored_of_record described
  rw [Reading.ofOption_eq_ok] at given
  exact { parts with code := given ▸ parts.code }

lemma restores {j : Json} {job : Job} (read : decode j = .ok job)
    (back : ReadBack job.noise.numbers) : Restores decode toJson job := by
  have parts := restored_of_decode read
  have again : Decoder.record fields {} job.toJson =
      .ok ⟨some job.code, job.request, job.noise, job.extractor, job.options⟩ :=
    record_of_values [_, _, _, _, _] (by decide) rfl
      (.field (parts.code job.code rfl) <| .field parts.request <|
        .field (NoiseSource.restores back) <| .field parts.extractor <|
        .field job.options.decode_toJson <| .nil _)
  exact bind_eq_ok.mpr ⟨_, again, rfl⟩

lemma fits (job : Job) {d : Nat} : job.toJson.Fits (d + 11) :=
  Json.fits_record ⟨job.code.fits, job.request.fits, job.noise.fits, job.extractor.fits,
    job.options.fits⟩

/-- Every job that is read from some text is read again from its own page, provided that the doubles
of its noise are read back from the numerals they are written as. -/
theorem decode_own_page {text : String} {job : Job} (read : decode.run text = .ok job)
    (read_back : ∀ x ∈ job.noise.numbers,
      x.isFinite = true → (Numeral.ofDouble x).toDouble? = some x) :
    decode.run job.toJson.page = .ok job := by
  obtain ⟨found, decoded, read⟩ := Outcome.of_bind read
  obtain ⟨_, _, read⟩ := Outcome.of_bind read
  rw [Outcome.pure_eq_ok.mp read] at decoded
  have finite := (restored_of_decode decoded).finite
  have page : job.toJson.Fits Json.maxDepth := job.fits
  rw [Decoder.run_page _ page.1 page.2]
  exact restores decoded (readBack_of_numerals finite read_back)

/-- A document that is not what its job is written as: qubits are out of order or repeated, records
stand as arrays, fields with defaults are missing, and one field is asked for by nobody. -/
def handwritten : Json :=
  let place (x y : Int) : Json := .list [.ofInt x, .ofInt y]
  let decimal (negative : Bool) (digits : List Char) : Json :=
    .number ⟨negative, ['0'], some digits, none⟩
  let letter (name : String) : Json := .record [("pauli", .string name)]
  .record [
    ("code", .record [
      ("data_qubits", .list [place 1 0, place 0 0]),
      ("check_schedule", .list [.list [.record [
        ("members", .list [
          .list [place 1 0, place 1 0, letter "Z"],
          .list [place 0 0, place 0 0, .list [.string "Z", .string "MinusOne"]]]),
        ("ancilla", place 0 1)]]]),
      ("detector_schedule", .list [.list []]),
      ("logical_operators", .list [.list [.list [
        .list [place 0 0, letter "X"], .list [place 1 0, letter "X"]]]])]),
    ("request", .list [.ofNat 7, .list [
      .list [place 1 0, .string "minus_i"], .list [place 0 0, .string "one"],
      .list [place 1 0, .string "plus"]]]),
    ("noise", .record [("comment", .null), ("idling", .record [
      ("name", .string "pauli_channel_1"), ("probability", decimal false ['0', '0', '1']),
      ("terms", .list [decimal false ['3'], decimal false ['1', '0'], decimal true ['0']])])]),
    ("extractor", .record [("orderer", .list [.string "rotated_lattice", .list [.record [
      ("slot", .ofNat 3), ("offset", place 1 (-1)), ("pauli", .record [("X", .record [])])]]])])]

theorem decode_own_page_handwritten : ∃ job : Job, decode.run handwritten.page = .ok job ∧
    (∀ x ∈ job.noise.numbers,
      x.isFinite = true → (Numeral.ofDouble x).toDouble? = some x) ∧
    decode.run job.toJson.page = .ok job := by
  have whole : decode.run handwritten.page = decode handwritten :=
    Decoder.run_page _ (by decide +kernel) (by decide +kernel)
  have numbers : (decode handwritten).map (·.noise.numbers) =
      .ok [.ofRatio false 1 1000, .ofRatio false 3 10, .ofRatio false 1 10, .ofRatio true 0 1] := by
    decide +kernel
  obtain ⟨job, decoded, same⟩ := Outcome.map_eq_ok.mp numbers
  have read : decode.run handwritten.page = .ok job := whole.trans decoded
  have read_back : ∀ x ∈ job.noise.numbers,
      x.isFinite = true → (Numeral.ofDouble x).toDouble? = some x := by
    rw [same]
    decide +kernel
  exact ⟨job, read, read_back, decode_own_page read read_back⟩

end Job

end SyndromeSchedule
