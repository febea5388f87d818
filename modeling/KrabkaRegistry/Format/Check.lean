import KrabkaRegistry.Format.Avro
import KrabkaRegistry.Format.JsonVerdict

/-!
# The Checks of the Three Formats

`format::check` over the libraries: each format parses both texts as its own schemas, whatever
they were registered as, and compares what it parsed.

- `ReadAs` says which pairs of texts are valid in a format, and as what they are read.
- `check_ok_iff`: the check accepts the pairs that are valid in its format and compatible there.
- `not_readAs_of_parse`: what is valid in Protobuf is not in the other two formats, nor the other
  way round.
-/

namespace KrabkaRegistry.Format

open KrabkaRegistry.Format.Avro (Compatibility applyReaderRules eraseLogicalTypes)
open KrabkaRegistry.Format.Json (JsonSchema)

variable (L : Libs) {reader writer : String} {readerRefs writerRefs : List ResolvedReference}

/-! ## The check of each format -/

/-- A refused JSON Schema is given a reason. -/
theorem jsonCheck_error {L : Json.DiffLibs} {fuel : ℕ} {messages : List String}
    (h : Json.check L fuel reader writer readerRefs writerRefs = some (.error messages)) :
    messages ≠ [] := by
  unfold Json.check at h
  split at h
  · cases h
    simp
  split at h
  · cases h
    simp
  obtain ⟨diffs, -, hdiffs⟩ := Option.bind_eq_some_iff.mp h
  simp only [Option.pure_def, Option.some.injEq] at hdiffs
  split at hdiffs
  · cases hdiffs
  · next hsome =>
    cases hdiffs
    simpa using hsome

/-- The check of JSON Schema, cut off after some depth. -/
def jsonWithin (L : Json.DiffLibs) (fuel : ℕ) : FormatCheck where
  check reader writer readerRefs writerRefs :=
    (Json.check L fuel reader writer readerRefs writerRefs).getD (.ok ())
  check_error := by
    intro reader writer readerRefs writerRefs messages h
    cases hc : Json.check L fuel reader writer readerRefs writerRefs with
    | none => simp [hc] at h
    | some result =>
      rw [hc, Option.getD_some] at h
      exact jsonCheck_error (hc.trans (congrArg some h))

/-- `SchemaCompatibility::can_read`, on the writer and the reader. -/
abbrev CanRead (L : Libs) : Type :=
  L.ApacheAvroSchema → L.ApacheAvroSchema → Except String Compatibility

theorem mapError_failsWith {α ε : Type} {x : Except ε α} {label : ε → List String}
    (h : ∀ e, label e ≠ []) : FailsWith (· ≠ []) (x.mapError label) := by
  cases x with
  | ok a => exact .ok a
  | error e => exact .error (h e)

/-- A refused pair of Avro schemas is given a reason. -/
theorem avroCheck_failsWith (canRead : CanRead L) (reader writer : String)
    (readerRefs writerRefs : List ResolvedReference) :
    FailsWith (· ≠ []) (Avro.check L canRead reader writer readerRefs writerRefs) := by
  unfold Avro.check
  apply FailsWith.bind (mapError_failsWith fun _ => List.cons_ne_nil _ _)
  intro readerValue
  apply FailsWith.bind (mapError_failsWith fun _ => List.cons_ne_nil _ _)
  intro writerValue
  apply FailsWith.bind (mapError_failsWith fun _ => List.cons_ne_nil _ _)
  intro readerSchema
  apply FailsWith.bind (mapError_failsWith fun _ => List.cons_ne_nil _ _)
  intro writerSchema
  split
  · exact .ok _
  · exact .error (List.cons_ne_nil _ _)
  · exact .error (List.cons_ne_nil _ _)

/-- The check of Avro. -/
def avroCheck (canRead : CanRead L) : FormatCheck where
  check := Avro.check L canRead
  check_error h := avroCheck_failsWith L canRead _ _ _ _ _ h

/-- The formats with the checks of the source, where JSON Schemas are compared up to a depth. -/
def Formats.within (isMatch : String → String → Bool) (canRead : CanRead L) (fuel : ℕ) : Formats :=
  .ofLibs L (.ofFormats L (avroCheck L canRead) (jsonWithin ⟨L.serdeJson, isMatch⟩ fuel))

/-! ## What the texts are read as -/

/-- A reader and a writer, parsed in one format. -/
inductive ReadPair (L : Libs) where
  | avro (reader writer : AvroSchema L)
  | json (reader writer : JsonSchema)
  | protobuf (reader writer : ProtobufSchema) (ofReferences : List Protobuf.Difference)

/-- Both texts are valid in a format, and this is how it reads them. -/
inductive ReadAs (reader writer : String) (readerRefs writerRefs : List ResolvedReference) :
    SchemaType → ReadPair L → Prop where
  /-- Both are JSON, and Avro schemas once the rules of the reader are applied. -/
  | avro {r w : Json.Value} {readerS writerS : AvroSchema L} :
      L.serdeJson.fromStr reader = .ok r → L.serdeJson.fromStr writer = .ok w →
      avroParse L (Json.toJsonString L.serdeJson
        (applyReaderRules (eraseLogicalTypes r) (eraseLogicalTypes w)).1) readerRefs =
          .ok readerS →
      avroParse L (Json.toJsonString L.serdeJson
        (applyReaderRules (eraseLogicalTypes r) (eraseLogicalTypes w)).2) writerRefs =
          .ok writerS →
      ReadAs reader writer readerRefs writerRefs .avro (.avro readerS writerS)
  /-- Both are JSON, an object or a boolean. -/
  | json {readerS writerS : JsonSchema} :
      Json.parse L.serdeJson reader readerRefs = .ok readerS →
      Json.parse L.serdeJson writer writerRefs = .ok writerS →
      ReadAs reader writer readerRefs writerRefs .json (.json readerS writerS)
  /-- Both are `.proto` files that link, and so are the references that they give different
  texts under one name. -/
  | protobuf {readerS writerS : ProtobufSchema} {ofReferences : List Protobuf.Difference} :
      protobufParse L reader readerRefs = .ok readerS →
      protobufParse L writer writerRefs = .ok writerS →
      referenceDifferences L readerRefs writerRefs writerRefs = .ok ofReferences →
      ReadAs reader writer readerRefs writerRefs .protobuf
        (.protobuf readerS writerS ofReferences)

variable {L}

/-- What is parsed is compatible in its format. -/
def ReadPair.Compatible (isMatch : String → String → Bool) (canRead : CanRead L) :
    ReadPair L → Prop
  | .avro reader writer => canRead writer.parsed reader.parsed = .ok .full
  | .json reader writer =>
    Json.verdict ⟨L.serdeJson, isMatch⟩ (.ofSchemas reader writer) = some true
  | .protobuf reader writer ofReferences =>
    ∀ d ∈ Protobuf.compare writer.descriptor reader.descriptor ++ ofReferences,
      Protobuf.isBackwardCompatible d.kind = true

variable {isMatch : String → String → Bool} {canRead : CanRead L} {fuel : ℕ}

theorem mapError_ok_iff {α ε ε' : Type} {x : Except ε α} {f : ε → ε'} {a : α} :
    x.mapError f = .ok a ↔ x = .ok a := by
  cases x <;> simp [Except.mapError]

theorem parseFor_ok_iff {label text : String} {refs : List ResolvedReference}
    {p : ProtobufSchema} : parseFor L label text refs = .ok p ↔ protobufParse L text refs = .ok p := by
  unfold parseFor
  cases protobufParse L text refs <;> simp

theorem avroCheck_ok_iff :
    Avro.check L canRead reader writer readerRefs writerRefs = .ok () ↔
      ∃ p, ReadAs L reader writer readerRefs writerRefs .avro p ∧
        p.Compatible isMatch canRead := by
  constructor
  · intro h
    unfold Avro.check at h
    obtain ⟨r, hr, h⟩ := bind_ok h
    obtain ⟨w, hw, h⟩ := bind_ok h
    obtain ⟨readerS, hreader, h⟩ := bind_ok h
    obtain ⟨writerS, hwriter, h⟩ := bind_ok h
    refine ⟨.avro readerS writerS, .avro (mapError_ok_iff.mp hr) (mapError_ok_iff.mp hw)
      (mapError_ok_iff.mp hreader) (mapError_ok_iff.mp hwriter), ?_⟩
    show canRead writerS.parsed readerS.parsed = .ok .full
    split at h
    · next hfull => exact hfull
    · cases h
    · cases h
  · rintro ⟨p, hread, hcompatible⟩
    cases hread with
    | avro hr hw hreader hwriter =>
      simp only [ReadPair.Compatible] at hcompatible
      simp only [Avro.check, hr, hw, hreader, hwriter, Except.mapError, bind, Except.bind,
        hcompatible]

/-- Where the comparison ends, JSON Schema accepts by the verdict on what it parsed. Enough fuel has
been given then, and more would give the same. -/
theorem jsonCheck_ok_iff
    (hends : (Json.check ⟨L.serdeJson, isMatch⟩ fuel reader writer readerRefs writerRefs).isSome) :
    (jsonWithin ⟨L.serdeJson, isMatch⟩ fuel).check reader writer readerRefs writerRefs = .ok () ↔
      ∃ p, ReadAs L reader writer readerRefs writerRefs .json p ∧
        p.Compatible isMatch canRead := by
  obtain ⟨result, hresult⟩ := Option.isSome_iff_exists.mp hends
  have hcheck : (jsonWithin ⟨L.serdeJson, isMatch⟩ fuel).check reader writer readerRefs writerRefs =
      result := by
    simp only [jsonWithin, hresult, Option.getD_some]
  have hverdict : ∀ {readerS writerS : JsonSchema},
      Json.Parses ⟨L.serdeJson, isMatch⟩ reader readerRefs readerS →
      Json.Parses ⟨L.serdeJson, isMatch⟩ writer writerRefs writerS →
      (Json.Accepts ⟨L.serdeJson, isMatch⟩ reader writer readerRefs writerRefs ↔
        Json.verdict ⟨L.serdeJson, isMatch⟩ (.ofSchemas readerS writerS) = some true) ∧
      (Json.Rejects ⟨L.serdeJson, isMatch⟩ reader writer readerRefs writerRefs ↔
        Json.verdict ⟨L.serdeJson, isMatch⟩ (.ofSchemas readerS writerS) = some false) :=
    fun hr hw => ⟨Json.accepts_iff hr hw, Json.rejects_iff hr hw⟩
  rw [hcheck]
  constructor
  · rintro rfl
    have hparsed := hresult
    unfold Json.check at hparsed
    split at hparsed
    · cases hparsed
    · next readerS hreader =>
      split at hparsed
      · cases hparsed
      · next writerS hwriter =>
        refine ⟨.json readerS writerS, .json hreader hwriter, ?_⟩
        exact (hverdict hreader hwriter).1.mp ⟨fuel, hresult⟩
  · rintro ⟨p, hread, hcompatible⟩
    cases hread with
    | @json readerS writerS hreader hwriter =>
      cases result with
      | ok => rfl
      | error messages =>
        -- The run that ended with messages has the other verdict.
        have hfalse := (hverdict hreader hwriter).2.mp ⟨fuel, messages, hresult⟩
        have htrue : Json.verdict ⟨L.serdeJson, isMatch⟩ (.ofSchemas readerS writerS) = some true :=
          hcompatible
        rw [hfalse] at htrue
        cases htrue

/-- Protobuf accepts when both texts and the references parse and no difference found is
incompatible. The diff always ends, so nothing is asked of the comparison. -/
theorem protobufCheck_ok_iff :
    protobufCheck L reader writer readerRefs writerRefs = .ok () ↔
      ∃ p, ReadAs L reader writer readerRefs writerRefs .protobuf p ∧
        p.Compatible isMatch canRead := by
  have hempty : ∀ diffs : List Protobuf.Difference,
      (diffs.filter fun d => !Protobuf.isBackwardCompatible d.kind).isEmpty = true ↔
        ∀ d ∈ diffs, Protobuf.isBackwardCompatible d.kind = true := by
    intro diffs
    simp [List.isEmpty_iff, List.filter_eq_nil_iff]
  constructor
  -- Each step of the check that succeeds gives one part of the reading.
  · intro h
    unfold protobufCheck at h
    obtain ⟨readerS, hreader, h⟩ := bind_ok h
    obtain ⟨writerS, hwriter, h⟩ := bind_ok h
    obtain ⟨ofReferences, hrefs, h⟩ := bind_ok h
    refine ⟨.protobuf readerS writerS ofReferences,
      .protobuf (parseFor_ok_iff.mp hreader) (parseFor_ok_iff.mp hwriter) hrefs, ?_⟩
    apply (hempty _).mp
    by_contra hsome
    simp only [hsome, if_false] at h
    cases h
  · rintro ⟨p, hread, hcompatible⟩
    cases hread with
    | protobuf hreader hwriter hrefs =>
      have hnone := (hempty _).mpr hcompatible
      simp only [protobufCheck, parseFor_ok_iff.mpr hreader, parseFor_ok_iff.mpr hwriter, hrefs, bind,
        Except.bind, hnone, if_true]

/-- **`format::check`.**  Each format accepts exactly the pairs that are valid in it and compatible
there. -/
theorem check_ok_iff {ty : SchemaType}
    (hends : ty = .json →
      (Json.check ⟨L.serdeJson, isMatch⟩ fuel reader writer readerRefs writerRefs).isSome) :
    (Formats.within L isMatch canRead fuel).check ty reader writer readerRefs writerRefs = .ok () ↔
      ∃ p, ReadAs L reader writer readerRefs writerRefs ty p ∧ p.Compatible isMatch canRead := by
  cases ty with
  | avro => exact avroCheck_ok_iff
  | protobuf => exact protobufCheck_ok_iff
  | json => exact jsonCheck_ok_iff (hends rfl)

/-! ## Texts of several formats -/

/-- The parser of `.proto` files takes no JSON text: a file is made of statements, and no
statement starts with a brace, a bracket, a quote or a digit or is a lone word. -/
def ProtoTakesNoJson (L : Libs) : Prop :=
  ∀ name text value d, L.serdeJson.fromStr text = .ok value → L.protoxParse name text ≠ .ok d

/-- A schema of Avro or of JSON Schema is a JSON text. -/
theorem fromStr_of_parse {ty : SchemaType} {text : String} {refs : List ResolvedReference}
    {p : ParsedSchema L} (hty : ty ≠ .protobuf) (h : parse L ty text refs = .ok p) :
    ∃ value, L.serdeJson.fromStr text = .ok value := by
  have hcanonical := parse_canonicalOf h
  cases ty with
  | protobuf => exact absurd rfl hty
  | _ =>
    simp only [canonicalOf] at hcanonical
    cases hv : L.serdeJson.fromStr text with
    | error e => simp [hv, Except.toOption] at hcanonical
    | ok value => exact ⟨value, rfl⟩

/-- Both texts of a pair that Avro or JSON Schema reads are JSON texts. -/
theorem ReadAs.fromStr {ty : SchemaType} {p : ReadPair L} (hty : ty ≠ .protobuf)
    (h : ReadAs L reader writer readerRefs writerRefs ty p) :
    (∃ value, L.serdeJson.fromStr reader = .ok value) ∧
      ∃ value, L.serdeJson.fromStr writer = .ok value := by
  have hjson : ∀ {text refs schema}, Json.parse L.serdeJson text refs = .ok schema →
      ∃ value, L.serdeJson.fromStr text = .ok value := by
    intro text refs schema h
    have hparse : parse L .json text refs = .ok (.json schema) := by
      simp [parse, h, Functor.map, Except.map]
    exact fromStr_of_parse (by decide) hparse
  cases h with
  | avro hr hw => exact ⟨⟨_, hr⟩, _, hw⟩
  | json hr hw => exact ⟨hjson hr, hjson hw⟩
  | protobuf => exact absurd rfl hty

/-- Both texts of a pair that Protobuf reads are `.proto` files. -/
theorem ReadAs.protoxParse {p : ReadPair L}
    (h : ReadAs L reader writer readerRefs writerRefs .protobuf p) :
    (∃ d, L.protoxParse "schema.proto" reader = .ok d) ∧
      ∃ d, L.protoxParse "schema.proto" writer = .ok d := by
  cases h with
  | protobuf hr hw _ => exact ⟨⟨_, (protobufParse_ok hr).1⟩, _, (protobufParse_ok hw).1⟩

/-- **Protobuf stands apart.**  A text that is valid in one of Protobuf and the other two formats is
part of no pair that the other side reads. -/
theorem not_readAs_of_parse {ty ty' : SchemaType} {text : String} {refs : List ResolvedReference}
    {schema : ParsedSchema L} {p : ReadPair L} (hproto : ProtoTakesNoJson L)
    (hother : ty = .protobuf ↔ ty' ≠ .protobuf) (hvalid : parse L ty' text refs = .ok schema)
    (htext : text = reader ∨ text = writer) :
    ¬ ReadAs L reader writer readerRefs writerRefs ty p := by
  intro hread
  by_cases hty : ty = .protobuf
  · subst hty
    obtain ⟨value, hvalue⟩ := fromStr_of_parse (hother.mp rfl) hvalid
    obtain ⟨⟨d, hd⟩, d', hd'⟩ := hread.protoxParse
    rcases htext with rfl | rfl
    · exact hproto _ _ _ _ hvalue hd
    · exact hproto _ _ _ _ hvalue hd'
  · have hty' : ty' = .protobuf := not_not.mp (mt hother.mpr hty)
    subst hty'
    obtain ⟨s, hs, -⟩ := map_ok hvalid
    have hd := (protobufParse_ok hs).1
    obtain ⟨⟨value, hvalue⟩, value', hvalue'⟩ := hread.fromStr hty
    rcases htext with rfl | rfl
    · exact hproto _ _ _ _ hvalue hd
    · exact hproto _ _ _ _ hvalue' hd

end KrabkaRegistry.Format
