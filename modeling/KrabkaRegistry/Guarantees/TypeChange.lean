import KrabkaRegistry.Compat
import KrabkaRegistry.Format.Check
import KrabkaRegistry.Format.JsonSample
import KrabkaRegistry.Kafkastore.Record

/-!
# Changing the Format of a Subject

The compatibility check of a registration reads every compared text as a schema of the
candidate's type, whatever the type it was stored with.  What keeps a subject in its format is
therefore that a text of one format is not valid in another, or not compatible there.

- `type_kept_iff`: a change of format is refused exactly when one of the texts is not valid in the
  candidate's format or a pair of them is not compatible there; between Protobuf and the other
  formats it always is.
- `avro_becomes_json`: one text is a schema of Avro and of JSON Schema, and the subject changes
  its format.
-/

namespace KrabkaRegistry.Guarantees

open KrabkaRegistry.Compat
open KrabkaRegistry.Format
open KrabkaRegistry.Kafkastore
open KrabkaRegistry.Store

variable {F : Formats} {st : StoreState} {s text : String} {ty : SchemaType}
  {refs : List ResolvedReference}

/-- The live versions a registration is compared with. -/
def compared (st : StoreState) (s : String) :
    List (SchemaType × String × List SchemaReference) :=
  targets (effectiveLevel st s) (st.versionsSchemas s)

/-- The references of a compared version, none if they no longer resolve. -/
def comparedRefs (st : StoreState) (v : SchemaType × String × List SchemaReference) :
    List ResolvedReference :=
  (st.resolveClosure v.2.2).toOption.getD []

/-- A candidate whose type is not that of every compared version is refused, unless the level
is `NONE`. -/
def TypeKept (F : Formats) (st : StoreState) (s : String) (ty : SchemaType) (text : String)
    (refs : List ResolvedReference) : Prop :=
  effectiveLevel st s ≠ .none → (∃ v ∈ compared st s, v.1 ≠ ty) →
    ∃ messages, checkRegistration F st s ty text refs = .error (.error (.incompatible messages))

/-- What holds of reader and writer when a candidate and a compared version are checked in one
direction. -/
def InDirection (P : String → String → List ResolvedReference → List ResolvedReference → Prop)
    (st : StoreState) (text : String) (refs : List ResolvedReference)
    (v : SchemaType × String × List SchemaReference) : Direction → Prop
  | .newReadsOld => P text v.2.1 refs (comparedRefs st v)
  | .oldReadsNew => P v.2.1 text (comparedRefs st v) refs

/-! ## The check of a registration -/

theorem directions_eq_nil_iff {level : CompatibilityLevel} :
    level.directions = [] ↔ level = .none := by
  cases level <;> simp [CompatibilityLevel.directions]

/-- The messages of all pairs are collected, and there are none if every pair passes in every
direction. -/
theorem registration_ok_iff :
    checkRegistration F st s ty text refs = .ok () ↔
      ∀ v ∈ compared st s, ∀ dir ∈ (effectiveLevel st s).directions,
        InDirection (fun reader writer readerRefs writerRefs =>
          F.check ty reader writer readerRefs writerRefs = .ok ()) st text refs v dir := by
  have hpair : ∀ v, checkPair F ty text refs v.2.1 (comparedRefs st v)
      (effectiveLevel st s).directions = [] ↔
        ∀ dir ∈ (effectiveLevel st s).directions,
          InDirection (fun reader writer readerRefs writerRefs =>
            F.check ty reader writer readerRefs writerRefs = .ok ()) st text refs v dir := by
    intro v
    rw [checkPair_eq_nil_iff]
    apply forall₂_congr
    intro dir _
    cases dir <;> rfl
  simp only [← hpair, checkRegistration]
  -- Without directions nothing is compared; otherwise every pair has to leave no message.
  split
  · next hnone =>
    rw [List.isEmpty_iff] at hnone
    simp [hnone, checkPair]
  · rw [← compared]
    split
    · next hnil =>
      rw [List.isEmpty_iff, List.flatMap_eq_nil_iff] at hnil
      simpa [comparedRefs] using hnil
    · next hsome =>
      rw [List.isEmpty_iff, List.flatMap_eq_nil_iff] at hsome
      exact iff_of_false (by simp) hsome

/-- A refused registration names what is incompatible. -/
theorem registration_refused_iff :
    (∃ messages,
      checkRegistration F st s ty text refs = .error (.error (.incompatible messages))) ↔
      checkRegistration F st s ty text refs ≠ .ok () := by
  simp only [checkRegistration]
  split
  · simp
  · split <;> simp

/-! ## Texts of several formats -/

section Formats

variable {L : Libs} {isMatch : String → String → Bool} {canRead : CanRead L} {fuel : ℕ}

/-- The comparisons of JSON Schemas that a registration makes end. -/
def ComparisonsEnd (L : Libs) (isMatch : String → String → Bool) (fuel : ℕ) (st : StoreState)
    (s : String) (ty : SchemaType) (text : String) (refs : List ResolvedReference) : Prop :=
  ty = .json → ∀ v ∈ compared st s, ∀ dir ∈ (effectiveLevel st s).directions,
    InDirection (fun reader writer readerRefs writerRefs =>
      (Json.check ⟨L.serdeJson, isMatch⟩ fuel reader writer readerRefs writerRefs).isSome) st text
      refs v dir

/-- One of the two texts is not valid in the format, or what the format reads in them is not
compatible. -/
def Apart (L : Libs) (isMatch : String → String → Bool) (canRead : CanRead L) (ty : SchemaType)
    (reader writer : String) (readerRefs writerRefs : List ResolvedReference) : Prop :=
  ∀ p, ReadAs L reader writer readerRefs writerRefs ty p → ¬ p.Compatible isMatch canRead

/-- In its own format a compared version is valid, and that format or the candidate's is Protobuf
while the other is not. -/
def AcrossProtobuf (L : Libs) (st : StoreState) (ty : SchemaType)
    (v : SchemaType × String × List SchemaReference) : Prop :=
  (ty = .protobuf ↔ v.1 ≠ .protobuf) ∧ ∃ schema, parse L v.1 v.2.1 (comparedRefs st v) = .ok schema

theorem registration_accepted_iff
    (hends : ComparisonsEnd L isMatch fuel st s ty text refs) :
    checkRegistration (Formats.within L isMatch canRead fuel) st s ty text refs = .ok () ↔
      ∀ v ∈ compared st s, ∀ dir ∈ (effectiveLevel st s).directions,
        ¬ InDirection (Apart L isMatch canRead ty) st text refs v dir := by
  rw [registration_ok_iff]
  refine forall₂_congr fun v hv => forall₂_congr fun dir hdir => ?_
  have hone : ∀ {reader writer : String} {readerRefs writerRefs : List ResolvedReference},
      (ty = .json → (Json.check ⟨L.serdeJson, isMatch⟩ fuel reader writer readerRefs
        writerRefs).isSome) →
      ((Formats.within L isMatch canRead fuel).check ty reader writer readerRefs writerRefs = .ok () ↔
        ¬ Apart L isMatch canRead ty reader writer readerRefs writerRefs) := by
    intro reader writer readerRefs writerRefs h
    rw [check_ok_iff h, Apart]
    push Not
    rfl
  cases dir with
  | newReadsOld => exact hone fun hty => hends hty v hv _ hdir
  | oldReadsNew => exact hone fun hty => hends hty v hv _ hdir

/-- A compared version on the other side of Protobuf is apart from every candidate. -/
theorem apart_of_protobuf {v : SchemaType × String × List SchemaReference}
    (hproto : ProtoTakesNoJson L) (hacross : AcrossProtobuf L st ty v) (dir : Direction) :
    InDirection (Apart L isMatch canRead ty) st text refs v dir := by
  obtain ⟨hother, schema, hvalid⟩ := hacross
  cases dir with
  | newReadsOld =>
    exact fun p hread => absurd hread (not_readAs_of_parse hproto hother hvalid (.inr rfl))
  | oldReadsNew =>
    exact fun p hread => absurd hread (not_readAs_of_parse hproto hother hvalid (.inl rfl))

/-- **Changing the format.**  The types of the stored versions play no part: what counts is whether
the texts are valid in the candidate's format, and compatible there.  No text is valid in Protobuf
and in another format, so that between these every change is refused. -/
theorem type_kept_iff (hends : ComparisonsEnd L isMatch fuel st s ty text refs) :
    (TypeKept (Formats.within L isMatch canRead fuel) st s ty text refs ↔
      effectiveLevel st s = .none ∨ (∀ v ∈ compared st s, v.1 = ty) ∨
        ∃ v ∈ compared st s, ∃ dir ∈ (effectiveLevel st s).directions,
          InDirection (Apart L isMatch canRead ty) st text refs v dir) ∧
      (ProtoTakesNoJson L → (∃ v ∈ compared st s, AcrossProtobuf L st ty v) →
        TypeKept (Formats.within L isMatch canRead fuel) st s ty text refs) := by
  have hiff : TypeKept (Formats.within L isMatch canRead fuel) st s ty text refs ↔
      effectiveLevel st s = .none ∨ (∀ v ∈ compared st s, v.1 = ty) ∨
        ∃ v ∈ compared st s, ∃ dir ∈ (effectiveLevel st s).directions,
          InDirection (Apart L isMatch canRead ty) st text refs v dir := by
    by_cases hlevel : effectiveLevel st s = .none
    · simp [TypeKept, hlevel]
    rw [TypeKept, registration_refused_iff]
    simp only [ne_eq, hlevel, not_false_eq_true, true_imp_iff, false_or,
      registration_accepted_iff hends]
    rw [imp_iff_not_or]
    push Not
    rfl
  refine ⟨hiff, ?_⟩
  -- Across Protobuf every direction of the level is refused, so any of them will do.
  rintro hproto ⟨v, hv, hacross⟩
  apply hiff.mpr
  by_cases hlevel : effectiveLevel st s = .none
  · exact .inl hlevel
  obtain ⟨dir, hdir⟩ := List.exists_mem_of_ne_nil _ (mt directions_eq_nil_iff.mp hlevel)
  exact .inr (.inr ⟨v, hv, dir, hdir, apart_of_protobuf hproto hacross dir⟩)

end Formats

/-! ## A text of two formats -/

/-- The formats of the examples: compact JSON, one text that is an Avro schema, and two `.proto`
files.  Avro finds every pair compatible. -/
def mixedLibs : Libs := { Libs.sample with serdeJson := Json.SerdeJson.compact }

def mixedCanRead : CanRead mixedLibs := fun _ _ => .ok .full

def mixedFormats : Formats :=
  .within mixedLibs Json.DiffLibs.compact.isMatch mixedCanRead 2

/-- `{"type":"string"}`, a schema of Avro and of JSON Schema. -/
def stringSchema : String := "\x7b\"type\":\"string\"\x7d"

/-- A store with the defaults and one version of Avro. -/
def avroState : StoreState :=
  replay mixedFormats (StoreState.withDefaults "BACKWARD" "READWRITE")
    [encodeSchemaWithMessageType "s" 1 1 .avro stringSchema [] none]

theorem mixedFormats_json (reader writer : String)
    (readerRefs writerRefs : List ResolvedReference) :
    mixedFormats.check .json reader writer readerRefs writerRefs =
      (Json.check .compact 2 reader writer readerRefs writerRefs).getD (.ok ()) := rfl

theorem stringSchema_compared :
    Json.check .compact 2 stringSchema stringSchema [] [] = some (.ok ()) := by
  have hparse : Json.Parses .compact stringSchema []
      ⟨.object [("type", .string "string")], []⟩ := Json.compact_parses (by decide +kernel) rfl
  unfold Json.Parses at hparse
  simp only [Json.check, hparse]
  rw [Json.checkParsed_ok, Json.Comparison.ofSchemas, ← Json.compareSchema_judge _ _ _ "#"]
  decide +kernel

theorem avroState_level : effectiveLevel avroState "s" = .backward := by decide +kernel

theorem avroState_compared : compared avroState "s" = [(.avro, stringSchema, [])] := by
  decide +kernel

theorem avroState_refs : comparedRefs avroState (.avro, stringSchema, []) = [] := by decide +kernel

theorem avroState_accepts :
    checkRegistration mixedFormats avroState "s" .json stringSchema [] = .ok () := by
  rw [registration_ok_iff, avroState_compared, avroState_level]
  intro v hv dir hdir
  obtain rfl := List.mem_singleton.mp hv
  -- The one direction of the level reads the stored text as a JSON Schema.
  obtain rfl := List.mem_singleton.mp hdir
  simp only [InDirection]
  rw [avroState_refs, mixedFormats_json, stringSchema_compared, Option.getD_some]

/-- The subject holds Avro under `BACKWARD`, and accepts a JSON Schema. -/
theorem avro_becomes_json :
    effectiveLevel avroState "s" = .backward ∧
      compared avroState "s" = [(.avro, stringSchema, [])] ∧
      Json.Accepts .compact stringSchema stringSchema [] [] ∧
      checkRegistration mixedFormats avroState "s" .json stringSchema [] = .ok () ∧
      ¬ TypeKept mixedFormats avroState "s" .json stringSchema [] := by
  refine ⟨avroState_level, avroState_compared, ⟨2, stringSchema_compared⟩, avroState_accepts, ?_⟩
  intro hkept
  obtain ⟨messages, hrefused⟩ := hkept (by simp [avroState_level]) (by simp [avroState_compared])
  rw [avroState_accepts] at hrefused
  cases hrefused

/-- The two `.proto` files of the examples are no JSON. -/
theorem mixedLibs_takesNoJson : ProtoTakesNoJson mixedLibs := by
  intro name text value d hvalue hd
  simp only [mixedLibs, Libs.sample] at hvalue hd
  split_ifs at hd with hsample hsyntax
  · subst hsample
    have hnone : (Json.SerdeJson.compact.fromStr sampleProto).toOption.isNone = true := by
      decide +kernel
    simp [hvalue, Except.toOption] at hnone
  · subst hsyntax
    have hnone : (Json.SerdeJson.compact.fromStr "syntax = \"proto3\";\n").toOption.isNone =
        true := by decide +kernel
    simp [hvalue, Except.toOption] at hnone

/-- Read as JSON Schemas, the stored text and the candidate are not apart; a `.proto` file is kept
out. -/
theorem string_keeps_protobuf_out :
    (∀ dir ∈ (effectiveLevel avroState "s").directions,
      ¬ InDirection (Apart mixedLibs Json.DiffLibs.compact.isMatch mixedCanRead .json) avroState
        stringSchema [] (.avro, stringSchema, []) dir) ∧
      TypeKept mixedFormats avroState "s" .protobuf sampleProto [] := by
  have hmem : (SchemaType.avro, stringSchema, []) ∈ compared avroState "s" := by
    simp [avroState_compared]
  constructor
  · have hends : ComparisonsEnd mixedLibs Json.DiffLibs.compact.isMatch 2 avroState "s" .json
        stringSchema [] := by
      intro _ v hv dir hdir
      rw [avroState_compared] at hv
      rw [avroState_level] at hdir
      obtain rfl := List.mem_singleton.mp hv
      obtain rfl := List.mem_singleton.mp hdir
      simp only [InDirection]
      rw [avroState_refs]
      exact Option.isSome_iff_exists.mpr ⟨.ok (), stringSchema_compared⟩
    intro dir hdir hapart
    -- Were the types apart, the registration would be refused, and it is accepted.
    have hkept : TypeKept mixedFormats avroState "s" .json stringSchema [] :=
      (type_kept_iff hends).1.mpr (.inr (.inr ⟨_, hmem, dir, hdir, hapart⟩))
    obtain ⟨messages, hrefused⟩ := hkept (by simp [avroState_level]) ⟨_, hmem, by decide⟩
    rw [avroState_accepts] at hrefused
    cases hrefused
  · have hends : ComparisonsEnd mixedLibs Json.DiffLibs.compact.isMatch 2 avroState "s" .protobuf
        sampleProto [] := fun hjson => by cases hjson
    refine (type_kept_iff hends).2 mixedLibs_takesNoJson ⟨_, hmem, ?_⟩
    -- The Avro text parses with no references, so it is a schema of its own type.
    refine ⟨by decide, ?_⟩
    rw [avroState_refs]
    refine ⟨.avro ⟨"string", Json.toJsonString Json.SerdeJson.compact
      (.object [("type", .string "string")])⟩, ?_⟩
    have hvalue : Json.SerdeJson.compact.fromStr stringSchema =
        .ok (.object [("type", .string "string")]) := Json.compact_fromStr (by decide +kernel)
    simp only [parse, avroParse, mixedLibs, hvalue]
    rfl

end KrabkaRegistry.Guarantees
