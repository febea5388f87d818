import KrabkaRegistry.Format.Diff
import KrabkaRegistry.Guarantees.Representation
import KrabkaRegistry.Guarantees.Transitivity
import KrabkaRegistry.Rest.Compatibility

/-!
# What `/compatibility` Says of a Registration

Both paths compare a candidate with live versions by `check_pair`.  A registration compares the
storage form of the candidate, and the endpoint its text as it was sent; and a path can name
positive versions only.

- `predicts_iff`: the endpoint foretells whether the registration is incompatible, exactly if the
  check refuses the storage form for a compared version just when it refuses the text that was
  sent for one that can be asked about.
- `dotted_name_unpredicted` is a field type with a leading dot, which the storage form drops.
-/

namespace KrabkaRegistry.Guarantees

open KrabkaRegistry.Compat
open KrabkaRegistry.Format (Checker FormatCheck Formats Libs)
open KrabkaRegistry.Kafkastore
open KrabkaRegistry.Rest (parseOptionalVersion parseOptionalVersion_toString)
open KrabkaRegistry.Store

/-! ## The property -/

/-- The body that asks about the schema of a registration. -/
def asked (req : RegisterSchema) (schemaType : Option String) : Rest.Compatibility.Body :=
  ⟨req.schema, schemaType, req.references⟩

/-- The endpoint reports `is_compatible = false` for the version that the path names. -/
def Reports (F : Formats) (st : StoreState) (s version : String) (body : Rest.Compatibility.Body) :
    Prop :=
  ∃ verdict, Rest.Compatibility.check F st s version body = .ok verdict ∧
    verdict.isCompatible = false

/-- A registration is refused as incompatible just when the endpoint reports so: for the latest
live version, or for some live version under a transitive level. -/
def Predicts (F : Formats) (st : StoreState) (req : RegisterSchema) (schemaType : Option String) :
    Prop :=
  (∃ messages, Kafkastore.register F st req = fail (.incompatible messages)) ↔
    if (effectiveLevel st req.subject).isTransitive then
      ∃ live n, st.versions req.subject false = some live ∧ n ∈ live ∧
        Reports F st req.subject (toString n) (asked req schemaType)
    else Reports F st req.subject "latest" (asked req schemaType)

/-! ## The condition -/

/-- A version that the level of the subject compares a candidate with. -/
def Compared (st : StoreState) (s : String) (v : VersionedSchema) : Prop :=
  if (effectiveLevel st s).isTransitive then st.version s (some v.version) false = some v
  else st.version s none false = some v

/-- A path can name the version; the last one is `latest`. -/
def Nameable (st : StoreState) (s : String) (v : VersionedSchema) : Prop :=
  (effectiveLevel st s).isTransitive → 1 ≤ v.version ∧ v.version ≤ i32Max

/-- The check refuses a text against the version, in a direction of the level. -/
def Refused (F : Formats) (st : StoreState) (s : String) (ty : SchemaType) (text : String)
    (refs : List ResolvedReference) (v : VersionedSchema) : Prop :=
  ∃ dir ∈ (effectiveLevel st s).directions,
    checkDirection F ty text refs v.schema (closureOf st v.references) dir ≠ .ok ()

/-- The check takes the text that was sent and its storage form alike: it refuses the one for a
version that can be asked about if and only if it refuses the other for a compared version. -/
def CheckedAlike (F : Formats) (st : StoreState) (s : String) (ty : SchemaType)
    (sent stored : String) (refs : List ResolvedReference) : Prop :=
  (∃ v, Compared st s v ∧ Refused F st s ty stored refs v) ↔
    ∃ v, Compared st s v ∧ Nameable st s v ∧ Refused F st s ty sent refs v

/-- The storage form holds the descriptor of the text that was sent; of Avro and JSON it is that
text. -/
def KeepsDescriptor (L : Libs) (ty : SchemaType) (sent stored : String)
    (refs : List ResolvedReference) : Prop :=
  ty = .protobuf → ∃ p p', Format.protobufParse L sent refs = .ok p ∧
    Format.protobufParse L stored refs = .ok p' ∧ p.descriptor = p'.descriptor

variable {F : Formats} {st : StoreState} {s : String}

/-! ## Live versions -/

/-- A subject's live versions as `version` shows them, in order. -/
def liveVersions (st : StoreState) (s : String) : List VersionedSchema :=
  ((entries st s).filter fun e => !e.deleted).filterMap fun e =>
    (st.byId[e.id]?).map fun reg =>
      ⟨e.id, e.version, reg.ty, reg.schema, reg.references, reg.messageType, reg.extra⟩

theorem versionsSchemas_eq (st : StoreState) (s : String) :
    st.versionsSchemas s = (liveVersions st s).map fun v => (v.ty, v.schema, v.references) := by
  unfold StoreState.versionsSchemas liveVersions entries
  cases st.subjects[s]? with
  | none => rfl
  | some l => simp [List.map_filterMap, Function.comp_def]

theorem mem_liveVersions (hwf : WellFormed st) {v : VersionedSchema} :
    v ∈ liveVersions st s ↔ st.version s (some v.version) false = some v := by
  unfold liveVersions
  rw [List.mem_filterMap]
  constructor
  · rintro ⟨e, he, hv⟩
    obtain ⟨hmem, hlive⟩ := List.mem_filter.mp he
    obtain ⟨reg, hreg, rfl⟩ := Option.map_eq_some_iff.mp hv
    have hentry : entryOf st s e.version = some e := (hwf.increasing s).findVersion_eq hmem
    rw [version_some hwf, hentry, Option.filter_some, if_pos (by simpa using hlive)]
    simp [hreg]
  · intro h
    obtain ⟨e, reg, he, hlive, hreg, hv⟩ := version_live hwf h
    refine ⟨e, List.mem_filter.mpr ⟨(findVersion_some he).1, by simp [hlive]⟩, ?_⟩
    simp [hreg, ← hv]

/-- The content behind every entry is stored, so the last live entry is the latest version. -/
theorem version_latest (hst : Consistent F st) :
    st.version s none false = (liveVersions st s).getLast? := by
  rw [version_latest_eq, liveVersions, List.getLast?_filterMap, ← List.filter_reverse,
    ← List.head?_filter]
  simp only [Bool.false_or]
  cases hlast : (entries st s).reverse.filter fun e => !e.deleted with
  | nil => rfl
  | cons e rest =>
    have he : e ∈ entries st s := by
      have hmem : e ∈ (entries st s).reverse.filter fun e => !e.deleted := by simp [hlast]
      simpa using List.mem_of_mem_filter hmem
    obtain ⟨reg, hreg⟩ := hst.entry_stored ((hst.wellFormed.increasing s).findVersion_eq he)
    simp [hreg]

theorem version_mem_live (hwf : WellFormed st) {v : VersionedSchema}
    (h : st.version s (some v.version) false = some v) :
    ∃ live, st.versions s false = some live ∧ v.version ∈ live := by
  obtain ⟨e, reg, he, hlive, _, hv⟩ := version_live hwf h
  have hmem : v.version ∈ ((entries st s).filter fun e => false || !e.deleted).map (·.version) := by
    refine List.mem_map.mpr ⟨e, List.mem_filter.mpr ⟨(findVersion_some he).1, ?_⟩, by rw [hv]⟩
    simp [hlive]
  rw [versions_eq]
  simp only
  rw [if_neg (by simpa using List.ne_nil_of_mem hmem)]
  exact ⟨_, rfl, hmem⟩

/-- What a registration is compared with, in terms of the versions. -/
theorem mem_targets (hst : Consistent F st) {x : SchemaType × String × List SchemaReference} :
    x ∈ targets (effectiveLevel st s) (st.versionsSchemas s) ↔
      ∃ v, Compared st s v ∧ x = (v.ty, v.schema, v.references) := by
  rw [versionsSchemas_eq]
  unfold targets Compared
  split
  · rw [List.mem_map]
    simp only [mem_liveVersions hst.wellFormed, eq_comm]
  · have hlast : ∀ l : List VersionedSchema, ∀ v, v ∈ l.drop (l.length - 1) ↔ l.getLast? = some v := by
      intro l v
      cases l using List.reverseRecOn with
      | nil => simp
      | append_singleton l a => simp [eq_comm]
    rw [List.length_map, ← List.map_drop, List.mem_map, version_latest hst]
    simp only [hlast, eq_comm]

/-! ## The two paths -/

section Paths

variable {ty : SchemaType} {text : String} {refs : List ResolvedReference}

/-- A pair has messages just when a direction is refused. -/
theorem refused_iff {v : VersionedSchema} :
    Refused F st s ty text refs v ↔
      checkPair F ty text refs v.schema (closureOf st v.references)
        (effectiveLevel st s).directions ≠ [] := by
  rw [Ne, checkPair_eq_nil_iff]
  simp [Refused]

/-- The check of a registration fails with the messages of the compared versions. -/
theorem checkRegistration_incompatible_iff (hst : Consistent F st) :
    (∃ messages, checkRegistration F st s ty text refs = .error (.error (.incompatible messages))) ↔
      ∃ v, Compared st s v ∧ Refused F st s ty text refs v := by
  unfold checkRegistration
  by_cases hdirs : (effectiveLevel st s).directions = []
  · simp [hdirs, Refused]
  -- No messages means that no compared version is refused.
  · have hnone : (targets (effectiveLevel st s) (st.versionsSchemas s)).flatMap (fun v =>
        checkPair F ty text refs v.2.1 ((st.resolveClosure v.2.2).toOption.getD [])
          (effectiveLevel st s).directions) = [] ↔
        ∀ v, Compared st s v → ¬ Refused F st s ty text refs v := by
      rw [List.flatMap_eq_nil_iff]
      constructor
      · intro h v hv
        rw [refused_iff, not_not]
        exact h _ ((mem_targets hst).mpr ⟨v, hv, rfl⟩)
      · intro h x hx
        obtain ⟨v, hv, rfl⟩ := (mem_targets hst).mp hx
        have hpass := h v hv
        rwa [refused_iff, not_not] at hpass
    simp only [List.isEmpty_iff, if_neg hdirs]
    split
    · rename_i hempty
      constructor
      · rintro ⟨messages, h⟩
        cases h
      · rintro ⟨v, hv, hrefused⟩
        exact absurd hrefused (hnone.mp hempty v hv)
    · rename_i hmessages
      have hsome : ∃ v, Compared st s v ∧ Refused F st s ty text refs v := by
        by_contra hall
        simp only [not_exists, not_and] at hall
        exact hmessages (hnone.mpr hall)
      exact ⟨fun _ => hsome, fun _ => ⟨_, rfl⟩⟩

/-- The endpoint's check reports the messages of the one version it is asked about. -/
theorem checkAgainstVersion_incompatible_iff (hlive : (st.versions s false).isSome)
    {want : Option SchemaVersion} :
    (∃ verdict, checkAgainstVersion F st s ty text refs want = .ok verdict ∧
        verdict.isCompatible = false) ↔
      ∃ v, st.version s want false = some v ∧ Refused F st s ty text refs v := by
  unfold checkAgainstVersion
  rw [if_neg (by simpa using Option.isSome_iff_ne_none.mp hlive)]
  cases st.version s want false with
  | none => simp
  | some v =>
    simp only [Option.some.injEq, exists_eq_left', refused_iff]
    by_cases hdirs : (effectiveLevel st s).directions = []
    · simp [hdirs, checkPair]
    · simp [hdirs, closureOf]

end Paths

/-- A failure other than `Incompatible`. -/
def NotIncompatible (e : Failure) : Prop := ∀ messages, e ≠ .error (.incompatible messages)

section Libraries

variable {L : Libs} {avro json : FormatCheck} {req : RegisterSchema}
  {resolved : List ResolvedReference} {stored : String} {schemaType : Option String}

private theorem ofLibs_parse_failsWith {C : Checker} (ty : SchemaType) (schema : String)
    (refs : List ResolvedReference) :
    FailsWith NotIncompatible ((Formats.ofLibs L C).parse ty schema refs) := by
  apply FailsWith.map
  refine (Format.parse_failsWith ty schema refs).mono ?_
  rintro e (⟨message, rfl⟩ | rfl) messages h
  · cases h
  · cases h

/-- Deciding an id and a version fails by an invalid schema or an overflow. -/
private theorem assign_failsWith {C : Checker}
    (hrefs : st.resolveClosure req.references = .ok resolved) :
    FailsWith NotIncompatible (st.register (Formats.ofLibs L C) req.subject req.ty stored
      req.references req.messageType) := by
  unfold StoreState.register StoreState.identityKey
  rw [hrefs]
  apply FailsWith.bind
  · exact (ofLibs_parse_failsWith _ _ _).bind fun canonical => .ok _
  · intro key
    cases st.findUnderSubjectCanonical req.subject key true with
    | some existing => exact .ok _
    | none =>
      refine FailsWith.bind ?_ fun p => .ok _
      unfold StoreState.assignId
      split
      · exact .ok _
      · split
        · exact .error fun messages h => nomatch h
        · exact .ok _

/-- Of a new schema, a registration is refused as incompatible by its check only. -/
theorem register_incompatible_iff {C : Checker}
    (hmode : st.effectiveMode req.subject = "READWRITE")
    (hrefs : st.resolveClosure req.references = .ok resolved)
    (hstored : (Formats.ofLibs L C).normalizedStorageForm req.ty req.schema resolved = .ok stored)
    (hnew : st.findUnderSubject (Formats.ofLibs L C) req.subject req.ty stored req.references
      req.messageType false = none) :
    (∃ messages, Kafkastore.register (Formats.ofLibs L C) st req =
        fail (.incompatible messages)) ↔
      ∃ messages, checkRegistration (Formats.ofLibs L C) st req.subject req.ty stored resolved =
        .error (.error (.incompatible messages)) := by
  have hregister : Kafkastore.register (Formats.ofLibs L C) st req =
      registerAssign (Formats.ofLibs L C) st req stored resolved := by
    unfold Kafkastore.register
    simp only [hmode, hrefs, hstored, bind, Except.bind]
    rfl
  rw [hregister, registerAssign, hnew]
  cases hcheck : checkRegistration (Formats.ofLibs L C) st req.subject req.ty stored resolved with
  | error e => simp [bind, Except.bind, fail]
  | ok u =>
    have hassign : FailsWith NotIncompatible (st.register (Formats.ofLibs L C) req.subject req.ty
        stored req.references req.messageType) := assign_failsWith hrefs
    -- Past the check the store can still fail, but never as incompatible.
    constructor
    · rintro ⟨messages, h⟩
      exact absurd rfl (hassign.bind (fun _ => .ok _) _ h messages)
    · rintro ⟨messages, h⟩
      cases h

/-- What the endpoint reports for a version that a path names. -/
theorem reports_iff {C : Checker} (hlive : (st.versions req.subject false).isSome)
    (hrefs : st.resolveClosure req.references = .ok resolved)
    (hstored : (Formats.ofLibs L C).normalizedStorageForm req.ty req.schema resolved = .ok stored)
    (hty : SchemaType.fromWire schemaType = req.ty) {version : String}
    {want : Option SchemaVersion} (hwant : parseOptionalVersion version = .ok want) :
    Reports (Formats.ofLibs L C) st req.subject version (asked req schemaType) ↔
      ∃ v, st.version req.subject want false = some v ∧
        Refused (Formats.ofLibs L C) st req.subject req.ty req.schema resolved v := by
  obtain ⟨canonical, hparse⟩ := Formats.ofLibs_parses hstored
  rw [← checkAgainstVersion_incompatible_iff hlive]
  unfold Reports Rest.Compatibility.check asked
  simp only [hty, hwant, hrefs, hparse, bind, Except.bind]

/-- Under a transitive level, some live version is reported just when a version with a path of
its own is refused. -/
theorem reports_some_iff {C : Checker} (hst : Consistent (Formats.ofLibs L C) st)
    (hlive : (st.versions req.subject false).isSome)
    (hrefs : st.resolveClosure req.references = .ok resolved)
    (hstored : (Formats.ofLibs L C).normalizedStorageForm req.ty req.schema resolved = .ok stored)
    (hty : SchemaType.fromWire schemaType = req.ty) :
    (∃ live n, st.versions req.subject false = some live ∧ n ∈ live ∧
        Reports (Formats.ofLibs L C) st req.subject (toString n) (asked req schemaType)) ↔
      ∃ v, st.version req.subject (some v.version) false = some v ∧
        (1 ≤ v.version ∧ v.version ≤ i32Max) ∧
        Refused (Formats.ofLibs L C) st req.subject req.ty req.schema resolved v := by
  have hpath := parseOptionalVersion_toString
  constructor
  · rintro ⟨live, n, _, _, hreport⟩
    by_cases hn : 1 ≤ n ∧ n ≤ i32Max
    · rw [reports_iff hlive hrefs hstored hty ((hpath n).trans (if_pos hn))] at hreport
      obtain ⟨v, hv, hrefused⟩ := hreport
      obtain ⟨e, reg, he, _, _, hfound⟩ := version_live hst.wellFormed hv
      obtain rfl : v.version = n := by rw [hfound, entryOf_version he]
      exact ⟨v, hv, hn, hrefused⟩
    · -- The endpoint refuses the path itself.
      obtain ⟨verdict, hcheck, _⟩ := hreport
      unfold Rest.Compatibility.check at hcheck
      rw [hpath n, if_neg hn] at hcheck
      cases hcheck
  · rintro ⟨v, hv, hn, hrefused⟩
    obtain ⟨live, hversions, hmem⟩ := version_mem_live hst.wellFormed hv
    refine ⟨live, v.version, hversions, hmem, ?_⟩
    rw [reports_iff hlive hrefs hstored hty ((hpath v.version).trans (if_pos hn))]
    exact ⟨v, hv, hrefused⟩

/-- With the descriptor kept, each version refuses both texts or none. -/
theorem refused_stored_iff
    (hstored : Format.normalizedStorageForm L req.ty req.schema resolved = .ok stored)
    (hkeep : KeepsDescriptor L req.ty req.schema stored resolved) (v : VersionedSchema) :
    Refused (Formats.ofLibs L (Checker.ofFormats L avro json)) st s req.ty stored resolved v ↔
      Refused (Formats.ofLibs L (Checker.ofFormats L avro json)) st s req.ty req.schema resolved
        v := by
  by_cases hty : req.ty = .protobuf
  · obtain ⟨p, p', hp, hp', hd⟩ := hkeep hty
    have hsame : ∀ dir, checkDirection (Formats.ofLibs L (Checker.ofFormats L avro json)) req.ty
        stored resolved v.schema (closureOf st v.references) dir =
        checkDirection (Formats.ofLibs L (Checker.ofFormats L avro json)) req.ty req.schema
          resolved v.schema (closureOf st v.references) dir := by
      rw [hty]
      intro dir
      cases dir with
      | newReadsOld => exact (Format.protobufCheck_reader hp hp' hd).symm
      | oldReadsNew => exact (Format.protobufCheck_writer hp hp' hd).symm
    simp only [Refused, hsame]
  · rw [Format.normalizedStorageForm_raw hty hstored]

/-- The endpoint foretells whether a new schema is incompatible, exactly if the check takes the
text that was sent and its storage form alike.  It does so when the storage form keeps the
descriptor and every compared version can be named. -/
theorem predicts_iff (hst : Consistent (Formats.ofLibs L (Checker.ofFormats L avro json)) st)
    (hmode : st.effectiveMode req.subject = "READWRITE")
    (hlive : (st.versions req.subject false).isSome)
    (hrefs : st.resolveClosure req.references = .ok resolved)
    (hstored : (Formats.ofLibs L (Checker.ofFormats L avro json)).normalizedStorageForm req.ty
      req.schema resolved = .ok stored)
    (hnew : st.findUnderSubject (Formats.ofLibs L (Checker.ofFormats L avro json)) req.subject
      req.ty stored req.references req.messageType false = none)
    (hty : SchemaType.fromWire schemaType = req.ty) :
    (Predicts (Formats.ofLibs L (Checker.ofFormats L avro json)) st req schemaType ↔
      CheckedAlike (Formats.ofLibs L (Checker.ofFormats L avro json)) st req.subject req.ty
        req.schema stored resolved) ∧
    (KeepsDescriptor L req.ty req.schema stored resolved →
      (∀ v, Compared st req.subject v → Nameable st req.subject v) →
      Predicts (Formats.ofLibs L (Checker.ofFormats L avro json)) st req schemaType) := by
  -- Both sides come down to a version that is compared and refuses.
  have hiff : Predicts (Formats.ofLibs L (Checker.ofFormats L avro json)) st req schemaType ↔
      CheckedAlike (Formats.ofLibs L (Checker.ofFormats L avro json)) st req.subject req.ty
        req.schema stored resolved := by
    unfold Predicts CheckedAlike
    rw [register_incompatible_iff hmode hrefs hstored hnew,
      checkRegistration_incompatible_iff hst]
    split
    · rename_i htrans
      rw [reports_some_iff hst hlive hrefs hstored hty]
      simp only [Compared, Nameable, htrans, if_true, forall_const]
    · rename_i htrans
      have hlatest : parseOptionalVersion "latest" = .ok none := rfl
      rw [reports_iff hlive hrefs hstored hty hlatest]
      simp [Compared, Nameable, htrans]
  -- Where normalisation keeps the descriptor, the text sent and the text stored are refused alike.
  refine ⟨hiff, fun hkeep hname => ?_⟩
  apply hiff.mpr
  apply exists_congr
  intro v
  rw [refused_stored_iff hstored hkeep]
  exact ⟨fun h => ⟨h.1, hname v h.1, h.2⟩, fun h => ⟨h.1, h.2.2⟩⟩

end Libraries

/-! ## A name with a leading dot -/

section DottedName

open KrabkaRegistry.Format.Protobuf (DescriptorProto FieldDescriptorProto FileDescriptorProto)

/-- A field of a `.proto` text: a type without a name is a scalar, and a name stays as spelled. -/
def fieldOf (name : String) (number : Int) (type? : Option Format.Protobuf.FieldType)
    (typeName : Option String) : FieldDescriptorProto :=
  { name := some name, number := some number, label? := some .optional, type? := type?
    typeName := typeName }

/-- A file with an empty message `A` and a message `U` with the given fields. -/
def fileOf (name : String) (fields : List FieldDescriptorProto) : FileDescriptorProto :=
  { name := some name, syntax? := some "proto3"
    messageType := [{ name := some "A" }, { name := some "U", field := fields }] }

/-- What is stored: `U` has a field of type `A`. -/
def oldText : String :=
  "syntax = \"proto3\";\n\nmessage A \x7b\n\x7d\n\nmessage U \x7b\n  A x = 1;\n\x7d\n"

/-- The next version, with a second field. -/
def newText : String :=
  "syntax = \"proto3\";\n\nmessage A \x7b\n\x7d\n\nmessage U \x7b\n  A x = 1;\n" ++
    "  int32 y = 2;\n\x7d\n"

/-- The same on one line. -/
def plainText : String :=
  "syntax = \"proto3\"; message A \x7b\x7d message U \x7b A x = 1; int32 y = 2; \x7d"

/-- The same with the type given by its full name. -/
def dottedText : String :=
  "syntax = \"proto3\"; message A \x7b\x7d message U \x7b .A x = 1; int32 y = 2; \x7d"

/-- A field of the wire format with a length below 128. -/
def lengthDelimited (tag : UInt8) (bytes : List UInt8) : List UInt8 :=
  tag :: UInt8.ofNat bytes.length :: bytes

def asciiBytes (text : String) : List UInt8 := text.toList.map fun c => UInt8.ofNat c.toNat

def encodeField (f : FieldDescriptorProto) : List UInt8 :=
  lengthDelimited 0x0a (asciiBytes (f.name.getD "")) ++
    [0x18, UInt8.ofNat (f.number.getD 0).toNat, 0x20, 0x01] ++
    (if f.type?.isSome then [0x28, 0x05] else []) ++
    f.typeName.toList.flatMap fun name => lengthDelimited 0x32 (asciiBytes name)

def encodeMessage (m : DescriptorProto) : List UInt8 :=
  lengthDelimited 0x0a (asciiBytes (m.name.getD "")) ++
    m.field.flatMap fun f => lengthDelimited 0x12 (encodeField f)

/-- The libraries on the four texts. -/
def dottedLibs : Libs :=
  { Libs.sample with
    protoxParse := fun name text =>
      let x (typeName : String) := fieldOf "x" 1 none (some typeName)
      let y := fieldOf "y" 2 (some .int32) none
      if text = oldText then .ok (fileOf name [x "A"])
      else if text = newText ∨ text = plainText then .ok (fileOf name [x "A", y])
      else if text = dottedText then .ok (fileOf name [x ".A", y])
      else .error "expected 'syntax'"
    encodeToVec := fun d =>
      (d.messageType.flatMap fun m => lengthDelimited 0x22 (encodeMessage m)) ++
        d.syntax?.toList.flatMap fun name => lengthDelimited 0x62 (asciiBytes name) }

/-- A check of Avro or JSON that refuses nothing; the requests here are of Protobuf. -/
def acceptAll : FormatCheck := ⟨fun _ _ _ _ => .ok (), fun h => nomatch h⟩

def dottedFormats : Formats :=
  Formats.ofLibs dottedLibs (Checker.ofFormats dottedLibs acceptAll acceptAll)

/-- A store with the defaults and one version. -/
def dottedState : StoreState :=
  replay dottedFormats (StoreState.withDefaults "BACKWARD" "READWRITE")
    [encodeSchemaWithMessageType "s" 1 1 .protobuf oldText [] none]

def dottedRequest (schema : String) : RegisterSchema :=
  { subject := "s", ty := .protobuf, schema := schema }

theorem dottedState_consistent : Consistent dottedFormats dottedState :=
  replay_consistent (withDefaults_consistent dottedFormats "BACKWARD" "READWRITE") _

/-- The field types of `dottedText` are spelled as those of the stored version once it has its
storage form, and not before. -/
theorem dotted_name_unpredicted :
    dottedState.effectiveMode "s" = "READWRITE" ∧ dottedState.versions "s" false = some [1] ∧
      (dottedState.resolveClosure []).toOption = some [] ∧
      (dottedFormats.normalizedStorageForm .protobuf dottedText []).toOption = some newText ∧
      dottedState.findUnderSubject dottedFormats "s" .protobuf newText [] none false = none ∧
      (Kafkastore.register dottedFormats dottedState (dottedRequest dottedText)).toOption.map
        (·.2) = some ⟨2, 2⟩ ∧
      (Rest.Compatibility.check dottedFormats dottedState "s" "latest"
        (asked (dottedRequest dottedText) (some "PROTOBUF"))).toOption =
          some ⟨false, ["FieldNamedTypeChanged at U.#1"]⟩ ∧
      ¬ Predicts dottedFormats dottedState (dottedRequest dottedText) (some "PROTOBUF") := by
  have hregister : (Kafkastore.register dottedFormats dottedState
      (dottedRequest dottedText)).toOption.map (·.2) = some ⟨2, 2⟩ := by decide +kernel
  have hcheck : (Rest.Compatibility.check dottedFormats dottedState "s" "latest"
      (asked (dottedRequest dottedText) (some "PROTOBUF"))).toOption =
        some ⟨false, ["FieldNamedTypeChanged at U.#1"]⟩ := by decide +kernel
  have hlevel : (effectiveLevel dottedState "s").isTransitive = false := by decide +kernel
  refine ⟨by decide +kernel, by decide +kernel, by decide +kernel, by decide +kernel,
    by decide +kernel, hregister, hcheck, ?_⟩
  intro hpredicts
  unfold Predicts at hpredicts
  -- The check reports an incompatibility, and the registration goes through.
  have hreports : Reports dottedFormats dottedState "s" "latest"
      (asked (dottedRequest dottedText) (some "PROTOBUF")) := by
    cases h : Rest.Compatibility.check dottedFormats dottedState "s" "latest"
        (asked (dottedRequest dottedText) (some "PROTOBUF")) with
    | error e => simp [h, Except.toOption] at hcheck
    | ok verdict =>
      obtain rfl : verdict = ⟨false, ["FieldNamedTypeChanged at U.#1"]⟩ := by
        simpa [h, Except.toOption] using hcheck
      exact ⟨_, h, rfl⟩
  rw [show (dottedRequest dottedText).subject = "s" from rfl, hlevel, if_neg (by simp)] at hpredicts
  obtain ⟨messages, hrefused⟩ := hpredicts.mpr hreports
  simp [hrefused, fail, Except.toOption] at hregister

/-- Without the dot the text has the descriptor of its storage form. -/
theorem plain_name_predicted :
    KeepsDescriptor dottedLibs .protobuf plainText newText [] ∧
      Predicts dottedFormats dottedState (dottedRequest plainText) (some "PROTOBUF") := by
  have hparse : ∀ text ∈ [plainText, newText], Format.protobufParse dottedLibs text [] =
      .ok ⟨fileOf "schema.proto" [fieldOf "x" 1 none (some "A"), fieldOf "y" 2 (some .int32) none],
        newText⟩ := by
    intro text htext
    rcases List.mem_pair.mp htext with rfl | rfl
    · rfl
    · rfl
  have hkeep : KeepsDescriptor dottedLibs .protobuf plainText newText [] := fun _ =>
    ⟨_, _, hparse _ (by simp), hparse _ (by simp), rfl⟩
  have hstored : dottedFormats.normalizedStorageForm (dottedRequest plainText).ty plainText [] =
      .ok newText := congrArg (Functor.map _) (hparse plainText (by simp))
  have hnew : dottedState.findUnderSubject dottedFormats "s" .protobuf newText [] none false =
      none := by decide +kernel
  have hty : SchemaType.fromWire (some "PROTOBUF") = (dottedRequest plainText).ty := rfl
  have hlevel : (effectiveLevel dottedState "s").isTransitive = false := by decide +kernel
  refine ⟨hkeep, (predicts_iff dottedState_consistent (by decide +kernel) (by decide +kernel) rfl
    hstored hnew hty).2 hkeep ?_⟩
  intro v _ htrans
  exact absurd (hlevel.symm.trans htrans) (by decide)

end DottedName

end KrabkaRegistry.Guarantees
