import Mathlib.Tactic.Ring
import KrabkaRegistry.Kafkastore.Codec

/-!
# The Codec of the Topic

`topic_codec`: every record that an encoder writes is decoded to what it was built from, and
two records have the same key bytes exactly when they are about the same entity.
-/

namespace KrabkaRegistry.Guarantees

open KrabkaRegistry.Format.Json
open KrabkaRegistry.Kafkastore (SchemaValue DeleteSubjectValue TopicKey TopicRecord Uuid)
open KrabkaRegistry.Kafkastore.Codec

variable {J : SerdeJson} {fromSlice : ByteArray → Option Value}

/-! ## Documents that read back -/

/-- A number in the range of an `i32` is printed and read back. -/
theorem readsBack_intValue {n : Int} (h : IsI32 n) : ReadsBack J fromSlice (intValue n) := by
  obtain ⟨hlow, hhigh⟩ := h
  unfold i32Max at hhigh
  exact .int (by omega) (by omega)

/-- So is the magic byte, which the source writes as a number. -/
theorem readsBack_magic (m : UInt8) : ReadsBack J fromSlice (intValue m.toNat) := by
  have hm : m.toNat < 256 := m.toNat_lt
  exact .int (by omega) (by omega)

/-- The key of a schema record is read back. -/
theorem readsBack_schemaKey {k : SchemaKey} (h : IsI32 k.version) :
    ReadsBack J fromSlice k.serialize := by
  refine .object ?_
  simp only [List.forall_mem_cons, List.not_mem_nil, false_implies, implies_true, and_true]
  exact ⟨.string _, .string _, readsBack_intValue h, readsBack_magic _⟩

/-- So is the key of a level or a mode, with or without a subject. -/
theorem readsBack_levelKey (k : LevelKey) : ReadsBack J fromSlice k.serialize := by
  have hsubject : ReadsBack J fromSlice (nullable k.subject) := by
    cases k.subject with
    | none => exact .null
    | some s => exact .string s
  refine .object ?_
  simp only [List.forall_mem_cons, List.not_mem_nil, false_implies, implies_true, and_true]
  exact ⟨.string _, hsubject, readsBack_magic _⟩

/-- So is the key of a delete or of a version mark. -/
theorem readsBack_markerKey (k : MarkerKey) : ReadsBack J fromSlice k.serialize := by
  refine .object ?_
  simp only [List.forall_mem_cons, List.not_mem_nil, false_implies, implies_true, and_true]
  exact ⟨.string _, .string _, readsBack_magic _⟩

/-- So is one reference of a schema. -/
theorem readsBack_referenceValue {r : SchemaReference} (h : IsI32 r.version) :
    ReadsBack J fromSlice (referenceValue r) := by
  refine .object ?_
  simp only [List.forall_mem_cons, List.not_mem_nil, false_implies, implies_true, and_true]
  exact ⟨.string _, .string _, readsBack_intValue h⟩

/-- A `SCHEMA` value that the source's types can hold: 32-bit numbers, and extra members under
other names than the fields'. -/
structure Holds (J : SerdeJson) (fromSlice : ByteArray → Option Value) (v : SchemaValue) :
    Prop where
  version : IsI32 v.version
  id : IsI32 v.id
  references : ∀ r ∈ v.references, IsI32 r.version
  extraNames : ∀ m ∈ v.extra.toList, m.1 ∉ schemaFields
  extraValues : ∀ m ∈ v.extra.toList, IsValue m.2 ∧ ReadsBack J fromSlice m.2

/-- So is the value of a schema record, member by member. The optional members are written only when
they are there, and unknown members are part of the value and have to be readable themselves. -/
theorem readsBack_schemaValue {v : SchemaValue} (h : Holds J fromSlice v) :
    ReadsBack J fromSlice (schemaValueDocument v) := by
  have hstring : ∀ (name : String) (s : Option String),
      ∀ m ∈ unlessNone name (s.map .string), ReadsBack J fromSlice m.2 := by
    intro name s m hm
    cases s with
    | none => simp [unlessNone] at hm
    | some s =>
      obtain rfl : m = (name, .string s) := by simpa [unlessNone] using hm
      exact .string s
  refine .object fun m hm => ?_
  simp only [schemaMembers, List.mem_append, or_assoc] at hm
  -- Three required members, two optional strings, the references, two more members and the unknown
  -- ones.
  rcases hm with hm | hm | hm | hm | hm | hm
  · simp only [List.mem_cons, List.not_mem_nil, or_false] at hm
    rcases hm with rfl | rfl | rfl
    · exact .string _
    · exact readsBack_intValue h.version
    · exact readsBack_intValue h.id
  · exact hstring _ _ m hm
  · exact hstring _ _ m hm
  · by_cases hrefs : v.references.isEmpty = true
    · simp [hrefs, unlessNone] at hm
    · obtain rfl : m = ("references", .array (v.references.map referenceValue)) := by
        simpa [hrefs, unlessNone] using hm
      refine .array fun w hw => ?_
      obtain ⟨r, hr, rfl⟩ := List.mem_map.mp hw
      exact readsBack_referenceValue (h.references r hr)
  · simp only [List.mem_cons, List.not_mem_nil, or_false] at hm
    rcases hm with rfl | rfl
    · exact .string _
    · exact .bool _
  · exact (h.extraValues m hm).2

/-! ## Reading what was printed -/

/-- Reading a string back. -/
@[simp] theorem readStr_string (s : String) : readStr (.string s) = some s := rfl

/-- Reading a number back; the range is what the source's integer type guarantees. -/
theorem readI32_intValue {n : Int} (h : IsI32 n) : readI32 (intValue n) = some n := by
  simp [readI32, intValue, h]

/-- Reading the magic byte back. -/
@[simp] theorem readU8_magic (m : UInt8) : readU8 (intValue m.toNat) = some m := by
  have hm : m.toNat < 256 := m.toNat_lt
  have hrange : (0 : Int) ≤ m.toNat ∧ (m.toNat : Int) < 256 := by omega
  simp [readU8, intValue, hrange]

/-- `null` stands for an absent string and for nothing else. -/
@[simp] theorem readOption_nullable (s : Option String) :
    readOption readStr (nullable s) = some s := by
  cases s <;> rfl

/-- A schema key survives the round trip. -/
theorem deserialize_schemaKey {k : SchemaKey} (h : IsI32 k.version) :
    SchemaKey.deserialize k.serialize = some k := by
  simp [SchemaKey.deserialize, SchemaKey.serialize, structMembers, required, field,
    readI32_intValue h]

/-- A level key survives the round trip. -/
@[simp] theorem deserialize_levelKey (k : LevelKey) :
    LevelKey.deserialize k.serialize = some k := by
  simp [LevelKey.deserialize, LevelKey.serialize, structMembers, required, defaulted, field]

/-- A marker key survives the round trip. -/
@[simp] theorem deserialize_markerKey (k : MarkerKey) :
    MarkerKey.deserialize k.serialize = some k := by
  simp [MarkerKey.deserialize, MarkerKey.serialize, structMembers, required, field]

/-- A reference survives the round trip. -/
theorem readReference_referenceValue {r : SchemaReference} (h : IsI32 r.version) :
    readReference (referenceValue r) = some r := by
  simp [readReference, referenceValue, structMembers, required, field, readI32_intValue h]

/-- A list of references survives the round trip, one by one. -/
theorem readReferences_map {references : List SchemaReference}
    (h : ∀ r ∈ references, IsI32 r.version) :
    readReferences (.array (references.map referenceValue)) = some references := by
  unfold readReferences
  induction references with
  | nil => rfl
  | cons r references ih =>
    have hrest := ih fun x hx => h x (List.mem_cons_of_mem r hx)
    simp only at hrest ⊢
    rw [List.map_cons, List.mapM_cons, readReference_referenceValue (h r List.mem_cons_self), hrest]
    rfl

/-! ### The `SCHEMA` value -/

/-- A field that occurs at most once is found as it was written. -/
theorem field_of_filter {members : List (String × Value)} {name : String} {v : Option Value}
    (h : members.filter (fun m => m.1 = name) = unlessNone name v) :
    field members name = some v := by
  unfold field
  rw [h]
  cases v <;> rfl

/-- An optional member that is there is one member. -/
private theorem unlessNone_some (name : String) (v : Value) :
    unlessNone name (some v) = [(name, v)] := rfl

/-- An optional member is found under its own name only. -/
private theorem filter_unlessNone (name other : String) (v : Option Value) :
    (unlessNone name v).filter (fun m => m.1 = other) =
      if name = other then unlessNone name v else [] := by
  cases v with
  | none => simp [unlessNone]
  | some v => simp [unlessNone, List.filter_cons]

/-- Each field of the document, beside the extra members. -/
private theorem field_schemaMembers {v : SchemaValue}
    (hextra : ∀ m ∈ v.extra.toList, m.1 ∉ schemaFields) :
    field (schemaMembers v) "subject" = some (some (.string v.subject)) ∧
    field (schemaMembers v) "version" = some (some (intValue v.version)) ∧
    field (schemaMembers v) "id" = some (some (intValue v.id)) ∧
    field (schemaMembers v) "schemaType" = some (v.schemaType.map .string) ∧
    field (schemaMembers v) "messageType" = some (v.messageType.map .string) ∧
    field (schemaMembers v) "references" = some (if v.references.isEmpty then none
      else some (.array (v.references.map referenceValue))) ∧
    field (schemaMembers v) "schema" = some (some (.string v.schema)) ∧
    field (schemaMembers v) "deleted" = some (some (.bool v.deleted)) := by
  have hnone : ∀ name ∈ schemaFields, v.extra.toList.filter (fun m => m.1 = name) = [] := by
    intro name hname
    refine List.filter_eq_nil_iff.mpr fun m hm heq => hextra m hm ?_
    rwa [of_decide_eq_true heq]
  refine ⟨field_of_filter ?_, field_of_filter ?_, field_of_filter ?_, field_of_filter ?_,
    field_of_filter ?_, field_of_filter ?_, field_of_filter ?_, field_of_filter ?_⟩
  all_goals
    rw [schemaMembers, List.filter_append, hnone _ (by decide)]
    simp [List.filter_append, filter_unlessNone, unlessNone_some]

/-- What the document has beside the fields of the type. -/
private theorem filter_unknown {v : SchemaValue}
    (hextra : ∀ m ∈ v.extra.toList, m.1 ∉ schemaFields) :
    (schemaMembers v).filter (fun m => m.1 ∉ schemaFields) = v.extra.toList := by
  have hknown : ∀ (name : String) (x : Option Value), name ∈ schemaFields →
      (unlessNone name x).filter (fun m => m.1 ∉ schemaFields) = [] := by
    intro name x hname
    cases x <;> simp [unlessNone, hname]
  have hall : v.extra.toList.filter (fun m => m.1 ∉ schemaFields) = v.extra.toList :=
    List.filter_eq_self.mpr fun m hm => decide_eq_true (hextra m hm)
  rw [schemaMembers, List.filter_append, hall]
  simp only [List.filter_append, hknown "schemaType" _ (by decide),
    hknown "messageType" _ (by decide), hknown "references" _ (by decide)]
  simp [schemaFields]

/-- The value of a schema record survives the round trip. The known members are found under their
names, and what is left over is the map of unknown members. -/
theorem readSchemaValue_document {v : SchemaValue} (h : Holds J fromSlice v) :
    readSchemaValue (schemaValueDocument v) = some v := by
  obtain ⟨hsubject, hversion, hid, htype, hmessage, hrefs, hschema, hdeleted⟩ :=
    field_schemaMembers h.extraNames
  have hstring : ∀ (name : String) (s : Option String),
      field (schemaMembers v) name = some (s.map .string) →
      defaulted (schemaMembers v) name none (readOption readStr) = some s := by
    intro name s hs
    simp only [defaulted, hs]
    cases s <;> rfl
  have hreferences :
      defaulted (schemaMembers v) "references" [] readReferences = some v.references := by
    simp only [defaulted, hrefs]
    by_cases hempty : v.references.isEmpty = true
    · rw [if_pos hempty, List.isEmpty_iff.mp hempty]
      rfl
    · rw [if_neg hempty]
      exact readReferences_map h.references
  have hflag : defaulted (schemaMembers v) "deleted" false readBool = some v.deleted := by
    simp only [defaulted, hdeleted]
    rfl
  -- What the known names leave over are the unknown members, in the order of the map.
  have hextra : Std.ExtTreeMap.ofList (asMembers ((schemaMembers v).filter fun m =>
      m.1 ∉ schemaFields)) compare = v.extra := by
    rw [filter_unknown h.extraNames, asMembers_eq fun m hm => (h.extraValues m hm).1.asValue_eq,
      BTreeMap.ofList_toList]
  simp only [schemaValueDocument, readSchemaValue, required, hsubject, hversion, hid,
    hstring _ _ htype, hstring _ _ hmessage, hreferences, hschema, hflag, hextra,
    readStr_string, readI32_intValue h.version, readI32_intValue h.id, Option.bind_eq_bind,
    Option.bind_some, Option.pure_def]

/-! ## Decoding by key type -/

/-- The key type, which `decode` looks at first, is the one written. -/
theorem getMember_schemaKey (k : SchemaKey) :
    (getMember k.serialize "keytype").bind readStr = some k.keytype := by
  simp [getMember, SchemaKey.serialize]

/-- The same for a level or a mode. -/
theorem getMember_levelKey (k : LevelKey) :
    (getMember k.serialize "keytype").bind readStr = some k.keytype := by
  simp [getMember, LevelKey.serialize]

/-- The same for a marker. -/
theorem getMember_markerKey (k : MarkerKey) :
    (getMember k.serialize "keytype").bind readStr = some k.keytype := by
  simp [getMember, MarkerKey.serialize]

section Decode

variable (hJ : FaithfulJson J fromSlice)

include hJ

/-- The key bytes of a schema record lead `decode` to the branch for schemas. -/
theorem decode_schemaKey {subject : String} {version : SchemaVersion} (h : IsI32 version)
    (value : Option ByteArray) :
    decode fromSlice (toVec J (SchemaKey.new subject version).serialize) value =
      decodeEntry fromSlice "SCHEMA" (some (SchemaKey.new subject version)) value readSchemaValue
        .schema .tombstone := by
  have hkey : IsI32 (SchemaKey.new subject version).version := h
  rw [decode, hJ.reads (readsBack_schemaKey hkey)]
  simp only [getMember_schemaKey, deserialize_schemaKey hkey]
  simp [SchemaKey.new]

/-- Those of a level lead to the branch for levels. -/
theorem decode_configKey (subject : Option String) (value : Option ByteArray) :
    decode fromSlice (toVec J (LevelKey.serialize ⟨"CONFIG", subject, 0⟩)) value =
      decodeEntry fromSlice "CONFIG" (some ⟨"CONFIG", subject, 0⟩) value ConfigValue.deserialize
        (fun k v => .config k (some v)) (fun k => .config k none) := by
  rw [decode, hJ.reads (readsBack_levelKey _)]
  simp [getMember_levelKey]

/-- Those of a mode lead to the branch for modes. -/
theorem decode_modeKey (subject : Option String) (value : Option ByteArray) :
    decode fromSlice (toVec J (LevelKey.serialize ⟨"MODE", subject, 0⟩)) value =
      decodeEntry fromSlice "MODE" (some ⟨"MODE", subject, 0⟩) value ModeValue.deserialize
        (fun k v => .mode k (some v)) (fun k => .mode k none) := by
  rw [decode, hJ.reads (readsBack_levelKey _)]
  simp [getMember_levelKey]

/-- Those of a delete lead to the branch for deletes, where a tombstone means nothing. -/
theorem decode_deleteSubjectKey (subject : String) (value : Option ByteArray) :
    decode fromSlice (toVec J (MarkerKey.serialize ⟨"DELETE_SUBJECT", subject, 0⟩)) value =
      decodeEntry fromSlice "DELETE_SUBJECT" (some ⟨"DELETE_SUBJECT", subject, 0⟩) value
        readDeleteSubjectValue .deleteSubject (fun _ => .noop) := by
  rw [decode, hJ.reads (readsBack_markerKey _)]
  simp [getMember_markerKey]

/-- A version mark is told from a plain no-op by its value. -/
theorem decode_versionHighWaterKey (subject : String) {next : SchemaVersion} (h : IsI32 next) :
    decode fromSlice (toVec J (MarkerKey.serialize ⟨"NOOP", subject, 0⟩))
        (some (toVec J (VersionHighWaterValue.serialize ⟨next⟩))) =
      .versionHighWater ⟨"NOOP", subject, 0⟩ ⟨next⟩ := by
  have hvalue : ReadsBack J fromSlice (VersionHighWaterValue.serialize ⟨next⟩) := by
    refine .object ?_
    simp only [List.forall_mem_cons, List.not_mem_nil, false_implies, implies_true, and_true]
    exact readsBack_intValue h
  have hread : VersionHighWaterValue.deserialize (VersionHighWaterValue.serialize ⟨next⟩) =
      some ⟨next⟩ := by
    simp [VersionHighWaterValue.deserialize, VersionHighWaterValue.serialize, structMembers,
      required, field, readI32_intValue h]
  rw [decode, hJ.reads (readsBack_markerKey _)]
  simp [getMember_markerKey, hJ.reads hvalue, hread]

/-- Without a value it is a no-op. -/
theorem decode_versionHighWaterKey_null (subject : String) :
    decode fromSlice (toVec J (MarkerKey.serialize ⟨"NOOP", subject, 0⟩)) none = .noop := by
  rw [decode, hJ.reads (readsBack_markerKey _)]
  simp [getMember_markerKey]

/-- An entry whose value is the printed form of `v`. -/
theorem decodeEntry_value {κ ν : Type} {keytype : String} {key : κ} {read : Value → Option ν}
    {record : κ → ν → SchemaRecord} {onNull : κ → SchemaRecord} {document : Value} {v : ν}
    (hdoc : ReadsBack J fromSlice document) (hread : read document = some v) :
    decodeEntry fromSlice keytype (some key) (some (toVec J document)) read record onNull =
      record key v := by
  simp [decodeEntry, hJ.reads hdoc, hread]

/-- A schema record is decoded to its key and value. -/
theorem decode_schemaValue {subject : String} {version : SchemaVersion} (h : IsI32 version)
    {v : SchemaValue} (hv : Holds J fromSlice v) :
    decode fromSlice (toVec J (SchemaKey.new subject version).serialize)
      (some (toVec J (schemaValueDocument v))) = .schema (SchemaKey.new subject version) v := by
  rw [decode_schemaKey hJ h]
  exact decodeEntry_value hJ (readsBack_schemaValue hv) (readSchemaValue_document hv)

/-- A level is decoded to itself. -/
theorem decode_configValue (subject : Option String) (level : String) :
    decode fromSlice (toVec J (LevelKey.serialize ⟨"CONFIG", subject, 0⟩))
        (some (toVec J (ConfigValue.serialize ⟨level⟩))) =
      .config ⟨"CONFIG", subject, 0⟩ (some ⟨level⟩) := by
  rw [decode_configKey hJ]
  refine decodeEntry_value hJ (.object ?_) ?_
  · simp [ReadsBack.string]
  · simp [ConfigValue.deserialize, ConfigValue.serialize, structMembers, required, field]

/-- A mode is decoded to itself. -/
theorem decode_modeValue (subject : Option String) (mode : String) :
    decode fromSlice (toVec J (LevelKey.serialize ⟨"MODE", subject, 0⟩))
        (some (toVec J (ModeValue.serialize ⟨mode⟩))) =
      .mode ⟨"MODE", subject, 0⟩ (some ⟨mode⟩) := by
  rw [decode_modeKey hJ]
  refine decodeEntry_value hJ (.object ?_) ?_
  · simp [ReadsBack.string]
  · simp [ModeValue.deserialize, ModeValue.serialize, structMembers, required, field]

/-- A delete is decoded to itself. -/
theorem decode_deleteSubjectValue (subject : String) {v : DeleteSubjectValue}
    (h : IsI32 v.version) :
    decode fromSlice (toVec J (MarkerKey.serialize ⟨"DELETE_SUBJECT", subject, 0⟩))
        (some (toVec J (deleteSubjectDocument v))) =
      .deleteSubject ⟨"DELETE_SUBJECT", subject, 0⟩ v := by
  rw [decode_deleteSubjectKey hJ]
  refine decodeEntry_value hJ (.object ?_) ?_
  · simp [ReadsBack.string, readsBack_intValue h]
  · simp [readDeleteSubjectValue, deleteSubjectDocument, structMembers, required, field,
      readI32_intValue h]

end Decode

/-! ## Barriers -/

/-- A token is printed as plain text, and read from it. -/
structure FaithfulUuid (uuidText : Uuid → String) (parseUuid : String → Option Uuid) : Prop where
  plain : ∀ token, Plain (uuidText token)
  parse : ∀ token, token < 2 ^ 128 → parseUuid (uuidText token) = some token

variable {uuidText : Uuid → String} {parseUuid : String → Option Uuid}

/-- The document of a barrier key. -/
def barrierDocument (uuidText : Uuid → String) (token : Uuid) : Value :=
  .object [("keytype", .string "NOOP"), ("magic", intValue 0),
    ("barrier", .string (uuidText token))]

/-- The key of a barrier is printed and read back, the token being text. -/
theorem readsBack_barrierDocument (token : Uuid) :
    ReadsBack J fromSlice (barrierDocument uuidText token) := by
  refine .object ?_
  simp only [List.forall_mem_cons, List.not_mem_nil, false_implies, implies_true, and_true]
  exact ⟨.string _, readsBack_intValue (by decide), .string _⟩

/-- The text of a barrier key is what its document prints as. -/
theorem barrierKey_eq (hJ : FaithfulJson J fromSlice) (hU : FaithfulUuid uuidText parseUuid)
    (token : Uuid) : barrierKey uuidText token = toVec J (barrierDocument uuidText token) := by
  have htext : toJsonString J (barrierDocument uuidText token) =
      "\x7b\"keytype\":\"NOOP\",\"magic\":0,\"barrier\":\"" ++ uuidText token ++ "\"\x7d" := by
    simp only [barrierDocument, toJsonString, memberStrings, intValue, hJ.int,
      hJ.plain (show Plain "keytype" by decide), hJ.plain (show Plain "NOOP" by decide),
      hJ.plain (show Plain "magic" by decide), hJ.plain (show Plain "barrier" by decide),
      hJ.plain (hU.plain token)]
    have hzero : toString (0 : Int) = "0" := by decide
    rw [hzero]
    apply String.toList_injective
    simp
  rw [toVec, htext, barrierKey]

/-- A barrier is a no-op for the store, and the reader finds its token. -/
theorem decode_barrierKey (hJ : FaithfulJson J fromSlice) (hU : FaithfulUuid uuidText parseUuid)
    {token : Uuid} (h : token < 2 ^ 128) (value : Option ByteArray) :
    decode fromSlice (barrierKey uuidText token) value = .noop ∧
      barrierToken fromSlice parseUuid (barrierKey uuidText token) value = some token := by
  rw [barrierKey_eq hJ hU, decode, barrierToken, hJ.reads (readsBack_barrierDocument token)]
  have hnot : MarkerKey.deserialize (barrierDocument uuidText token) = none := by
    simp [MarkerKey.deserialize, barrierDocument, structMembers, required, field]
  have hkeytype : (getMember (barrierDocument uuidText token) "keytype").bind readStr =
      some "NOOP" := by simp [barrierDocument, getMember]
  constructor
  · simp only [hkeytype, hnot]
    simp
  · simp [barrierDocument, getMember, hU.parse token h]

/-! ## Keys -/

/-- An entity that the source's types can name: 32-bit versions and 128-bit tokens. -/
def IsEntity : TopicKey → Prop
  | .schema k => IsI32 k.version
  | .barrier token => token < 2 ^ 128
  | _ => True

/-- The document of each entity's key. -/
def keyDocument (uuidText : Uuid → String) : TopicKey → Value
  | .schema k => (SchemaKey.new k.subject k.version).serialize
  | .config subject => LevelKey.serialize ⟨"CONFIG", subject, 0⟩
  | .mode subject => LevelKey.serialize ⟨"MODE", subject, 0⟩
  | .deleteSubject subject => MarkerKey.serialize ⟨"DELETE_SUBJECT", subject, 0⟩
  | .versionHighWater subject => MarkerKey.serialize ⟨"NOOP", subject, 0⟩
  | .barrier token => barrierDocument uuidText token

/-- The bytes of a key are those of its document. -/
theorem keyBytes_eq (hJ : FaithfulJson J fromSlice) (hU : FaithfulUuid uuidText parseUuid)
    (k : TopicKey) : keyBytes J uuidText k = toVec J (keyDocument uuidText k) := by
  cases k with
  | barrier token => exact barrierKey_eq hJ hU token
  | _ => rfl

/-- Every key of the topic is printed and read back. -/
theorem readsBack_keyDocument {k : TopicKey} (h : IsEntity k) :
    ReadsBack J fromSlice (keyDocument uuidText k) := by
  cases k with
  | schema k => exact readsBack_schemaKey h
  | config subject => exact readsBack_levelKey _
  | mode subject => exact readsBack_levelKey _
  | deleteSubject subject => exact readsBack_markerKey _
  | versionHighWater subject => exact readsBack_markerKey _
  | barrier token => exact readsBack_barrierDocument token

/-- `null` differs from every string. -/
private theorem nullable_inj {s t : Option String} (h : nullable s = nullable t) : s = t := by
  cases s <;> cases t <;> simp_all [nullable]

/-- The key type, the fields and their order tell the entities apart. -/
theorem keyDocument_inj (hU : FaithfulUuid uuidText parseUuid) {a b : TopicKey}
    (ha : IsEntity a) (hb : IsEntity b)
    (h : keyDocument uuidText a = keyDocument uuidText b) : a = b := by
  cases a <;> cases b
  -- Of two kinds, the key types or the names of the fields differ.
  all_goals simp [keyDocument, SchemaKey.serialize, SchemaKey.new, LevelKey.serialize,
    MarkerKey.serialize, barrierDocument, intValue] at h
  case schema.schema k k' =>
    obtain ⟨hsubject, hversion⟩ := h
    cases k
    cases k'
    simp_all
  case config.config s t => rw [nullable_inj h]
  case mode.mode s t => rw [nullable_inj h]
  case deleteSubject.deleteSubject s t => rw [h]
  case versionHighWater.versionHighWater s t => rw [h]
  case barrier.barrier t u =>
    have hparse := hU.parse t ha
    rw [h, hU.parse u hb] at hparse
    rw [Option.some.inj hparse]

/-- Two keys have the same bytes only if they are the same key, so compaction by bytes is compaction
by keys. -/
theorem keyBytes_inj (hJ : FaithfulJson J fromSlice) (hU : FaithfulUuid uuidText parseUuid)
    {a b : TopicKey} (ha : IsEntity a) (hb : IsEntity b) :
    keyBytes J uuidText a = keyBytes J uuidText b ↔ a = b := by
  rw [keyBytes_eq hJ hU, keyBytes_eq hJ hU,
    hJ.toVec_inj (readsBack_keyDocument ha) (readsBack_keyDocument hb)]
  constructor
  · intro h
    exact keyDocument_inj hU ha hb h
  · rintro rfl
    rfl

/-! ## The codec -/

/-- The record of an entity: its key is the entity's, and it decodes to `record`. -/
def Encodes (J : SerdeJson) (fromSlice : ByteArray → Option Value) (uuidText : Uuid → String)
    (entity : TopicKey) (key : ByteArray) (value : Option ByteArray) (record : SchemaRecord) :
    Prop :=
  key = keyBytes J uuidText entity ∧ decode fromSlice key value = record

/-- What each encoder writes, and what the decoder makes of it. -/
structure TopicCodec (J : SerdeJson) (fromSlice : ByteArray → Option Value)
    (uuidText : Uuid → String) (parseUuid : String → Option Uuid) : Prop where
  schema : ∀ subject version id ty schema references messageType,
    IsI32 version → IsI32 id → (∀ r ∈ references, IsI32 r.version) →
    Encodes J fromSlice uuidText (.schema ⟨subject, version⟩)
      (encodeSchemaWithMessageType J subject version id ty schema references messageType).1
      (some (encodeSchemaWithMessageType J subject version id ty schema references messageType).2)
      (.schema (SchemaKey.new subject version)
        ⟨subject, version, id, ty.wireName, messageType, references, schema, false, ∅⟩)
  /-- A soft delete keeps the metadata that the registry does not know. -/
  schemaDeleted : ∀ subject version id ty schema references messageType extra,
    Holds J fromSlice
      ⟨subject, version, id, ty.wireName, messageType, references, schema, true, extra⟩ →
    Encodes J fromSlice uuidText (.schema ⟨subject, version⟩)
      (encodeSchemaDeletedWithMessageType J subject version id ty schema references
        (messageType, extra)).1
      (some (encodeSchemaDeletedWithMessageType J subject version id ty schema references
        (messageType, extra)).2)
      (.schema (SchemaKey.new subject version)
        ⟨subject, version, id, ty.wireName, messageType, references, schema, true, extra⟩)
  config : ∀ subject level, Encodes J fromSlice uuidText (.config subject)
    (encodeConfig J subject level).1 (some (encodeConfig J subject level).2)
    (.config ⟨"CONFIG", subject, 0⟩ (some ⟨level⟩))
  mode : ∀ subject mode, Encodes J fromSlice uuidText (.mode subject)
    (encodeMode J subject mode).1 (some (encodeMode J subject mode).2)
    (.mode ⟨"MODE", subject, 0⟩ (some ⟨mode⟩))
  deleteSubject : ∀ subject version, IsI32 version →
    Encodes J fromSlice uuidText (.deleteSubject subject)
      (encodeDeleteSubject J subject version).1 (some (encodeDeleteSubject J subject version).2)
      (.deleteSubject ⟨"DELETE_SUBJECT", subject, 0⟩ ⟨subject, version⟩)
  versionHighWater : ∀ subject next, IsI32 next →
    Encodes J fromSlice uuidText (.versionHighWater subject)
      (encodeVersionHighWater J subject next).1 (some (encodeVersionHighWater J subject next).2)
      (.versionHighWater ⟨"NOOP", subject, 0⟩ ⟨next⟩)
  /-- The tombstones have a key and no value. -/
  tombstone : ∀ subject version, IsI32 version →
    Encodes J fromSlice uuidText (.schema ⟨subject, version⟩)
      (encodeTombstone J subject version) none (.tombstone (SchemaKey.new subject version))
  configTombstone : ∀ subject, Encodes J fromSlice uuidText (.config subject)
    (configKey J subject) none (.config ⟨"CONFIG", subject, 0⟩ none)
  modeTombstone : ∀ subject, Encodes J fromSlice uuidText (.mode subject)
    (modeKey J subject) none (.mode ⟨"MODE", subject, 0⟩ none)
  /-- A barrier and its cleanup are no-ops, and the reader finds the token. -/
  barrier : ∀ token, token < 2 ^ 128 → ∀ value,
    Encodes J fromSlice uuidText (.barrier token) (barrierKey uuidText token) value .noop ∧
      barrierToken fromSlice parseUuid (barrierKey uuidText token) value = some token
  /-- Two entities have the same key bytes exactly when they are the same. -/
  keys : ∀ a b, IsEntity a → IsEntity b →
    (keyBytes J uuidText a = keyBytes J uuidText b ↔ a = b)

/-- A value without extra members. -/
private theorem holds_empty {subject : String} {version : SchemaVersion} {id : SchemaId}
    {schemaType messageType : Option String} {references : List SchemaReference} {schema : String}
    {deleted : Bool} (hversion : IsI32 version) (hid : IsI32 id)
    (hrefs : ∀ r ∈ references, IsI32 r.version) :
    Holds J fromSlice
      ⟨subject, version, id, schemaType, messageType, references, schema, deleted, ∅⟩ where
  version := hversion
  id := hid
  references := hrefs
  extraNames := by simp
  extraValues := by simp

/-- With a faithful JSON library, every record decodes to what it was built from, and keys
identify the entities. -/
theorem topic_codec (hJ : FaithfulJson J fromSlice) (hU : FaithfulUuid uuidText parseUuid) :
    TopicCodec J fromSlice uuidText parseUuid where
  schema _ _ _ _ _ _ _ hversion hid hrefs :=
    ⟨rfl, decode_schemaValue hJ hversion (holds_empty hversion hid hrefs)⟩
  schemaDeleted _ _ _ _ _ _ _ _ hvalue := ⟨rfl, decode_schemaValue hJ hvalue.version hvalue⟩
  config subject level := ⟨rfl, decode_configValue hJ subject level⟩
  mode subject mode := ⟨rfl, decode_modeValue hJ subject mode⟩
  deleteSubject subject version hversion := ⟨rfl, decode_deleteSubjectValue hJ subject hversion⟩
  versionHighWater subject next hnext := ⟨rfl, decode_versionHighWaterKey hJ subject hnext⟩
  tombstone subject version hversion := ⟨rfl, decode_schemaKey hJ hversion none⟩
  configTombstone subject := ⟨rfl, decode_configKey hJ subject none⟩
  modeTombstone subject := ⟨rfl, decode_modeKey hJ subject none⟩
  barrier token htoken value := by
    obtain ⟨hnoop, htok⟩ := decode_barrierKey hJ hU htoken value
    exact ⟨⟨rfl, hnoop⟩, htok⟩
  keys _ _ ha hb := keyBytes_inj hJ hU ha hb

/-! ## The records of the other modules

`Kafkastore.TopicRecord` leaves the bytes out.  Its keys and its decoding are those of the
bytes. -/

/-- The value bytes of a record. -/
def valueBytes (J : SerdeJson) : TopicRecord → Option ByteArray
  | .schema _ value => value.map fun v => toVec J (schemaValueDocument v)
  | .config _ level => level.map fun l => toVec J (ConfigValue.serialize ⟨l⟩)
  | .mode _ mode => mode.map fun m => toVec J (ModeValue.serialize ⟨m⟩)
  | .deleteSubject _ value => value.map fun v => toVec J (deleteSubjectDocument v)
  | .versionHighWater _ next => next.map fun n => toVec J (VersionHighWaterValue.serialize ⟨n⟩)
  | .barrier _ present => if present then some "\x7b\x7d".toUTF8 else none

/-- The numbers and the extra members of a record are ones that the source's types hold. -/
def IsRecord (J : SerdeJson) (fromSlice : ByteArray → Option Value) : TopicRecord → Prop
  | .schema k value => IsI32 k.version ∧ ∀ v ∈ value, Holds J fromSlice v
  | .deleteSubject _ value => ∀ v ∈ value, IsI32 v.version
  | .versionHighWater _ next => ∀ n ∈ next, IsI32 n
  | .barrier token _ => token < 2 ^ 128
  | _ => True

/-- Forget the key type and the magic byte. -/
def forget : SchemaRecord → Kafkastore.SchemaRecord
  | .schema k v => .schema ⟨k.subject, k.version⟩ v
  | .config k v => .config k.subject (v.map (·.compatibilityLevel))
  | .mode k v => .mode k.subject (v.map (·.mode))
  | .deleteSubject k v => .deleteSubject k.subject v
  | .versionHighWater k v => .versionHighWater k.subject v.nextVersion
  | .tombstone k => .tombstone ⟨k.subject, k.version⟩
  | .noop => .noop
  | .unknown keytype => .unknown keytype
  | .undecodable keytype => .undecodable keytype

/-- Decoding the bytes of a record is decoding the record. -/
theorem decode_recordBytes (hJ : FaithfulJson J fromSlice) (hU : FaithfulUuid uuidText parseUuid)
    {r : TopicRecord} (hr : IsRecord J fromSlice r) :
    forget (decode fromSlice (keyBytes J uuidText r.key) (valueBytes J r)) =
      Kafkastore.SchemaRecord.decode r := by
  cases r with
  | schema k value =>
    cases value with
    | none =>
      show forget (decode fromSlice (toVec J (SchemaKey.new k.subject k.version).serialize) none) = _
      rw [decode_schemaKey hJ hr.1]
      rfl
    | some v =>
      show forget (decode fromSlice (toVec J (SchemaKey.new k.subject k.version).serialize)
        (some (toVec J (schemaValueDocument v)))) = _
      rw [decode_schemaValue hJ hr.1 (hr.2 v rfl)]
      rfl
  -- The other kinds are decoded by their own lemmas, with and without a value.
  | config s level =>
    cases level with
    | none => exact congrArg forget (decode_configKey hJ s none)
    | some level => exact congrArg forget (decode_configValue hJ s level)
  | mode s m =>
    cases m with
    | none => exact congrArg forget (decode_modeKey hJ s none)
    | some m => exact congrArg forget (decode_modeValue hJ s m)
  | deleteSubject s value =>
    cases value with
    | none => exact congrArg forget (decode_deleteSubjectKey hJ s none)
    | some v => exact congrArg forget (decode_deleteSubjectValue hJ s (hr v rfl))
  | versionHighWater s next =>
    cases next with
    | none => exact congrArg forget (decode_versionHighWaterKey_null hJ s)
    | some n => exact congrArg forget (decode_versionHighWaterKey hJ s (hr n rfl))
  | barrier token present =>
    exact congrArg forget (decode_barrierKey hJ hU hr (valueBytes J (.barrier token present))).1

/-! ### Tokens as text -/

/-- The last `n` hexadecimal digits of a number. -/
def hexDigits : ℕ → ℕ → List Char
  | 0, _ => []
  | n + 1, t => hexDigits n (t / 16) ++ [Format.hexDigit (t % 16)]

/-- A token in the form with hyphens. -/
def uuidHyphenated (token : Uuid) : String :=
  String.ofList (hexDigits 8 (token / 2 ^ 96) ++ '-' :: hexDigits 4 (token / 2 ^ 80) ++
    '-' :: hexDigits 4 (token / 2 ^ 64) ++ '-' :: hexDigits 4 (token / 2 ^ 48) ++
    '-' :: hexDigits 12 token)

/-- One more digit of a token. -/
def addHexDigit (t : ℕ) (c : Char) : Option ℕ := (hexValue c).map (t * 16 + ·)

def uuidParse (text : String) : Option Uuid :=
  let digits := text.toList.filter (· ≠ '-')
  if digits.length = 32 then digits.foldlM addHexDigit 0 else none

/-- Every character printed is a hexadecimal digit. -/
private theorem mem_hexDigits {c : Char} : ∀ {n t : ℕ}, c ∈ hexDigits n t →
    ∃ k < 16, c = Format.hexDigit k := by
  intro n
  induction n with
  | zero => intro t h; simp [hexDigits] at h
  | succ n ih =>
    intro t h
    rw [hexDigits, List.mem_append, List.mem_singleton] at h
    rcases h with h | h
    · exact ih h
    · exact ⟨t % 16, Nat.mod_lt t (by decide), h⟩

/-- A group has the length it is printed with. -/
private theorem length_hexDigits (n t : ℕ) : (hexDigits n t).length = n := by
  induction n generalizing t with
  | zero => rfl
  | succ n ih => simp [hexDigits, ih]

/-- A group has no hyphen in it. -/
private theorem filter_hexDigits (n t : ℕ) :
    (hexDigits n t).filter (· ≠ '-') = hexDigits n t := by
  refine List.filter_eq_self.mpr fun c hc => ?_
  obtain ⟨k, hk, rfl⟩ := mem_hexDigits hc
  have hall : ∀ k : Fin 16, decide (Format.hexDigit k ≠ '-') = true := by decide
  exact hall ⟨k, hk⟩

/-- Reading a group back gives the number modulo its width, shifted onto what was read before. -/
private theorem foldlM_hexDigits (n t acc : ℕ) :
    (hexDigits n t).foldlM addHexDigit acc = some (acc * 16 ^ n + t % 16 ^ n) := by
  induction n generalizing t with
  | zero => simp [hexDigits, Nat.mod_one]
  | succ n ih =>
    have hdigit : ∀ x, addHexDigit x (Format.hexDigit (t % 16)) = some (x * 16 + t % 16) := by
      intro x
      rw [addHexDigit, hexValue_hexDigit (Nat.mod_lt t (by decide))]
      rfl
    have hmod : t % 16 ^ (n + 1) = t % 16 + 16 * (t / 16 % 16 ^ n) := by
      rw [pow_succ', Nat.mod_mul]
    rw [hexDigits, List.foldlM_append, ih]
    simp only [Option.bind_eq_bind, Option.bind_some, List.foldlM_cons, List.foldlM_nil, hdigit,
      Option.pure_def]
    rw [hmod, pow_succ]
    congr 1
    ring

/-- A token is put together from its five groups. -/
private theorem groups_of_token {t : ℕ} (h : t < 2 ^ 128) :
    ((((0 * 16 ^ 8 + t / 2 ^ 96 % 16 ^ 8) * 16 ^ 4 + t / 2 ^ 80 % 16 ^ 4) * 16 ^ 4 +
      t / 2 ^ 64 % 16 ^ 4) * 16 ^ 4 + t / 2 ^ 48 % 16 ^ 4) * 16 ^ 12 + t % 16 ^ 12 = t := by
  omega

/-- The hyphenated form meets both conditions on a token's text: no character needs an escape, and
parsing undoes printing. -/
theorem faithfulUuid_hyphenated : FaithfulUuid uuidHyphenated uuidParse where
  plain token := by
    have hhex : ∀ k : Fin 16, Format.escapeChar (Format.hexDigit k) = [Format.hexDigit k] := by
      decide
    intro c hc
    simp only [uuidHyphenated, String.toList_ofList, List.mem_append, List.mem_cons] at hc
    -- Five groups with hyphens between them.
    have hcases : c = '-' ∨ ∃ k < 16, c = Format.hexDigit k := by
      rcases hc with (((hc | rfl | hc) | rfl | hc) | rfl | hc) | rfl | hc
      all_goals first | exact .inl rfl | exact .inr (mem_hexDigits hc)
    rcases hcases with rfl | ⟨k, hk, rfl⟩
    · decide
    · exact hhex ⟨k, hk⟩
  parse token htoken := by
    -- Without its hyphens the text is the five groups in a row.
    have hdigits : (uuidHyphenated token).toList.filter (· ≠ '-') =
        hexDigits 8 (token / 2 ^ 96) ++ hexDigits 4 (token / 2 ^ 80) ++
          hexDigits 4 (token / 2 ^ 64) ++ hexDigits 4 (token / 2 ^ 48) ++ hexDigits 12 token := by
      have hhyphen : ∀ l : List Char, ('-' :: l).filter (· ≠ '-') = l.filter (· ≠ '-') := by
        intro l
        simp
      simp only [uuidHyphenated, String.toList_ofList, List.filter_append, hhyphen,
        filter_hexDigits]
    unfold uuidParse
    simp only [hdigits]
    rw [if_pos (by simp [length_hexDigits])]
    simp only [List.foldlM_append, foldlM_hexDigits, Option.bind_eq_bind, Option.bind_some]
    rw [groups_of_token htoken]

/-- The codec with the reader of compact documents and hyphenated tokens. -/
theorem topic_codec_compact :
    TopicCodec SerdeJson.sample readDocument uuidHyphenated uuidParse :=
  topic_codec faithfulJson_sample faithfulUuid_hyphenated

end KrabkaRegistry.Guarantees
