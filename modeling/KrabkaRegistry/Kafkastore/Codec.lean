import KrabkaRegistry.Format.JsonText
import KrabkaRegistry.Kafkastore.Record

/-!
# The Bytes of the `_schemas` Topic

`kafkastore/record.rs` and the barrier keys of `kafkastore/writer.rs`, on bytes.  The key and
value types are the source's own, with the fields that `Record.lean` leaves out.  What serde
derives for them is written out: how a type is printed as a document, and how it is read from
one, where a missing field, a null, a number out of range or a field that comes twice make a
difference.

`keyBytes` names the bytes of each entity's key; it is what compaction compares.
-/

namespace KrabkaRegistry.Kafkastore.Codec

open KrabkaRegistry.Format.Json

/-! ## Record types -/

/-- Key for a `SCHEMA` record. -/
structure SchemaKey where
  keytype : String
  subject : String
  version : SchemaVersion
  magic : UInt8
  deriving DecidableEq, Repr

/-- `SchemaKey::new`. -/
def SchemaKey.new (subject : String) (version : SchemaVersion) : SchemaKey :=
  ⟨"SCHEMA", subject, version, 1⟩

/-- Key for a `CONFIG` or a `MODE` record; without a subject it is the global one. -/
structure LevelKey where
  keytype : String
  subject : Option String
  magic : UInt8
  deriving DecidableEq, Repr

abbrev ConfigKey := LevelKey

abbrev ModeKey := LevelKey

/-- Key for a `DELETE_SUBJECT` record or a version marker. -/
structure MarkerKey where
  keytype : String
  subject : String
  magic : UInt8
  deriving DecidableEq, Repr

abbrev DeleteSubjectKey := MarkerKey

abbrev VersionHighWaterKey := MarkerKey

structure ConfigValue where
  compatibilityLevel : String
  deriving DecidableEq, Repr

structure ModeValue where
  mode : String
  deriving DecidableEq, Repr

structure VersionHighWaterValue where
  nextVersion : SchemaVersion
  deriving DecidableEq, Repr

/-- A decoded record, with its whole key. -/
inductive SchemaRecord where
  | schema (key : SchemaKey) (value : SchemaValue)
  | config (key : ConfigKey) (value : Option ConfigValue)
  | mode (key : ModeKey) (value : Option ModeValue)
  | deleteSubject (key : DeleteSubjectKey) (value : DeleteSubjectValue)
  | versionHighWater (key : VersionHighWaterKey) (value : VersionHighWaterValue)
  | tombstone (key : SchemaKey)
  | noop
  | unknown (keytype : String)
  | undecodable (keytype : Option String)

/-! ## Printing, as derived -/

def intValue (n : Int) : Value := .number (.int n)

/-- An `Option<String>` that is not skipped. -/
def nullable : Option String → Value
  | some s => .string s
  | none => .null

/-- A member that is skipped when it is absent. -/
def unlessNone (name : String) : Option Value → List (String × Value)
  | some v => [(name, v)]
  | none => []

def SchemaKey.serialize (k : SchemaKey) : Value :=
  .object [("keytype", .string k.keytype), ("subject", .string k.subject),
    ("version", intValue k.version), ("magic", intValue k.magic.toNat)]

def LevelKey.serialize (k : LevelKey) : Value :=
  .object [("keytype", .string k.keytype), ("subject", nullable k.subject),
    ("magic", intValue k.magic.toNat)]

def MarkerKey.serialize (k : MarkerKey) : Value :=
  .object [("keytype", .string k.keytype), ("subject", .string k.subject),
    ("magic", intValue k.magic.toNat)]

def referenceValue (r : SchemaReference) : Value :=
  .object [("name", .string r.name), ("subject", .string r.subject), ("version", intValue r.version)]

/-- The members of a `SCHEMA` value: absent and empty fields are skipped, and the extra ones
follow in key order. -/
def schemaMembers (v : SchemaValue) : List (String × Value) :=
  [("subject", .string v.subject), ("version", intValue v.version), ("id", intValue v.id)] ++
    unlessNone "schemaType" (v.schemaType.map .string) ++
    unlessNone "messageType" (v.messageType.map .string) ++
    unlessNone "references" (if v.references.isEmpty then none
      else some (.array (v.references.map referenceValue))) ++
    [("schema", .string v.schema), ("deleted", .bool v.deleted)] ++ v.extra.toList

def schemaValueDocument (v : SchemaValue) : Value := .object (schemaMembers v)

def ConfigValue.serialize (v : ConfigValue) : Value :=
  .object [("compatibilityLevel", .string v.compatibilityLevel)]

def ModeValue.serialize (v : ModeValue) : Value := .object [("mode", .string v.mode)]

def deleteSubjectDocument (v : DeleteSubjectValue) : Value :=
  .object [("subject", .string v.subject), ("version", intValue v.version)]

def VersionHighWaterValue.serialize (v : VersionHighWaterValue) : Value :=
  .object [("nextVersion", intValue v.nextVersion)]

/-! ## Reading, as derived -/

/-- The value range of an `i32`. -/
def IsI32 (n : Int) : Prop := -2147483648 ≤ n ∧ n ≤ i32Max

instance : DecidablePred IsI32 := fun n =>
  inferInstanceAs (Decidable (-2147483648 ≤ n ∧ n ≤ i32Max))

def readStr : Value → Option String
  | .string s => some s
  | _ => none

def readBool : Value → Option Bool
  | .bool b => some b
  | _ => none

def readI32 : Value → Option Int
  | .number (.int n) => if IsI32 n then some n else none
  | _ => none

def readU8 : Value → Option UInt8
  | .number (.int n) => if 0 ≤ n ∧ n < 256 then some (UInt8.ofNat n.toNat) else none
  | _ => none

/-- An `Option` is read from a null, or as what it holds. -/
def readOption {α : Type} (read : Value → Option α) : Value → Option (Option α)
  | .null => some none
  | v => (read v).map some

/-- The values of one field.  A struct refuses a field that comes twice. -/
def field (members : List (String × Value)) (name : String) : Option (Option Value) :=
  match members.filter fun m => m.1 = name with
  | [] => some none
  | [m] => some (some m.2)
  | _ => none

/-- A field that has to be there. -/
def required {α : Type} (members : List (String × Value)) (name : String)
    (read : Value → Option α) : Option α := do
  let v ← field members name
  read (← v)

/-- A field with a default. -/
def defaulted {α : Type} (members : List (String × Value)) (name : String) (default : α)
    (read : Value → Option α) : Option α := do
  match ← field members name with
  | some v => read v
  | none => some default

/-- The fields of a struct, from an object or from an array of all of them in order. -/
def structMembers (names : List String) : Value → Option (List (String × Value))
  | .object members => some members
  | .array items => if items.length = names.length then some (names.zip items) else none
  | _ => none

def SchemaKey.deserialize (v : Value) : Option SchemaKey := do
  let ms ← structMembers ["keytype", "subject", "version", "magic"] v
  return ⟨← required ms "keytype" readStr, ← required ms "subject" readStr,
    ← required ms "version" readI32, ← required ms "magic" readU8⟩

def LevelKey.deserialize (v : Value) : Option LevelKey := do
  let ms ← structMembers ["keytype", "subject", "magic"] v
  return ⟨← required ms "keytype" readStr, ← defaulted ms "subject" none (readOption readStr),
    ← required ms "magic" readU8⟩

def MarkerKey.deserialize (v : Value) : Option MarkerKey := do
  let ms ← structMembers ["keytype", "subject", "magic"] v
  return ⟨← required ms "keytype" readStr, ← required ms "subject" readStr,
    ← required ms "magic" readU8⟩

def readReference (v : Value) : Option SchemaReference := do
  let ms ← structMembers ["name", "subject", "version"] v
  return ⟨← required ms "name" readStr, ← required ms "subject" readStr,
    ← required ms "version" readI32⟩

def readReferences : Value → Option (List SchemaReference)
  | .array items => items.mapM readReference
  | _ => none

/-- The fields of `SchemaValue` as they are spelled in a document. -/
def schemaFields : List String :=
  ["subject", "version", "id", "schemaType", "messageType", "references", "schema", "deleted"]

/-- A `SchemaValue` is read from an object only, since it keeps the members it does not know. -/
def readSchemaValue : Value → Option SchemaValue
  | .object ms => do
    return ⟨← required ms "subject" readStr, ← required ms "version" readI32,
      ← required ms "id" readI32, ← defaulted ms "schemaType" none (readOption readStr),
      ← defaulted ms "messageType" none (readOption readStr),
      ← defaulted ms "references" [] readReferences, ← required ms "schema" readStr,
      ← defaulted ms "deleted" false readBool,
      Std.ExtTreeMap.ofList (asMembers (ms.filter fun m => m.1 ∉ schemaFields)) compare⟩
  | _ => none

def ConfigValue.deserialize (v : Value) : Option ConfigValue := do
  let ms ← structMembers ["compatibilityLevel"] v
  return ⟨← required ms "compatibilityLevel" readStr⟩

def ModeValue.deserialize (v : Value) : Option ModeValue := do
  let ms ← structMembers ["mode"] v
  return ⟨← required ms "mode" readStr⟩

def readDeleteSubjectValue (v : Value) : Option DeleteSubjectValue := do
  let ms ← structMembers ["subject", "version"] v
  return ⟨← required ms "subject" readStr, ← required ms "version" readI32⟩

def VersionHighWaterValue.deserialize (v : Value) : Option VersionHighWaterValue := do
  let ms ← structMembers ["nextVersion"] v
  return ⟨← required ms "nextVersion" readI32⟩

/-! ## Decoding -/

section Decode

variable (fromSlice : ByteArray → Option Value)

/-- `Value::get`: of several members with one key the map has the last. -/
def getMember (v : Value) (name : String) : Option Value :=
  match v with
  | .object members => (members.reverse.find? fun m => m.1 = name).map (·.2)
  | _ => none

/-- The arms of `decode` that read a key and then a value.  A null value is not read. -/
def decodeEntry {κ ν : Type} (keytype : String) (key : Option κ) (value : Option ByteArray)
    (read : Value → Option ν) (record : κ → ν → SchemaRecord) (onNull : κ → SchemaRecord) :
    SchemaRecord :=
  match key with
  | none => .undecodable (some keytype)
  | some k =>
    match value with
    | none => onNull k
    | some bytes =>
      match (fromSlice bytes).bind read with
      | some v => record k v
      | none => .undecodable (some keytype)

/-- `SchemaRecord::decode`. -/
def decode (key : ByteArray) (value : Option ByteArray) : SchemaRecord :=
  match fromSlice key with
  | none => .undecodable none
  | some kv =>
    match (getMember kv "keytype").bind readStr with
    | none => .undecodable none
    | some keytype =>
      if keytype = "SCHEMA" then
        decodeEntry fromSlice "SCHEMA" (SchemaKey.deserialize kv) value readSchemaValue
          .schema .tombstone
      else if keytype = "CONFIG" then
        decodeEntry fromSlice "CONFIG" (LevelKey.deserialize kv) value ConfigValue.deserialize
          (fun k v => .config k (some v)) (fun k => .config k none)
      else if keytype = "MODE" then
        decodeEntry fromSlice "MODE" (LevelKey.deserialize kv) value ModeValue.deserialize
          (fun k v => .mode k (some v)) (fun k => .mode k none)
      else if keytype = "DELETE_SUBJECT" then
        decodeEntry fromSlice "DELETE_SUBJECT" (MarkerKey.deserialize kv) value
          readDeleteSubjectValue .deleteSubject (fun _ => .noop)
      else if keytype = "NOOP" then
        -- Not a version marker: a barrier, or another registry's no-op.
        match MarkerKey.deserialize kv,
          (value.bind fromSlice).bind VersionHighWaterValue.deserialize with
        | some k, some v => .versionHighWater k v
        | _, _ => .noop
      else if keytype = "CLEAR_SUBJECTS" ∨ keytype = "CLEAR_SUBJECT" then .noop
      else .unknown keytype

/-- `barrier_token` of the reader: the token of a barrier, from its key or, as older records
have it, from its value. -/
def barrierToken (parseUuid : String → Option Uuid) (key : ByteArray)
    (value : Option ByteArray) : Option Uuid := do
  let kv ← fromSlice key
  let keytype ← (getMember kv "keytype").bind readStr
  if keytype ≠ "NOOP" then none
  else
    match (getMember kv "barrier").bind readStr with
    | some token => parseUuid token
    | none =>
      let v ← fromSlice (← value)
      parseUuid (← (getMember v "barrier").bind readStr)

end Decode

/-! ## Encoding -/

section Encode

variable (J : SerdeJson)

/-- `schema_kv`. -/
def schemaKv (subject : String) (version : SchemaVersion) (id : SchemaId) (ty : SchemaType)
    (schema : String) (references : List SchemaReference) (messageType : Option String)
    (deleted : Bool) (extra : Option (BTreeMap String Value)) : ByteArray × ByteArray :=
  (toVec J (SchemaKey.new subject version).serialize,
    toVec J (schemaValueDocument ⟨subject, version, id, ty.wireName, messageType, references,
      schema, deleted, extra.getD ∅⟩))

/-- `encode_schema_with_message_type`. -/
def encodeSchemaWithMessageType (subject : String) (version : SchemaVersion) (id : SchemaId)
    (ty : SchemaType) (schema : String) (references : List SchemaReference)
    (messageType : Option String) : ByteArray × ByteArray :=
  schemaKv J subject version id ty schema references messageType false none

/-- `encode_schema_deleted_with_message_type`. -/
def encodeSchemaDeletedWithMessageType (subject : String) (version : SchemaVersion)
    (id : SchemaId) (ty : SchemaType) (schema : String) (references : List SchemaReference)
    (metadata : Option String × BTreeMap String Value) : ByteArray × ByteArray :=
  schemaKv J subject version id ty schema references metadata.1 true (some metadata.2)

/-- `encode_tombstone`. -/
def encodeTombstone (subject : String) (version : SchemaVersion) : ByteArray :=
  toVec J (SchemaKey.new subject version).serialize

/-- `config_key`. -/
def configKey (subject : Option String) : ByteArray :=
  toVec J (LevelKey.serialize ⟨"CONFIG", subject, 0⟩)

/-- `encode_config`. -/
def encodeConfig (subject : Option String) (level : String) : ByteArray × ByteArray :=
  (toVec J (LevelKey.serialize ⟨"CONFIG", subject, 0⟩), toVec J (ConfigValue.serialize ⟨level⟩))

/-- `mode_key`. -/
def modeKey (subject : Option String) : ByteArray :=
  toVec J (LevelKey.serialize ⟨"MODE", subject, 0⟩)

/-- `encode_mode`. -/
def encodeMode (subject : Option String) (mode : String) : ByteArray × ByteArray :=
  (toVec J (LevelKey.serialize ⟨"MODE", subject, 0⟩), toVec J (ModeValue.serialize ⟨mode⟩))

/-- `encode_delete_subject`. -/
def encodeDeleteSubject (subject : String) (version : SchemaVersion) : ByteArray × ByteArray :=
  (toVec J (MarkerKey.serialize ⟨"DELETE_SUBJECT", subject, 0⟩),
    toVec J (deleteSubjectDocument ⟨subject, version⟩))

/-- `encode_version_high_water`. -/
def encodeVersionHighWater (subject : String) (nextVersion : SchemaVersion) :
    ByteArray × ByteArray :=
  (toVec J (MarkerKey.serialize ⟨"NOOP", subject, 0⟩),
    toVec J (VersionHighWaterValue.serialize ⟨nextVersion⟩))

/-- `barrier_key`, put together as text around the token's own text. -/
def barrierKey (uuidText : Uuid → String) (token : Uuid) : ByteArray :=
  ("\x7b\"keytype\":\"NOOP\",\"magic\":0,\"barrier\":\"" ++ uuidText token ++ "\"\x7d").toUTF8

/-- The key bytes of each entity of the topic. -/
def keyBytes (uuidText : Uuid → String) : TopicKey → ByteArray
  | .schema k => toVec J (SchemaKey.new k.subject k.version).serialize
  | .config subject => configKey J subject
  | .mode subject => modeKey J subject
  | .deleteSubject subject => toVec J (MarkerKey.serialize ⟨"DELETE_SUBJECT", subject, 0⟩)
  | .versionHighWater subject => toVec J (MarkerKey.serialize ⟨"NOOP", subject, 0⟩)
  | .barrier token => barrierKey uuidText token

end Encode

end KrabkaRegistry.Kafkastore.Codec
