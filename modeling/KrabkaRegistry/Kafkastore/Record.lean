import KrabkaRegistry.Format.Json

/-!
# Records of the `_schemas` Topic

A record of the topic is a key and a value that may be null.  The keys drive log
compaction, so each record carries its key in structured form, and `TopicRecord.key`
is what compaction compares.  `SchemaRecord.decode` sorts the records into what the
reader acts on.

Bytes are left out here: the key types `SCHEMA`, `CONFIG`, `MODE`, `DELETE_SUBJECT` and
`NOOP` are the constructors, and their constant `magic` fields carry no information.
-/

namespace KrabkaRegistry.Kafkastore

open KrabkaRegistry.Format.Json (Value)

/-- A random token, the payload of an ordering barrier. -/
abbrev Uuid := ℕ

/-- Key for a `SCHEMA` record. -/
structure SchemaKey where
  subject : String
  version : SchemaVersion
  deriving DecidableEq, Repr

/-- Value for a `SCHEMA` record. -/
structure SchemaValue where
  subject : String
  version : SchemaVersion
  id : SchemaId
  schemaType : Option String
  messageType : Option String
  references : List SchemaReference
  schema : String
  deleted : Bool
  extra : BTreeMap String Value

/-- Value for a `DELETE_SUBJECT` record: the latest version at delete time. -/
structure DeleteSubjectValue where
  subject : String
  version : SchemaVersion
  deriving DecidableEq, Repr

/-- A record of the topic: a key of one of the types the registry writes, and a value
that is `none` when it is null. -/
inductive TopicRecord where
  | schema (key : SchemaKey) (value : Option SchemaValue)
  | config (subject : Option String) (compatibilityLevel : Option String)
  | mode (subject : Option String) (mode : Option String)
  | deleteSubject (subject : String) (value : Option DeleteSubjectValue)
  /-- A `NOOP` key with a subject: the durable per-subject version marker. -/
  | versionHighWater (subject : String) (nextVersion : Option SchemaVersion)
  /-- A `NOOP` key with a token: an ordering barrier, or its cleanup. -/
  | barrier (token : Uuid) (present : Bool)

/-- What compaction compares. -/
inductive TopicKey where
  | schema (key : SchemaKey)
  | config (subject : Option String)
  | mode (subject : Option String)
  | deleteSubject (subject : String)
  | versionHighWater (subject : String)
  | barrier (token : Uuid)
  deriving DecidableEq, Repr

namespace TopicRecord

def key : TopicRecord → TopicKey
  | schema k _ => .schema k
  | config s _ => .config s
  | mode s _ => .mode s
  | deleteSubject s _ => .deleteSubject s
  | versionHighWater s _ => .versionHighWater s
  | barrier t _ => .barrier t

/-- Whether the value is null, which makes the record a tombstone for the topic. -/
def isNull : TopicRecord → Bool
  | schema _ v => v.isNone
  | config _ v => v.isNone
  | mode _ v => v.isNone
  | deleteSubject _ v => v.isNone
  | versionHighWater _ v => v.isNone
  | barrier _ present => !present

end TopicRecord

/-! ## Decoded records -/

/-- A decoded `_schemas` record. -/
inductive SchemaRecord where
  | schema (key : SchemaKey) (value : SchemaValue)
  /-- A `CONFIG` record; `none` clears the override. -/
  | config (subject : Option String) (compatibilityLevel : Option String)
  /-- A `MODE` record; `none` clears the override. -/
  | mode (subject : Option String) (mode : Option String)
  | deleteSubject (subject : String) (value : DeleteSubjectValue)
  | versionHighWater (subject : String) (nextVersion : SchemaVersion)
  /-- A `SCHEMA` key with a null value: a permanent version delete. -/
  | tombstone (key : SchemaKey)
  | noop
  | unknown (keytype : String)
  | undecodable (keytype : Option String)

/-- `SchemaRecord::decode` on the records that the registry writes. -/
def SchemaRecord.decode : TopicRecord → SchemaRecord
  | .schema k (some v) => .schema k v
  | .schema k none => .tombstone k
  | .config s level => .config s level
  | .mode s m => .mode s m
  | .deleteSubject s (some v) => .deleteSubject s v
  | .deleteSubject _ none => .noop
  | .versionHighWater s (some next) => .versionHighWater s next
  | .versionHighWater _ none => .noop
  | .barrier _ _ => .noop

/-! ## Encoders -/

/-- `schema_kv`: the one place where `SCHEMA` records are put together. -/
def schemaKv (subject : String) (version : SchemaVersion) (id : SchemaId) (ty : SchemaType)
    (schema : String) (references : List SchemaReference) (messageType : Option String)
    (deleted : Bool) (extra : BTreeMap String Value) : TopicRecord :=
  .schema ⟨subject, version⟩
    (some ⟨subject, version, id, ty.wireName, messageType, references, schema, deleted, extra⟩)

def encodeSchemaWithMessageType (subject : String) (version : SchemaVersion) (id : SchemaId)
    (ty : SchemaType) (schema : String) (references : List SchemaReference)
    (messageType : Option String) : TopicRecord :=
  schemaKv subject version id ty schema references messageType false ∅

/-- A soft delete re-emits the stored content with the flag changed. -/
def encodeSchemaDeletedWithMessageType (subject : String) (version : SchemaVersion)
    (id : SchemaId) (ty : SchemaType) (schema : String) (references : List SchemaReference)
    (messageType : Option String) (extra : BTreeMap String Value) : TopicRecord :=
  schemaKv subject version id ty schema references messageType true extra

def encodeConfig (subject : Option String) (level : String) : TopicRecord :=
  .config subject (some level)

def encodeMode (subject : Option String) (mode : String) : TopicRecord :=
  .mode subject (some mode)

def encodeDeleteSubject (subject : String) (version : SchemaVersion) : TopicRecord :=
  .deleteSubject subject (some ⟨subject, version⟩)

def encodeVersionHighWater (subject : String) (nextVersion : SchemaVersion) : TopicRecord :=
  .versionHighWater subject (some nextVersion)

/-- The record `produce_tombstone` appends for `encode_tombstone`. -/
def encodeTombstone (subject : String) (version : SchemaVersion) : TopicRecord :=
  .schema ⟨subject, version⟩ none

/-- The record `produce_tombstone` appends for `config_key`. -/
def configTombstone (subject : Option String) : TopicRecord := .config subject none

/-- The record `produce_tombstone` appends for `mode_key`. -/
def modeTombstone (subject : Option String) : TopicRecord := .mode subject none

end KrabkaRegistry.Kafkastore
