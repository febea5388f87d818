import KrabkaRegistry.Compat

/-!
# The Mutating Operations of `KafkaStore`

Each operation of `kafkastore/mod.rs` runs under the write gate, after a barrier has
brought the live state up to the end of the log.  It reads the state, decides, and then
appends its records one after the other; no read follows an append.  So an operation is a
function of the state it starts in: it fails, or gives the records it appends, in order,
and its reply.
-/

namespace KrabkaRegistry.Kafkastore

open KrabkaRegistry.Format (Formats)
open KrabkaRegistry.Store (StoreState)

/-- A registration request. -/
structure RegisterSchema where
  subject : String
  ty : SchemaType
  schema : String
  references : List SchemaReference := []
  messageType : Option String := none
  importId : Option SchemaId := none
  importVersion : Option SchemaVersion := none
  deriving DecidableEq, Repr

def validModes : List String := ["READWRITE", "READONLY", "IMPORT"]

/-- An `SrError` as the outcome of an operation. -/
def fail {α : Type} (e : SrError) : Result α := .error (.error e)

variable (F : Formats) (st : StoreState)

/-- `ensure_writable`. -/
def ensureWritable (subject : String) : Result Unit :=
  if st.effectiveMode subject = "READONLY" then fail (.operationNotPermitted subject)
  else .ok ()

/-- The text that names a version in `ReferencedByOthers`. -/
def versionLabel (subject : String) (version : SchemaVersion) : String :=
  subject ++ ":" ++ toString version

/-- A live referrer of the version blocks its deletion. -/
def ensureUnreferenced (subject : String) (version : SchemaVersion) : Result Unit :=
  if (st.referencedBy subject version false).isEmpty then .ok ()
  else fail (.referencedByOthers (versionLabel subject version))

/-! ## Register -/

/-- The `IMPORT` branch of `register`: the request brings its own id and version. -/
def registerImport (req : RegisterSchema) (schema : String) (resolved : List ResolvedReference) :
    Result (List TopicRecord × Registered) :=
  match req.importId, req.importVersion with
  | some id, some version => do
    let _ ← F.parse req.ty schema resolved
    let conflicts ← st.schemaIdConflicts F id req.ty schema req.references req.messageType
    if conflicts then fail (.schemaIdConflict id)
    else
      return ([encodeSchemaWithMessageType req.subject version id req.ty schema req.references
        req.messageType], ⟨id, version⟩)
  | _, _ => fail (.invalidSchema "IMPORT mode requires explicit id and version")

/-- The branch of `register` that assigns id and version: dedup, compat, assign. -/
def registerAssign (req : RegisterSchema) (schema : String) (resolved : List ResolvedReference) :
    Result (List TopicRecord × Registered) :=
  match st.findUnderSubject F req.subject req.ty schema req.references req.messageType false with
  | some existing => .ok ([], existing)
  | none => do
    Compat.checkRegistration F st req.subject req.ty schema resolved
    let (reg, _) ← st.register F req.subject req.ty schema req.references req.messageType
    return ([encodeSchemaWithMessageType req.subject reg.version reg.id req.ty schema
      req.references req.messageType], reg)

/-- `KafkaStore::register`. -/
def register (req : RegisterSchema) : Result (List TopicRecord × Registered) :=
  let mode := st.effectiveMode req.subject
  if mode = "READONLY" then fail (.operationNotPermitted req.subject)
  else do
    let resolved ← st.resolveClosure req.references
    let schema ← F.normalizedStorageForm req.ty req.schema resolved
    if mode = "IMPORT" then registerImport F st req schema resolved
    else registerAssign F st req schema resolved

/-! ## Compatibility levels -/

/-- `set_compat`, global or for one subject. -/
def setCompat (subject : Option String) (level : String) : Result (List TopicRecord) :=
  let mode :=
    match subject with
    | some s => st.effectiveMode s
    | none => st.globalModeName
  if mode = "READONLY" then fail (.operationNotPermitted (subject.getD "global"))
  else .ok [encodeConfig subject level]

/-- `delete_subject_compat`: the deleted level, or nothing to do. -/
def deleteSubjectCompat (subject : String) : List TopicRecord × Option String :=
  match st.subjectCompat[subject]? with
  | none => ([], none)
  | some level => ([configTombstone (some subject)], some level)

/-! ## Deletes -/

/-- `soft_delete_version`: re-emit the version's record with `deleted = true`. -/
def softDeleteVersion (subject : String) (version : SchemaVersion) :
    Result (List TopicRecord × SchemaVersion) := do
  ensureWritable st subject
  if (st.versions subject true).isNone then fail (.subjectNotFound subject)
  else
    match st.version subject (some version) true with
    | none => fail .versionNotFound
    | some found => do
      ensureUnreferenced st subject version
      return ([encodeSchemaDeletedWithMessageType subject found.version found.id found.ty
        found.schema found.references found.messageType found.extra], found.version)

/-- `permanent_delete_version`: the version marker, then the tombstone. -/
def permanentDeleteVersion (subject : String) (version : SchemaVersion) :
    Result (List TopicRecord × SchemaVersion) := do
  ensureWritable st subject
  if (st.versions subject true).isNone then fail (.subjectNotFound subject)
  else if (st.version subject (some version) true).isNone then fail .versionNotFound
  else if (st.version subject (some version) false).isSome then
    fail (.versionNotSoftDeleted subject version)
  else do
    ensureUnreferenced st subject version
    return ([encodeVersionHighWater subject (st.nextVersion subject),
      encodeTombstone subject version], version)

/-- `soft_delete_subject`: one `DELETE_SUBJECT` marker. -/
def softDeleteSubject (subject : String) : Result (List TopicRecord × List SchemaVersion) := do
  ensureWritable st subject
  match st.versions subject false with
  | none =>
    if (st.versions subject true).isSome then fail (.subjectSoftDeleted subject)
    else fail (.subjectNotFound subject)
  | some versions => do
    versions.forM (ensureUnreferenced st subject)
    return ([encodeDeleteSubject subject (versions.max?.getD 0)], versions)

/-- `permanent_delete_subject`: the version marker, a tombstone for each version, and
tombstones for the subject's level and mode. -/
def permanentDeleteSubject (subject : String) :
    Result (List TopicRecord × List SchemaVersion) := do
  ensureWritable st subject
  match st.versions subject true with
  | none => fail (.subjectNotFound subject)
  | some allVersions =>
    if (st.versions subject false).isSome then fail (.subjectNotSoftDeleted subject)
    else do
      allVersions.forM (ensureUnreferenced st subject)
      return (encodeVersionHighWater subject (st.nextVersion subject) ::
        allVersions.map (encodeTombstone subject) ++
        [configTombstone (some subject), modeTombstone (some subject)], allVersions)

/-! ## Modes -/

/-- `set_global_mode`: `IMPORT` requires the registry to be empty. -/
def setGlobalMode (mode : String) : Result (List TopicRecord) :=
  if mode ∉ validModes then fail (.invalidMode mode)
  else if mode = "IMPORT" ∧ (st.subjectNames true) ≠ [] then
    fail (.operationNotPermitted "registry not empty")
  else .ok [encodeMode none mode]

/-- `set_subject_mode`: `IMPORT` requires the subject to have no versions. -/
def setSubjectMode (subject mode : String) : Result (List TopicRecord) :=
  if mode ∉ validModes then fail (.invalidMode mode)
  else if mode = "IMPORT" ∧ (st.versions subject true).isSome then
    fail (.operationNotPermitted subject)
  else .ok [encodeMode (some subject) mode]

/-- `clear_subject_mode`. -/
def clearSubjectMode (subject : String) : List TopicRecord := [modeTombstone (some subject)]

/-! ## One type for all of them -/

inductive Op where
  | register (req : RegisterSchema)
  | setCompat (subject : Option String) (level : String)
  | deleteSubjectCompat (subject : String)
  | softDeleteVersion (subject : String) (version : SchemaVersion)
  | permanentDeleteVersion (subject : String) (version : SchemaVersion)
  | softDeleteSubject (subject : String)
  | permanentDeleteSubject (subject : String)
  | setGlobalMode (mode : String)
  | setSubjectMode (subject mode : String)
  | clearSubjectMode (subject : String)
  deriving DecidableEq, Repr

inductive Reply where
  | done
  | registered (reg : Registered)
  | level (deleted : Option String)
  | version (version : SchemaVersion)
  | versions (versions : List SchemaVersion)
  deriving DecidableEq, Repr

/-- Run one operation: the records it appends and what it answers. -/
def exec : Op → Result (List TopicRecord × Reply)
  | .register req => (fun p => (p.1, .registered p.2)) <$> register F st req
  | .setCompat subject level => (·, .done) <$> setCompat st subject level
  | .deleteSubjectCompat subject =>
    let p := deleteSubjectCompat st subject
    .ok (p.1, .level p.2)
  | .softDeleteVersion subject version =>
    (fun p => (p.1, .version p.2)) <$> softDeleteVersion st subject version
  | .permanentDeleteVersion subject version =>
    (fun p => (p.1, .version p.2)) <$> permanentDeleteVersion st subject version
  | .softDeleteSubject subject =>
    (fun p => (p.1, .versions p.2)) <$> softDeleteSubject st subject
  | .permanentDeleteSubject subject =>
    (fun p => (p.1, .versions p.2)) <$> permanentDeleteSubject st subject
  | .setGlobalMode mode => (·, .done) <$> setGlobalMode st mode
  | .setSubjectMode subject mode => (·, .done) <$> setSubjectMode st subject mode
  | .clearSubjectMode subject => .ok (clearSubjectMode subject, .done)

/-- The records that an operation appends; none if it is refused. -/
def appendedBy (op : Op) : List TopicRecord :=
  match exec F st op with
  | .ok (recs, _) => recs
  | .error _ => []

/-- The subject that an operation is about. -/
def Op.subject? : Op → Option String
  | .register req => some req.subject
  | .setCompat subject _ => subject
  | .deleteSubjectCompat subject | .softDeleteVersion subject _
  | .permanentDeleteVersion subject _ | .softDeleteSubject subject
  | .permanentDeleteSubject subject | .setSubjectMode subject _
  | .clearSubjectMode subject => some subject
  | .setGlobalMode _ => none

end KrabkaRegistry.Kafkastore
