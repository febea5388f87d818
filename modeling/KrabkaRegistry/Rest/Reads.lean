import KrabkaRegistry.Rest.Journey
import KrabkaRegistry.Rest.Response
import KrabkaRegistry.Rest.Subjects
import KrabkaRegistry.Rest.Compatibility

/-!
# Reading Requests

The handlers of `rest/schemas.rs`, `rest/subjects.rs`, `rest/config.rs` and `rest/mode.rs` that
change nothing, with the answers they give: what a path and a query name, what the store has
there, and the document it is printed as.  `serve` is the router with these handlers.
-/

namespace KrabkaRegistry.Rest

open KrabkaRegistry.Format (Formats Libs)
open KrabkaRegistry.Format.Json
open KrabkaRegistry.Kafkastore (fail)
open KrabkaRegistry.Kafkastore.Codec
open KrabkaRegistry.Store (StoreState ListedSchema)

/-! ## Documents -/

/-- Insert a member that is there. -/
def insertSome (m : BTreeMap String Value) (name : String) : Option Value → BTreeMap String Value
  | some v => m.insert name v
  | none => m

/-- A list of references, which is left out when it is empty. -/
def referencesValue (references : List SchemaReference) : Option Value :=
  if references.isEmpty then none else some (.array (references.map referenceValue))

/-- The members that say what a schema is, after those in the map. -/
def schemaContent (m : BTreeMap String Value) (ty : SchemaType) (messageType : Option String)
    (schema : String) (references : List SchemaReference) : BTreeMap String Value :=
  let m := insertSome m "schemaType" (ty.wireName.map .string)
  let m := insertSome m "messageType" (messageType.map .string)
  let m := m.insert "schema" (.string schema)
  insertSome m "references" (referencesValue references)

def oneMember (name : String) (v : Value) : BTreeMap String Value :=
  Std.ExtTreeMap.empty.insert name v

/-- A version in a subject, as it is listed for an id. -/
def subjectVersionValue (p : String × SchemaVersion) : Value :=
  mapValue ((oneMember "subject" (.string p.1)).insert "version" (intValue p.2))

/-- A row of `GET /schemas`; its references are left out. -/
def listedValue (row : ListedSchema) : Value :=
  let m := oneMember "subject" (.string row.subject)
  let m := m.insert "version" (intValue row.version)
  let m := m.insert "id" (intValue row.id)
  mapValue (schemaContent m row.ty row.messageType row.schema [])

/-- What `lookup` answers, as a document. -/
def lookupValue (r : LookupResponse) : Value :=
  let m := oneMember "subject" (.string r.subject)
  let m := m.insert "id" (intValue r.id)
  let m := m.insert "version" (intValue r.version)
  let m := insertSome m "schemaType" (r.schemaType.map .string)
  let m := insertSome m "messageType" (r.messageType.map .string)
  mapValue (m.insert "schema" (.string r.schema))

/-! ## Bodies -/

/-- The fields of `RegisterBody` as they are spelled in a document. -/
def registerFields : List String :=
  ["schema", "schemaType", "references", "messageType", "id", "version"]

def RegisterBody.deserialize (v : Value) : Option RegisterBody := do
  let ms ← structMembers registerFields v
  return {
    schema := ← required ms "schema" readStr
    schemaType := ← defaulted ms "schemaType" none (readOption readStr)
    references := ← defaulted ms "references" [] readReferences
    messageType := ← defaulted ms "messageType" none (readOption readStr)
    id := ← defaulted ms "id" none (readOption readI32)
    version := ← defaulted ms "version" none (readOption readI32) }

/-! ## Handlers -/

section Handlers

variable (J : SerdeJson) (T : ServerTexts) (st : StoreState)

/-- `parse_schema_id`. -/
def parseSchemaId (id : String) : Result SchemaId :=
  match parseI32 id with
  | some n => .ok n
  | none => fail .notFound

/-- `GET /schemas/ids/{id}`. -/
def getById (id : String) (deleted : Bool) : Result Response := do
  let id ← parseSchemaId id
  match st.schemaById id deleted with
  | none => fail .schemaNotFound
  | some (ty, schema, references, messageType) =>
    return okJson J (mapValue (schemaContent ∅ ty messageType schema references))

/-- `GET /schemas/types`. -/
def types : Response := okJson J (.array [.string "AVRO", .string "JSON", .string "PROTOBUF"])

/-- `GET /schemas/ids/{id}/versions`. -/
def getByIdVersions (id : String) (deleted : Bool) : Result Response := do
  let id ← parseSchemaId id
  let pairs := st.schemaIdSubjectVersions id deleted
  if pairs.isEmpty then fail .schemaNotFound
  else return okJson J (.array (pairs.map subjectVersionValue))

/-- `GET /schemas/ids/{id}/schema`. -/
def getByIdSchema (id : String) : Result Response := do
  let id ← parseSchemaId id
  match st.schemaById id false with
  | none => fail .schemaNotFound
  | some (_, schema, _, _) => return okRaw schema

/-- `GET /schemas/ids/{id}/subjects`: each subject once, in order. -/
def getByIdSubjects (id : String) (deleted : Bool) : Result Response := do
  let id ← parseSchemaId id
  let pairs := st.schemaIdSubjectVersions id deleted
  if pairs.isEmpty then fail .schemaNotFound
  else
    let subjects := (pairs.map (·.1)).dedup.insertionSort (· ≤ ·)
    return okJson J (.array (subjects.map .string))

/-- `GET /schemas`. -/
def listSchemas (deleted : Bool) : Response :=
  okJson J (.array ((st.allSchemas deleted).map listedValue))

/-- `GET /subjects`. -/
def list (deleted : Bool) : Response :=
  okJson J (.array ((st.subjectNames deleted).map .string))

/-- `GET /subjects/{subject}/versions`. -/
def versions (subject : String) (deleted : Bool) : Result Response :=
  match st.versions subject deleted with
  | none => fail (.subjectNotFound subject)
  | some vs => .ok (okJson J (.array (vs.map intValue)))

/-- What the version endpoints read before they answer. -/
def requestedVersion (subject version : String) (deleted : Bool) : Result Store.VersionedSchema := do
  let want ← parseOptionalVersion version
  if (st.versions subject deleted).isNone then fail (.subjectNotFound subject)
  else
    match st.version subject want deleted with
    | none => fail .versionNotFound
    | some found => return found

/-- `GET /subjects/{subject}/versions/{version}`. -/
def getVersion (subject version : String) (deleted : Bool) : Result Response := do
  let found ← requestedVersion st subject version deleted
  let m := oneMember "subject" (.string subject)
  let m := m.insert "version" (intValue found.version)
  let m := m.insert "id" (intValue found.id)
  return okJson J (mapValue
    (schemaContent m found.ty found.messageType found.schema found.references))

/-- `GET /subjects/{subject}/versions/{version}/schema`. -/
def getVersionSchema (subject version : String) (deleted : Bool) : Result Response := do
  let found ← requestedVersion st subject version deleted
  return okRaw found.schema

/-- `GET /subjects/{subject}/versions/{version}/referencedby`.  The version may be deleted; what
refers to it is live. -/
def referencedby (subject version : String) : Result Response := do
  let found ← requestedVersion st subject version true
  return okJson J (.array ((st.referencedBy subject found.version false).map intValue))

/-- `get_global` of `config.rs`. -/
def globalConfig : Response :=
  okJson J (mapValue (oneMember "compatibilityLevel" (.string st.globalCompatLevel)))

/-- `get_subject` of `config.rs`. -/
def subjectConfig (subject : String) : Result Response :=
  match st.subjectCompat[subject]? with
  | none => fail (.subjectNotFound subject)
  | some level => .ok (okJson J (mapValue (oneMember "compatibilityLevel" (.string level))))

/-- `get_global` of `mode.rs`. -/
def globalMode : Response := okJson J (mapValue (oneMember "mode" (.string st.globalModeName)))

/-- `get_subject` of `mode.rs`. -/
def subjectMode (subject : String) : Result Response :=
  match st.subjectMode[subject]? with
  | none => fail (.subjectModeNotConfigured subject)
  | some mode => .ok (okJson J (mapValue (oneMember "mode" (.string mode))))

/-- The body of `lookup`, decoded. -/
def readRegisterBody (fromSlice : ByteArray → Option Value) (body : String) :
    Result RegisterBody :=
  match (fromSlice body.toUTF8).bind RegisterBody.deserialize with
  | some req => .ok req
  | none => fail (.invalidSchema (T.bodyError body))

/-! ## The router -/

variable (L : Libs) (F : Formats) (fromSlice : ByteArray → Option Value)

/-- Extract a path parameter. -/
def withParam (params : List (String × String)) (name : String)
    (next : String → Option Response) : Option Response :=
  match pathParam params name with
  | some value => next value
  | none => some T.pathRejection

/-- Extract the version and the subject of a path. -/
def withVersion (params : List (String × String))
    (next : String → String → Option Response) : Option Response :=
  withParam T params "subject" fun subject =>
    withParam T params "version" fun version => next subject version

/-- axum's default limit on what a handler reads of a body. -/
def bodyLimit : ℕ := 2097152

/-- Run a handler that only reads.  The other handlers are not answered here. -/
def readHandler (params : List (String × String)) (query : Option String) (body : String) :
    Handler → Option Response
  | .root => some (okJson J (.object []))
  | .schemasTypes => some (types J)
  | .listSchemas => answered J T (listSchemas J st <$> deletedQ T query)
  | .getById => withParam T params "id" fun id =>
      answered J T (deletedQ T query >>= getById J st id)
  | .schemaVersions => withParam T params "id" fun id =>
      answered J T (deletedQ T query >>= getByIdVersions J st id)
  | .getByIdSchema => withParam T params "id" fun id => answered J T (getByIdSchema st id)
  | .getByIdSubjects => withParam T params "id" fun id =>
      answered J T (deletedQ T query >>= getByIdSubjects J st id)
  | .listSubjects => answered J T (list J st <$> deletedQ T query)
  | .lookup => withParam T params "subject" fun subject =>
      -- The parameters are extracted before the body is read.
      let toggles := do return (← deletedQ T query, ← normalizeQuery T query)
      if toggles.isOk && decide (bodyLimit < body.utf8ByteSize) then some T.bodyRejection
      else answered J T do
        let (deleted, normalize) ← toggles
        let req ← readRegisterBody T fromSlice body
        return okJson J (lookupValue (← lookup L F st subject deleted normalize req))
  | .versions => withParam T params "subject" fun subject =>
      answered J T (deletedQ T query >>= versions J st subject)
  | .getVersion => withVersion T params fun subject version =>
      answered J T (deletedQ T query >>= getVersion J st subject version)
  | .getVersionSchema => withVersion T params fun subject version =>
      answered J T (deletedQ T query >>= getVersionSchema st subject version)
  | .referencedby => withVersion T params fun subject version =>
      answered J T (referencedby J st subject version)
  | .globalMode => some (globalMode J st)
  | .subjectMode => withParam T params "subject" fun subject =>
      answered J T (subjectMode J st subject)
  | .globalConfig => some (globalConfig J st)
  | .subjectConfig => withParam T params "subject" fun subject =>
      answered J T (subjectConfig J st subject)
  | _ => none

/-- Some route has the path, whatever its methods. -/
def hasRoute (path : String) : Bool :=
  match splitPath path with
  | "" :: segments => routes.any fun r => (matchSegments r.pattern segments).isSome
  | _ => false

/-- What a node answers to a request that changes nothing, apart from `HEAD` requests. -/
def serve (method : Method) (uri : Uri) (body : String) : Option Response :=
  match dispatch method uri.path with
  | some (h, params) => readHandler J T st L F fromSlice params uri.query body h
  | none => some (intoResponse J T (if hasRoute uri.path then .methodNotAllowed else .notFound))

end Handlers

end KrabkaRegistry.Rest
