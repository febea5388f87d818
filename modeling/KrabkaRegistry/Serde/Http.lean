import KrabkaRegistry.Rest.Response
import KrabkaRegistry.Rest.Forward
import KrabkaRegistry.Library.UrlPath
import KrabkaRegistry.Serde.Fetch

/-!
# The Client over HTTP

`RegistryClient` of `registry/mod.rs` with its requests and what it makes of the answers: the
documents of `registry/model.rs`, and `parse`, which reads a success as the type that is asked
for and everything else as an error of the registry.

The HTTP client is a parameter: what comes back for a request, or why nothing does.  `target` is
what it requests for a URL.
-/

namespace KrabkaRegistry.Serde

open KrabkaRegistry.Format.Json
open KrabkaRegistry.Kafkastore.Codec
open KrabkaRegistry.Rest (Method Response Uri)
open KrabkaRegistry.Library.UrlPath

/-! ## Documents -/

/-- `wire_name`. -/
def SchemaKind.wireName : SchemaKind → Option String
  | .avro => none
  | .protobuf => some "PROTOBUF"
  | .json => some "JSON"

/-- `SchemaPayload` of a local schema. -/
def LocalSchema.payload (x : LocalSchema) : Value :=
  .object ([("schema", .string x.schema)] ++
    unlessNone "schemaType" (x.kind.wireName.map .string) ++
    unlessNone "messageType" (x.messageType.map .string) ++
    unlessNone "references" (if x.references.isEmpty then none
      else some (.array (x.references.map referenceValue))))

def readU32 : Value → Option UInt32
  | .number (.int n) => if 0 ≤ n ∧ n < 4294967296 then some (UInt32.ofNat n.toNat) else none
  | _ => none

/-- `RegisterResponse`. -/
def readRegisterResponse (v : Value) : Option UInt32 := do
  let ms ← structMembers ["id"] v
  required ms "id" readU32

def SubjectVersionResponse.deserialize (v : Value) : Option SubjectVersionResponse := do
  let ms ← structMembers ["id", "version", "schema", "schemaType", "messageType", "references"] v
  return {
    id := ← required ms "id" readU32
    version := ← defaulted ms "version" 0 readI32
    schema := ← defaulted ms "schema" "" readStr
    schemaType := ← defaulted ms "schemaType" none (readOption readStr)
    messageType := ← defaulted ms "messageType" none (readOption readStr)
    references := ← defaulted ms "references" [] readReferences }

/-- Response of `GET /schemas/ids/{id}`. -/
structure SchemaByIdResponse where
  schema : String
  schemaType : Option String
  messageType : Option String
  references : List SchemaReference
  deriving DecidableEq, Repr

def SchemaByIdResponse.deserialize (v : Value) : Option SchemaByIdResponse := do
  let ms ← structMembers ["schema", "schemaType", "messageType", "references"] v
  return {
    schema := ← required ms "schema" readStr
    schemaType := ← defaulted ms "schemaType" none (readOption readStr)
    messageType := ← defaulted ms "messageType" none (readOption readStr)
    references := ← defaulted ms "references" [] readReferences }

/-- `ErrorBody`. -/
def readErrorBody (v : Value) : Option (Int × String) := do
  let ms ← structMembers ["error_code", "message"] v
  return (← required ms "error_code" readI32, ← required ms "message" readStr)

/-! ## Calls -/

/-- The HTTP client, with the JSON library under it. -/
structure HttpClient where
  baseUrl : String
  /-- The answer to a request with its method, its URL and its body. -/
  send : Method → String → String → Except String Response
  J : SerdeJson
  fromSlice : ByteArray → Option Value
  /-- Why serde cannot read a body. -/
  decodeError : String → String

namespace HttpClient

variable (c : HttpClient) {α : Type}

/-- `parse`. -/
def parse (read : Value → Option α) (resp : Response) : Except RegistryError α :=
  if 200 ≤ resp.status ∧ resp.status < 300 then
    match (c.fromSlice resp.body.toUTF8).bind read with
    | some a => .ok a
    | none => .error (.registryDecode (c.decodeError resp.body))
  else
    match (c.fromSlice resp.body.toUTF8).bind readErrorBody with
    | some (errorCode, message) =>
      .error (.registryStatus resp.status (Int32.ofInt errorCode) message)
    -- A body of another form is the message itself.
    | none => .error (.registryStatus resp.status (Int32.ofNat resp.status.toNat) resp.body)

/-- A request and what is read from its answer. -/
def call (method : Method) (url body : String) (read : Value → Option α) :
    Except RegistryError α :=
  match c.send method url body with
  | .ok resp => c.parse read resp
  | .error reason => .error (.registryTransport reason)

/-- `get_json`. -/
def getJson (url : String) (read : Value → Option α) : Except RegistryError α :=
  c.call .get url "" read

/-- `post_json` of a local schema. -/
def postJson (url : String) (x : LocalSchema) (read : Value → Option α) :
    Except RegistryError α :=
  c.call .post url (toJsonString c.J x.payload) read

/-- The URL of `schema_by_id`. -/
def schemaByIdUrl (baseUrl : String) (id : UInt32) : String :=
  baseUrl ++ "/schemas/ids/" ++ toString id.toNat

/-- `schema_by_id`. -/
def schemaById (id : UInt32) : Except RegistryError FetchedSchema := do
  let resp ← c.getJson (schemaByIdUrl c.baseUrl id) SchemaByIdResponse.deserialize
  return ⟨resp.schema, .fromWireName resp.schemaType, resp.messageType, resp.references⟩

/-- The calls that name a subject. -/
def registry : RegistryClient where
  register subject x := c.postJson (registerUrl c.baseUrl subject) x readRegisterResponse
  lookup subject x := (·.id) <$>
    c.postJson (lookupUrl c.baseUrl subject) x SubjectVersionResponse.deserialize
  latest subject := c.getJson (latestUrl c.baseUrl subject) SubjectVersionResponse.deserialize
  subjectVersion subject version :=
    c.getJson (schemaBySubjectVersionUrl c.baseUrl subject version)
      SubjectVersionResponse.deserialize

/-- `resolve_writer_schema`. -/
def resolveWriterSchema (id : UInt32) : FetchOutcome :=
  Serde.resolveWriterSchema c.registry c.schemaById id

end HttpClient

/-! ## Targets -/

/-- The query in what follows the authority: behind the first `?`, up to the fragment. -/
def queryIn (text : List Char) : Option String :=
  match text.dropWhile fun c => c ≠ '?' && c ≠ '#' with
  | '?' :: query => some (String.ofList (query.takeWhile (· ≠ '#')))
  | _ => none

/-- The query of a URL. -/
def requestQuery (url : String) : Option String :=
  let afterScheme := (url.toList.dropWhile (· ≠ ':')).drop 3
  queryIn (afterScheme.dropWhile fun c => c ≠ '/' && c ≠ '?' && c ≠ '#')

/-- How a URL is written when it has been parsed.  Letters, digits and `=` stay in a query. -/
structure UrlParser where
  encodeSet : EncodeSet
  query : String → String
  query_plain : ∀ text : String, (∀ c ∈ text.toList, c.isAlphanum = true ∨ c = '=') →
    query text = text

/-- The target that is requested for a URL. -/
def UrlParser.target (P : UrlParser) (url : String) : Uri :=
  ⟨parsePath P.encodeSet (requestPath url), (requestQuery url).map P.query⟩

end KrabkaRegistry.Serde
