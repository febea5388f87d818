import Mathlib.Data.List.DropRight
import KrabkaRegistry.Basic

/-!
# The Registry Client

`registry/mod.rs` of the serde crate: the URLs that the client builds, and the sources of a
list of references.  What the registry answers is a parameter, since the client works against
any registry; each answer is an error or a value.
-/

namespace KrabkaRegistry.Serde

/-- The errors of `error.rs` that a call to the registry, or reading an id, reports. -/
inductive RegistryError where
  | registryTransport (message : String)
  | registryStatus (status : UInt16) (errorCode : Int32) (message : String)
  | registryDecode (message : String)
  | schema (message : String)
  deriving DecidableEq, Repr

/-- The schema format. -/
inductive SchemaKind where
  | avro
  | protobuf
  | json
  deriving DecidableEq, Repr

/-- `SchemaKind::from_wire_name`: anything unknown is Avro. -/
def SchemaKind.fromWireName : Option String → SchemaKind
  | some "PROTOBUF" => .protobuf
  | some "JSON" => .json
  | _ => .avro

/-- What a serde sends of its own schema to register it or to look it up. -/
structure LocalSchema where
  kind : SchemaKind
  schema : String
  references : List SchemaReference
  messageType : Option String
  deriving DecidableEq, Repr

/-- The body of the version endpoints. -/
structure SubjectVersionResponse where
  id : UInt32
  version : SchemaVersion
  schema : String
  schemaType : Option String
  messageType : Option String
  references : List SchemaReference
  deriving DecidableEq, Repr

structure FetchedSchema where
  schema : String
  kind : SchemaKind
  messageType : Option String
  references : List SchemaReference
  deriving DecidableEq, Repr

/-- What the registry answers to each request at one time. -/
structure RegistryClient where
  register : String → LocalSchema → Except RegistryError UInt32
  lookup : String → LocalSchema → Except RegistryError UInt32
  latest : String → Except RegistryError SubjectVersionResponse
  /-- `GET /subjects/{subject}/versions/{version}?deleted=true`. -/
  subjectVersion : String → SchemaVersion → Except RegistryError SubjectVersionResponse

namespace RegistryClient

variable (client : RegistryClient)

/-- `schema_by_subject_version`. -/
def schemaBySubjectVersion (subject : String) (version : SchemaVersion) :
    Except RegistryError FetchedSchema := do
  let resp ← client.subjectVersion subject version
  return ⟨resp.schema, .fromWireName resp.schemaType, resp.messageType, resp.references⟩

end RegistryClient

/-! ## URLs -/

/-- The base URL that `RegistryClient::with_http_client` keeps. -/
def baseUrlOf (url : String) : String := String.ofList (url.toList.rdropWhile (· = '/'))

/-- The URL of `register`. -/
def registerUrl (baseUrl subject : String) : String :=
  baseUrl ++ "/subjects/" ++ subject ++ "/versions"

/-- The URL of `lookup`. -/
def lookupUrl (baseUrl subject : String) : String := baseUrl ++ "/subjects/" ++ subject

/-- The URL of `latest`. -/
def latestUrl (baseUrl subject : String) : String :=
  baseUrl ++ "/subjects/" ++ subject ++ "/versions/latest"

/-- The URL of `schema_by_subject_version`. -/
def schemaBySubjectVersionUrl (baseUrl subject : String) (version : SchemaVersion) : String :=
  baseUrl ++ "/subjects/" ++ subject ++ "/versions/" ++ toString version ++ "?deleted=true"

/-- The path that is requested for a URL: what follows the authority, up to the query or the
fragment. -/
def requestPath (url : String) : String :=
  let afterScheme := (url.toList.dropWhile (· ≠ ':')).drop 3
  let afterAuthority := afterScheme.dropWhile fun c => c ≠ '/' && c ≠ '?' && c ≠ '#'
  String.ofList (afterAuthority.takeWhile fun c => c ≠ '?' && c ≠ '#')

namespace RegistryClient

variable (client : RegistryClient)

/-! ## Reference sources -/

/-- `MAX_REFERENCE_DEPTH`. -/
def maxReferenceDepth : ℕ := 64

/-- What the walk has found so far, and what it is in the middle of. -/
structure Sources where
  sources : BTreeMap String String
  order : List String
  resolving : List (String × SchemaVersion)

/-- The loop body of `resolve_reference_sources`, with the call one level down as a parameter. -/
def referenceStep (below : List SchemaReference → Sources → Except RegistryError Sources)
    (walk : Sources) (reference : SchemaReference) : Except RegistryError Sources :=
  if walk.sources.contains reference.name then .ok walk
  else if (reference.subject, reference.version) ∈ walk.resolving then
    .error (.schema (s!"cyclic schema reference at {reference.subject} " ++
      s!"version {reference.version}"))
  else do
    let referenced ← client.schemaBySubjectVersion reference.subject reference.version
    let found ← below referenced.references
      { walk with resolving := (reference.subject, reference.version) :: walk.resolving }
    return ⟨found.sources.insert reference.name referenced.schema,
      found.order ++ [reference.name],
      found.resolving.erase (reference.subject, reference.version)⟩

/-- `resolve_reference_sources`.  The number counts the levels that are left. -/
def resolveReferenceSources : ℕ → List SchemaReference → Sources → Except RegistryError Sources
  | 0, _, _ => .error (.schema s!"schema reference depth exceeds {maxReferenceDepth}")
  | levels + 1, references, walk =>
    references.foldlM (referenceStep client (resolveReferenceSources levels)) walk

theorem resolveReferenceSources_succ (levels : ℕ) (references : List SchemaReference)
    (walk : Sources) :
    resolveReferenceSources client (levels + 1) references walk =
      references.foldlM (referenceStep client (resolveReferenceSources client levels)) walk :=
  rfl

/-- `reference_sources_ordered`. -/
def referenceSourcesOrdered (references : List SchemaReference) :
    Except RegistryError (BTreeMap String String × List String) := do
  let walk ← resolveReferenceSources client maxReferenceDepth references ⟨∅, [], []⟩
  return (walk.sources, walk.order)

end RegistryClient

end KrabkaRegistry.Serde
