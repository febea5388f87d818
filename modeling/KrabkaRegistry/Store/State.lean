import KrabkaRegistry.Format.Parse
import KrabkaRegistry.Kafkastore.Record

/-!
# The In-Memory Registry State

`StoreState` of `store/mod.rs`, rebuilt by a replay of `_schemas`, with every operation
the write path and the reader use.  Rust methods that change the state in place return
the new state here; a method that can also fail returns both in a `Result`.

`resolve_into` recurses over stored data that may be cyclic and stops by its visited
set.  The model recurses over a fuel argument, and `resolveClosure` gives it one unit
more than there are stored versions, which is always enough.
-/

namespace KrabkaRegistry.Store

open KrabkaRegistry.Format (Formats)
open KrabkaRegistry.Format.Json (Value)
open KrabkaRegistry.Kafkastore (SchemaKey SchemaValue SchemaRecord TopicRecord)

/-- A registered schema's stored form. -/
structure RegisteredSchema where
  ty : SchemaType
  schema : String
  references : List SchemaReference
  messageType : Option String
  extra : BTreeMap String Value

/-- A single subject-version's stored schema. -/
structure VersionedSchema where
  id : SchemaId
  version : SchemaVersion
  ty : SchemaType
  schema : String
  references : List SchemaReference
  messageType : Option String
  extra : BTreeMap String Value

/-- A row of `GET /schemas`. -/
structure ListedSchema where
  subject : String
  version : SchemaVersion
  id : SchemaId
  ty : SchemaType
  schema : String
  references : List SchemaReference
  messageType : Option String
  deriving DecidableEq, Repr

structure VersionEntry where
  version : SchemaVersion
  id : SchemaId
  deleted : Bool
  deriving DecidableEq, Repr

structure StoreState where
  subjects : BTreeMap String (List VersionEntry) := ∅
  byId : BTreeMap SchemaId RegisteredSchema := ∅
  byCanonical : BTreeMap String SchemaId := ∅
  canonicalById : BTreeMap SchemaId String := ∅
  globalCompat : Option String := none
  defaultCompatibility : String
  subjectCompat : BTreeMap String String := ∅
  globalMode : Option String := none
  defaultMode : String
  subjectMode : BTreeMap String String := ∅
  maxId : SchemaId := 0
  nextVersions : BTreeMap String SchemaVersion := ∅

/-- `StoreState::with_defaults`. -/
def StoreState.withDefaults (compatibility mode : String) : StoreState :=
  { defaultCompatibility := compatibility, defaultMode := mode }

namespace StoreState

variable (F : Formats) (st : StoreState)

/-! ## Reference resolution -/

/-- The id of a concrete `(subject, version)`, soft-deleted versions included. -/
def idOf (subject : String) (version : SchemaVersion) : Option SchemaId :=
  match st.subjects[subject]? with
  | none => none
  | some entries => (entries.find? fun v => v.version = version).map (·.id)

/-- What `resolve_into` threads through its recursion. -/
structure Resolution where
  out : List ResolvedReference := []
  seenNames : Finset String := ∅
  visited : Finset (String × SchemaVersion) := ∅

/-- The text that names a reference in `ReferenceNotFound`. -/
def referenceLabel (r : SchemaReference) : String :=
  r.name ++ ":" ++ r.subject ++ ":" ++ toString r.version

/-- One round of the loop of `resolve_into`; `below` is the recursive call. -/
def resolveRef (below : List SchemaReference → Resolution → Result Resolution)
    (acc : Resolution) (r : SchemaReference) : Result Resolution :=
  -- A version is walked once, which also ends cycles.
  if (r.subject, r.version) ∈ acc.visited then .ok acc
  else
    match (st.idOf r.subject r.version).bind (st.byId[·]?) with
    | none => .error (.error (.referenceNotFound (referenceLabel r)))
    | some reg => do
      -- Dependencies first; the name of the reference itself is taken last.
      let acc ← below reg.references
        { acc with visited := insert (r.subject, r.version) acc.visited }
      if r.name ∈ acc.seenNames then return acc
      else return { acc with
        out := acc.out ++ [⟨r.name, reg.ty, reg.schema⟩]
        seenNames := insert r.name acc.seenNames }

/-- `resolve_into`, nesting at most `fuel` levels deep. -/
def resolveInto : ℕ → List SchemaReference → Resolution → Result Resolution
  | 0, _, _ => .error .fuel
  | fuel + 1, references, acc => references.foldlM (st.resolveRef (resolveInto fuel)) acc

/-- Every stored `(subject, version)`. -/
def boundVersions : List (String × SchemaVersion) :=
  st.subjects.toList.flatMap fun p => p.2.map fun e => (p.1, e.version)

/-- Resolve a reference list into its transitive closure, dependencies first. -/
def resolveClosure (references : List SchemaReference) : Result (List ResolvedReference) :=
  (·.out) <$> st.resolveInto (st.boundVersions.length + 1) references {}

/-! ## Identity -/

/-- A reference as it enters the dedup key. -/
def fingerprint (r : SchemaReference) : String :=
  r.name ++ "\x01" ++ r.subject ++ "\x01" ++ toString r.version

/-- The id-dedup key: the canonical form joined with the references and message type. -/
def dedupKey (canonical : String) (references : List SchemaReference)
    (messageType : Option String) : String :=
  if references.isEmpty && messageType.isNone then canonical
  else
    let refs := (references.map fingerprint).insertionSort (· ≤ ·)
    canonical ++ "\x00" ++ "\x02".intercalate refs ++ "\x00" ++ messageType.getD ""

/-- The dedup key of a schema: resolve its references, parse it, take its canonical form. -/
def identityKey (ty : SchemaType) (schema : String) (references : List SchemaReference)
    (messageType : Option String) : Result String := do
  let resolved ← st.resolveClosure references
  let canonical ← F.parse ty schema resolved
  return dedupKey canonical references messageType

/-! ## Version counters -/

/-- `observe_next_version`: raise the subject's next version to at least `next`. -/
def observeNextVersion (subject : String) (next : SchemaVersion) : StoreState :=
  let raised :=
    match st.nextVersions[subject]? with
    | some current => max current next
    | none => next
  { st with nextVersions := st.nextVersions.insert subject raised }

/-- `observe_version`. -/
def observeVersion (subject : String) (version : SchemaVersion) : StoreState :=
  st.observeNextVersion subject (saturatingSucc version)

def nextVersion (subject : String) : SchemaVersion := st.nextVersions[subject]?.getD 1

/-! ## Registration -/

def findUnderSubjectCanonical (subject canonical : String) (includeDeleted : Bool) :
    Option Registered :=
  match st.byCanonical[canonical]?, st.subjects[subject]? with
  | some id, some entries =>
    (entries.find? fun v => v.id = id ∧ (includeDeleted ∨ ¬ v.deleted)).map fun e =>
      ⟨id, e.version⟩
  | _, _ => none

/-- The id a registration is given: the one its identity has, else the next one. -/
def assignId (key : String) (reg : RegisteredSchema) : Result (SchemaId × StoreState) :=
  match st.byCanonical[key]? with
  | some id => .ok (id, st)
  | none =>
    -- `self.max_id.0 + 1` overflows: a panic where overflow checks are on.
    if st.maxId = i32Max then .error .overflow
    else
      let id := st.maxId + 1
      .ok (id, { st with
        maxId := id
        byCanonical := st.byCanonical.insert key id
        canonicalById := st.canonicalById.insert id key
        byId := st.byId.insert id reg })

/-- `StoreState::register`: decide id and version and apply the decision. -/
def register (subject : String) (ty : SchemaType) (schema : String)
    (references : List SchemaReference) (messageType : Option String) :
    Result (Registered × StoreState) := do
  let key ← st.identityKey F ty schema references messageType
  match st.findUnderSubjectCanonical subject key true with
  -- The subject has the schema already, possibly as a deleted version.
  | some existing => return (existing, st)
  | none =>
    let (id, st') ← st.assignId key ⟨ty, schema, references, messageType, ∅⟩
    let version := st'.nextVersion subject
    let st'' := st'.observeVersion subject version
    let entries := (st''.subjects[subject]?).getD []
    return (⟨id, version⟩,
      { st'' with subjects := st''.subjects.insert subject (entries ++ [⟨version, id, false⟩]) })

/-- Lookup of an already-registered schema under a subject. -/
def findUnderSubject (subject : String) (ty : SchemaType) (schema : String)
    (references : List SchemaReference) (messageType : Option String) (includeDeleted : Bool) :
    Option Registered :=
  match st.identityKey F ty schema references messageType with
  | .error _ => none
  | .ok key => st.findUnderSubjectCanonical subject key includeDeleted

/-- Whether `id` is already bound to a different schema identity. -/
def schemaIdConflicts (id : SchemaId) (ty : SchemaType) (schema : String)
    (references : List SchemaReference) (messageType : Option String) : Result Bool :=
  match st.byId[id]? with
  | none => .ok false
  | some existing =>
    -- Another type is another identity, whatever the keys.
    if existing.ty ≠ ty then .ok true
    else do
      let existingKey ← st.identityKey F existing.ty existing.schema existing.references
        existing.messageType
      let candidateKey ← st.identityKey F ty schema references messageType
      return existingKey ≠ candidateKey

/-! ## Replay of `SCHEMA` records -/

/-- Forget the identity that `id` is indexed under. -/
def unindex (id : SchemaId) : StoreState :=
  match st.canonicalById[id]? with
  | none => st
  | some oldKey =>
    { st with
      canonicalById := st.canonicalById.erase id
      byCanonical := if st.byCanonical[oldKey]? = some id then st.byCanonical.erase oldKey
        else st.byCanonical }

/-- Index `id` under `key`, taking the key over from another id that had it. -/
def index (key : String) (id : SchemaId) : StoreState :=
  let canonicalById :=
    match st.byCanonical[key]? with
    | some oldId =>
      if oldId ≠ id ∧ st.canonicalById[oldId]? = some key then st.canonicalById.erase oldId
      else st.canonicalById
    | none => st.canonicalById
  { st with
    byCanonical := st.byCanonical.insert key id
    canonicalById := canonicalById.insert id key }

/-- The content of a `SCHEMA` value as `by_id` keeps it. -/
def contentOf (value : SchemaValue) :
    RegisteredSchema :=
  ⟨SchemaType.fromWire value.schemaType, value.schema, value.references, value.messageType,
    value.extra⟩

/-- The key a `SCHEMA` value is indexed under.  A value whose references do not resolve,
or that does not parse, is left out of the index. -/
def indexKey (value : SchemaValue) : Option String :=
  (st.identityKey F (SchemaType.fromWire value.schemaType) value.schema value.references
    value.messageType).toOption

/-- Replace the entry that has `e`'s version. -/
def rebind (e : VersionEntry) : List VersionEntry → List VersionEntry
  | [] => []
  | v :: entries => if v.version = e.version then e :: entries else v :: rebind e entries

/-- Set a version's entry, inserting it in version order if the version is new. -/
def setEntry (e : VersionEntry) (entries : List VersionEntry) : List VersionEntry :=
  if entries.any fun v => v.version = e.version then rebind e entries
  else (entries ++ [e]).insertionSort fun a b => a.version ≤ b.version

/-- `apply_schema` up to the point where the value's references are resolved. -/
def prepareSchema (value : SchemaValue) : StoreState :=
  -- The counters move even if the value cannot be indexed.
  let st := { st with maxId := max st.maxId value.id }
  let st := st.observeVersion value.subject value.version
  let st := st.unindex value.id
  { st with byId := st.byId.insert value.id (contentOf value) }

/-- The part of `apply_schema` that indexes the value, if it can be. -/
def indexValue (value : SchemaValue) : StoreState :=
  match st.indexKey F value with
  | some key => st.index key value.id
  -- Left out of the index, but not out of the subject.
  | none => st

/-- Fold a decoded `SCHEMA` record into the state. -/
def applySchema (_key : SchemaKey) (value : SchemaValue) : StoreState :=
  let st := (st.prepareSchema value).indexValue F value
  let entries := setEntry ⟨value.version, value.id, value.deleted⟩
    ((st.subjects[value.subject]?).getD [])
  { st with subjects := st.subjects.insert value.subject entries }

/-! ## Deletes -/

/-- `soft_delete_subject`: flag every version of a subject deleted. -/
def softDeleteSubject (subject : String) : StoreState :=
  match st.subjects[subject]? with
  | none => st
  | some entries =>
    if entries.isEmpty then st
    else
      let flagged := entries.map fun v => { v with deleted := true }
      { st with subjects := st.subjects.insert subject flagged }

/-- `permanent_delete_version`: remove a single version, and an emptied subject. -/
def permanentDeleteVersion (subject : String) (version : SchemaVersion) : StoreState :=
  let st := st.observeVersion subject version
  match st.subjects[subject]? with
  | none => st
  | some entries =>
    let left := entries.filter fun v => v.version ≠ version
    if left.length = entries.length then st
    -- A subject without versions is no longer listed.
    else if left.isEmpty then { st with subjects := st.subjects.erase subject }
    else { st with subjects := st.subjects.insert subject left }

/-! ## Compatibility levels and modes -/

def setGlobalCompat (level : String) : StoreState := { st with globalCompat := some level }

def setSubjectCompat (subject level : String) : StoreState :=
  { st with subjectCompat := st.subjectCompat.insert subject level }

def clearSubjectCompat (subject : String) : StoreState :=
  { st with subjectCompat := st.subjectCompat.erase subject }

def setGlobalMode (mode : String) : StoreState := { st with globalMode := some mode }

def clearGlobalMode : StoreState := { st with globalMode := none }

def setSubjectMode (subject mode : String) : StoreState :=
  { st with subjectMode := st.subjectMode.insert subject mode }

def clearSubjectMode (subject : String) : StoreState :=
  { st with subjectMode := st.subjectMode.erase subject }

/-- The method `global_compat`. -/
def globalCompatLevel : String := st.globalCompat.getD st.defaultCompatibility

/-- The method `global_mode`. -/
def globalModeName : String := st.globalMode.getD st.defaultMode

/-- Subject override else global. -/
def effectiveMode (subject : String) : String := st.subjectMode[subject]?.getD st.globalModeName

/-- `preserve_id_high_water`: a rebuild over the same topic keeps the id counter. -/
def preserveIdHighWater (previous : StoreState) : StoreState :=
  { st with maxId := max st.maxId previous.maxId }

/-! ## Reads -/

/-- The method `subjects`: the subjects that have a qualifying version. -/
def subjectNames (includeDeleted : Bool) : List String :=
  (st.subjects.toList.filter fun p => p.2.any fun v => includeDeleted || !v.deleted).map (·.1)

/-- Qualifying version numbers, `none` when there are none. -/
def versions (subject : String) (includeDeleted : Bool) : Option (List SchemaVersion) :=
  match st.subjects[subject]? with
  | none => none
  | some entries =>
    let out := (entries.filter fun v => includeDeleted || !v.deleted).map (·.version)
    if out.isEmpty then none else some out

/-- Stored schema details for a subject and version; `none` is the latest version. -/
def version (subject : String) (version : Option SchemaVersion) (includeDeleted : Bool) :
    Option VersionedSchema :=
  match st.subjects[subject]? with
  | none => none
  | some entries =>
    let entry : Option VersionEntry :=
      match version with
      | some v => entries.find? fun e => e.version = v ∧ (includeDeleted ∨ ¬ e.deleted)
      | none => entries.reverse.find? fun e => includeDeleted || !e.deleted
    match entry with
    | none => none
    | some e =>
      (st.byId[e.id]?).map fun reg =>
        ⟨e.id, e.version, reg.ty, reg.schema, reg.references, reg.messageType, reg.extra⟩

/-- The content of a global id, if a qualifying version has the id. -/
def schemaById (id : SchemaId) (includeDeleted : Bool) :
    Option (SchemaType × String × List SchemaReference × Option String) :=
  match st.byId[id]? with
  | none => none
  | some reg =>
    if st.subjects.toList.any fun p => p.2.any fun v =>
        v.id = id && (includeDeleted || !v.deleted) then
      some (reg.ty, reg.schema, reg.references, reg.messageType)
    else none

/-- The qualifying versions that have a global id, subject by subject. -/
def schemaIdSubjectVersions (id : SchemaId) (includeDeleted : Bool) :
    List (String × SchemaVersion) :=
  st.subjects.toList.flatMap fun p => p.2.filterMap fun v =>
    if v.id = id && (includeDeleted || !v.deleted) then some (p.1, v.version) else none

/-- Every qualifying version with its content, sorted by subject and then version. -/
def allSchemas (includeDeleted : Bool) : List ListedSchema :=
  let out := st.subjects.toList.flatMap fun p => p.2.filterMap fun v =>
    if includeDeleted || !v.deleted then
      (st.byId[v.id]?).map fun reg =>
        ⟨p.1, v.version, v.id, reg.ty, reg.schema, reg.references, reg.messageType⟩
    else none
  out.insertionSort fun a b =>
    a.subject < b.subject ∨ (a.subject = b.subject ∧ a.version ≤ b.version)

/-- The ids of qualifying schemas whose references include `(subject, version)`. -/
def referencedBy (subject : String) (version : SchemaVersion) (includeDeleted : Bool) :
    List SchemaId :=
  let ids := st.subjects.toList.flatMap fun p => p.2.filterMap fun entry =>
    if entry.deleted && !includeDeleted then none
    else
      match st.byId[entry.id]? with
      | none => none
      | some reg =>
        if reg.references.any fun r => r.subject = subject ∧ r.version = version then
          some entry.id
        else none
  ids.dedup.insertionSort (· ≤ ·)

/-- A subject's live versions in ascending order. -/
def versionsSchemas (subject : String) :
    List (SchemaType × String × List SchemaReference) :=
  match st.subjects[subject]? with
  | none => []
  | some entries =>
    (entries.filter fun e => !e.deleted).filterMap fun e =>
      (st.byId[e.id]?).map fun reg => (reg.ty, reg.schema, reg.references)

end StoreState

/-! ## Replay -/

variable (F : Formats)

/-- Apply one decoded record to the store. -/
def applyRecord (st : StoreState) : SchemaRecord → StoreState
  | .schema k v => st.applySchema F k v
  | .tombstone k => st.permanentDeleteVersion k.subject k.version
  | .deleteSubject subject _ => st.softDeleteSubject subject
  | .versionHighWater subject next => st.observeNextVersion subject next
  | .mode (some subject) (some mode) => st.setSubjectMode subject mode
  | .mode none (some mode) => st.setGlobalMode mode
  | .mode (some subject) none => st.clearSubjectMode subject
  | .mode none none => st.clearGlobalMode
  | .config (some subject) (some level) => st.setSubjectCompat subject level
  | .config none (some level) => st.setGlobalCompat level
  | .config (some subject) none => st.clearSubjectCompat subject
  | .config none none => st
  | .noop | .unknown _ | .undecodable _ => st

/-- Decode and apply one record of the topic. -/
def applyTopicRecord (st : StoreState) (r : TopicRecord) : StoreState :=
  applyRecord F st (SchemaRecord.decode r)

/-- Replay a log. -/
def replay (st : StoreState) (log : List TopicRecord) : StoreState :=
  log.foldl (applyTopicRecord F) st

end KrabkaRegistry.Store
