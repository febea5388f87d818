import KrabkaRegistry.Serde.Cache
import KrabkaRegistry.Serde.Retry

/-!
# Fetching Writer Schemas

The deserialize side of `cache.rs`.  A read of a writer schema is answered at once.  On a miss it
spawns a fetch of the schema, and when the fetch has ended the cache keeps the schema, the reason
why there is none, or the time from which the next fetch may be spawned.

The cache is shared: a run is any interleaving of reads, ends of fetches, rounds of `prewarm` and
seeds.  Each holds the lock from its reading of the clock to its end.
-/

namespace KrabkaRegistry.Serde

/-! ## Errors -/

namespace RegistryError

/-- `is_transient_registry_failure`. -/
def isTransientRegistryFailure : RegistryError → Bool
  | .registryTransport _ => true
  | .registryStatus status _ _ => status = 429 || 500 ≤ status
  | .registryDecode _ | .schema _ => false

/-- The text of an error. -/
def display : RegistryError → String
  | .registryTransport message => "registry transport failed: " ++ message
  | .registryStatus status errorCode message =>
    "registry error " ++ toString status ++ " (" ++ toString errorCode.toInt ++ "): " ++ message
  | .registryDecode message => "registry response decode failed: " ++ message
  | .schema message => "schema error: " ++ message

end RegistryError

/-- The errors of `error.rs` that a read reports. -/
inductive ReadError where
  | writerSchemaPending (id : UInt32)
  | writerSchemaUnavailable (id : UInt32) (reason : String)
  deriving DecidableEq, Repr

/-- What a fetch of an id ends with. -/
abbrev FetchOutcome := Except RegistryError (WriterSchema × Option String)

/-- `resolve_writer_schema`, with what `GET /schemas/ids/{id}` answers. -/
def resolveWriterSchema (client : RegistryClient)
    (schemaById : UInt32 → Except RegistryError FetchedSchema) (id : UInt32) : FetchOutcome := do
  let root ← schemaById id
  let (sources, order) ← client.referenceSourcesOrdered root.references
  return (⟨root.schema, sources, order⟩, root.messageType)

/-! ## The cache -/

/-- The cache's state with what background fetches use. -/
structure SchemaCache extends Inner where
  /-- The ids whose fetch is in flight. -/
  fetching : Finset UInt32 := ∅
  unavailableSchemas : BTreeMap UInt32 String := ∅
  /-- The earliest time of the next fetch after a transient failure. -/
  retryAfter : BTreeMap UInt32 Instant := ∅
  retryAttempts : BTreeMap UInt32 UInt32 := ∅

/-- What a read gives, and whether it has spawned a fetch. -/
structure ReadResult where
  answer : Except ReadError WriterSchema
  spawned : Bool
  cache : SchemaCache

namespace SchemaCache

variable (c : SchemaCache)

/-- `writer_schema_with_references`, up to the spawned task. -/
def writerSchemaWithReferences (id : UInt32) (now : Instant) : ReadResult :=
  match c.idWriterSchema[id]? with
  | some schema => ⟨.ok schema, false, c⟩
  | none =>
    match c.unavailableSchemas[id]? with
    | some reason => ⟨.error (.writerSchemaUnavailable id reason), false, c⟩
    | none =>
      if c.retryAfter[id]?.any (now < ·) then ⟨.error (.writerSchemaPending id), false, c⟩
      else if id ∈ c.fetching then ⟨.error (.writerSchemaPending id), false, c⟩
      else ⟨.error (.writerSchemaPending id), true, { c with fetching := insert id c.fetching }⟩

/-- `u32::saturating_add(1)`. -/
def nextAttempt (attempt : UInt32) : UInt32 :=
  if attempt = 4294967295 then attempt else attempt + 1

/-- The spawned task, from the end of `resolve_writer_schema`. -/
def fetched (policy : SchemaFetchRetryPolicy) (id : UInt32) (now : Instant) :
    FetchOutcome → SchemaCache
  | .ok (schema, messageType) =>
    { c with
      fetching := c.fetching.erase id
      idMessageType := match messageType with
        | some messageType => c.idMessageType.insert id messageType
        | none => c.idMessageType
      idWriterSchema := c.idWriterSchema.insert id schema
      unavailableSchemas := c.unavailableSchemas.erase id
      retryAfter := c.retryAfter.erase id
      retryAttempts := c.retryAttempts.erase id }
  | .error error =>
    if error.isTransientRegistryFailure then
      let attempt := (c.retryAttempts[id]?.map nextAttempt).getD 1
      { c with
        fetching := c.fetching.erase id
        retryAttempts := c.retryAttempts.insert id attempt
        retryAfter := c.retryAfter.insert id (now + policy.retryDelay id attempt) }
    else
      { c with
        fetching := c.fetching.erase id
        unavailableSchemas := c.unavailableSchemas.insert id error.display
        retryAfter := c.retryAfter.erase id
        retryAttempts := c.retryAttempts.erase id }

/-- `seed_writer_schema_with_ordered_references`. -/
def seedWriterSchemaWithOrderedReferences (id : UInt32) (schema : String)
    (references : List (String × String)) : SchemaCache :=
  { c with
    idWriterSchema := c.idWriterSchema.insert id
      ⟨schema, Std.ExtTreeMap.ofList references compare, references.map (·.1)⟩
    unavailableSchemas := c.unavailableSchemas.erase id
    retryAfter := c.retryAfter.erase id
    retryAttempts := c.retryAttempts.erase id }

/-- `seed_writer_schema_with_references`: the names in order. -/
def seedWriterSchemaWithReferences (id : UInt32) (schema : String)
    (references : BTreeMap String String) : SchemaCache :=
  c.seedWriterSchemaWithOrderedReferences id schema references.toList

/-- `seed_writer_schema`. -/
def seedWriterSchema (id : UInt32) (schema : String) : SchemaCache :=
  c.seedWriterSchemaWithReferences id schema ∅

/-- `seed_writer_message_type`. -/
def seedWriterMessageType (id : UInt32) (messageType : String) : SchemaCache :=
  { c with idMessageType := c.idMessageType.insert id messageType }

/-- `seed_subject_id`. -/
def seedSubjectId (subject : String) (id : UInt32) : SchemaCache :=
  { c with subjectId := c.subjectId.insert subject id }

end SchemaCache

/-! ## Runs -/

/-- A step that takes the lock. -/
inductive CacheEvent where
  | intern (i : Interned)
  /-- A round of `prewarm` has resolved an entry. -/
  | prewarmed (i : Interned) (r : Resolved)
  | seedWriterSchema (id : UInt32) (schema : String) (references : List (String × String))
  | seedWriterMessageType (id : UInt32) (messageType : String)
  | seedSubjectId (subject : String) (id : UInt32)
  | read (id : UInt32) (now : Instant)
  /-- A fetch of the id has ended. -/
  | fetched (id : UInt32) (now : Instant) (outcome : FetchOutcome)

/-- A fetch that has been spawned, and how it ended. -/
structure Fetch where
  id : UInt32
  started : Instant
  ended : Option (Instant × FetchOutcome) := none

/-- The fetch of the id that is in flight ends. -/
def Fetch.finish (id : UInt32) (now : Instant) (outcome : FetchOutcome) (f : Fetch) : Fetch :=
  if f.id = id ∧ f.ended.isNone then { f with ended := some (now, outcome) } else f

/-- The cache in a run, with the latest time read and every fetch so far, newest first. -/
structure Running where
  cache : SchemaCache := {}
  clock : Instant := 0
  fetches : List Fetch := []

namespace Running

/-- The fetches of an id, newest first. -/
def fetchesOf (r : Running) (id : UInt32) : List Fetch := r.fetches.filter (·.id = id)

/-- A step of the run; none where no fetch of the id is in flight, or time would go back. -/
def step (policy : SchemaFetchRetryPolicy) (r : Running) : CacheEvent → Option Running
  | .intern i => some { r with cache := { r.cache with toInner := r.cache.toInner.intern i } }
  | .prewarmed i resolved =>
    some { r with cache := { r.cache with toInner := r.cache.toInner.insert i resolved } }
  | .seedWriterSchema id schema references =>
    some { r with cache := r.cache.seedWriterSchemaWithOrderedReferences id schema references }
  | .seedWriterMessageType id messageType =>
    some { r with cache := r.cache.seedWriterMessageType id messageType }
  | .seedSubjectId subject id => some { r with cache := r.cache.seedSubjectId subject id }
  | .read id now =>
    if r.clock ≤ now then
      let result := r.cache.writerSchemaWithReferences id now
      some { cache := result.cache, clock := now,
             fetches := if result.spawned then ⟨id, now, none⟩ :: r.fetches else r.fetches }
    else none
  | .fetched id now outcome =>
    if r.clock ≤ now ∧ ∃ f ∈ r.fetches, f.id = id ∧ f.ended.isNone then
      some { cache := r.cache.fetched policy id now outcome, clock := now,
             fetches := r.fetches.map (Fetch.finish id now outcome) }
    else none

end Running

/-- A run from the empty cache. -/
def runCache (policy : SchemaFetchRetryPolicy) (events : List CacheEvent) : Option Running :=
  events.foldlM (Running.step policy) {}

end KrabkaRegistry.Serde
