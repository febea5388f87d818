import KrabkaRegistry.Format.Parse
import KrabkaRegistry.Serde.Registry

/-!
# The Schema Cache

`cache.rs`, `subject.rs` and the `Binding` of `format/mod.rs`, on the serialize side.  Serdes
intern their own schemas under the subject of a topic, `prewarm` asks the registry for the id
of each, and the hot path reads the id of a subject.

The cache is shared: a run is any sequence of calls by any serdes.
-/

namespace KrabkaRegistry.Serde

open KrabkaRegistry.Format (Libs)
open KrabkaRegistry.Format.Protobuf (FileDescriptorProto)

/-! ## Subjects -/

inductive Role where
  | key
  | value
  deriving DecidableEq, Repr

/-- `TopicNameStrategy::subject`. -/
def topicNameSubject (topic : String) : Role → String
  | .key => topic ++ "-key"
  | .value => topic ++ "-value"

/-! ## The cache -/

/-- How the cache resolves ids. -/
inductive RegisterMode where
  | autoRegister
  | lookupOnly
  | useLatest
  deriving DecidableEq, Repr

/-- An interned local schema. -/
structure Interned extends LocalSchema where
  subject : String
  deriving DecidableEq, Repr

/-- A writer schema and the sources of its references. -/
structure WriterSchema where
  schema : String
  references : BTreeMap String String
  referenceOrder : List String

/-- The cache's state, without what background fetches use. -/
structure Inner where
  subjectId : BTreeMap String UInt32 := ∅
  idWriterSchema : BTreeMap UInt32 WriterSchema := ∅
  idMessageType : BTreeMap UInt32 String := ∅
  interned : List Interned := []

/-- `schemas_equivalent`. -/
def schemasEquivalent (L : Libs) (kind : SchemaKind) (left right : String) : Bool :=
  if left = right then true
  else
    match kind with
    | .avro | .json =>
      match L.serdeJson.fromStr left, L.serdeJson.fromStr right with
      | .ok left, .ok right => left.equal right
      | _, _ => false
    | .protobuf =>
      match L.protoxParse "left.proto" left, L.protoxParse "left.proto" right with
      | .ok left, .ok right =>
        FileDescriptorProto.equal { left with sourceCodeInfo := none }
          { right with sourceCodeInfo := none }
      | _, _ => false

/-- `references_equivalent`: the same references in any order. -/
def referencesEquivalent (left right : List SchemaReference) : Bool := left.isPerm right

/-- How a kind is shown in a message. -/
def SchemaKind.debug : SchemaKind → String
  | .avro => "Avro"
  | .protobuf => "Protobuf"
  | .json => "Json"

/-- What one entry is resolved to. -/
structure Resolved where
  id : UInt32
  writerSchema : WriterSchema
  messageType : Option String

/-- One round of the loop in `prewarm`, up to the insertion. -/
def resolve (L : Libs) (mode : RegisterMode) (client : RegistryClient) (i : Interned) :
    Except RegistryError Resolved :=
  match mode with
  | .autoRegister => do
    let id ← client.register i.subject i.toLocalSchema
    let (references, order) ← client.referenceSourcesOrdered i.references
    return ⟨id, ⟨i.schema, references, order⟩, i.messageType⟩
  | .lookupOnly => do
    let id ← client.lookup i.subject i.toLocalSchema
    let (references, order) ← client.referenceSourcesOrdered i.references
    return ⟨id, ⟨i.schema, references, order⟩, i.messageType⟩
  | .useLatest => do
    let latest ← client.latest i.subject
    if ¬ schemasEquivalent L i.kind latest.schema i.schema ∨
        SchemaKind.fromWireName latest.schemaType ≠ i.kind ∨
        ¬ referencesEquivalent latest.references i.references ∨
        (latest.messageType.isSome ∧ i.messageType ≠ latest.messageType) then
      .error (.schema (s!"latest schema for {i.subject} differs from the local " ++
        s!"{i.kind.debug} schema"))
    else do
      let (references, order) ← client.referenceSourcesOrdered latest.references
      return ⟨latest.id, ⟨latest.schema, references, order⟩, latest.messageType⟩

namespace Inner

/-- `intern`: a schema that is interned already is not interned again. -/
def intern (g : Inner) (i : Interned) : Inner :=
  if i ∈ g.interned then g else { g with interned := g.interned ++ [i] }

/-- Keep what an entry was resolved to, under its subject. -/
def insert (g : Inner) (i : Interned) (r : Resolved) : Inner :=
  { g with
    subjectId := g.subjectId.insert i.subject r.id
    idWriterSchema := g.idWriterSchema.insert r.id r.writerSchema
    idMessageType := match r.messageType with
      | some messageType => g.idMessageType.insert r.id messageType
      | none => g.idMessageType }

/-- The loop of `prewarm`.  The registry may answer differently from one round to the next;
the first error ends the loop, and what was resolved before it stays. -/
def prewarmLoop (L : Libs) (mode : RegisterMode) (registry : ℕ → RegistryClient) :
    ℕ → List Interned → Inner → Except RegistryError Unit × Inner
  | _, [], g => (.ok (), g)
  | round, i :: pending, g =>
    match resolve L mode (registry round) i with
    | .error e => (.error e, g)
    | .ok r => prewarmLoop L mode registry (round + 1) pending (g.insert i r)

/-- `prewarm`. -/
def prewarm (L : Libs) (mode : RegisterMode) (registry : ℕ → RegistryClient) (g : Inner) :
    Except RegistryError Unit × Inner :=
  prewarmLoop L mode registry 0 g.interned g

/-- `id_for_subject`. -/
def idForSubject (g : Inner) (subject : String) : Option UInt32 := g.subjectId[subject]?

end Inner

/-! ## Serdes -/

/-- What every format serde carries: its role and its own schema. -/
structure Binding extends LocalSchema where
  role : Role
  deriving DecidableEq, Repr

namespace Binding

def subject (b : Binding) (topic : String) : String := topicNameSubject topic b.role

/-- `Binding::id`. -/
def id (b : Binding) (g : Inner) (topic : String) : Except RegistryError UInt32 :=
  match g.idForSubject (b.subject topic) with
  | some n => .ok n
  | none => .error (.schema s!"id for {b.subject topic} not resolved (run prewarm)")

/-- `Binding::register`. -/
def register (b : Binding) (g : Inner) (topic : String) : Inner :=
  g.intern ⟨b.toLocalSchema, b.subject topic⟩

end Binding

/-! ## Runs -/

/-- A call on the shared cache, with what the registry answers during it. -/
inductive CacheCall where
  | register (b : Binding) (topic : String)
  | prewarm (registry : ℕ → RegistryClient)

/-- The cache after a call. -/
def Inner.call (L : Libs) (mode : RegisterMode) (g : Inner) : CacheCall → Inner
  | .register b topic => b.register g topic
  | .prewarm registry => (g.prewarm L mode registry).2

/-- The cache after a sequence of calls. -/
def afterCalls (L : Libs) (mode : RegisterMode) (calls : List CacheCall) : Inner :=
  calls.foldl (Inner.call L mode) {}

end KrabkaRegistry.Serde
