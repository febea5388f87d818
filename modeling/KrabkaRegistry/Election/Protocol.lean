import Mathlib
import KrabkaRegistry.Kafkastore.Codec

/-!
# The Election of the Primary

`election/protocol.rs` and the join, sync and publish steps of `election/client.rs`.  The
members of the `"sr"` group join with an identity, the leader of the group selects a master
among them and sends one assignment to all, and each node decides from that assignment whether
it is the primary.

The group coordinator is a broker: it hands the member list to the leader and each member the
bytes that the leader listed for it.
-/

namespace KrabkaRegistry.Election

open KrabkaRegistry.Format.Json
open KrabkaRegistry.Kafkastore.Codec

/-! ## Wire types -/

/-- `SR_VERSION`. -/
def srVersion : Int32 := 1

/-- A node's identity, which is the metadata it joins with. -/
structure SchemaRegistryIdentity where
  host : String
  port : Int32
  masterEligibility : Bool
  scheme : String
  version : Int32
  deriving DecidableEq, Repr

/-- The advertised base URL, the sort key of the selection. -/
def SchemaRegistryIdentity.url (i : SchemaRegistryIdentity) : String :=
  i.scheme ++ "://" ++ i.host ++ ":" ++ toString i.port.toInt

/-- What the leader sends to every member.  `master` is a member id. -/
structure SchemaRegistryGroupAssignment where
  error : Int32
  master : Option String
  masterIdentity : Option SchemaRegistryIdentity
  version : Int32
  deriving DecidableEq, Repr

/-- The derived `Default`. -/
def SchemaRegistryGroupAssignment.default : SchemaRegistryGroupAssignment := ⟨0, none, none, 0⟩

/-- Who the primary is, from one node's point of view. -/
structure PrimaryState where
  isPrimary : Bool
  primaryUrl : Option String
  generationId : Option Int32
  memberId : Option String
  deriving DecidableEq, Repr

/-! ## JSON, as derived -/

def SchemaRegistryIdentity.serialize (i : SchemaRegistryIdentity) : Value :=
  .object [("host", .string i.host), ("port", intValue i.port.toInt),
    ("master_eligibility", .bool i.masterEligibility), ("scheme", .string i.scheme),
    ("version", intValue i.version.toInt)]

/-- An `i32` field. -/
def readInt32 (v : Value) : Option Int32 := (readI32 v).map Int32.ofInt

def SchemaRegistryIdentity.deserialize (v : Value) : Option SchemaRegistryIdentity := do
  let ms ← structMembers ["host", "port", "master_eligibility", "scheme", "version"] v
  return ⟨← required ms "host" readStr, ← required ms "port" readInt32,
    ← required ms "master_eligibility" readBool, ← required ms "scheme" readStr,
    ← required ms "version" readInt32⟩

/-- `None` is written as a null. -/
def nullableIdentity : Option SchemaRegistryIdentity → Value
  | some i => i.serialize
  | none => .null

def SchemaRegistryGroupAssignment.serialize (a : SchemaRegistryGroupAssignment) : Value :=
  .object [("error", intValue a.error.toInt), ("master", nullable a.master),
    ("master_identity", nullableIdentity a.masterIdentity), ("version", intValue a.version.toInt)]

def SchemaRegistryGroupAssignment.deserialize (v : Value) :
    Option SchemaRegistryGroupAssignment := do
  let ms ← structMembers ["error", "master", "master_identity", "version"] v
  return ⟨← required ms "error" readInt32, ← defaulted ms "master" none (readOption readStr),
    ← defaulted ms "master_identity" none (readOption SchemaRegistryIdentity.deserialize),
    ← required ms "version" readInt32⟩

/-! ## Selection -/

/-- `select_master`: the first of the eligible members whose URL is least. -/
def selectMaster (members : List (String × SchemaRegistryIdentity)) :
    Option (String × SchemaRegistryIdentity) :=
  (members.filter fun m => m.2.masterEligibility).argmin fun m => m.2.url

/-! ## Joining and publishing -/

/-- A member as the coordinator lists it for the leader. -/
structure JoinGroupResponseMember where
  memberId : String
  metadata : ByteArray
  deriving DecidableEq

structure JoinGroupResponse where
  generationId : Int32
  leader : String
  memberId : String
  members : List JoinGroupResponseMember

structure SyncGroupRequestAssignment where
  memberId : String
  assignment : ByteArray
  deriving DecidableEq

/-- The node's end of the group membership. -/
structure ElectionClient where
  identity : SchemaRegistryIdentity
  deriving DecidableEq, Repr

section Client

variable (J : SerdeJson) (fromSlice : ByteArray → Option Value)

/-- The identities of the members whose metadata decode. -/
def identities (members : List JoinGroupResponseMember) : List (String × SchemaRegistryIdentity) :=
  members.filterMap fun m =>
    ((fromSlice m.metadata).bind SchemaRegistryIdentity.deserialize).map fun i => (m.memberId, i)

/-- The assignment that the leader builds. -/
def groupAssignment (members : List JoinGroupResponseMember) : SchemaRegistryGroupAssignment :=
  let master := selectMaster (identities fromSlice members)
  ⟨0, master.map (·.1), master.map (·.2), srVersion⟩

/-- The metadata of `join_and_sync`. -/
def ElectionClient.metadata (client : ElectionClient) : ByteArray :=
  toVec J client.identity.serialize

/-- The assignments of `join_and_sync`: the leader's are the same for every member, and the
others send none. -/
def assignments (jg : JoinGroupResponse) : List SyncGroupRequestAssignment :=
  if jg.leader = jg.memberId then
    let assign := toVec J (groupAssignment fromSlice jg.members).serialize
    jg.members.map fun m => ⟨m.memberId, assign⟩
  else []

/-- `publish`.  Bytes that are no assignment count as the default one. -/
def ElectionClient.publish (client : ElectionClient) (assignment : ByteArray)
    (generationId : Int32) (memberId : String) : PrimaryState :=
  let parsed := ((fromSlice assignment).bind SchemaRegistryGroupAssignment.deserialize).getD
    .default
  let isPrimary : Bool := parsed.masterIdentity = some client.identity
  ⟨isPrimary, parsed.masterIdentity.map SchemaRegistryIdentity.url,
    if isPrimary then some generationId else none, if isPrimary then some memberId else none⟩

end Client

/-! ## One generation of the group -/

/-- What runs behind a member id: a node of this registry, or some other member of the group
with metadata of its own. -/
inductive Process where
  | registry (client : ElectionClient)
  | other (metadata : ByteArray)
  deriving DecidableEq

structure Participant where
  memberId : String
  process : Process
  deriving DecidableEq

/-- The bytes that a participant joins with. -/
def Participant.metadata (J : SerdeJson) (p : Participant) : ByteArray :=
  match p.process with
  | .registry client => client.metadata J
  | .other metadata => metadata

def Participant.member (J : SerdeJson) (p : Participant) : JoinGroupResponseMember :=
  ⟨p.memberId, p.metadata J⟩

/-- A generation: the coordinator gives every member its own id, and one of the nodes leads. -/
structure Generation where
  generationId : Int32
  members : List Participant
  leader : String
  distinct : (members.map Participant.memberId).Nodup
  leads : ∃ client, ⟨leader, .registry client⟩ ∈ members

namespace Generation

variable (J : SerdeJson) (fromSlice : ByteArray → Option Value) (g : Generation)

/-- The members as the leader sees them. -/
def listed : List JoinGroupResponseMember := g.members.map (Participant.member J)

/-- The coordinator's answer to a join: only the leader is told the members. -/
def joined (memberId : String) : JoinGroupResponse :=
  ⟨g.generationId, g.leader, memberId, if memberId = g.leader then g.listed J else []⟩

/-- The coordinator's answer to a sync: what the leader listed for this member. -/
def synced (memberId : String) : ByteArray :=
  (((assignments J fromSlice (g.joined J g.leader)).find? fun a => a.memberId = memberId).map
    (·.assignment)).getD ByteArray.empty

/-- The assignment of the generation. -/
def assignment : SchemaRegistryGroupAssignment := groupAssignment fromSlice (g.listed J)

/-- What the node behind a member id publishes. -/
def published (memberId : String) (client : ElectionClient) : PrimaryState :=
  client.publish fromSlice (g.synced J fromSlice memberId) g.generationId memberId

end Generation

end KrabkaRegistry.Election
