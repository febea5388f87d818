import KrabkaRegistry.Rest.Router

/-!
# Authorization Targets

`authz_target` of `authz.rs`: the resource and the operation that a request is authorized
against, from its method and path alone.  A request without a target is let through.
-/

namespace KrabkaRegistry.Rest

open KrabkaRegistry.Library.PercentCoding

/-- The resource types that requests are authorized against. -/
inductive ResourceType where
  | topic
  | cluster
  deriving DecidableEq, Repr

/-- The operations that requests are authorized for. -/
inductive AclOperation where
  | read
  | write
  | delete
  | alter
  | describe
  deriving DecidableEq, Repr

abbrev Target := ResourceType × String × AclOperation

/-- `KAFKA_CLUSTER`. -/
def kafkaCluster : String := "kafka-cluster"

/-- The topic named by a subject segment. -/
def topicTarget (segment : String) (op : AclOperation) : Option Target :=
  some (.topic, decodeUtf8Lossy (percentDecode segment.toList), op)

def clusterTarget (op : AclOperation) : Option Target := some (.cluster, kafkaCluster, op)

/-- `authz_target`. -/
def authzTarget (method : Method) (path : String) : Option Target :=
  match (splitPath path).filter (· ≠ "") with
  | ["subjects"] | ["schemas", "types"] =>
    if method = .get then clusterTarget .describe else none
  | ["subjects", subject] =>
    match method with
    | .post => topicTarget subject .read
    | .delete => topicTarget subject .delete
    | _ => none
  | ["subjects", subject, "versions"] =>
    match method with
    | .get => topicTarget subject .read
    | .post => topicTarget subject .write
    | _ => none
  | ["subjects", subject, "versions", _] =>
    match method with
    | .get => topicTarget subject .read
    | .delete => topicTarget subject .delete
    | _ => none
  | ["subjects", subject, "versions", _, "schema"]
  | ["subjects", subject, "versions", _, "referencedby"] =>
    if method = .get then topicTarget subject .read else none
  | ["config"] | ["mode"] =>
    match method with
    | .put => clusterTarget .alter
    | .get => clusterTarget .describe
    | _ => none
  | ["config", subject] | ["mode", subject] =>
    match method with
    | .put | .delete => topicTarget subject .alter
    | .get => topicTarget subject .describe
    | _ => none
  | ["compatibility", "subjects", subject, "versions", _] =>
    if method = .post then topicTarget subject .read else none
  | ["schemas", "import"] => if method = .post then clusterTarget .write else none
  | ["schemas", "ids", _] | ["schemas"] | ["schemas", "ids", _, "versions"]
  | ["schemas", "ids", _, "schema"] | ["schemas", "ids", _, "subjects"] =>
    if method = .get then clusterTarget .read else none
  | _ => none

end KrabkaRegistry.Rest
