import KrabkaRegistry.Election.Protocol
import KrabkaRegistry.Rest.Auth
import KrabkaRegistry.Rest.Authz

/-!
# The Layers Around the Router

`auth_layer`, `authz_layer`, `forward_layer` and `router_with_security`.  A request is
authenticated, authorized, and either handed to the router or, on a secondary, sent to the
primary.  A layer is a function of the request and of what runs after it, as in the source.

The evaluator of ACLs is an external library.  The audit events are left out.
-/

namespace KrabkaRegistry.Rest

open KrabkaRegistry.Election (PrimaryState)

/-! ## Requests -/

/-- A request target: the path, and what follows `?`. -/
structure Uri where
  path : String
  query : Option String
  deriving DecidableEq, Repr

def Uri.pathAndQuery (uri : Uri) : String :=
  match uri.query with
  | some query => uri.path ++ "?" ++ query
  | none => uri.path

/-- An address and a port. -/
abbrev SocketAddr := String × UInt16

/-- The extensions that the layers read and insert. -/
structure Extensions where
  /-- `MtlsPrincipal`, from the TLS connection. -/
  mtlsPrincipal : Option Principal
  /-- `ConnectInfo`, from the connection. -/
  connectInfo : Option SocketAddr
  principal : Option Principal
  authenticatedForward : Bool
  deriving DecidableEq, Repr

structure Request where
  method : Method
  uri : Uri
  headers : HeaderMap
  body : List UInt8
  extensions : Extensions
  deriving DecidableEq, Repr

/-- A request that a node sends. -/
structure Outgoing where
  method : Method
  url : String
  headers : HeaderMap
  body : List UInt8
  deriving DecidableEq, Repr

/-- What the layers do with a request. -/
inductive Outcome where
  | refuse (e : SrError)
  /-- Status 401, with the value of `WWW-Authenticate`. -/
  | unauthorized (challenge : Option String)
  | send (out : Outgoing)
  /-- The request is handed to the router. -/
  | run (req : Request)
  deriving DecidableEq, Repr

/-! ## Configuration and current state -/

/-- `SchemaRegistryAuthz`, without the snapshot of the ACLs. -/
structure SchemaRegistryAuthz where
  superUsers : List String
  enabled : Bool
  deriving DecidableEq, Repr

/-- What the authorizer allows under the current snapshot of the ACLs. -/
abbrev AclCache := Principal → SocketAddr → Target → Bool

/-- `authorize`. -/
def SchemaRegistryAuthz.authorize (az : SchemaRegistryAuthz) (cache : AclCache)
    (principal : Principal) (host : SocketAddr) (target : Target) : Bool :=
  if !az.enabled || principal.name ∈ az.superUsers then true else cache principal host target

/-- A node's `SecurityLayers`. -/
structure SecurityLayers where
  auth : AuthState
  realm : String
  authz : Option SchemaRegistryAuthz
  nodeId : String
  forwardMaxBody : ℕ
  /-- The shared credential, which authenticates forwards and is sent with them. -/
  forwardSecret : Option String

/-- What the layers read when they run. -/
structure Moment where
  primary : PrimaryState
  cache : AclCache
  nowMs : Int

/-! ## Authentication -/

/-- `FORWARD_HEADER`. -/
def forwardHeader : String := "x-forwarded-for-registry"

/-- `FORWARD_SECRET_HEADER`. -/
def forwardSecretHeader : String := "x-krabka-forward-secret"

def contentType : String := "content-type"

/-- `HeaderValue::from_str` accepts the text. -/
def isHeaderValue (text : String) : Bool :=
  text.toUTF8.toList.all fun b => 32 ≤ b && b ≠ 127 || b = 9

/-- The challenge of `unauthorized`. -/
def SecurityLayers.challenge (sec : SecurityLayers) : Option String :=
  let value := "basic realm=\"" ++ sec.realm ++ "\""
  if sec.auth.basic.isSome && isHeaderValue value then some value else none

/-- The request carries the configured forward credential. -/
def SecurityLayers.authenticatesForward (sec : SecurityLayers) (headers : HeaderMap) : Bool :=
  match headers.lookup forwardSecretHeader, sec.forwardSecret with
  | some actual, some expected => constantTimeEq expected.toUTF8.toList actual
  | _, _ => false

/-- `auth_layer`. -/
def authLayer (L : AuthLibs) (sec : SecurityLayers) (now : Moment) (req : Request)
    (next : Request → Outcome) : Outcome :=
  if (req.headers.lookup forwardHeader).isSome && sec.authenticatesForward req.headers then
    next { req with extensions :=
      { req.extensions with
        principal := some (req.extensions.principal.getD anonymous)
        authenticatedForward := true } }
  else
    match resolve L req.headers req.extensions.mtlsPrincipal sec.auth now.nowMs with
    | .authn p => next { req with extensions := { req.extensions with principal := some p } }
    | .unauthorized => .unauthorized sec.challenge

/-! ## Authorization -/

/-- `authz_layer`. -/
def authzLayer (az : SchemaRegistryAuthz) (now : Moment) (req : Request)
    (next : Request → Outcome) : Outcome :=
  if req.extensions.authenticatedForward then next req
  else
    match authzTarget req.method req.uri.path with
    | none => next req
    | some target =>
      let principal := req.extensions.principal.getD anonymous
      let allowed := req.extensions.connectInfo.any fun host =>
        az.authorize now.cache principal host target
      if allowed then next req else .refuse .forbidden

/-! ## Forwarding -/

/-- The methods that change something. -/
def Method.mutating : Method → Bool
  | .post | .put | .delete | .patch => true
  | _ => false

namespace Forward

inductive Decision where
  | passThrough
  | forward (url : String)
  | unavailable
  | retriable
  deriving DecidableEq, Repr

/-- `decide`. -/
def decide (method : Method) (alreadyForwarded : Bool) (state : PrimaryState) : Decision :=
  if !method.mutating then .passThrough
  else if state.isPrimary then .passThrough
  else if alreadyForwarded then .retriable
  else
    match state.primaryUrl with
    | some url => .forward url
    | none => .unavailable

end Forward

/-- The headers of a proxied request: of the caller's own, only the content type. -/
def SecurityLayers.proxyHeaders (sec : SecurityLayers) (headers : HeaderMap) : HeaderMap :=
  (headers.lookup contentType).toList.map (contentType, ·) ++
    [(forwardHeader, sec.nodeId.toUTF8.toList)] ++
    sec.forwardSecret.toList.map fun secret => (forwardSecretHeader, secret.toUTF8.toList)

/-- `proxy`, up to the answer. -/
def SecurityLayers.proxy (sec : SecurityLayers) (primaryUrl : String) (req : Request) : Outcome :=
  if req.body.length ≤ sec.forwardMaxBody then
    .send ⟨req.method, primaryUrl ++ req.uri.pathAndQuery, sec.proxyHeaders req.headers, req.body⟩
  else .refuse (.invalidRequest "body read failed")

/-- `forward_layer`. -/
def forwardLayer (sec : SecurityLayers) (now : Moment) (req : Request)
    (next : Request → Outcome) : Outcome :=
  match Forward.decide req.method (req.headers.lookup forwardHeader).isSome now.primary with
  | .passThrough => next req
  | .unavailable => .refuse (.unknownLeader "no primary elected")
  | .retriable => .refuse (.unknownLeader "not primary; retry")
  | .forward primaryUrl => sec.proxy primaryUrl req

/-- `router_with_security`: authentication runs first, and the layer for ACLs is there only when
they are configured. -/
def routerWithSecurity (L : AuthLibs) (sec : SecurityLayers) (now : Moment) (req : Request) :
    Outcome :=
  authLayer L sec now req fun req =>
    match sec.authz with
    | some az => authzLayer az now req fun req => forwardLayer sec now req .run
    | none => forwardLayer sec now req .run

end KrabkaRegistry.Rest
