import KrabkaRegistry.Rest.Journey

/-!
# Writes Across Nodes

A secondary sends a mutating request to the primary, which takes the secret of the other node for
its authorization.

- `forwarded_once`: a request is sent on at most once, marked and without the caller's
  credentials, and what mutates is handed to the router only where the node takes itself for the
  primary.
- `handled_authorized`: what is handed to the router was authenticated, and authorized for what
  its handler does, at one of the nodes it visited, if its path has no dot segments.
- `dot_segments_escape`: with dot segments, any mutating request is handled at the primary
  although no node asked its ACLs.
-/

namespace KrabkaRegistry.Guarantees

open KrabkaRegistry.Library.PercentCoding
open KrabkaRegistry.Library.UrlPath
open KrabkaRegistry.Rest
open KrabkaRegistry.Kafkastore (Op)

/-! ## The forward credential -/

private theorem foldl_or_eq_zero {α : Type} (f : α → ℕ) (l : List α) (start : ℕ) :
    l.foldl (fun diff x => diff ||| f x) start = 0 ↔ start = 0 ∧ ∀ x ∈ l, f x = 0 := by
  induction l generalizing start with
  | nil => simp
  | cons x l ih =>
    rw [List.foldl_cons, ih, Nat.or_eq_zero_iff, List.forall_mem_cons, and_assoc]

/-- The comparison in constant time is equality. -/
theorem constantTimeEq_iff {a b : List UInt8} : constantTimeEq a b = true ↔ a = b := by
  unfold constantTimeEq
  rw [decide_eq_true_iff, foldl_or_eq_zero, Nat.xor_eq_zero_iff]
  have hbyte : ∀ i (hi : i < a.length) (hi' : i < b.length),
      (a[i] ^^^ b[i]?.getD 0).toNat = 0 ↔ a[i] = b[i] := by
    intro i hi hi'
    rw [List.getElem?_eq_getElem hi', Option.getD_some, ← UInt8.toNat_zero, UInt8.toNat_inj,
      UInt8.xor_eq_zero_iff]
  constructor
  · rintro ⟨hlength, hbytes⟩
    refine List.ext_getElem hlength fun i hi hi' => ?_
    apply (hbyte i hi hi').mp
    exact hbytes (a[i], i) (List.mk_mem_zipIdx_iff_getElem?.mpr (List.getElem?_eq_getElem hi))
  · rintro rfl
    refine ⟨rfl, fun p hp => ?_⟩
    obtain ⟨hi, hp'⟩ := List.getElem?_eq_some_iff.mp (List.mem_zipIdx_iff_getElem?.mp hp)
    rw [← hp']
    exact (hbyte p.2 hi hi).mpr rfl

/-! ## What the layers check -/

variable {ι : Type} {L : AuthLibs} {net : Network ι} {sec : SecurityLayers} {now : Moment}
  {req : Request}

/-- The request carries the credential of another node. -/
def Trusted (sec : SecurityLayers) (req : Request) : Prop :=
  (req.headers.lookup forwardHeader).isSome = true ∧ sec.authenticatesForward req.headers = true

/-- The caller is the principal, and the ACLs, if there are any, allow it the target. -/
structure Allowed (L : AuthLibs) (sec : SecurityLayers) (now : Moment) (req : Request)
    (p : Principal) (target : Target) : Prop where
  authenticated : resolve L req.headers req.extensions.mtlsPrincipal sec.auth now.nowMs = .authn p
  authorized : ∀ az, sec.authz = some az → ∃ host, req.extensions.connectInfo = some host ∧
    az.authorize now.cache p host target = true

/-- What holds of a request that gets to the last layer. -/
def Admitted (L : AuthLibs) (sec : SecurityLayers) (now : Moment) (req : Request) : Prop :=
  Trusted sec req ∨
    ∃ p, resolve L req.headers req.extensions.mtlsPrincipal sec.auth now.nowMs = .authn p ∧
      ∀ target, authzTarget req.method req.uri.path = some target → Allowed L sec now req p target

/-- What the authorization layer does after the authentication layer. -/
theorem authzLayer_cases {az : SchemaRegistryAuthz} {next : Request → Outcome} :
    authzLayer az now req next = .refuse .forbidden ∨
    authzLayer az now req next = next req ∧ (req.extensions.authenticatedForward = true ∨
      ∀ target, authzTarget req.method req.uri.path = some target →
        ∃ host, req.extensions.connectInfo = some host ∧
          az.authorize now.cache (req.extensions.principal.getD anonymous) host target = true) := by
  unfold authzLayer
  split
  · rename_i hforward
    exact .inr ⟨rfl, .inl hforward⟩
  · cases htarget : authzTarget req.method req.uri.path with
    | none => exact .inr ⟨rfl, .inr nofun⟩
    | some target =>
      simp only []
      split
      · rename_i hallowed
        refine .inr ⟨rfl, .inr fun t ht => ?_⟩
        obtain rfl : target = t := Option.some.inj ht
        exact Option.any_eq_true _ _ |>.mp hallowed
      · exact .inl rfl

/-- A request is refused, or it comes to the last layer with other extensions. It comes there
admitted: forwarded by a node that knows the secret, or as a principal that the ACLs let through. -/
theorem routerWithSecurity_cases (L : AuthLibs) (sec : SecurityLayers) (now : Moment)
    (hfresh : req.Fresh) :
    (∃ e, routerWithSecurity L sec now req = .refuse e) ∨
    (∃ challenge, routerWithSecurity L sec now req = .unauthorized challenge) ∨
    Admitted L sec now req ∧ ∃ extensions, routerWithSecurity L sec now req =
      forwardLayer sec now { req with extensions := extensions } .run := by
  unfold routerWithSecurity authLayer
  -- A request forwarded by a node that knows the secret skips the authentication.
  split
  · rename_i htrusted
    rw [Bool.and_eq_true] at htrusted
    have hadmitted : Admitted L sec now req := .inl htrusted
    cases sec.authz with
    | none => exact .inr (.inr ⟨hadmitted, _, rfl⟩)
    | some az =>
      rcases authzLayer_cases with hrefused | ⟨hnext, _⟩
      · exact .inl ⟨_, hrefused⟩
      · exact .inr (.inr ⟨hadmitted, _, hnext⟩)
  · cases hresolve : resolve L req.headers req.extensions.mtlsPrincipal sec.auth now.nowMs with
    | unauthorized => exact .inr (.inl ⟨_, rfl⟩)
    | authn p =>
      have hauthn : ∀ target, (∀ az, sec.authz = some az → ∃ host,
          req.extensions.connectInfo = some host ∧
            az.authorize now.cache p host target = true) → Allowed L sec now req p target :=
        fun target h => ⟨hresolve, h⟩
      cases hauthz : sec.authz with
      | none =>
        refine .inr (.inr ⟨.inr ⟨p, hresolve, fun target _ => hauthn target ?_⟩, _, rfl⟩)
        rw [hauthz]
        exact nofun
      | some az =>
        rcases authzLayer_cases with hrefused | ⟨hnext, hforward | htarget⟩
        · exact .inl ⟨_, hrefused⟩
        -- The only way past an ACL without asking it is the mark of a forwarded request.
        · rw [hfresh.forward] at hforward
          cases hforward
        · refine .inr (.inr ⟨.inr ⟨p, hresolve, fun target ht => hauthn target ?_⟩, _, hnext⟩)
          rintro az' haz
          obtain rfl := Option.some.inj (hauthz.symm.trans haz)
          exact htarget target ht

/-- What the last layer sends. -/
structure Proxied (sec : SecurityLayers) (now : Moment) (req : Request) (out : Outgoing) :
    Prop where
  mutating : req.method.mutating = true
  secondary : now.primary.isPrimary = false
  direct : req.headers.lookup forwardHeader = none
  sent : ∃ url, now.primary.primaryUrl = some url ∧
    out = ⟨req.method, url ++ req.uri.pathAndQuery, sec.proxyHeaders req.headers, req.body⟩

/-- The last layer refuses a request, sends it, or hands it to the router, which it does with what
mutates on the primary alone. -/
theorem forwardLayer_cases (sec : SecurityLayers) (now : Moment) (req : Request) :
    (∃ e, forwardLayer sec now req .run = .refuse e) ∨
    (∃ out, forwardLayer sec now req .run = .send out ∧ Proxied sec now req out) ∨
    forwardLayer sec now req .run = .run req ∧
      (req.method.mutating = true → now.primary.isPrimary = true) := by
  unfold forwardLayer Forward.decide
  -- In the order of the layer: what mutates, on the primary, already forwarded, with a primary
  -- known.
  by_cases hmutating : req.method.mutating = true
  · cases hprimary : now.primary.isPrimary with
    | true => simp [hmutating]
    | false =>
      cases hheader : req.headers.lookup forwardHeader with
      | some value => simp [hmutating]
      | none =>
        cases hurl : now.primary.primaryUrl with
        | none => simp [hmutating]
        | some url =>
          simp only [hmutating, Bool.not_true, Bool.false_eq_true, if_false, Option.isSome_none,
            SecurityLayers.proxy]
          by_cases hbody : req.body.length ≤ sec.forwardMaxBody
          · rw [if_pos hbody]
            exact .inr (.inl ⟨_, rfl, hmutating, hprimary, hheader, url, hurl, rfl⟩)
          · rw [if_neg hbody]
            exact .inl ⟨_, rfl⟩
  · exact .inr (.inr (by simp [hmutating]))

/-- What a node sends, it sends for a request that was admitted. -/
theorem proxied_of_send {out : Outgoing} (hfresh : req.Fresh)
    (h : routerWithSecurity L sec now req = .send out) :
    Admitted L sec now req ∧ Proxied sec now req out := by
  rcases routerWithSecurity_cases L sec now hfresh with ⟨e, he⟩ | ⟨c, hc⟩ | ⟨hadmitted, ext, hext⟩
  · cases he.symm.trans h
  · cases hc.symm.trans h
  · rcases forwardLayer_cases sec now { req with extensions := ext } with
      ⟨e, he⟩ | ⟨out', hsend, hproxied⟩ | ⟨hrun, _⟩
    · cases (hext.trans he).symm.trans h
    · obtain rfl := Outcome.send.inj ((hext.trans hsend).symm.trans h)
      exact ⟨hadmitted, hproxied.mutating, hproxied.secondary, hproxied.direct, hproxied.sent⟩
    · cases (hext.trans hrun).symm.trans h

/-- What a node hands to its router was admitted, with the same method and target. -/
theorem admitted_of_run {r : Request} (hfresh : req.Fresh)
    (h : routerWithSecurity L sec now req = .run r) :
    Admitted L sec now req ∧ (∃ extensions, r = { req with extensions := extensions }) ∧
      (req.method.mutating = true → now.primary.isPrimary = true) := by
  rcases routerWithSecurity_cases L sec now hfresh with ⟨e, he⟩ | ⟨c, hc⟩ | ⟨hadmitted, ext, hext⟩
  · cases he.symm.trans h
  · cases hc.symm.trans h
  · rcases forwardLayer_cases sec now { req with extensions := ext } with
      ⟨e, he⟩ | ⟨out', hsend, _⟩ | ⟨hrun, hprimary⟩
    · cases (hext.trans he).symm.trans h
    · cases (hext.trans hsend).symm.trans h
    · obtain rfl := Outcome.run.inj ((hext.trans hrun).symm.trans h)
      exact ⟨hadmitted, ⟨ext, rfl⟩, hprimary⟩

/-! ## Journeys -/

@[simp] theorem lookup_forwardHeader_proxyHeaders (sec : SecurityLayers) (headers : HeaderMap) :
    (sec.proxyHeaders headers).lookup forwardHeader = some sec.nodeId.toUTF8.toList := by
  unfold SecurityLayers.proxyHeaders
  cases headers.lookup contentType <;> rfl

@[simp] theorem lookup_contentType_proxyHeaders (sec : SecurityLayers) (headers : HeaderMap) :
    (sec.proxyHeaders headers).lookup contentType = headers.lookup contentType := by
  unfold SecurityLayers.proxyHeaders
  cases headers.lookup contentType with
  | some value => rfl
  | none => cases sec.forwardSecret <;> rfl

/-- The credentials of the caller stay with the node that read them. -/
@[simp] theorem lookup_authorization_proxyHeaders (sec : SecurityLayers) (headers : HeaderMap) :
    (sec.proxyHeaders headers).lookup "authorization" = none := by
  unfold SecurityLayers.proxyHeaders
  cases headers.lookup contentType <;> cases sec.forwardSecret <;> rfl

@[simp] theorem lookup_secret_proxyHeaders (sec : SecurityLayers) (headers : HeaderMap) :
    (sec.proxyHeaders headers).lookup forwardSecretHeader =
      sec.forwardSecret.map (·.toUTF8.toList) := by
  unfold SecurityLayers.proxyHeaders
  cases headers.lookup contentType <;> cases sec.forwardSecret <;> rfl

theorem fresh_of_journey {v : Visit ι} {vs : List (Visit ι)} (h : Journey L net (v :: vs)) :
    v.request.Fresh := by
  cases h with
  | arrives _ hfresh => exact hfresh
  | forwarded _ _ _ _ _ hfresh => exact hfresh

/-- How the latest visit came about: the client sent the request, or one other node did, which
had it from the client. -/
structure SentBy (L : AuthLibs) (net : Network ι) (w v : Visit ι) : Prop where
  fresh : w.request.Fresh
  admitted : Admitted L (net.layers w.node) w.now w.request
  sent : ∃ out uri, w.outcome L net = .send out ∧
    Proxied (net.layers w.node) w.now w.request out ∧
    net.deliver out.url = some (v.node, uri) ∧ v.request = out.received uri v.request.extensions

theorem sentBy_of_journey {v : Visit ι} {vs : List (Visit ι)} (h : Journey L net (v :: vs)) :
    vs = [] ∨ ∃ w, vs = [w] ∧ SentBy L net w v := by
  cases h with
  | arrives _ _ => exact .inl rfl
  | @forwarded w ws out i uri now ext hw hsend hdeliver _ =>
    have hfresh := fresh_of_journey hw
    obtain ⟨hadmitted, hproxied⟩ := proxied_of_send hfresh hsend
    refine .inr ⟨w, ?_, hfresh, hadmitted, out, uri, hsend, hproxied, hdeliver, rfl⟩
    -- A request that another node sent carries the header, and is not sent again.
    cases hw with
    | arrives _ _ => rfl
    | @forwarded w' ws' out' i' uri' now' ext' hw' hsend' _ _ =>
      obtain ⟨_, url, _, rfl⟩ := (proxied_of_send (fresh_of_journey hw') hsend').2.sent
      have hnone : (SecurityLayers.proxyHeaders _ _).lookup forwardHeader = none := hproxied.direct
      rw [lookup_forwardHeader_proxyHeaders] at hnone
      cases hnone

/-! ## A sample -/

/-- No external library. -/
def noLibs : AuthLibs := ⟨fun _ _ => none, fun _ => none⟩

/-- Two nodes that share a secret and check ACLs. -/
def sampleNodes : Network Bool :=
  twoNodes fun i => ⟨⟨none, none, false⟩, "SchemaRegistry-Props", some ⟨[], true⟩,
    if i then "http://a:8081" else "http://b:8081", 1024, some "shared-secret"⟩

/-- The first node is the primary, and ACLs allow what `cache` does. -/
def sampleNow (isPrimary : Bool) (cache : AclCache) : Moment :=
  ⟨⟨isPrimary, some "http://a:8081", none, none⟩, cache, 0⟩

def sampleConnection : Extensions := ⟨none, some ("10.0.0.1", 1234), none, false⟩

/-- The client deletes `orders`, at the secondary. -/
def sampleRequest : Visit Bool :=
  ⟨false, sampleNow false fun _ _ _ => true,
    ⟨.delete, ⟨"/subjects/orders", none⟩, [("content-type", [106])], [], sampleConnection⟩⟩

/-- The request as the primary gets it. -/
def sampleForwarded : Visit Bool :=
  ⟨true, sampleNow true fun _ _ _ => false,
    ⟨.delete, ⟨"/subjects/orders", none⟩,
      [("content-type", [106]), (forwardHeader, "http://b:8081".toUTF8.toList),
        (forwardSecretHeader, "shared-secret".toUTF8.toList)], [], sampleConnection⟩⟩

theorem sample_journey : Journey noLibs sampleNodes [sampleForwarded, sampleRequest] := by
  have hsend : sampleRequest.outcome noLibs sampleNodes = .send ⟨.delete,
      "http://a:8081/subjects/orders", sampleForwarded.request.headers, []⟩ := by decide +kernel
  have hdeliver : sampleNodes.deliver "http://a:8081/subjects/orders" =
      some (true, ⟨"/subjects/orders", none⟩) := by decide +kernel
  exact .forwarded _ sampleConnection (.arrives _ ⟨rfl, rfl⟩) hsend hdeliver ⟨rfl, rfl⟩

/-! ## At most one node further -/

/-- How a request got from the node that the client called, at the visit `w`, to the node of `v`. -/
structure SentOn (L : AuthLibs) (net : Network ι) (w v : Visit ι) : Prop where
  mutating : w.request.method.mutating = true
  secondary : w.now.primary.isPrimary = false
  direct : w.request.headers.lookup forwardHeader = none
  /-- It goes to the URL that the first node has for the primary, with path and query as the
  client wrote them. -/
  sent : ∃ url, w.now.primary.primaryUrl = some url ∧
    w.outcome L net = .send ⟨w.request.method, url ++ w.request.uri.pathAndQuery,
      (net.layers w.node).proxyHeaders w.request.headers, w.request.body⟩
  method : v.request.method = w.request.method
  body : v.request.body = w.request.body
  contentType : v.request.headers.lookup contentType = w.request.headers.lookup contentType
  /-- The caller's credentials stay behind. -/
  noCredentials : v.request.headers.lookup "authorization" = none
  /-- The mark names the node that sent the request. -/
  marked : v.request.headers.lookup forwardHeader =
    some (net.layers w.node).nodeId.toUTF8.toList
  /-- Where that URL is a node's, the node gets the path and the query as a URL parser keeps
  them. -/
  arrived : ∀ i, w.now.primary.primaryUrl = some (net.url i) → w.request.uri.OriginForm →
    v.node = i ∧ v.request.uri =
      ⟨parsePath net.encodeSet w.request.uri.path, w.request.uri.query.map net.query⟩

/-- **Forwarding.**  A request travels at most once, from a secondary to the node it takes for the
primary, as `SentOn` says.  What mutates is handed to the router only by a node that takes itself
for the primary. -/
theorem forwarded_once {v : Visit ι} {vs : List (Visit ι)} (h : Journey L net (v :: vs)) :
    (vs = [] ∨ ∃ w, vs = [w] ∧ SentOn L net w v) ∧
    ∀ req, v.outcome L net = .run req → v.request.method.mutating = true →
      v.now.primary.isPrimary = true := by
  constructor
  · rcases sentBy_of_journey h with hnil | ⟨w, hw, hsent⟩
    · exact .inl hnil
    · obtain ⟨out, uri, houtcome, hproxied, hdeliver, hreceived⟩ := hsent.sent
      obtain ⟨url, hurl, rfl⟩ := hproxied.sent
      refine .inr ⟨w, hw, ?_⟩
      exact
        { mutating := hproxied.mutating
          secondary := hproxied.secondary
          direct := hproxied.direct
          sent := ⟨url, hurl, houtcome⟩
          method := by rw [hreceived]; rfl
          body := by rw [hreceived]; rfl
          contentType := by
            rw [hreceived]
            exact lookup_contentType_proxyHeaders _ _
          noCredentials := by
            rw [hreceived]
            exact lookup_authorization_proxyHeaders _ _
          marked := by
            rw [hreceived]
            exact lookup_forwardHeader_proxyHeaders _ _
          arrived := by
            intro i hi horigin
            -- The URL that was sent to is the one that the network delivers to the node.
            obtain rfl := Option.some.inj (hurl.symm.trans hi)
            rw [net.deliver_url i _ horigin] at hdeliver
            obtain ⟨hnode, huri⟩ := Prod.mk.inj (Option.some.inj hdeliver)
            refine ⟨hnode.symm, ?_⟩
            rw [hreceived, huri]
            rfl }
  · intro req hrun
    exact (admitted_of_run (fresh_of_journey h) hrun).2.2

theorem forwarded_delete :
    ([sampleRequest] = [] ∨
      ∃ w, [sampleRequest] = [w] ∧ SentOn noLibs sampleNodes w sampleForwarded) ∧
    ∀ req, sampleForwarded.outcome noLibs sampleNodes = .run req →
      sampleForwarded.request.method.mutating = true →
      sampleForwarded.now.primary.isPrimary = true :=
  forwarded_once sample_journey

/-! ## Authorization on the way -/

/-- The secret of no node came with the request. -/
def SecretUnknown (net : Network ι) (req : Request) : Prop :=
  ∀ i secret, (net.layers i).forwardSecret = some secret →
    req.headers.lookup forwardSecretHeader ≠ some secret.toUTF8.toList

theorem SecretUnknown.not_trusted (h : SecretUnknown net req) (i : ι) :
    ¬ Trusted (net.layers i) req := by
  rintro ⟨_, htrusted⟩
  unfold SecurityLayers.authenticatesForward at htrusted
  split at htrusted
  · rename_i actual expected hactual hexpected
    rw [constantTimeEq_iff] at htrusted
    exact h i expected hexpected (htrusted ▸ hactual)
  · cases htrusted

/-- What a node checks itself is what the handler of the request stands for. -/
theorem allowed_of_admitted {h : Handler} {params : List (String × String)}
    (hadmitted : Admitted L sec now req) (htrusted : ¬ Trusted sec req)
    (hd : dispatch req.method req.uri.path = some (h, params)) (hhead : req.method ≠ .head)
    (hroot : h ≠ .root) :
    ∃ p rt op, required h = some (rt, op) ∧
      Allowed L sec now req p (rt, resourceName params rt, op) := by
  obtain hcontra | ⟨p, _, hallowed⟩ := hadmitted
  · exact absurd hcontra htrusted
  · have htarget := authzTarget_dispatch hd hhead hroot
    obtain ⟨⟨rt, op⟩, hreq⟩ : ∃ t, required h = some t := by
      cases h <;> first | exact ⟨_, rfl⟩ | exact absurd rfl hroot
    rw [hreq, Option.map_some] at htarget
    exact ⟨p, rt, op, hreq, hallowed _ htarget⟩

/-- What is handed to a router, other than a `HEAD` request, was authenticated and allowed for
its handler at a node that it visited, whatever the nodes read on the way, if the client does not
know the secret and the path it sent has no dot segments. -/
theorem handled_authorized {v client : Visit ι} {vs : List (Visit ι)} {r : Request} {h : Handler}
    {params : List (String × String)} (hj : Journey L net (v :: vs))
    (hclient : (v :: vs).getLast? = some client) (hsecret : SecretUnknown net client.request)
    (hnamed : ∀ url, client.now.primary.primaryUrl = some url → ∃ i, url = net.url i)
    (horigin : client.request.uri.OriginForm) (hundotted : Undotted client.request.uri.path)
    (hrun : v.outcome L net = .run r) (hd : dispatch r.method r.uri.path = some (h, params))
    (hhead : r.method ≠ .head) (hroot : h ≠ .root) :
    ∃ w ∈ v :: vs, ∃ p rt op, required h = some (rt, op) ∧
      Allowed L (net.layers w.node) w.now w.request p (rt, resourceName params rt, op) ∧
      ∀ o, h.MayRun (pathParam params "subject") o → (op = .write ∨ op = .delete ∨ op = .alter) ∧
        (rt = .topic → o.subject? = some (resourceName params rt)) := by
  obtain ⟨hadmitted, ⟨ext, rfl⟩, _⟩ := admitted_of_run (fresh_of_journey hj) hrun
  -- What the handler can do follows from the resource and the operation it stands for.
  have hops : ∀ rt op, required h = some (rt, op) → ∀ o,
      h.MayRun (pathParam params "subject") o → (op = .write ∨ op = .delete ∨ op = .alter) ∧
        (rt = .topic → o.subject? = some (resourceName params rt)) := by
    intro rt op hreq o hmay
    obtain ⟨rt', op', hreq', hop, hsubject⟩ := required_of_mayRun hmay
    obtain ⟨rfl, rfl⟩ := Prod.mk.inj (Option.some.inj (hreq'.symm.trans hreq))
    refine ⟨hop, ?_⟩
    rintro rfl
    obtain ⟨s, hs, ho⟩ := hsubject rfl
    rw [ho, resourceName_topic hs]
  by_cases htrusted : Trusted (net.layers v.node) v.request
  · rcases sentBy_of_journey hj with rfl | ⟨w, rfl, hsent⟩
    · obtain rfl : v = client := Option.some.inj hclient
      exact absurd htrusted (hsecret.not_trusted v.node)
    · obtain rfl : w = client := Option.some.inj hclient
      obtain ⟨out, uri, -, hproxied, hdeliver, hreceived⟩ := hsent.sent
      obtain ⟨url, hurl, rfl⟩ := hproxied.sent
      obtain ⟨i, rfl⟩ := hnamed url hurl
      rw [net.deliver_url i _ horigin] at hdeliver
      obtain ⟨_, rfl⟩ := Prod.mk.inj (Option.some.inj hdeliver)
      -- The node that sent the request served the same path, not yet parsed.
      have hpath : dispatch w.request.method (parsePath net.encodeSet w.request.uri.path) =
          some (h, params) := by
        rw [hreceived] at hd
        exact hd
      have hmethod : w.request.method ≠ .head := by
        rw [hreceived] at hhead
        exact hhead
      rw [dispatch_parsePath _ _ hundotted] at hpath
      obtain ⟨⟨h', params'⟩, hserved, heq⟩ := Option.map_eq_some_iff.mp hpath
      obtain ⟨rfl, rfl⟩ := Prod.mk.inj heq
      obtain ⟨p, rt, op, hreq, hallowed⟩ := allowed_of_admitted hsent.admitted
        (hsecret.not_trusted w.node) hserved hmethod hroot
      refine ⟨w, by simp, p, rt, op, hreq, ?_, hops rt op hreq⟩
      rw [resourceName_encodeParams]
      exact hallowed
  · obtain ⟨p, rt, op, hreq, hallowed⟩ := allowed_of_admitted hadmitted htrusted hd hhead hroot
    exact ⟨v, by simp, p, rt, op, hreq, hallowed, hops rt op hreq⟩

theorem undotted_subjects_orders : Undotted "/subjects/orders" := by
  refine ⟨by decide +kernel, by decide +kernel, by decide +kernel⟩

theorem originForm_subjects_orders : Uri.OriginForm ⟨"/subjects/orders", none⟩ :=
  ⟨by decide +kernel, by simp⟩

/-- The primary deletes what the secondary allowed, although its own ACLs would not. -/
theorem delete_authorized :
    ∃ w ∈ [sampleForwarded, sampleRequest], ∃ p rt op,
      required .deleteSubject = some (rt, op) ∧
      Allowed noLibs (sampleNodes.layers w.node) w.now w.request p
        (rt, resourceName [("subject", "orders")] rt, op) ∧
      ∀ o, Handler.deleteSubject.MayRun (pathParam [("subject", "orders")] "subject") o →
        (op = .write ∨ op = .delete ∨ op = .alter) ∧
        (rt = .topic → o.subject? = some (resourceName [("subject", "orders")] rt)) := by
  have hrun : sampleForwarded.outcome noLibs sampleNodes =
      .run { sampleForwarded.request with extensions :=
        { sampleConnection with principal := some anonymous, authenticatedForward := true } } := by
    decide +kernel
  refine handled_authorized sample_journey rfl ?_ ?_ originForm_subjects_orders
    undotted_subjects_orders hrun (by decide +kernel) (by decide) (by decide)
  · rintro i secret _ h
    have hnone : sampleRequest.request.headers.lookup forwardSecretHeader = none := by
      decide +kernel
    cases hnone.symm.trans h
  · rintro url h
    exact ⟨true, (Option.some.inj h).symm⟩

/-! ## Dot segments -/

/-- A path behind `/x/..` has no target. -/
theorem authzTarget_up (method : Method) {path : String} (hpath : path.toList.head? = some '/') :
    authzTarget method ("/x/.." ++ path) = none := by
  obtain ⟨rest, hrest⟩ := exists_rooted hpath
  have hlist : ("/x/.." ++ path).toList = [] ++ '/' :: (['x'] ++ '/' :: (['.', '.'] ++ '/' :: rest)) := by
    simp [hrest]
  have hsplit : splitPath ("/x/.." ++ path) =
      "" :: "x" :: ".." :: (rest.splitOn '/').map String.ofList := by
    rw [splitPath, hlist, List.splitOn_append_cons_self_of_not_mem (by simp),
      List.splitOn_append_cons_self_of_not_mem (by simp),
      List.splitOn_append_cons_self_of_not_mem (by simp)]
    rfl
  have hfilter : (splitPath ("/x/.." ++ path)).filter (· ≠ "") =
      "x" :: ".." :: ((rest.splitOn '/').map String.ofList).filter (· ≠ "") := by
    rw [hsplit]
    rfl
  unfold authzTarget
  rw [hfilter]
  rfl

/-- The ACLs are not asked about a path without a target. -/
theorem authzLayer_of_no_target {az : SchemaRegistryAuthz} {next : Request → Outcome}
    (htarget : authzTarget req.method req.uri.path = none) :
    authzLayer az now req next = next req := by
  unfold authzLayer
  rw [htarget]
  split <;> rfl

theorem forwardLayer_of_no_target (L : AuthLibs) (sec : SecurityLayers) (now : Moment)
    (req : Request) {p : Principal} (hdirect : req.headers.lookup forwardHeader = none)
    (hauthn : resolve L req.headers req.extensions.mtlsPrincipal sec.auth now.nowMs = .authn p)
    (htarget : authzTarget req.method req.uri.path = none) :
    ∃ extensions, routerWithSecurity L sec now req =
      forwardLayer sec now { req with extensions := extensions } .run := by
  unfold routerWithSecurity authLayer
  rw [hdirect, hauthn, Option.isSome_none, Bool.false_and, if_neg Bool.false_ne_true]
  refine ⟨{ req.extensions with principal := some p }, ?_⟩
  cases sec.authz with
  | none => rfl
  | some az =>
    show authzLayer az now { req with extensions := { req.extensions with principal := some p } }
      (fun req => forwardLayer sec now req .run) = _
    exact authzLayer_of_no_target htarget

/-- The primary takes a request with the secret as it is. -/
theorem forwardLayer_of_trusted (L : AuthLibs) (now : Moment) (htrusted : Trusted sec req) :
    ∃ extensions, routerWithSecurity L sec now req =
      forwardLayer sec now { req with extensions := extensions } .run := by
  unfold routerWithSecurity authLayer
  rw [if_pos (by rw [htrusted.1, htrusted.2]; rfl)]
  cases sec.authz with
  | none => exact ⟨_, rfl⟩
  | some az => exact ⟨_, rfl⟩

/-- A mutating request whose path begins with `/x/..`, of any caller that a secondary
authenticates, is handled at the primary as the request for the rest of the path, whatever the
ACLs of the two nodes are. -/
theorem dot_segments_escape {i j : ι} {secret path : String} {query : Option String}
    {before after : Moment} {h : Handler} {params : List (String × String)} {p : Principal}
    {method : Method} {headers : HeaderMap} {body : List UInt8} {extensions connection : Extensions}
    (hd : dispatch method path = some (h, params)) (hmutating : method.mutating = true)
    (horigin : Uri.OriginForm ⟨path, query⟩) (hundotted : Undotted path)
    (hshared : (net.layers i).forwardSecret = some secret ∧
      (net.layers j).forwardSecret = some secret)
    (hsecondary : before.primary.isPrimary = false ∧
      before.primary.primaryUrl = some (net.url j))
    (hprimary : after.primary.isPrimary = true)
    (hfresh : extensions.principal = none ∧ extensions.authenticatedForward = false)
    (hconnection : connection.principal = none ∧ connection.authenticatedForward = false)
    (hdirect : headers.lookup forwardHeader = none)
    (hbody : body.length ≤ (net.layers i).forwardMaxBody)
    (hauthn : resolve L headers extensions.mtlsPrincipal (net.layers i).auth before.nowMs =
      .authn p) :
    ∃ v : Visit ι,
      Journey L net [v, ⟨i, before, ⟨method, ⟨"/x/.." ++ path, query⟩, headers, body, extensions⟩⟩] ∧
      v.node = j ∧ v.now = after ∧ ∃ r params', v.outcome L net = .run r ∧ r.body = body ∧
        dispatch r.method r.uri.path = some (h, params') ∧
        ∀ name, pathParam params' name = pathParam params name := by
  have horigin' : Uri.OriginForm ⟨"/x/.." ++ path, query⟩ := by
    refine ⟨by simp, fun c hc => ?_⟩
    rw [String.toList_append, List.mem_append] at hc
    rcases hc with hc | hc
    · have hall : ∀ c ∈ ['/', 'x', '/', '.', '.'], c ≠ '?' ∧ c ≠ '#' := by simp
      exact hall c (by simpa using hc)
    · exact horigin.ended c hc
  -- The secondary finds no target, and sends the request.
  obtain ⟨ext, hext⟩ := forwardLayer_of_no_target L (net.layers i) before
    ⟨method, ⟨"/x/.." ++ path, query⟩, headers, body, extensions⟩ hdirect hauthn
    (authzTarget_up method horigin.rooted)
  have hsend : routerWithSecurity L (net.layers i) before
      ⟨method, ⟨"/x/.." ++ path, query⟩, headers, body, extensions⟩ =
      .send ⟨method, net.url j ++ Uri.pathAndQuery ⟨"/x/.." ++ path, query⟩,
        (net.layers i).proxyHeaders headers, body⟩ := by
    rw [hext]
    simp [forwardLayer, Forward.decide, hmutating, hsecondary.1, hsecondary.2, hdirect,
      SecurityLayers.proxy, hbody]
  -- The URL parser takes the segment back, so that the primary gets the rest of the path.
  let target : Uri := ⟨parsePath net.encodeSet path, query.map net.query⟩
  have hdeliver : net.deliver (net.url j ++ Uri.pathAndQuery ⟨"/x/.." ++ path, query⟩) =
      some (j, target) := by
    rw [net.deliver_url j _ horigin']
    have hup : parsePath net.encodeSet ("/" ++ "x" ++ "/.." ++ path) =
        parsePath net.encodeSet path :=
      parsePath_up net.encodeSet (by simp [isSeparator]) ⟨rfl, rfl⟩ horigin.rooted
    exact congrArg (fun p => some (j, Uri.mk p (query.map net.query))) hup
  let out : Outgoing := ⟨method, net.url j ++ Uri.pathAndQuery ⟨"/x/.." ++ path, query⟩,
    (net.layers i).proxyHeaders headers, body⟩
  have hjourney := Journey.forwarded after connection
    (.arrives ⟨i, before, ⟨method, ⟨"/x/.." ++ path, query⟩, headers, body, extensions⟩⟩
      ⟨hfresh.1, hfresh.2⟩)
    hsend hdeliver ⟨hconnection.1, hconnection.2⟩
  have htrusted : Trusted (net.layers j) (out.received target connection) := by
    constructor
    · exact Option.isSome_of_eq_some (lookup_forwardHeader_proxyHeaders _ _)
    · have hlookup : (out.received target connection).headers.lookup forwardSecretHeader =
          some secret.toUTF8.toList := by
        have hsecret := lookup_secret_proxyHeaders (net.layers i) headers
        rw [hshared.1] at hsecret
        exact hsecret
      unfold SecurityLayers.authenticatesForward
      rw [hlookup, hshared.2]
      exact constantTimeEq_iff.mpr rfl
  obtain ⟨ext', hext'⟩ := forwardLayer_of_trusted L after htrusted
  refine ⟨_, hjourney, rfl, rfl, { out.received target connection with extensions := ext' },
    encodeParams net.encodeSet params, ?_, rfl, ?_, pathParam_encodeParams _ _⟩
  · unfold Visit.outcome
    rw [hext']
    simp [forwardLayer, Forward.decide, hprimary]
  · have hserved := dispatch_parsePath net.encodeSet method hundotted
    rw [hd] at hserved
    exact hserved

/-- `orders` is deleted for a caller whom neither node allows anything. -/
theorem deleted_behind_dots : ∃ v : Visit Bool,
    Journey noLibs sampleNodes [v, ⟨false, sampleNow false fun _ _ _ => false,
      ⟨.delete, ⟨"/x/.." ++ "/subjects/orders", none⟩, [], [], sampleConnection⟩⟩] ∧
    v.node = true ∧ v.now = sampleNow true (fun _ _ _ => false) ∧ ∃ r params',
      v.outcome noLibs sampleNodes = .run r ∧ r.body = [] ∧
      dispatch r.method r.uri.path = some (.deleteSubject, params') ∧
      ∀ name, pathParam params' name = pathParam [("subject", "orders")] name :=
  have hfresh : sampleConnection.principal = none ∧
      sampleConnection.authenticatedForward = false := ⟨rfl, rfl⟩
  dot_segments_escape (by decide +kernel) rfl originForm_subjects_orders undotted_subjects_orders
    ⟨rfl, rfl⟩ ⟨rfl, rfl⟩ rfl hfresh hfresh rfl (by decide) rfl

end KrabkaRegistry.Guarantees
