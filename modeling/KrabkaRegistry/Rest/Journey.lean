import KrabkaRegistry.Guarantees.Authorization
import KrabkaRegistry.Library.UrlPath
import KrabkaRegistry.Rest.Forward

/-!
# Requests Across Nodes

A request arrives at one node, and whatever a node sends arrives at another one.  What the nodes
read meanwhile, the election and the ACLs, is free at every visit.

A URL of a node reaches that node, with the path as a URL parser keeps it: `dispatch_parsePath`
says that a path without dot segments is served as it would have been before.
-/

namespace KrabkaRegistry.Rest

open KrabkaRegistry.Guarantees
open KrabkaRegistry.Library.PercentCoding
open KrabkaRegistry.Library.UrlPath

/-! ## Paths that were parsed -/

/-- A segment as the URL parser writes it. -/
def encodeSegment (S : EncodeSet) (s : String) : String := String.ofList (S.encode s.toList)

theorem encodeSegment_eq_iff (S : EncodeSet) {s text : String}
    (htext : ∀ c ∈ text.toList, c.isAlphanum = true) : encodeSegment S s = text ↔ s = text := by
  rw [encodeSegment, ← String.toList_inj, String.toList_ofList, S.encode_eq_iff htext,
    String.toList_inj]

theorem encodeSegment_eq_empty_iff (S : EncodeSet) {s : String} :
    encodeSegment S s = "" ↔ s = "" :=
  encodeSegment_eq_iff S fun c hc => by simp at hc

@[simp] theorem decodeText_encodeSegment (S : EncodeSet) (s : String) :
    decodeText (encodeSegment S s) = decodeText s := by
  rw [decodeText, encodeSegment, String.toList_ofList, S.percentDecode_encode, decodeText]

/-- The parameters of a route with their values as the URL parser writes them. -/
def encodeParams (S : EncodeSet) (params : List (String × String)) : List (String × String) :=
  params.map fun p => (p.1, encodeSegment S p.2)

theorem lookup_encodeParams (S : EncodeSet) (params : List (String × String)) (name : String) :
    (encodeParams S params).lookup name = (params.lookup name).map (encodeSegment S) := by
  induction params with
  | nil => rfl
  | cons p params ih =>
    obtain ⟨key, value⟩ := p
    rw [encodeParams, List.map_cons, List.lookup_cons, List.lookup_cons, ← encodeParams, ih]
    cases name == key <;> rfl

@[simp] theorem pathParam_encodeParams (S : EncodeSet) (params : List (String × String))
    (name : String) : pathParam (encodeParams S params) name = pathParam params name := by
  rw [pathParam, lookup_encodeParams, pathParam]
  cases params.lookup name with
  | none => rfl
  | some raw => rw [Option.map_some, Option.bind_some, Option.bind_some, decodeText_encodeSegment]

theorem resourceName_encodeParams (S : EncodeSet) (params : List (String × String))
    (rt : ResourceType) : resourceName (encodeParams S params) rt = resourceName params rt := by
  cases rt with
  | cluster => rfl
  | topic =>
    rw [resourceName, resourceName, lookup_encodeParams]
    cases params.lookup "subject" with
    | none => rfl
    | some raw =>
      simp only [Option.map_some, Option.getD_some, encodeSegment, String.toList_ofList,
        S.percentDecode_encode]

/-- A literal of a route is made of letters. -/
def Segment.alphanum : Segment → Bool
  | .literal text => text.toList.all Char.isAlphanum
  | .param _ => true

theorem routes_alphanum : ∀ r ∈ routes, ∀ a ∈ r.pattern, a.alphanum = true := by decide

theorem matchSegments_encode (S : EncodeSet) {pattern : List Segment}
    (hpattern : ∀ a ∈ pattern, a.alphanum = true) (segments : List String) :
    matchSegments pattern (segments.map (encodeSegment S)) =
      (matchSegments pattern segments).map (encodeParams S) := by
  induction pattern generalizing segments with
  | nil => cases segments <;> rfl
  | cons a pattern ih =>
    have hrest := ih fun b hb => hpattern b (List.mem_cons_of_mem a hb)
    cases segments with
    | nil => cases a <;> rfl
    | cons s segments =>
      cases a with
      -- An alphanumeric literal is its own encoding and no other segment encodes to it.
      | literal text =>
        have htext : ∀ c ∈ text.toList, c.isAlphanum = true :=
          List.all_eq_true.mp (hpattern _ List.mem_cons_self)
        have hiff : encodeSegment S s = text ↔ s = text := encodeSegment_eq_iff S htext
        rw [List.map_cons, matchSegments, matchSegments, hrest]
        by_cases hs : s = text
        · rw [if_pos hs, if_pos (hiff.mpr hs)]
        · rw [if_neg hs, if_neg fun h => hs (hiff.mp h)]
          rfl
      -- A parameter only asks that the segment is not empty.
      | param name =>
        have hiff : encodeSegment S s = "" ↔ s = "" := encodeSegment_eq_empty_iff S
        rw [List.map_cons, matchSegments, matchSegments, hrest]
        by_cases hs : s = ""
        · rw [if_pos hs, if_pos (hiff.mpr hs)]
          rfl
        · rw [if_neg hs, if_neg fun h => hs (hiff.mp h), Option.map_map, Option.map_map]
          rfl

theorem splitPath_parsePath (S : EncodeSet) {path : String} (h : Undotted path) :
    splitPath (parsePath S path) = (splitPath path).map (encodeSegment S) := by
  rw [splitPath, segments_parsePath S h, splitPath, List.map_map, List.map_map]
  refine List.map_congr_left fun s _ => ?_
  rw [Function.comp_apply, Function.comp_apply, encodeSegment, String.toList_ofList]

theorem findSome?_encode (S : EncodeSet) (segments : List String) {rs : List Route}
    (hrs : ∀ r ∈ rs, ∀ a ∈ r.pattern, a.alphanum = true) :
    (rs.findSome? fun r =>
        (matchSegments r.pattern (segments.map (encodeSegment S))).map (r, ·)) =
      (rs.findSome? fun r => (matchSegments r.pattern segments).map (r, ·)).map
        fun found => (found.1, encodeParams S found.2) := by
  induction rs with
  | nil => rfl
  | cons r rs ih =>
    have hrest := ih fun r' hr' => hrs r' (List.mem_cons_of_mem r hr')
    rw [List.findSome?_cons, List.findSome?_cons, hrest,
      matchSegments_encode S (hrs r List.mem_cons_self)]
    cases matchSegments r.pattern segments <;> rfl

/-- A plain path is served by the same handler after it was parsed. -/
theorem dispatch_parsePath (S : EncodeSet) (method : Method) {path : String} (h : Undotted path) :
    dispatch method (parsePath S path) =
      (dispatch method path).map fun served => (served.1, encodeParams S served.2) := by
  unfold dispatch
  rw [splitPath_parsePath S h]
  cases hsplit : splitPath path with
  | nil => rfl
  | cons first segments =>
    rw [List.map_cons]
    by_cases hfirst : first = ""
    · subst hfirst
      rw [(encodeSegment_eq_empty_iff S).mpr rfl]
      simp only [findSome?_encode S segments routes_alphanum]
      cases routes.findSome? fun r => (matchSegments r.pattern segments).map (r, ·) with
      | none => rfl
      | some found =>
        obtain ⟨r, params⟩ := found
        simp only [Option.map_some, Option.bind_eq_bind, Option.bind_some]
        cases r.handler method <;> rfl
    · -- A path that does not begin with a slash is not routed, before or after.
      have hne : encodeSegment S first ≠ "" := fun heq =>
        hfirst ((encodeSegment_eq_empty_iff S).mp heq)
      split
      · rename_i heq
        exact absurd (List.cons.inj heq).1 hne
      · split
        · rename_i heq
          exact absurd (List.cons.inj heq).1 hfirst
        · rfl

/-! ## The network -/

/-- A target as clients send it: a path from the root, without what ends a path. -/
structure Uri.OriginForm (uri : Uri) : Prop where
  rooted : uri.path.toList.head? = some '/'
  ended : ∀ c ∈ uri.path.toList, c ≠ '?' ∧ c ≠ '#'

/-- The nodes of a registry, and what the HTTP client makes of the URLs that nodes send to. -/
structure Network (ι : Type) where
  layers : ι → SecurityLayers
  /-- The advertised URL of a node. -/
  url : ι → String
  encodeSet : EncodeSet
  /-- A query as the URL parser writes it. -/
  query : String → String
  /-- The node that a URL reaches, and the target that is requested there. -/
  deliver : String → Option (ι × Uri)
  deliver_url : ∀ i uri, Uri.OriginForm uri → deliver (url i ++ uri.pathAndQuery) =
    some (i, ⟨parsePath encodeSet uri.path, uri.query.map query⟩)

/-- A node at the moment at which a request reaches it. -/
structure Visit (ι : Type) where
  node : ι
  now : Moment
  request : Request

/-- The request as it comes from a connection. -/
structure Request.Fresh (req : Request) : Prop where
  principal : req.extensions.principal = none
  forward : req.extensions.authenticatedForward = false

/-- A sent request as the node receives it. -/
def Outgoing.received (out : Outgoing) (uri : Uri) (extensions : Extensions) : Request :=
  ⟨out.method, uri, out.headers, out.body, extensions⟩

variable {ι : Type} (L : AuthLibs) (net : Network ι)

def Visit.outcome (v : Visit ι) : Outcome :=
  routerWithSecurity L (net.layers v.node) v.now v.request

/-- The visits of a request, the latest first. -/
inductive Journey : List (Visit ι) → Prop
  | arrives (v : Visit ι) : v.request.Fresh → Journey [v]
  | forwarded {v : Visit ι} {vs : List (Visit ι)} {out : Outgoing} {i : ι} {uri : Uri}
      (now : Moment) (extensions : Extensions) :
      Journey (v :: vs) → v.outcome L net = .send out → net.deliver out.url = some (i, uri) →
      (out.received uri extensions).Fresh →
      Journey (⟨i, now, out.received uri extensions⟩ :: v :: vs)

/-! ## Two nodes -/

/-- The target in what follows the authority of a URL. -/
def targetOf (S : EncodeSet) (text : List Char) : Uri :=
  ⟨parsePath S (String.ofList (text.takeWhile (· ≠ '?'))),
    if '?' ∈ text then some (String.ofList (text.dropWhile (· ≠ '?')).tail) else none⟩

theorem targetOf_pathAndQuery (S : EncodeSet) {uri : Uri} (h : uri.OriginForm) :
    targetOf S uri.pathAndQuery.toList = ⟨parsePath S uri.path, uri.query⟩ := by
  obtain ⟨path, query⟩ := uri
  have hmark : ∀ c ∈ path.toList, c ≠ '?' := fun c hc => (h.ended c hc).1
  have htake : ∀ rest, (path.toList ++ '?' :: rest).takeWhile (· ≠ '?') = path.toList := fun rest => by
    rw [List.takeWhile_append_of_pos (by simpa using hmark)]
    simp
  have hdrop : ∀ rest, (path.toList ++ '?' :: rest).dropWhile (· ≠ '?') = '?' :: rest := fun rest => by
    rw [List.dropWhile_append_of_pos (by simpa using hmark)]
    simp
  cases query with
  | some query =>
    have htext : Uri.pathAndQuery ⟨path, some query⟩ = path ++ "?" ++ query := rfl
    have hlist : (path ++ "?" ++ query).toList = path.toList ++ '?' :: query.toList := by simp
    rw [targetOf, htext, hlist, htake, hdrop]
    simp
  | none =>
    have htext : Uri.pathAndQuery ⟨path, none⟩ = path := rfl
    have hall : path.toList.takeWhile (· ≠ '?') = path.toList :=
      List.takeWhile_eq_self_iff.mpr (by simpa using hmark)
    have hnone : '?' ∉ path.toList := fun hc => hmark _ hc rfl
    rw [targetOf, htext, hall, if_neg hnone, String.ofList_toList]

/-- A registry of two nodes. -/
def twoNodes (layers : Bool → SecurityLayers) : Network Bool where
  layers := layers
  url i := if i then "http://a:8081" else "http://b:8081"
  encodeSet := .path
  query := id
  deliver url :=
    if url.toList.take 13 = "http://a:8081".toList then
      some (true, targetOf .path (url.toList.drop 13))
    else if url.toList.take 13 = "http://b:8081".toList then
      some (false, targetOf .path (url.toList.drop 13))
    else none
  deliver_url i uri h := by
    cases i <;> simp [targetOf_pathAndQuery _ h]

end KrabkaRegistry.Rest
