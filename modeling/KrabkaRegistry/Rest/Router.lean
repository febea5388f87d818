import Mathlib
import KrabkaRegistry.Kafkastore.Ops
import KrabkaRegistry.Library.PercentCoding

/-!
# The Router

`router` of `rest/mod.rs`: which handler serves a request, and what it receives as path
parameters.  A path is matched as it is sent, segment by segment; a parameter takes one
segment that is not empty, and `Path` percent-decodes it.  A route for `GET` serves `HEAD` too.

`Handler.MayRun` says which store operations a handler can issue.
-/

namespace KrabkaRegistry.Rest

open KrabkaRegistry.Kafkastore (Op)
open KrabkaRegistry.Library.PercentCoding

/-- An HTTP method. -/
inductive Method where
  | get
  | post
  | put
  | delete
  | head
  | options
  | connect
  | patch
  | trace
  | extension (name : String)
  deriving DecidableEq, Repr

/-- The handlers of the router. -/
inductive Handler where
  | root
  | schemasTypes
  | listSchemas
  | fileDescriptorSet
  | getById
  | schemaVersions
  | getByIdSchema
  | getByIdSubjects
  | listSubjects
  | lookup
  | deleteSubject
  | versions
  | register
  | getVersion
  | deleteVersion
  | getVersionSchema
  | referencedby
  | globalMode
  | putGlobalMode
  | subjectMode
  | putSubjectMode
  | deleteSubjectMode
  | globalConfig
  | putGlobalConfig
  | subjectConfig
  | putSubjectConfig
  | deleteSubjectConfig
  | checkCompatibility
  deriving DecidableEq, Repr

/-- A part of a route between two slashes. -/
inductive Segment where
  | literal (text : String)
  | param (name : String)
  deriving DecidableEq, Repr

structure Route where
  pattern : List Segment
  handlers : List (Method × Handler)

/-- The routes, with what follows the first slash.  No two of them match one path, so that
their order makes no difference. -/
def routes : List Route :=
  let schemas : Segment := .literal "schemas"
  let ids : Segment := .literal "ids"
  let subjects : Segment := .literal "subjects"
  let versions : Segment := .literal "versions"
  let id : Segment := .param "id"
  let subject : Segment := .param "subject"
  let version : Segment := .param "version"
  [⟨[.literal ""], [(.get, .root)]⟩,
    ⟨[schemas, .literal "types"], [(.get, .schemasTypes)]⟩,
    ⟨[schemas], [(.get, .listSchemas)]⟩,
    ⟨[schemas, .literal "import"], [(.post, .fileDescriptorSet)]⟩,
    ⟨[schemas, ids, id], [(.get, .getById)]⟩,
    ⟨[schemas, ids, id, versions], [(.get, .schemaVersions)]⟩,
    ⟨[schemas, ids, id, .literal "schema"], [(.get, .getByIdSchema)]⟩,
    ⟨[schemas, ids, id, subjects], [(.get, .getByIdSubjects)]⟩,
    ⟨[subjects], [(.get, .listSubjects)]⟩,
    ⟨[subjects, subject], [(.post, .lookup), (.delete, .deleteSubject)]⟩,
    ⟨[subjects, subject, versions], [(.get, .versions), (.post, .register)]⟩,
    ⟨[subjects, subject, versions, version], [(.get, .getVersion), (.delete, .deleteVersion)]⟩,
    ⟨[subjects, subject, versions, version, .literal "schema"], [(.get, .getVersionSchema)]⟩,
    ⟨[subjects, subject, versions, version, .literal "referencedby"], [(.get, .referencedby)]⟩,
    ⟨[.literal "mode"], [(.get, .globalMode), (.put, .putGlobalMode)]⟩,
    ⟨[.literal "mode", subject],
      [(.get, .subjectMode), (.put, .putSubjectMode), (.delete, .deleteSubjectMode)]⟩,
    ⟨[.literal "config"], [(.get, .globalConfig), (.put, .putGlobalConfig)]⟩,
    ⟨[.literal "config", subject],
      [(.get, .subjectConfig), (.put, .putSubjectConfig), (.delete, .deleteSubjectConfig)]⟩,
    ⟨[.literal "compatibility", subjects, subject, versions, version],
      [(.post, .checkCompatibility)]⟩]

/-- A path cut at its slashes. -/
def splitPath (path : String) : List String := (path.toList.splitOn '/').map String.ofList

/-- The parameters of a route, as the path has them. -/
def matchSegments : List Segment → List String → Option (List (String × String))
  | [], [] => some []
  | .literal text :: pattern, s :: segments =>
    if s = text then matchSegments pattern segments else none
  | .param name :: pattern, s :: segments =>
    if s = "" then none else (matchSegments pattern segments).map ((name, s) :: ·)
  | _, _ => none

/-- The handler of a route for a method. -/
def Route.handler (r : Route) (method : Method) : Option Handler :=
  let served (m : Method) := (r.handlers.find? fun h => h.1 = m).map (·.2)
  match method with
  | .head => (served .head).or (served .get)
  | method => served method

/-- The handler that serves a request, with its raw parameters.  There is none for a path that
no route matches, or for a method that its route does not have. -/
def dispatch (method : Method) (path : String) : Option (Handler × List (String × String)) :=
  match splitPath path with
  | "" :: segments => do
    let (r, params) ← routes.findSome? fun r => (matchSegments r.pattern segments).map (r, ·)
    return (← r.handler method, params)
  | _ => none

/-- What `Path` gives the handler for a parameter: nothing when it is not valid UTF-8, since the
request is then rejected. -/
def pathParam (params : List (String × String)) (name : String) : Option String :=
  (params.lookup name).bind decodeText

/-- The store operations that a handler can issue, with the subject it receives.  The other
handlers only read. -/
def Handler.MayRun (subject : Option String) (op : Op) : Handler → Prop
  | .register => ∃ req, op = .register req ∧ subject = some req.subject
  | .fileDescriptorSet => ∃ req, op = .register req
  | .deleteSubject => ∃ s, subject = some s ∧
      (op = .softDeleteSubject s ∨ op = .permanentDeleteSubject s)
  | .deleteVersion => ∃ s v, subject = some s ∧
      (op = .softDeleteVersion s v ∨ op = .permanentDeleteVersion s v)
  | .putGlobalMode => ∃ mode, op = .setGlobalMode mode
  | .putSubjectMode => ∃ s mode, subject = some s ∧ op = .setSubjectMode s mode
  | .deleteSubjectMode => ∃ s, subject = some s ∧ op = .clearSubjectMode s
  | .putGlobalConfig => ∃ level, op = .setCompat none level
  | .putSubjectConfig => ∃ s level, subject = some s ∧ op = .setCompat (some s) level
  | .deleteSubjectConfig => ∃ s, subject = some s ∧ op = .deleteSubjectCompat s
  | _ => False

/-! ## Matching -/

theorem matchSegments_nil {segments : List String} {params : List (String × String)} :
    matchSegments [] segments = some params ↔ segments = [] ∧ params = [] := by
  cases segments <;> simp [matchSegments, eq_comm]

theorem matchSegments_literal {text : String} {pattern : List Segment} {segments : List String}
    {params : List (String × String)} :
    matchSegments (.literal text :: pattern) segments = some params ↔
      ∃ rest, segments = text :: rest ∧ matchSegments pattern rest = some params := by
  cases segments with
  | nil => simp [matchSegments]
  | cons s rest =>
    by_cases hs : s = text
    · simp [matchSegments, hs]
    · simp [matchSegments, hs]

theorem matchSegments_param {name : String} {pattern : List Segment} {segments : List String}
    {params : List (String × String)} :
    matchSegments (.param name :: pattern) segments = some params ↔
      ∃ s rest others, segments = s :: rest ∧ s ≠ "" ∧ matchSegments pattern rest = some others ∧
        params = (name, s) :: others := by
  cases segments with
  | nil => simp [matchSegments]
  | cons s rest =>
    by_cases hs : s = ""
    · simp [matchSegments, hs]
    · simp [matchSegments, hs, eq_comm]

/-- The name of a parameter. -/
def Segment.name? : Segment → Option String
  | .literal _ => none
  | .param name => some name

/-- A route gives the parameters it names. -/
theorem matchSegments_names {pattern : List Segment} {segments : List String}
    {params : List (String × String)} (h : matchSegments pattern segments = some params) :
    params.map Prod.fst = pattern.filterMap Segment.name? := by
  induction pattern generalizing segments params with
  | nil =>
    obtain ⟨_, rfl⟩ := matchSegments_nil.mp h
    rfl
  | cons a pattern ih =>
    cases a with
    | literal text =>
      obtain ⟨rest, _, hrest⟩ := matchSegments_literal.mp h
      exact ih hrest
    | param name =>
      obtain ⟨s, rest, others, _, _, hrest, rfl⟩ := matchSegments_param.mp h
      rw [List.map_cons, ih hrest]
      rfl

@[simp] theorem pathParam_self (name raw : String) (params : List (String × String)) :
    pathParam ((name, raw) :: params) name = decodeText raw := by
  simp [pathParam]

/-! ## One route for a path -/

/-- Whether a segment of a route takes a segment of a path. -/
def Segment.Accepts (s : String) : Segment → Prop
  | .literal text => s = text
  | .param _ => s ≠ ""

theorem matchSegments_cons {a : Segment} {pattern : List Segment} {segments : List String}
    {params : List (String × String)} (h : matchSegments (a :: pattern) segments = some params) :
    ∃ s rest others, segments = s :: rest ∧ a.Accepts s ∧
      matchSegments pattern rest = some others := by
  cases a with
  | literal text =>
    obtain ⟨rest, rfl, hrest⟩ := matchSegments_literal.mp h
    exact ⟨text, rest, params, rfl, rfl, hrest⟩
  | param name =>
    obtain ⟨s, rest, others, rfl, hs, hrest, _⟩ := matchSegments_param.mp h
    exact ⟨s, rest, others, rfl, hs, hrest⟩

/-- Two segments of routes that could take one segment of a path. -/
def Segment.meets : Segment → Segment → Bool
  | .literal a, .literal b => a = b
  | .literal a, .param _ | .param _, .literal a => a ≠ ""
  | .param _, .param _ => true

theorem Segment.Accepts.meets {s : String} {a b : Segment} (ha : a.Accepts s)
    (hb : b.Accepts s) : a.meets b = true := by
  cases a <;> cases b <;> simp_all [Segment.Accepts, Segment.meets]

/-- Two routes that could match one path. -/
def Route.meets (r r' : Route) : Bool :=
  r.pattern.length = r'.pattern.length && (r.pattern.zip r'.pattern).all fun p => p.1.meets p.2

/-- Two patterns that match one path have one length and meet part by part. -/
private theorem meets_of_match {p q : List Segment} {segments : List String}
    {ps qs : List (String × String)} (hp : matchSegments p segments = some ps)
    (hq : matchSegments q segments = some qs) :
    p.length = q.length ∧ (p.zip q).all (fun x => x.1.meets x.2) = true := by
  induction p generalizing q segments ps qs with
  | nil =>
    obtain ⟨rfl, _⟩ := matchSegments_nil.mp hp
    cases q with
    | nil => exact ⟨rfl, rfl⟩
    | cons b q =>
      obtain ⟨s, rest, others, hcons, _⟩ := matchSegments_cons hq
      cases hcons
  | cons a p ih =>
    -- Both patterns take the same first segment, so their first parts meet.
    obtain ⟨s, rest, others, rfl, ha, hrest⟩ := matchSegments_cons hp
    cases q with
    | nil =>
      obtain ⟨hcons, _⟩ := matchSegments_nil.mp hq
      cases hcons
    | cons b q =>
      obtain ⟨s', rest', others', hcons, hb, hrest'⟩ := matchSegments_cons hq
      cases hcons
      obtain ⟨hlen, hall⟩ := ih hrest hrest'
      refine ⟨by rw [List.length_cons, List.length_cons, hlen], ?_⟩
      rw [List.zip_cons_cons, List.all_cons, ha.meets hb, hall]
      rfl

theorem Route.meets_of_match {r r' : Route} {segments : List String}
    {ps qs : List (String × String)} (h : matchSegments r.pattern segments = some ps)
    (h' : matchSegments r'.pattern segments = some qs) : r.meets r' = true := by
  obtain ⟨hlen, hall⟩ := Rest.meets_of_match h h'
  unfold Route.meets
  rw [hall, hlen]
  simp

theorem routes_apart : routes.Pairwise fun r r' => r.meets r' = false := by decide

/-- Where no two members give an answer, the first answer is any answer. -/
private theorem findSome?_iff {α β : Type} {f : α → Option β} {l : List α} {b : β}
    (h : l.Pairwise fun x y => (f x).isSome → (f y).isNone) :
    l.findSome? f = some b ↔ ∃ x ∈ l, f x = some b := by
  induction l with
  | nil => simp
  | cons x l ih =>
    rw [List.findSome?_cons]
    obtain ⟨hx, hl⟩ := List.pairwise_cons.mp h
    cases hf : f x with
    | none =>
      simp only [ih hl, List.mem_cons]
      constructor
      · rintro ⟨y, hy, hfy⟩
        exact ⟨y, .inr hy, hfy⟩
      · rintro ⟨y, rfl | hy, hfy⟩
        · rw [hf] at hfy
          cases hfy
        · exact ⟨y, hy, hfy⟩
    -- No later element is found beside `x`, so an element that is found is `x`.
    | some c =>
      constructor
      · rintro ⟨⟩
        exact ⟨x, List.mem_cons_self, hf⟩
      · rintro ⟨y, hy, hfy⟩
        rcases List.mem_cons.mp hy with rfl | hy
        · rw [← hf, hfy]
        · have hnone := hx y hy (by rw [hf]; rfl)
          rw [hfy] at hnone
          cases hnone

theorem dispatch_iff {method : Method} {path : String} {h : Handler}
    {params : List (String × String)} :
    dispatch method path = some (h, params) ↔
      ∃ segments, splitPath path = "" :: segments ∧ ∃ r ∈ routes,
        matchSegments r.pattern segments = some params ∧ r.handler method = some h := by
  -- At most one route matches a path, so the first that matches is the only one.
  have hfirst : ∀ segments, routes.Pairwise fun r r' =>
      ((matchSegments r.pattern segments).map (r, ·)).isSome →
      ((matchSegments r'.pattern segments).map (r', ·)).isNone := by
    intro segments
    refine routes_apart.imp fun {r r'} hapart hr => ?_
    simp only [Option.isSome_map, Option.isSome_iff_exists] at hr
    obtain ⟨ps, hps⟩ := hr
    rw [Option.isNone_iff_eq_none, Option.map_eq_none_iff, Option.eq_none_iff_forall_ne_some]
    intro qs hqs
    rw [Route.meets_of_match hps hqs] at hapart
    cases hapart
  constructor
  · intro hd
    unfold dispatch at hd
    split at hd
    · rename_i segments hsplit
      obtain ⟨⟨r, ps⟩, hfind, hd⟩ := Option.bind_eq_some_iff.mp hd
      obtain ⟨h', hh, hd⟩ := Option.bind_eq_some_iff.mp hd
      cases hd
      obtain ⟨r', hr, hmap⟩ := (findSome?_iff (hfirst segments)).mp hfind
      obtain ⟨ps', hps, heq⟩ := Option.map_eq_some_iff.mp hmap
      cases heq
      exact ⟨segments, hsplit, r, hr, hps, hh⟩
    · cases hd
  · rintro ⟨segments, hsplit, r, hr, hps, hh⟩
    have hfind : routes.findSome? (fun r => (matchSegments r.pattern segments).map (r, ·)) =
        some (r, params) := by
      rw [findSome?_iff (hfirst segments)]
      exact ⟨r, hr, by rw [hps]; rfl⟩
    simp [dispatch, hsplit, hfind, hh]

end KrabkaRegistry.Rest
