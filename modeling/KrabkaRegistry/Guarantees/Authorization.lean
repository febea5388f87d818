import KrabkaRegistry.Rest.Authz

/-!
# What Is Routed Is Authorized

The router and `authz_target` read the same path independently.  For every method but `HEAD`
they agree: each handler other than the root has the target that its route stands for, the
subject is the one the handler receives, and what changes the registry is a write, a delete or
an alteration (`authorized_iff`).  A `HEAD` request is served by the handler of `GET` and has
no target (`head_escapes`).
-/

namespace KrabkaRegistry.Guarantees

open KrabkaRegistry.Rest
open KrabkaRegistry.Kafkastore (Op)
open KrabkaRegistry.Library.PercentCoding

/-! ## What each handler stands for -/

/-- The resource type and the operation of a handler. -/
def required : Handler → Option (ResourceType × AclOperation)
  | .root => none
  | .schemasTypes | .listSubjects | .globalMode | .globalConfig => some (.cluster, .describe)
  | .listSchemas | .getById | .schemaVersions | .getByIdSchema | .getByIdSubjects =>
    some (.cluster, .read)
  | .fileDescriptorSet => some (.cluster, .write)
  | .putGlobalMode | .putGlobalConfig => some (.cluster, .alter)
  | .lookup | .versions | .getVersion | .getVersionSchema | .referencedby | .checkCompatibility =>
    some (.topic, .read)
  | .register => some (.topic, .write)
  | .deleteSubject | .deleteVersion => some (.topic, .delete)
  | .subjectMode | .subjectConfig => some (.topic, .describe)
  | .putSubjectMode | .deleteSubjectMode | .putSubjectConfig | .deleteSubjectConfig =>
    some (.topic, .alter)

/-- The name of the resource: the subject of the route, or the cluster. -/
def resourceName (params : List (String × String)) : ResourceType → String
  | .topic => decodeUtf8Lossy (percentDecode ((params.lookup "subject").getD "").toList)
  | .cluster => kafkaCluster

theorem mem_handlers {r : Route} {method : Method} {h : Handler}
    (hh : r.handler method = some h) (hhead : method ≠ .head) : (method, h) ∈ r.handlers := by
  have hserved : (r.handlers.find? fun p => p.1 = method).map (·.2) = some h := by
    cases method <;> first | exact hh | exact absurd rfl hhead
  obtain ⟨⟨m, h'⟩, hfind, rfl⟩ := Option.map_eq_some_iff.mp hserved
  have hm : m = method := by simpa using List.find?_some hfind
  rw [← hm]
  exact List.mem_of_find?_eq_some hfind

/-- Literals in front of a pattern are the first segments of its paths. -/
theorem matchSegments_literals {texts : List String} {pattern : List Segment}
    {segments : List String} {params : List (String × String)} :
    matchSegments (texts.map .literal ++ pattern) segments = some params ↔
      ∃ rest, segments = texts ++ rest ∧ matchSegments pattern rest = some params := by
  induction texts generalizing segments with
  | nil => simp
  | cons text texts ih =>
    rw [List.map_cons, List.cons_append, matchSegments_literal]
    constructor
    · rintro ⟨rest, rfl, hrest⟩
      obtain ⟨rest', rfl, hrest'⟩ := ih.mp hrest
      exact ⟨rest', rfl, hrest'⟩
    · rintro ⟨rest, rfl, hrest⟩
      exact ⟨texts ++ rest, rfl, ih.mpr ⟨rest, rfl, hrest⟩⟩

theorem matchSegments_texts {texts segments : List String} {params : List (String × String)}
    (h : matchSegments (texts.map .literal) segments = some params) :
    segments = texts ∧ params = [] := by
  rw [← List.append_nil (texts.map Segment.literal)] at h
  obtain ⟨rest, rfl, hrest⟩ := matchSegments_literals.mp h
  obtain ⟨rfl, rfl⟩ := matchSegments_nil.mp hrest
  exact ⟨List.append_nil texts, rfl⟩

/-- Where the path has these segments, `authz_target` has what the handlers stand for. -/
def TargetsAgreeOn (handlers : List (Method × Handler)) (segments : List String)
    (params : List (String × String)) : Prop :=
  ∀ path, (splitPath path).filter (· ≠ "") = segments → ∀ p ∈ handlers,
    authzTarget p.1 path = (required p.2).map fun q => (q.1, resourceName params q.1, q.2)

/-- A route and `authz_target` agree on the paths of the route. -/
def TargetsAgree (r : Route) : Prop :=
  ∀ segments params, matchSegments r.pattern segments = some params →
    TargetsAgreeOn r.handlers (segments.filter (· ≠ "")) params

section Shapes

variable {handlers : List (Method × Handler)}

theorem filter_ne_empty {segments : List String} (h : "" ∉ segments) :
    segments.filter (· ≠ "") = segments := by
  refine List.filter_eq_self.mpr fun s hs => decide_eq_true ?_
  rintro rfl
  exact h hs

/-- A route without parameters. -/
theorem agrees_fixed (texts : List String) (hne : "" ∉ texts) (h : TargetsAgreeOn handlers texts []) :
    TargetsAgree ⟨texts.map .literal, handlers⟩ := by
  intro segments params hmatch
  obtain ⟨rfl, rfl⟩ := matchSegments_texts hmatch
  rw [filter_ne_empty hne]
  exact h

/-- A route with one parameter. -/
theorem agrees_param (before : List String) (name : String) (after : List String)
    (hne : "" ∉ before ++ after)
    (h : ∀ s, TargetsAgreeOn handlers (before ++ s :: after) [(name, s)]) :
    TargetsAgree ⟨before.map .literal ++ .param name :: after.map .literal, handlers⟩ := by
  intro segments params hmatch
  obtain ⟨rest, rfl, hrest⟩ := matchSegments_literals.mp hmatch
  obtain ⟨s, rest', others, rfl, hs, hothers, rfl⟩ := matchSegments_param.mp hrest
  obtain ⟨rfl, rfl⟩ := matchSegments_texts hothers
  rw [filter_ne_empty]
  · exact h s
  · simp only [List.mem_append, List.mem_cons, not_or] at hne ⊢
    exact ⟨hne.1, hs.symm, hne.2⟩

/-- A route to a version of a subject. -/
theorem agrees_version (before after : List String) (hne : "" ∉ before ++ after)
    (h : ∀ s v, TargetsAgreeOn handlers (before ++ s :: "versions" :: v :: after)
      [("subject", s), ("version", v)]) :
    TargetsAgree ⟨before.map .literal ++ .param "subject" :: .literal "versions" :: .param "version" ::
      after.map .literal, handlers⟩ := by
  intro segments params hmatch
  obtain ⟨rest, rfl, hrest⟩ := matchSegments_literals.mp hmatch
  obtain ⟨s, rest', others, rfl, hs, hothers, rfl⟩ := matchSegments_param.mp hrest
  obtain ⟨rest'', rfl, hversion⟩ := matchSegments_literal.mp hothers
  obtain ⟨v, after', others', rfl, hv, hothers', rfl⟩ := matchSegments_param.mp hversion
  obtain ⟨rfl, rfl⟩ := matchSegments_texts hothers'
  rw [filter_ne_empty]
  · exact h s v
  · simp only [List.mem_append, List.mem_cons, not_or] at hne ⊢
    exact ⟨hne.1, hs.symm, by decide, hv.symm, hne.2⟩

end Shapes

/-- Every route but the root's agrees with `authz_target`. -/
theorem routes_agree : ∀ r ∈ routes, (∀ p ∈ r.handlers, p.2 ≠ .root) → TargetsAgree r := by
  simp only [routes, List.forall_mem_cons, List.not_mem_nil, false_imp_iff, implies_true, and_true]
  refine ⟨fun h => absurd rfl h, fun _ => agrees_fixed ["schemas", "types"] ?_ ?_,
    fun _ => agrees_fixed ["schemas"] ?_ ?_, fun _ => agrees_fixed ["schemas", "import"] ?_ ?_,
    fun _ => agrees_param ["schemas", "ids"] "id" [] ?_ ?_,
    fun _ => agrees_param ["schemas", "ids"] "id" ["versions"] ?_ ?_,
    fun _ => agrees_param ["schemas", "ids"] "id" ["schema"] ?_ ?_,
    fun _ => agrees_param ["schemas", "ids"] "id" ["subjects"] ?_ ?_,
    fun _ => agrees_fixed ["subjects"] ?_ ?_,
    fun _ => agrees_param ["subjects"] "subject" [] ?_ ?_,
    fun _ => agrees_param ["subjects"] "subject" ["versions"] ?_ ?_,
    fun _ => agrees_version ["subjects"] [] ?_ ?_,
    fun _ => agrees_version ["subjects"] ["schema"] ?_ ?_,
    fun _ => agrees_version ["subjects"] ["referencedby"] ?_ ?_,
    fun _ => agrees_fixed ["mode"] ?_ ?_,
    fun _ => agrees_param ["mode"] "subject" [] ?_ ?_,
    fun _ => agrees_fixed ["config"] ?_ ?_,
    fun _ => agrees_param ["config"] "subject" [] ?_ ?_,
    fun _ => agrees_version ["compatibility", "subjects"] [] ?_ ?_⟩
  -- The names of the routes are not empty, and on each path the arm of `authz_target` is found.
  all_goals first
    | decide
    | simp +contextual [TargetsAgreeOn, authzTarget, required, resourceName, clusterTarget, topicTarget]

theorem authzTarget_dispatch {method : Method} {path : String} {h : Handler}
    {params : List (String × String)} (hd : dispatch method path = some (h, params))
    (hhead : method ≠ .head) (hroot : h ≠ .root) :
    authzTarget method path =
      (required h).map fun p => (p.1, resourceName params p.1, p.2) := by
  obtain ⟨segments, hsplit, r, hr, hmatch, hh⟩ := dispatch_iff.mp hd
  have hroutes : ∀ r ∈ routes, ∀ p ∈ r.handlers, p.2 ≠ .root →
      ∀ p' ∈ r.handlers, p'.2 ≠ .root := by decide
  have hserved := mem_handlers hh hhead
  refine routes_agree r hr (hroutes r hr _ hserved hroot) segments params hmatch path ?_ _ hserved
  rw [hsplit, List.filter_cons_of_neg (by simp)]

/-- No arm of `authz_target` is for `HEAD`. -/
theorem authzTarget_head (path : String) : authzTarget .head path = none := by
  unfold authzTarget
  split <;> rfl

/-! ## Agreement -/

/-- A handler with a subject is about that subject's topic. -/
theorem topic_of_subject {method : Method} {path : String} {h : Handler}
    {params : List (String × String)} (hd : dispatch method path = some (h, params))
    (hhead : method ≠ .head) {raw : String} (hraw : params.lookup "subject" = some raw) :
    (required h).map (·.1) = some .topic := by
  have hroutes : ∀ r ∈ routes, ∀ p ∈ r.handlers, "subject" ∈ r.pattern.filterMap Segment.name? →
      (required p.2).map (·.1) = some .topic := by decide
  obtain ⟨segments, _, r, hr, hmatch, hh⟩ := dispatch_iff.mp hd
  refine hroutes r hr _ (mem_handlers hh hhead) ?_
  rw [← matchSegments_names hmatch]
  obtain ⟨before, after, rfl, _⟩ := List.lookup_eq_some_iff.mp hraw
  simp

/-- What changes the registry is a write, a delete or an alteration. -/
theorem required_of_mayRun {h : Handler} {subject : Option String} {o : Op}
    (hrun : h.MayRun subject o) :
    ∃ rt op, required h = some (rt, op) ∧ (op = .write ∨ op = .delete ∨ op = .alter) ∧
      (rt = .topic → ∃ s, subject = some s ∧ o.subject? = some s) := by
  cases h <;> simp only [Handler.MayRun] at hrun
  case register =>
    obtain ⟨req, rfl, rfl⟩ := hrun
    exact ⟨_, _, rfl, .inl rfl, fun _ => ⟨_, rfl, rfl⟩⟩
  case fileDescriptorSet => exact ⟨_, _, rfl, .inl rfl, nofun⟩
  case deleteSubject =>
    obtain ⟨s, rfl, rfl | rfl⟩ := hrun <;> exact ⟨_, _, rfl, .inr (.inl rfl), fun _ => ⟨_, rfl, rfl⟩⟩
  case deleteVersion =>
    obtain ⟨s, v, rfl, rfl | rfl⟩ := hrun <;> exact ⟨_, _, rfl, .inr (.inl rfl), fun _ => ⟨_, rfl, rfl⟩⟩
  case putGlobalMode => exact ⟨_, _, rfl, .inr (.inr rfl), nofun⟩
  case putGlobalConfig => exact ⟨_, _, rfl, .inr (.inr rfl), nofun⟩
  case putSubjectMode =>
    obtain ⟨s, mode, rfl, rfl⟩ := hrun
    exact ⟨_, _, rfl, .inr (.inr rfl), fun _ => ⟨_, rfl, rfl⟩⟩
  case deleteSubjectMode =>
    obtain ⟨s, rfl, rfl⟩ := hrun
    exact ⟨_, _, rfl, .inr (.inr rfl), fun _ => ⟨_, rfl, rfl⟩⟩
  case putSubjectConfig =>
    obtain ⟨s, level, rfl, rfl⟩ := hrun
    exact ⟨_, _, rfl, .inr (.inr rfl), fun _ => ⟨_, rfl, rfl⟩⟩
  case deleteSubjectConfig =>
    obtain ⟨s, rfl, rfl⟩ := hrun
    exact ⟨_, _, rfl, .inr (.inr rfl), fun _ => ⟨_, rfl, rfl⟩⟩

/-- A request has a target.  With a subject in its route, it is the topic named by the subject
that the handler receives; and what a handler does to the registry is a write, a delete or an
alteration, of that very subject if there is one. -/
def Authorized (method : Method) (path : String) (h : Handler) (params : List (String × String)) :
    Prop :=
  ∃ rt name op, authzTarget method path = some (rt, name, op) ∧
    (∀ raw, params.lookup "subject" = some raw →
      rt = .topic ∧ ∀ subject, pathParam params "subject" = some subject → name = subject) ∧
    ∀ o, h.MayRun (pathParam params "subject") o →
      (op = .write ∨ op = .delete ∨ op = .alter) ∧ (rt = .topic → o.subject? = some name)

/-- A valid subject is decoded as `Path` decodes it. -/
theorem resourceName_topic {params : List (String × String)} {subject : String}
    (h : pathParam params "subject" = some subject) : resourceName params .topic = subject := by
  obtain ⟨raw, hraw, hdecode⟩ := Option.bind_eq_some_iff.mp h
  unfold decodeText at hdecode
  simp [resourceName, hraw, decodeUtf8Lossy, hdecode]

/-- Every request that reaches a handler other than the root has the target that it needs,
unless it is a `HEAD` request. -/
theorem authorized_iff {method : Method} {path : String} {h : Handler}
    {params : List (String × String)} (hd : dispatch method path = some (h, params))
    (hroot : h ≠ .root) : Authorized method path h params ↔ method ≠ .head := by
  constructor
  · rintro ⟨rt, name, op, htarget, _⟩ rfl
    rw [authzTarget_head] at htarget
    cases htarget
  · intro hhead
    have htarget := authzTarget_dispatch hd hhead hroot
    -- Every handler but the root states what it requires, so the target is there to be asked for.
    obtain ⟨⟨rt, op⟩, hreq⟩ : ∃ p, required h = some p := by
      cases h <;> first | exact ⟨_, rfl⟩ | exact absurd rfl hroot
    rw [hreq, Option.map_some] at htarget
    refine ⟨rt, resourceName params rt, op, htarget, ?_, ?_⟩
    · intro raw hraw
      have htopic := topic_of_subject hd hhead hraw
      rw [hreq, Option.map_some, Option.some.injEq] at htopic
      obtain rfl : rt = .topic := htopic
      exact ⟨rfl, fun subject hsubject => resourceName_topic hsubject⟩
    · intro o hrun
      obtain ⟨rt', op', hreq', hop, hsubject⟩ := required_of_mayRun hrun
      rw [hreq] at hreq'
      cases hreq'
      refine ⟨hop, ?_⟩
      rintro rfl
      obtain ⟨s, hs, ho⟩ := hsubject rfl
      rw [ho, resourceName_topic hs]

theorem authorized_encoded_subject :
    dispatch .put "/config/foo%2Fbar" = some (.putSubjectConfig, [("subject", "foo%2Fbar")]) ∧
    Authorized .put "/config/foo%2Fbar" .putSubjectConfig [("subject", "foo%2Fbar")] ∧
    authzTarget .put "/config/foo%2Fbar" = some (.topic, "foo/bar", .alter) := by
  have hd : dispatch .put "/config/foo%2Fbar" =
      some (.putSubjectConfig, [("subject", "foo%2Fbar")]) := by decide +kernel
  refine ⟨hd, (authorized_iff hd (by decide)).mpr (by decide), ?_⟩
  decide +kernel

/-- The versions of a subject are served to `HEAD` as to `GET`, without a target. -/
theorem head_escapes :
    dispatch .head "/subjects/orders/versions" = some (.versions, [("subject", "orders")]) ∧
    authzTarget .head "/subjects/orders/versions" = none ∧
    authzTarget .get "/subjects/orders/versions" = some (.topic, "orders", .read) ∧
    ¬ Authorized .head "/subjects/orders/versions" .versions [("subject", "orders")] := by
  refine ⟨by decide +kernel, authzTarget_head _, by decide +kernel, ?_⟩
  rintro ⟨rt, name, op, htarget, _⟩
  rw [authzTarget_head] at htarget
  cases htarget

end KrabkaRegistry.Guarantees
