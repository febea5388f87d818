import KrabkaRegistry.Rest.Router
import KrabkaRegistry.Serde.Registry

/-!
# The Subject in a URL

The client writes a subject into its URLs as it is, and the router cuts the path at slashes and
percent-decodes the parameter.  The two agree exactly on the subjects that are not empty, have
no `/`, `?` or `#` and no percent escape (`addressed_iff`).
-/

namespace KrabkaRegistry.Guarantees

open KrabkaRegistry.Rest
open KrabkaRegistry.Serde
open KrabkaRegistry.Library.PercentCoding

/-! ## Requests of the client -/

/-- The calls of the client that name a subject. -/
inductive ClientCall where
  | register
  | lookup
  | latest
  | schemaBySubjectVersion (version : SchemaVersion)
  deriving DecidableEq, Repr

namespace ClientCall

def url (baseUrl subject : String) : ClientCall → String
  | .register => registerUrl baseUrl subject
  | .lookup => lookupUrl baseUrl subject
  | .latest => latestUrl baseUrl subject
  | .schemaBySubjectVersion version => schemaBySubjectVersionUrl baseUrl subject version

def method : ClientCall → Method
  | .register | .lookup => .post
  | .latest | .schemaBySubjectVersion _ => .get

/-- The handler that a call is meant for. -/
def handler : ClientCall → Handler
  | .register => .register
  | .lookup => .lookup
  | .latest | .schemaBySubjectVersion _ => .getVersion

/-- The version that a call names. -/
def version? : ClientCall → Option String
  | .register | .lookup => none
  | .latest => some "latest"
  | .schemaBySubjectVersion version => some (toString version)

/-- The segments after the subject. -/
def segments : ClientCall → List String
  | .register => ["versions"]
  | .lookup => []
  | .latest => ["versions", "latest"]
  | .schemaBySubjectVersion version => ["versions", toString version]

def query : ClientCall → String
  | .schemaBySubjectVersion _ => "?deleted=true"
  | _ => ""

/-- The parts of a URL after the subject. -/
def suffix (call : ClientCall) : List Char :=
  (call.segments.flatMap fun s => '/' :: s.toList) ++ call.query.toList

theorem url_toList (call : ClientCall) (baseUrl subject : String) :
    (call.url baseUrl subject).toList =
      baseUrl.toList ++ '/' :: ("subjects".toList ++ '/' :: (subject.toList ++ call.suffix)) := by
  cases call <;> simp [url, registerUrl, lookupUrl, latestUrl, schemaBySubjectVersionUrl, suffix,
    segments, query]

end ClientCall

/-- The address of a registry without a path. -/
structure Origin where
  scheme : String
  authority : String
  scheme_plain : ∀ c ∈ scheme.toList, c ≠ ':'
  authority_plain : ∀ c ∈ authority.toList, c ≠ '/' ∧ c ≠ '?' ∧ c ≠ '#'
  authority_ne : authority ≠ ""

/-- The origin as a client is given it, with any number of slashes after it. -/
def Origin.url (o : Origin) (slashes : ℕ) : String :=
  o.scheme ++ "://" ++ o.authority ++ String.ofList (List.replicate slashes '/')

/-- The request of a call reaches the handler it is meant for, with the subject and the version
that the client means. -/
def Addressed (baseUrl subject : String) (call : ClientCall) : Prop :=
  ∃ params, dispatch call.method (requestPath (call.url baseUrl subject)) =
      some (call.handler, params) ∧
    pathParam params "subject" = some subject ∧
    ∀ v, call.version? = some v → pathParam params "version" = some v

/-- A subject that stands for itself in a path. -/
structure Addressable (subject : String) : Prop where
  nonempty : subject ≠ ""
  plain : ∀ c ∈ subject.toList, c ≠ '/' ∧ c ≠ '?' ∧ c ≠ '#'
  unescaped : hasEscape subject.toList = false

/-! ## From the URL to the path -/

theorem baseUrlOf_origin (o : Origin) (slashes : ℕ) :
    baseUrlOf (o.url slashes) = o.scheme ++ "://" ++ o.authority := by
  have hlast : ∀ hne : (o.scheme ++ "://" ++ o.authority).toList ≠ [],
      ¬ decide ((o.scheme ++ "://" ++ o.authority).toList.getLast hne = '/') = true := by
    intro hne
    have hauthority : o.authority.toList ≠ [] := by simpa using o.authority_ne
    simp only [String.toList_append, List.getLast_append_of_ne_nil _ hauthority, decide_eq_true_eq]
    exact (o.authority_plain _ (List.getLast_mem hauthority)).1
  have hdrop : ∀ (l : List Char) (n : ℕ),
      (l ++ List.replicate n '/').rdropWhile (· = '/') = l.rdropWhile (· = '/') := by
    intro l n
    induction n with
    | zero => simp
    | succ n ih =>
      rw [List.replicate_succ', ← List.append_assoc, List.rdropWhile_concat_pos _ _ _ (by simp), ih]
  unfold baseUrlOf Origin.url
  rw [String.toList_append, String.toList_ofList, hdrop, List.rdropWhile_eq_self_iff.mpr hlast,
    String.ofList_toList]

/-- A character that is in neither the query nor the fragment. -/
def inPath (c : Char) : Bool := c ≠ '?' && c ≠ '#'

theorem requestPath_origin (o : Origin) {url : String} {rest : List Char}
    (h : url.toList = (o.scheme ++ "://" ++ o.authority).toList ++ '/' :: rest) :
    requestPath url = String.ofList ('/' :: rest.takeWhile inPath) := by
  have hscheme : url.toList.dropWhile (· ≠ ':') =
      ':' :: '/' :: '/' :: (o.authority.toList ++ '/' :: rest) := by
    rw [h]
    simp only [String.toList_append, String.reduceToList, List.append_assoc]
    rw [List.dropWhile_append_of_pos (by simpa using o.scheme_plain)]
    rfl
  have hauthority : (o.authority.toList ++ '/' :: rest).dropWhile
      (fun c => c ≠ '/' && c ≠ '?' && c ≠ '#') = '/' :: rest := by
    rw [List.dropWhile_append_of_pos (by simpa [and_assoc] using o.authority_plain)]
    simp
  unfold requestPath
  simp only [hscheme, List.drop_succ_cons, List.drop_zero, hauthority]
  rfl

/-! ## From the path to the segments -/

theorem splitOn_head? (l : List Char) (a : Char) :
    (l.splitOn a).head? = some (l.takeWhile (· ≠ a)) := by
  induction l with
  | nil => rfl
  | cons c l ih =>
    rw [List.splitOn_cons_eq_if_modifyHead]
    by_cases hc : c = a
    · simp [hc]
    · obtain ⟨first, others, hsplit⟩ := List.exists_cons_of_ne_nil (List.splitOn_ne_nil a l)
      rw [hsplit] at ih ⊢
      simp_all

theorem splitOn_segments {x : List Char} (hx : '/' ∉ x) {segments : List String}
    (hs : ∀ s ∈ segments, '/' ∉ s.toList) :
    (x ++ segments.flatMap fun s => '/' :: s.toList).splitOn '/' =
      x :: segments.map String.toList := by
  induction segments generalizing x with
  | nil => simpa using List.splitOn_eq_singleton hx
  | cons s segments ih =>
    have hrest := ih (hs s List.mem_cons_self) fun t ht => hs t (List.mem_cons_of_mem s ht)
    rw [List.flatMap_cons, List.cons_append, List.splitOn_append_cons_self_of_not_mem hx, hrest]
    rfl

/-- The segments of the path that a call requests. -/
theorem splitPath_call (o : Origin) (subject : String) (call : ClientCall) :
    splitPath (requestPath (call.url (o.scheme ++ "://" ++ o.authority) subject)) =
      "" :: "subjects" ::
        (((subject.toList ++ call.suffix).takeWhile inPath).splitOn '/').map String.ofList := by
  rw [requestPath_origin o (call.url_toList _ subject)]
  have htake : ("subjects".toList ++ '/' :: (subject.toList ++ call.suffix)).takeWhile inPath =
      "subjects".toList ++ '/' :: (subject.toList ++ call.suffix).takeWhile inPath := by
    rw [List.takeWhile_append_of_pos (List.all_eq_true.mp (by decide))]
    rfl
  unfold splitPath
  rw [htake, String.toList_ofList, ← List.nil_append ('/' :: _),
    List.splitOn_append_cons_self_of_not_mem (by simp),
    List.splitOn_append_cons_self_of_not_mem (by decide)]
  rfl

/-- A character that ends the segment it stands in. -/
def inSegment (c : Char) : Bool := c ≠ '/' && inPath c

/-- The first segment after `subjects` is the subject, up to the first character that ends it. -/
theorem takeWhile_subject (subject : List Char) (call : ClientCall) :
    ((subject ++ call.suffix).takeWhile inPath).takeWhile (· ≠ '/') =
      subject.takeWhile inSegment := by
  have hsuffix : call.suffix.takeWhile inSegment = [] := by
    cases call <;> rfl
  have hboth : ∀ l : List Char, (l.takeWhile inPath).takeWhile (· ≠ '/') =
      l.takeWhile inSegment := by
    intro l
    rw [List.takeWhile_takeWhile]
    congr 1
    funext c
    simp [inSegment]
  rw [hboth, List.takeWhile_append, hsuffix, List.append_nil]
  split_ifs with hlen
  · exact (List.IsPrefix.eq_of_length (List.takeWhile_prefix _) hlen).symm
  · rfl

/-! ## What the router receives -/

/-- The route of a call. -/
def ClientCall.pattern : ClientCall → List Segment
  | .register => [.literal "subjects", .param "subject", .literal "versions"]
  | .lookup => [.literal "subjects", .param "subject"]
  | .latest | .schemaBySubjectVersion _ =>
    [.literal "subjects", .param "subject", .literal "versions", .param "version"]

theorem pattern_of_handler (call : ClientCall) {r : Route} (hr : r ∈ routes)
    (h : r.handler call.method = some call.handler) : r.pattern = call.pattern := by
  have hregister : ∀ r ∈ routes, r.handler .post = some .register →
      r.pattern = ClientCall.register.pattern := by decide
  have hlookup : ∀ r ∈ routes, r.handler .post = some .lookup →
      r.pattern = ClientCall.lookup.pattern := by decide
  have hversion : ∀ r ∈ routes, r.handler .get = some .getVersion →
      r.pattern = ClientCall.latest.pattern := by decide
  cases call with
  | register => exact hregister r hr h
  | lookup => exact hlookup r hr h
  | latest => exact hversion r hr h
  | schemaBySubjectVersion version => exact hversion r hr h

/-- A subject that reaches the handler is its own first segment, decoded. -/
theorem decodeText_of_addressed {o : Origin} {subject : String} {call : ClientCall}
    (h : Addressed (o.scheme ++ "://" ++ o.authority) subject call) :
    subject.toList.takeWhile inSegment ≠ [] ∧
      decodeText (String.ofList (subject.toList.takeWhile inSegment)) = some subject := by
  obtain ⟨params, hd, hsubject, _⟩ := h
  obtain ⟨segments, hsplit, r, hr, hmatch, hh⟩ := dispatch_iff.mp hd
  rw [pattern_of_handler call hr hh] at hmatch
  rw [splitPath_call, List.cons.injEq] at hsplit
  obtain ⟨tail, hpattern⟩ : ∃ tail, call.pattern = .literal "subjects" :: .param "subject" :: tail := by
    cases call <;> exact ⟨_, rfl⟩
  rw [hpattern, ← hsplit.2, matchSegments_literal] at hmatch
  obtain ⟨rest, hrest, hmatch⟩ := hmatch
  obtain ⟨raw, others, ps, hcons, hraw, _, rfl⟩ := matchSegments_param.mp hmatch
  have hfirst : raw = String.ofList (subject.toList.takeWhile inSegment) := by
    rw [List.cons.injEq, hcons] at hrest
    have hhead := congrArg List.head? hrest.2
    rw [List.head?_map, splitOn_head?, takeWhile_subject] at hhead
    exact (Option.some.inj hhead).symm
  rw [pathParam_self] at hsubject
  rw [← hfirst]
  refine ⟨fun hnil => hraw ?_, hsubject⟩
  rw [hfirst, hnil]

theorem addressable_of_addressed {o : Origin} {subject : String} {call : ClientCall}
    (h : Addressed (o.scheme ++ "://" ++ o.authority) subject call) : Addressable subject := by
  obtain ⟨hne, hdecode⟩ := decodeText_of_addressed h
  have hwhole := eq_of_decodeText (List.takeWhile_prefix inSegment) hdecode
  rw [hwhole] at hne hdecode
  rw [String.ofList_toList] at hdecode
  refine ⟨?_, ?_, decodeText_eq_self_iff.mp hdecode⟩
  · rintro rfl
    exact hne rfl
  · have hplain := List.takeWhile_eq_self_iff.mp hwhole
    simpa [inSegment, inPath] using hplain

/-! ## The subjects that arrive -/

theorem toString_version_plain (version : SchemaVersion) {c : Char}
    (hc : c ∈ (toString version).toList) : c ≠ '/' ∧ c ≠ '?' ∧ c ≠ '#' ∧ c ≠ '%' := by
  rcases toString_int_chars version hc with hdigit | rfl
  · refine ⟨?_, ?_, ?_, ?_⟩ <;> rintro rfl <;> exact absurd hdigit (by decide)
  · decide

theorem repr_version_ne (version : SchemaVersion) : Int.repr version ≠ "" := by
  cases version with
  | ofNat n => exact Nat.repr_ne_empty
  | negSucc n => simp [Int.repr]

theorem segments_plain (call : ClientCall) : ∀ s ∈ call.segments, ∀ c ∈ s.toList,
    c ≠ '/' ∧ c ≠ '?' ∧ c ≠ '#' := by
  intro s hs c hc
  have hwords : ∀ s ∈ ["versions", "latest"], s.toList.all inSegment = true := by decide
  have hword : s ∈ ["versions", "latest"] → c ≠ '/' ∧ c ≠ '?' ∧ c ≠ '#' := by
    intro hs
    simpa [inSegment, inPath] using List.all_eq_true.mp (hwords s hs) c hc
  cases call with
  | register =>
    obtain rfl := List.mem_singleton.mp hs
    exact hword List.mem_cons_self
  | lookup => exact absurd hs List.not_mem_nil
  | latest => exact hword hs
  | schemaBySubjectVersion version =>
    rcases List.mem_pair.mp hs with rfl | rfl
    · exact hword List.mem_cons_self
    · obtain ⟨hslash, hquery, hfragment, _⟩ := toString_version_plain version hc
      exact ⟨hslash, hquery, hfragment⟩

theorem takeWhile_suffix (call : ClientCall) :
    call.suffix.takeWhile inPath = call.segments.flatMap fun s => '/' :: s.toList := by
  have hsegments : ∀ c ∈ call.segments.flatMap fun s => '/' :: s.toList, inPath c = true := by
    intro c hc
    obtain ⟨s, hs, hc⟩ := List.mem_flatMap.mp hc
    rcases List.mem_cons.mp hc with rfl | hc
    · rfl
    · obtain ⟨_, hquery, hfragment⟩ := segments_plain call s hs c hc
      simp [inPath, hquery, hfragment]
  have hquery : call.query.toList.takeWhile inPath = [] := by
    cases call <;> simp [ClientCall.query, inPath]
  unfold ClientCall.suffix
  rw [List.takeWhile_append_of_pos hsegments, hquery, List.append_nil]

/-- The path of an addressable subject has the segments that the client wrote. -/
theorem splitPath_addressable (o : Origin) {subject : String} (h : Addressable subject)
    (call : ClientCall) :
    splitPath (requestPath (call.url (o.scheme ++ "://" ++ o.authority) subject)) =
      "" :: "subjects" :: subject :: call.segments := by
  have hpath : ∀ c ∈ subject.toList, inPath c = true := by
    intro c hc
    obtain ⟨_, hquery, hfragment⟩ := h.plain c hc
    simp [inPath, hquery, hfragment]
  have hslash : '/' ∉ subject.toList := fun hmem => (h.plain _ hmem).1 rfl
  have hsegments : ∀ s ∈ call.segments, '/' ∉ s.toList := fun s hs hmem =>
    (segments_plain call s hs _ hmem).1 rfl
  rw [splitPath_call, List.takeWhile_append_of_pos hpath, takeWhile_suffix,
    splitOn_segments hslash hsegments]
  simp

theorem addressed_of_addressable (o : Origin) {subject : String} (h : Addressable subject)
    (call : ClientCall) : Addressed (o.scheme ++ "://" ++ o.authority) subject call := by
  have hsubject := decodeText_eq_self_iff.mpr h.unescaped
  -- Every call has its route.
  obtain ⟨r, hr, hpattern, hh⟩ : ∃ r ∈ routes, r.pattern = call.pattern ∧
      r.handler call.method = some call.handler := by
    cases call with
    | register =>
      exact (by decide : ∃ r ∈ routes, r.pattern = ClientCall.register.pattern ∧
        r.handler .post = some .register)
    | lookup =>
      exact (by decide : ∃ r ∈ routes, r.pattern = ClientCall.lookup.pattern ∧
        r.handler .post = some .lookup)
    | latest | schemaBySubjectVersion version =>
      exact (by decide : ∃ r ∈ routes, r.pattern = ClientCall.latest.pattern ∧
        r.handler .get = some .getVersion)
  let params := ("subject", subject) :: (call.version?.toList.map fun v => ("version", v))
  have hmatch : matchSegments r.pattern ("subjects" :: subject :: call.segments) = some params := by
    rw [hpattern]
    cases call <;> simp [ClientCall.pattern, ClientCall.segments, ClientCall.version?, params,
      matchSegments, h.nonempty, repr_version_ne]
  refine ⟨params, dispatch_iff.mpr ⟨_, splitPath_addressable o h call, r, hr, hmatch, hh⟩, ?_, ?_⟩
  · rw [pathParam_self, hsubject]
  · intro v hv
    -- A version is digits, a sign or `latest`, so decoding leaves it alone.
    have hplain : '%' ∉ v.toList := by
      cases call with
      | register | lookup => cases hv
      | latest =>
        cases hv
        decide
      | schemaBySubjectVersion version =>
        cases hv
        exact fun hmem => (toString_version_plain version hmem).2.2.2 rfl
    have hlookup : pathParam params "version" = decodeText v := by
      simp [params, hv, pathParam, List.lookup]
    rw [hlookup, decodeText_eq_self_iff.mpr (hasEscape_of_not_mem hplain)]

/-- A call reaches its handler with the subject that the client means exactly when the subject
stands for itself in a path. -/
theorem addressed_iff (o : Origin) (slashes : ℕ) (subject : String) (call : ClientCall) :
    Addressed (baseUrlOf (o.url slashes)) subject call ↔ Addressable subject := by
  rw [baseUrlOf_origin]
  constructor
  · exact addressable_of_addressed
  · exact fun h => addressed_of_addressable o h call

/-- A file path, as the descriptor-set import has it for a subject, reaches no handler, and a
lookup can reach the handler that registers, under another subject. -/
theorem file_path_not_addressed :
    dispatch .post (requestPath (registerUrl "http://localhost:8081" "common/money.proto")) =
      none ∧
    dispatch .post (requestPath (lookupUrl "http://localhost:8081" "common/versions")) =
      some (.register, [("subject", "common")]) ∧
    ¬ Addressed (baseUrlOf "http://localhost:8081/") "common/money.proto" .register := by
  have hnone : dispatch .post (requestPath (registerUrl "http://localhost:8081"
      "common/money.proto")) = none := by decide +kernel
  have hbase : baseUrlOf "http://localhost:8081/" = "http://localhost:8081" := by decide +kernel
  refine ⟨hnone, by decide +kernel, ?_⟩
  rintro ⟨params, hd, _⟩
  rw [hbase] at hd
  exact absurd (hnone.symm.trans hd) (by simp)

end KrabkaRegistry.Guarantees
