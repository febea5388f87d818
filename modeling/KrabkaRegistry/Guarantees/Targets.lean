import KrabkaRegistry.Guarantees.Addressing
import KrabkaRegistry.Rest.Journey
import KrabkaRegistry.Serde.Http

/-!
# What the Client Requests

The target of each URL of the client, as a URL parser leaves it, and the handler it is served by.
-/

namespace KrabkaRegistry.Guarantees

open KrabkaRegistry.Library.PercentCoding
open KrabkaRegistry.Library.UrlPath
open KrabkaRegistry.Rest
open KrabkaRegistry.Serde

/-! ## Plain segments -/

/-- A segment that a URL parser keeps as one segment. -/
structure PlainSegment (s : String) : Prop where
  slashless : '/' ∉ s.toList
  unescaped : '\\' ∉ s.toList
  dotless : isSingleDot s.toList = false ∧ isDoubleDot s.toList = false

/-- Only a dot or a percent sign is one in lower case. -/
private theorem toLower_ne {c d : Char} (hc : c.isAlphanum = true ∨ c = '-')
    (hd : (d = '.' || d = '%') = true) : c.toLower ≠ d := by
  have hplain : d.isAlpha = false ∧ d.isAlphanum = false ∧ d ≠ '-' := by
    rcases (Bool.or_eq_true_iff.mp hd).imp of_decide_eq_true of_decide_eq_true with rfl | rfl
    · decide
    · decide
  obtain ⟨halpha, halnum, hdash⟩ := hplain
  intro heq
  by_cases hupper : c.isUpper = true
  · have hletter : c.isAlpha = true := by
      change (c.isUpper || c.isLower) = true
      rw [hupper]
      rfl
    rw [← Char.isAlpha_toLower_eq_isAlpha, heq, halpha] at hletter
    cases hletter
  · rw [Char.toLower_eq_of_not_isUpper hupper] at heq
    subst heq
    rcases hc with hc | hc
    · rw [halnum] at hc
      cases hc
    · exact hdash hc

theorem PlainSegment.of_chars {s : String}
    (h : ∀ c ∈ s.toList, c.isAlphanum = true ∨ c = '-') : PlainSegment s := by
  have hnot : ∀ c : Char, c.isAlphanum = false → c ≠ '-' → c ∉ s.toList := by
    intro c hc hne hmem
    rcases h c hmem with hc' | rfl
    · rw [hc] at hc'
      cases hc'
    · exact hne rfl
  -- Every spelling of the dots has a dot or a percent sign in it.
  have hspelled : ∀ t : List Char, (t.any fun d => d = '.' || d = '%') = true →
      s.toList.map Char.toLower ≠ t := by
    rintro t ht rfl
    obtain ⟨d, hd, hdot⟩ := List.any_eq_true.mp ht
    obtain ⟨c, hc, hlower⟩ := List.mem_map.mp hd
    exact toLower_ne (h c hc) hdot hlower
  refine ⟨hnot _ (by decide) (by decide), hnot _ (by decide) (by decide), ?_, ?_⟩
  · refine decide_eq_false fun hmem => ?_
    have hdots : ∀ t ∈ [".".toList, "%2e".toList],
        (t.any fun d => d = '.' || d = '%') = true := by decide
    exact hspelled _ (hdots _ hmem) rfl
  · refine decide_eq_false fun hmem => ?_
    have hdots : ∀ t ∈ ["..".toList, ".%2e".toList, "%2e.".toList, "%2e%2e".toList],
        (t.any fun d => d = '.' || d = '%') = true := by decide
    exact hspelled _ (hdots _ hmem) rfl

/-- A character of a joined list is the separator or in a part. -/
private theorem mem_intercalate {a c : Char} {parts : List (List Char)}
    (h : c ∈ [a].intercalate parts) : c = a ∨ ∃ p ∈ parts, c ∈ p := by
  induction parts with
  | nil => simp at h
  | cons p parts ih =>
    cases parts with
    | nil =>
      rw [List.intercalate_singleton] at h
      exact .inr ⟨p, List.mem_cons_self, h⟩
    | cons q parts =>
      rw [List.intercalate_cons_cons, List.mem_append, List.mem_append] at h
      rcases h with (h | h) | h
      · exact .inr ⟨p, List.mem_cons_self, h⟩
      · exact .inl (List.mem_singleton.mp h)
      · obtain hc | ⟨p', hp', hc⟩ := ih h
        · exact .inl hc
        · exact .inr ⟨p', List.mem_cons_of_mem _ hp', hc⟩

/-- A path of plain segments is requested as it is. The three clauses are looked up in the path's
segments: a leading slash, no character that the parser escapes, and no dot segment. -/
theorem undotted_of_segments {path : String} {segments : List String}
    (hsplit : splitPath path = "" :: segments) (hne : segments ≠ [])
    (hplain : ∀ s ∈ segments, PlainSegment s) : Undotted path := by
  have hparts : path.toList.splitOn '/' = [] :: segments.map String.toList := by
    have hmap := congrArg (List.map String.toList) hsplit
    simpa [splitPath] using hmap
  have hjoin : path.toList = ['/'].intercalate ([] :: segments.map String.toList) := by
    rw [← hparts, List.intercalate_splitOn]
  refine ⟨?_, ?_, ?_⟩
  · obtain ⟨s, segments, rfl⟩ := List.exists_cons_of_ne_nil hne
    rw [hjoin, List.map_cons, List.intercalate_cons_cons]
    rfl
  · intro hmem
    rw [hjoin] at hmem
    obtain hslash | ⟨p, hp, hmem⟩ := mem_intercalate hmem
    · cases hslash
    · rcases List.mem_cons.mp hp with rfl | hp
      · exact absurd hmem List.not_mem_nil
      · obtain ⟨s, hs, rfl⟩ := List.mem_map.mp hp
        exact (hplain s hs).unescaped hmem
  · intro p hp
    rw [hparts] at hp
    rcases List.mem_cons.mp hp with rfl | hp
    · decide
    · obtain ⟨s, hs, rfl⟩ := List.mem_map.mp hp
      exact (hplain s hs).dotless

/-! ## Targets of the client -/

/-- A subject that stands for itself in a URL. -/
structure Routable (subject : String) : Prop extends Addressable subject where
  unescapedSlash : '\\' ∉ subject.toList
  dotless : isSingleDot subject.toList = false ∧ isDoubleDot subject.toList = false

theorem Routable.plainSegment {subject : String} (h : Routable subject) : PlainSegment subject :=
  ⟨fun hmem => (h.plain _ hmem).1 rfl, h.unescapedSlash, h.dotless⟩

theorem requestQuery_origin (o : Origin) {url : String} {rest : List Char}
    (h : url.toList = (o.scheme ++ "://" ++ o.authority).toList ++ '/' :: rest) :
    requestQuery url = queryIn rest := by
  have hscheme : url.toList.dropWhile (· ≠ ':') =
      ':' :: '/' :: '/' :: (o.authority.toList ++ '/' :: rest) := by
    rw [h]
    simp only [String.toList_append, String.reduceToList, List.append_assoc]
    rw [List.dropWhile_append_of_pos (by simpa using o.scheme_plain)]
    rfl
  have hauthority : (o.authority.toList ++ '/' :: rest).dropWhile
      (fun c => c ≠ '/' && c ≠ '?' && c ≠ '#') = '/' :: rest := by
    rw [List.dropWhile_append_of_pos (by simpa [and_assoc] using o.authority_plain)]
    simp
  unfold requestQuery
  simp only [hscheme, List.drop_succ_cons, List.drop_zero, hauthority]
  unfold queryIn
  rfl

/-- A text before the query is passed over. -/
theorem queryIn_append {front rest : List Char} (h : ∀ c ∈ front, inPath c = true) :
    queryIn (front ++ rest) = queryIn rest := by
  unfold queryIn
  rw [List.dropWhile_append_of_pos (by simpa [inPath] using h)]

theorem requestQuery_call (o : Origin) {subject : String} (h : Addressable subject)
    (call : ClientCall) :
    requestQuery (call.url (o.scheme ++ "://" ++ o.authority) subject) = queryIn call.query.toList := by
  have hsubject : ∀ c ∈ subject.toList, inPath c = true := by
    intro c hc
    obtain ⟨_, hquery, hfragment⟩ := h.plain c hc
    simp [inPath, hquery, hfragment]
  have hsegments : ∀ c ∈ call.segments.flatMap fun s => '/' :: s.toList, inPath c = true := by
    intro c hc
    obtain ⟨s, hs, hc⟩ := List.mem_flatMap.mp hc
    rcases List.mem_cons.mp hc with rfl | hc
    · rfl
    · obtain ⟨_, hquery, hfragment⟩ := segments_plain call s hs c hc
      simp [inPath, hquery, hfragment]
  have hwords : ∀ c ∈ "subjects".toList, inPath c = true := List.all_eq_true.mp (by decide)
  have hslash : ∀ rest, queryIn ('/' :: rest) = queryIn rest := fun rest =>
    queryIn_append (List.all_eq_true.mp (by decide : ['/'].all inPath = true))
  rw [requestQuery_origin o (call.url_toList _ subject), queryIn_append hwords, hslash,
    queryIn_append hsubject, ClientCall.suffix, queryIn_append hsegments]

variable (P : UrlParser)

/-- The path of a call's target is served as the client means it. -/
theorem dispatch_target (o : Origin) {subject : String} (h : Routable subject)
    (call : ClientCall) :
    ∃ params, dispatch call.method
        (P.target (call.url (o.scheme ++ "://" ++ o.authority) subject)).path =
        some (call.handler, params) ∧
      pathParam params "subject" = some subject ∧
      ∀ v, call.version? = some v → pathParam params "version" = some v := by
  obtain ⟨params, hd, hsubject, hversion⟩ := addressed_of_addressable o h.toAddressable call
  -- No segment of the call is a dot segment: not the literal ones, not the subject, not a version.
  have hwords : ∀ s ∈ ["subjects", "versions", "latest"], PlainSegment s := by
    have hletters : ∀ s ∈ ["subjects", "versions", "latest"],
        (s.toList.all Char.isAlphanum) = true := by decide
    exact fun s hs => .of_chars fun c hc => .inl (List.all_eq_true.mp (hletters s hs) c hc)
  have hnumeral : ∀ n : SchemaVersion, PlainSegment (toString n) := by
    refine fun n => .of_chars fun c hc => ?_
    rcases toString_int_chars n hc with hdigit | rfl
    · refine .inl ?_
      change (c.isAlpha || c.isDigit) = true
      rw [hdigit, Bool.or_true]
    · exact .inr rfl
  have hplain : ∀ s ∈ "subjects" :: subject :: call.segments, PlainSegment s := by
    intro s hs
    rcases List.mem_cons.mp hs with rfl | hs
    · exact hwords _ (by decide)
    · rcases List.mem_cons.mp hs with rfl | hs
      · exact h.plainSegment
      · cases call with
        | register =>
          obtain rfl := List.mem_singleton.mp hs
          exact hwords _ (by decide)
        | lookup => exact absurd hs List.not_mem_nil
        | latest => exact hwords s (List.mem_cons_of_mem _ hs)
        | schemaBySubjectVersion version =>
          rcases List.mem_pair.mp hs with rfl | rfl
          · exact hwords _ (by decide)
          · exact hnumeral version
  -- So the URL parser leaves the path as it is, up to percent-encoding, which the handler undoes.
  have hundotted := undotted_of_segments (splitPath_addressable o h.toAddressable call)
    (List.cons_ne_nil _ _) hplain
  refine ⟨encodeParams P.encodeSet params, ?_, ?_, ?_⟩
  · rw [UrlParser.target, dispatch_parsePath P.encodeSet call.method hundotted, hd]
    rfl
  · rw [pathParam_encodeParams, hsubject]
  · intro v hv
    rw [pathParam_encodeParams, hversion v hv]

/-- The target of a URL with the given segments and nothing else. -/
theorem splitPath_origin (o : Origin) {url : String} {segments : List String}
    (hne : segments ≠ [])
    (h : url.toList = (o.scheme ++ "://" ++ o.authority).toList ++
      segments.flatMap fun s => '/' :: s.toList)
    (hplain : ∀ s ∈ segments, ∀ c ∈ s.toList, c ≠ '/' ∧ inPath c = true) :
    splitPath (requestPath url) = "" :: segments ∧ requestQuery url = none := by
  -- No segment ends the path, so all of it is cut from the URL.
  have hpath : ∀ c ∈ segments.flatMap fun s => '/' :: s.toList, inPath c = true := by
    intro c hc
    obtain ⟨s, hs, hc⟩ := List.mem_flatMap.mp hc
    rcases List.mem_cons.mp hc with rfl | hc
    · rfl
    · exact (hplain s hs c hc).2
  obtain ⟨s, rest, rfl⟩ := List.exists_cons_of_ne_nil hne
  rw [List.flatMap_cons, List.cons_append] at h hpath
  have hrest := fun c hc => hpath c (List.mem_cons_of_mem _ hc)
  constructor
  · have hslash : ∀ t ∈ s :: rest, '/' ∉ t.toList := fun t ht hmem => (hplain t ht _ hmem).1 rfl
    have hsplit := splitOn_segments List.not_mem_nil hslash
    rw [requestPath_origin o h, List.takeWhile_eq_self_iff.mpr hrest, splitPath,
      String.toList_ofList]
    rw [List.nil_append, List.flatMap_cons, List.cons_append] at hsplit
    rw [hsplit, List.map_cons, List.map_map]
    simp
  · have hnone := @queryIn_append _ [] hrest
    rw [List.append_nil] at hnone
    rw [requestQuery_origin o h, hnone]
    rfl

theorem toString_nat_digits {n : ℕ} {c : Char} (hc : c ∈ (toString n).toList) : c.isDigit = true := by
  have hmem : c ∈ Nat.toDigits 10 n := by simpa [toString, Nat.repr] using hc
  exact Nat.isDigit_of_mem_toDigits (by decide) (by decide) hmem

theorem isAlphanum_of_isDigit {c : Char} (h : c.isDigit = true) : c.isAlphanum = true := by
  change (c.isAlpha || c.isDigit) = true
  rw [h, Bool.or_true]

/-- What is requested for an id, with the segment behind it. The digits of the id and the words are
alphanumeric, so neither the URL parser nor the router changes them. -/
theorem idTarget (o : Origin) (id : UInt32) {url : String} {h : Handler} {words : List String}
    (hwords : ∀ s ∈ words, s.toList.all Char.isAlphanum = true)
    (hurl : url.toList = (o.scheme ++ "://" ++ o.authority).toList ++
      ("schemas" :: "ids" :: toString id.toNat :: words).flatMap fun s => '/' :: s.toList)
    (hroute : ∃ r ∈ routes, r.pattern =
        .literal "schemas" :: .literal "ids" :: .param "id" :: words.map .literal ∧
      r.handler .get = some h) :
    dispatch .get (P.target url).path = some (h, [("id", toString id.toNat)]) ∧
      (P.target url).query = none := by
  -- Every segment is alphanumeric, so no character of the path has a meaning of its own.
  have hletters : ∀ s ∈ "schemas" :: "ids" :: toString id.toNat :: words, ∀ c ∈ s.toList,
      c.isAlphanum = true := by
    intro s hs
    rcases List.mem_cons.mp hs with rfl | hs
    · exact List.all_eq_true.mp (by decide)
    rcases List.mem_cons.mp hs with rfl | hs
    · exact List.all_eq_true.mp (by decide)
    rcases List.mem_cons.mp hs with rfl | hs
    · exact fun c hc => isAlphanum_of_isDigit (toString_nat_digits hc)
    · exact List.all_eq_true.mp (hwords s hs)
  have hplain : ∀ c : Char, c.isAlphanum = true → c ≠ '/' ∧ inPath c = true := by
    intro c hc
    have hne : ∀ d : Char, d.isAlphanum = false → c ≠ d := by
      rintro d hd rfl
      rw [hd] at hc
      cases hc
    refine ⟨hne '/' (by decide), ?_⟩
    simp [inPath, hne '?' (by decide), hne '#' (by decide)]
  obtain ⟨hsplit, hquery⟩ := splitPath_origin o (List.cons_ne_nil _ _) hurl fun s hs c hc =>
    hplain c (hletters s hs c hc)
  have hundotted := undotted_of_segments hsplit (List.cons_ne_nil _ _) fun s hs =>
    .of_chars fun c hc => .inl (hletters s hs c hc)
  -- Literal segments match themselves and bind nothing.
  have hmatch : ∀ ws : List String, matchSegments (ws.map .literal) ws = some [] := by
    intro ws
    induction ws with
    | nil => rfl
    | cons w ws ih => rw [List.map_cons, matchSegments, if_pos rfl, ih]
  have hdigits : toString id.toNat ≠ "" := Nat.repr_ne_empty
  obtain ⟨r, hr, hpattern, hh⟩ := hroute
  have hd : dispatch .get (requestPath url) = some (h, [("id", toString id.toNat)]) := by
    refine dispatch_iff.mpr ⟨_, hsplit, r, hr, ?_, hh⟩
    rw [hpattern, matchSegments, if_pos rfl, matchSegments, if_pos rfl, matchSegments,
      if_neg hdigits, hmatch]
    rfl
  -- Nothing in the id needs an escape.
  have hself : encodeSegment P.encodeSet (toString id.toNat) = toString id.toNat := by
    rw [encodeSegment_eq_iff P.encodeSet (hletters _ (by simp))]
  constructor
  · rw [UrlParser.target, dispatch_parsePath P.encodeSet .get hundotted, hd]
    exact congrArg (fun s => some (h, [("id", s)])) hself
  · rw [UrlParser.target, hquery]
    rfl

end KrabkaRegistry.Guarantees
