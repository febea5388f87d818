import KrabkaRegistry.Guarantees.Documents
import KrabkaRegistry.Guarantees.Targets

/-!
# The Client against the Store

The client and the server, each with its own code, from a call of the client through its URL, the
router, the handler and the answer to what the client returns.
-/

namespace KrabkaRegistry.Guarantees

open KrabkaRegistry.Format (Formats Libs)
open KrabkaRegistry.Format.Json
open KrabkaRegistry.Kafkastore.Codec
open KrabkaRegistry.Library.PercentCoding
open KrabkaRegistry.Rest
open KrabkaRegistry.Serde
open KrabkaRegistry.Store

/-! ## Answers -/

/-- An error of the registry as the client reports it. -/
def refusal (T : ServerTexts) (e : SrError) : RegistryError :=
  .registryStatus e.httpStatus e.errorCode (e.display T.debug)

section Answers

variable {c : HttpClient} (hJ : FaithfulJson c.J c.fromSlice) {T : ServerTexts}
  {α : Type} {read : Value → Option α} {method : Method} {url body : String}

include hJ

theorem call_okJson {v : Value} (hv : ReadsBack c.J c.fromSlice v)
    (hsend : c.send method url body = .ok (okJson c.J v)) :
    c.call method url body read =
      (read v).elim (.error (.registryDecode (c.decodeError (toJsonString c.J v)))) .ok := by
  have hread : c.fromSlice (toJsonString c.J v).toUTF8 = some v := hJ.reads hv
  rw [HttpClient.call, hsend]
  simp only [HttpClient.parse, okJson, hread, Option.bind_some]
  rw [if_pos (by decide)]
  cases read v <;> rfl

omit hJ in
theorem httpStatus_refused (e : SrError) : ¬ (200 ≤ e.httpStatus ∧ e.httpStatus < 300) := by
  have hmem : e.httpStatus ∈ [400, 403, 404, 405, 409, 422, 500] := by
    cases e <;> simp [SrError.httpStatus]
  have hnone : ([400, 403, 404, 405, 409, 422, 500].all fun s : UInt16 =>
      !decide (200 ≤ s ∧ s < 300)) = true := by decide
  have hrefused := List.all_eq_true.mp hnone _ hmem
  rw [Bool.not_eq_true'] at hrefused
  exact of_decide_eq_false hrefused

omit hJ in
theorem isI32_errorCode (e : SrError) : IsI32 e.errorCode.toInt := by
  have hlow := Int32.le_toInt e.errorCode
  have hhigh := Int32.toInt_lt e.errorCode
  unfold IsI32 i32Max
  omega

theorem call_refused {e : SrError}
    (hsend : c.send method url body = .ok (intoResponse c.J T e)) :
    c.call method url body read = .error (refusal T e) := by
  let m : BTreeMap String Value :=
    (Std.ExtTreeMap.empty.insert "error_code" (intValue e.errorCode.toInt)).insert "message"
      (.string (e.display T.debug))
  have hm : MembersReadBack c.J c.fromSlice m :=
    (membersReadBack_empty.insert _ (readsBack_intValue (isI32_errorCode e))).insert _ (.string _)
  have hread : c.fromSlice (toJsonString c.J (mapValue m)).toUTF8 = some (mapValue m) :=
    hJ.reads hm.mapValue
  have hbody : readErrorBody (mapValue m) = some (e.errorCode.toInt, e.display T.debug) := by
    have hmessage : m["message"]? = some (.string (e.display T.debug)) := by
      simp only [m, BTreeMap.getElem?_insert, if_true]
    have hcode : m["error_code"]? = some (intValue e.errorCode.toInt) := by
      simp only [m, BTreeMap.getElem?_insert]
      rfl
    simp [readErrorBody, hmessage, hcode, readI32_intValue (isI32_errorCode e)]
  have hresponse : intoResponse c.J T e =
      ⟨e.httpStatus, vendorContentType, toJsonString c.J (mapValue m)⟩ := rfl
  rw [HttpClient.call, hsend, hresponse]
  simp only [HttpClient.parse, hread, Option.bind_some, hbody]
  rw [if_neg (httpStatus_refused e), Int32.ofInt_toInt]
  rfl

end Answers

/-! ## What the store says -/

/-- The numbers that a store holds have the source's types. -/
structure Ranged (st : StoreState) : Prop where
  entries : ∀ s, ∀ e ∈ entries st s, IsI32 e.id ∧ IsI32 e.version
  references : ∀ (n : SchemaId) (reg : RegisteredSchema), st.byId[n]? = some reg →
    ∀ r ∈ reg.references, IsI32 r.version

/-- What there is for an id, in a live version. -/
def storedById (T : ServerTexts) (st : StoreState) (id : UInt32) :
    Except RegistryError FetchedSchema :=
  if (id.toNat : Int) ≤ i32Max then
    match st.schemaById id.toNat false with
    | some (ty, schema, references, messageType) =>
      .ok ⟨schema, .fromWireName ty.wireName, messageType, references⟩
    | none => .error (refusal T .schemaNotFound)
  else .error (refusal T .notFound)

/-- What a client reads where the store has an outcome with an id. -/
inductive Told (T : ServerTexts) {α β : Type} (id : α → SchemaId) (view : α → UInt32 → β) :
    Result α → Except RegistryError β → Prop
  | found {a : α} : 0 ≤ id a → Told T id view (.ok a) (.ok (view a (UInt32.ofNat (id a).toNat)))
  /-- An import can bring a negative id, which no client can read. -/
  | negative {a : α} (reason : String) : id a < 0 →
      Told T id view (.ok a) (.error (.registryDecode reason))
  | refused (e : SrError) : Told T id view (.error (.error e)) (.error (refusal T e))

/-- What the client sends under its base URL reaches a node, and the answer comes back. -/
structure Connected (c : HttpClient) (P : UrlParser) (o : Origin)
    (node : Method → Uri → String → Option Response) : Prop where
  baseUrl : ∃ slashes, c.baseUrl = baseUrlOf (o.url slashes)
  send : ∀ method url body resp, c.baseUrl.toList ++ ['/'] <+: url.toList →
    node method (P.target url) body = some resp → c.send method url body = .ok resp

/-! ## What the handlers find -/

theorem parseI32_nat (n : ℕ) :
    parseI32 (toString n) = if (n : Int) ≤ i32Max then some (n : Int) else none := by
  have htext : toString n = toString (n : Int) := rfl
  rw [parseI32, htext, parseSigned_toString]
  by_cases hn : (n : Int) ≤ i32Max
  · have hlow : (-2147483648 : Int) ≤ n := by omega
    simp [Option.filter, hn, hlow]
  · simp [Option.filter, hn]

theorem deletedQ_none (T : ServerTexts) : deletedQ T none = .ok false := by
  simp [deletedQ, queryToggle, formPairs]

theorem decodeText_nat (n : ℕ) : decodeText (toString n) = some (toString n) := by
  refine decodeText_eq_self_iff.mpr (hasEscape_of_not_mem fun hmem => ?_)
  exact absurd (toString_nat_digits hmem) (by decide)

/-- What a lookup finds is a version of the subject. The index leads from the key to an id, and the
answer is an entry of the subject with that id. -/
theorem lookup_cases (L : Libs) (F : Formats) (st : StoreState) (subject : String)
    (req : RegisterBody) :
    (∃ r, Rest.lookup L F st subject false false req = .ok r ∧
      (∃ e ∈ entries st subject, e.id = r.id ∧ e.version = r.version) ∧
      ∃ key, st.identityKey F (.fromWire req.schemaType) req.schema req.references
        req.messageType = .ok key ∧ st.byCanonical[key]? = some r.id ∧
        ∃ content, st.schemaById r.id false = some content) ∨
    ∃ e, Rest.lookup L F st subject false false req = .error (.error e) := by
  have hsent : sentText L false req = .ok req.schema := rfl
  unfold Rest.lookup
  rw [hsent]
  simp only [bind, Except.bind]
  -- The subject has to have versions, one of them the schema, and its id content.
  split_ifs with hversions
  · exact .inr ⟨_, rfl⟩
  · cases hfind : st.findUnderSubject F subject (.fromWire req.schemaType) req.schema
        req.references req.messageType false with
    | none => exact .inr ⟨_, rfl⟩
    | some found =>
      dsimp only
      cases hcontent : st.schemaById found.id false with
      | none => exact .inr ⟨_, rfl⟩
      | some content =>
        obtain ⟨sty, schema, references, messageType⟩ := content
        refine .inl ⟨_, rfl, ?_⟩
        -- What was found is the id of the index, at an entry of the subject.
        unfold StoreState.findUnderSubject at hfind
        split at hfind
        · cases hfind
        · rename_i key hkey
          unfold StoreState.findUnderSubjectCanonical at hfind
          split at hfind
          · rename_i id l hid hl
            obtain ⟨e, he, rfl⟩ := Option.map_eq_some_iff.mp hfind
            have hmem := List.mem_of_find?_eq_some he
            have hprop := List.find?_some he
            have heid : e.id = id := (of_decide_eq_true hprop).1
            refine ⟨⟨e, ?_, heid, rfl⟩, key, hkey, hid, _, hcontent⟩
            rw [entries, hl, Option.getD_some]
            exact hmem
          · cases hfind

/-! ## One call -/

section Reading

variable {T : ServerTexts} {L : Libs} {F : Formats} {st : StoreState} {c : HttpClient}
  {P : UrlParser} {o : Origin}

theorem Connected.base {node : Method → Uri → String → Option Response}
    (h : Connected c P o node) : c.baseUrl = o.scheme ++ "://" ++ o.authority := by
  obtain ⟨slashes, hbase⟩ := h.baseUrl
  rw [hbase, baseUrlOf_origin]

variable (hJ : FaithfulJson c.J c.fromSlice)
  (hconn : Connected c P o (serve c.J T st L F c.fromSlice))

include hconn

/-- What is sent for an id is handled with the id and without a query. -/
theorem send_id {url : String} (id : UInt32) {h : Handler} (words : List String)
    (hwords : ∀ s ∈ words, s.toList.all Char.isAlphanum = true)
    (hurl : url.toList = c.baseUrl.toList ++
      ("schemas" :: "ids" :: toString id.toNat :: words).flatMap fun s => '/' :: s.toList)
    (hroute : ∃ r ∈ routes, r.pattern =
        .literal "schemas" :: .literal "ids" :: .param "id" :: words.map .literal ∧
      r.handler .get = some h) {resp : Response}
    (hresp : readHandler c.J T st L F c.fromSlice [("id", toString id.toNat)] none "" h =
      some resp) :
    c.send .get url "" = .ok resp := by
  have hbase := hconn.base
  refine hconn.send _ _ _ _ ?_ ?_
  · refine ⟨("schemas".toList ++ ("ids" :: toString id.toNat :: words).flatMap fun s =>
      '/' :: s.toList), ?_⟩
    rw [hurl]
    simp
  · rw [hbase] at hurl
    obtain ⟨hd, hquery⟩ := idTarget P o id hwords hurl hroute
    rw [serve, hd, hquery]
    exact hresp


include hJ in
theorem schemaById_store (hst : Ranged st) (id : UInt32) :
    c.schemaById id = storedById T st id := by
  have hsend : ∀ resp, readHandler c.J T st L F c.fromSlice [("id", toString id.toNat)] none ""
      .getById = some resp →
      c.send .get (HttpClient.schemaByIdUrl c.baseUrl id) "" = .ok resp := by
    intro resp hresp
    refine send_id hconn id [] (by simp) ?_ (by decide) hresp
    simp [HttpClient.schemaByIdUrl]
  have hhandler : readHandler c.J T st L F c.fromSlice [("id", toString id.toNat)] none ""
      .getById = answered c.J T (getById c.J st (toString id.toNat) false) := by
    rw [readHandler, withParam, pathParam_self, decodeText_nat, deletedQ_none]
    rfl
  rw [hhandler] at hsend
  rw [HttpClient.schemaById, HttpClient.getJson, storedById]
  -- The server reads ids as `i32`, while the client has `u32`.
  by_cases hid : (id.toNat : Int) ≤ i32Max
  · have hparse : parseSchemaId (toString id.toNat) = .ok (id.toNat : Int) := by
      rw [parseSchemaId, parseI32_nat, if_pos hid]
    rw [if_pos hid]
    cases hfound : st.schemaById id.toNat false with
    | none =>
      have hget : getById c.J st (toString id.toNat) false = .error (.error .schemaNotFound) := by
        simp only [getById, hparse, hfound, Kafkastore.fail, bind, Except.bind]
      rw [hget] at hsend
      rw [call_refused hJ (hsend _ rfl)]
      rfl
    | some content =>
      obtain ⟨ty, schema, references, messageType⟩ := content
      -- What the store holds fits the types of the wire.
      have hrefs : ∀ r ∈ references, IsI32 r.version := by
        unfold StoreState.schemaById at hfound
        cases hreg : st.byId[(id.toNat : SchemaId)]? with
        | none => simp [hreg] at hfound
        | some reg =>
          simp only [hreg] at hfound
          split_ifs at hfound
          cases hfound
          exact hst.references _ _ hreg
      have hget : getById c.J st (toString id.toNat) false =
          .ok (okJson c.J (mapValue (schemaContent ∅ ty messageType schema references))) := by
        simp only [getById, hparse, hfound, bind, Except.bind, pure, Except.pure]
      have hread : MembersReadBack c.J c.fromSlice
          (schemaContent ∅ ty messageType schema references) :=
        membersReadBack_schemaContent membersReadBack_empty ty messageType schema hrefs
      rw [hget] at hsend
      rw [call_okJson hJ hread.mapValue (hsend _ rfl),
        deserialize_schemaById ty messageType schema hrefs]
      rfl
  -- An id above the range is refused before the store is asked.
  · have hget : getById c.J st (toString id.toNat) false = .error (.error .notFound) := by
      simp only [getById, parseSchemaId, parseI32_nat, hid, if_false, Kafkastore.fail, bind,
        Except.bind]
    rw [if_neg hid]
    rw [hget] at hsend
    rw [call_refused hJ (hsend _ rfl)]
    rfl

/-- What is sent for a subject is handled with the subject and the version that are meant. -/
theorem send_call {subject body : String} (h : Routable subject) (call : ClientCall)
    {resp : Response}
    (hresp : ∀ params, pathParam params "subject" = some subject →
      (∀ v, call.version? = some v → pathParam params "version" = some v) →
      readHandler c.J T st L F c.fromSlice params ((queryIn call.query.toList).map P.query) body
        call.handler = some resp) :
    c.send call.method (call.url c.baseUrl subject) body = .ok resp := by
  refine hconn.send _ _ _ _ ?_ ?_
  · rw [call.url_toList]
    exact ⟨_, by simp; rfl⟩
  · rw [hconn.base]
    obtain ⟨params, hd, hsubject, hversion⟩ := dispatch_target P o h call
    have hquery : (P.target (call.url (o.scheme ++ "://" ++ o.authority) subject)).query =
        (queryIn call.query.toList).map P.query := by
      rw [UrlParser.target, requestQuery_call o h.toAddressable call]
    rw [serve, hd, hquery]
    exact hresp params hsubject hversion

include hJ in
theorem lookup_store (hst : Ranged st) {subject : String} {x : LocalSchema}
    (h : Routable subject) (hrefs : ∀ r ∈ x.references, IsI32 r.version)
    (hlimit : (toJsonString c.J x.payload).utf8ByteSize ≤ bodyLimit) :
    Told T (·.id) (fun _ id => id)
      (Rest.lookup L F st subject false false (LocalSchema.registerBody x))
      (c.registry.lookup subject x) := by
  obtain ⟨hpayload, hbody⟩ := deserialize_payload c.J c.fromSlice x hrefs
  -- What the client sends is what the handler reads.
  have hread : c.fromSlice (toJsonString c.J x.payload).toUTF8 = some x.payload := hJ.reads hpayload
  have hreq : readRegisterBody T c.fromSlice (toJsonString c.J x.payload) =
      .ok (LocalSchema.registerBody x) := by
    simp only [readRegisterBody, hread, Option.bind_some, hbody]
  have hnormalize : normalizeQuery T none = .ok false := by
    simp [normalizeQuery, queryToggle, formPairs]
  have hsend : ∀ resp, answered c.J T (Rest.lookup L F st subject false false
      (LocalSchema.registerBody x) >>= fun r => .ok (okJson c.J (lookupValue r))) = some resp →
      c.send .post (lookupUrl c.baseUrl subject) (toJsonString c.J x.payload) = .ok resp := by
    intro resp hresp
    refine send_call hconn h .lookup fun params hsubject _ => ?_
    have hquery : queryIn (ClientCall.query .lookup).toList = none := by decide
    -- Within the limit the body reaches the handler whole.
    have hsmall : decide (bodyLimit < (toJsonString c.J x.payload).utf8ByteSize) = false :=
      decide_eq_false (not_lt.mpr hlimit)
    simp only [hquery, ClientCall.handler, readHandler, withParam, hsubject, Option.map_none,
      deletedQ_none, hnormalize, hsmall, Bool.and_false, Bool.false_eq_true, if_false, pure,
      Except.pure, bind, Except.bind, hreq]
    exact hresp
  have hcall : c.registry.lookup subject x = (·.id) <$> c.call .post
      (lookupUrl c.baseUrl subject) (toJsonString c.J x.payload)
      SubjectVersionResponse.deserialize := rfl
  rw [hcall]
  -- The store answers with a version that it holds, or refuses.
  obtain ⟨r, hlookup, ⟨e, he, hid, hversion⟩, _⟩ | ⟨e, hlookup⟩ :=
    lookup_cases L F st subject (LocalSchema.registerBody x)
  · obtain ⟨hidRange, hversionRange⟩ := hst.entries subject e he
    rw [hid] at hidRange
    rw [hversion] at hversionRange
    have hdocument : ReadsBack c.J c.fromSlice (lookupValue r) :=
      (((((membersReadBack_empty.insert _ (.string r.subject)).insert _
        (readsBack_intValue hidRange)).insert _ (readsBack_intValue hversionRange)).insertSome _
        fun _ => readsBack_map_string).insertSome _ fun _ => readsBack_map_string).insert _
        (.string r.schema) |>.mapValue
    have hdeserialize : SubjectVersionResponse.deserialize (lookupValue r) =
        (readU32 (intValue r.id)).map fun id =>
          ⟨id, r.version, r.schema, r.schemaType, r.messageType, []⟩ := by
      rw [lookupValue, SubjectVersionResponse.deserialize, structMembers_mapValue]
      simp only [Option.bind_eq_bind, Option.bind_some, required_toList, defaulted_toList,
        oneMember, getElem?_insertSome, BTreeMap.getElem?_insert]
      cases hu : readU32 (intValue r.id) <;> simp [hu, readI32_intValue hversionRange]
    rw [hlookup] at hsend
    rw [hlookup, call_okJson hJ hdocument (hsend _ rfl), hdeserialize]
    -- Only an IMPORT can have bound a negative id, which the client's type cannot hold.
    by_cases hneg : r.id < 0
    · rw [readU32_negative hneg]
      exact .negative _ hneg
    · rw [readU32_intValue (not_lt.mp hneg) hidRange.2]
      exact .found (not_lt.mp hneg)
  · rw [hlookup] at hsend
    rw [hlookup, call_refused hJ (hsend _ rfl)]
    exact .refused e

end Reading

end KrabkaRegistry.Guarantees
