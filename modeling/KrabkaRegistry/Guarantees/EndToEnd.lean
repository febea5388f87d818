import KrabkaRegistry.Guarantees.Bindings
import KrabkaRegistry.Guarantees.ClientClosure
import KrabkaRegistry.Guarantees.Closures
import KrabkaRegistry.Guarantees.Fetching
import KrabkaRegistry.Guarantees.Identity
import KrabkaRegistry.Guarantees.OverHttp

/-!
# From End to End

What the client, the cache over it and a consumer of the cache get from a registry: the schemas
that are stored (`client_reads_store`, `fetch_over_http`), the schema whose id was looked up
(`lookup_then_fetch`), and for good nothing where one node had no schema (`unknown_id_refused`).
-/

namespace KrabkaRegistry.Guarantees

open KrabkaRegistry.Format (Formats Libs)
open KrabkaRegistry.Format.Json
open KrabkaRegistry.Kafkastore (Op World Run mayDropNullAlone)
open KrabkaRegistry.Kafkastore.Codec
open KrabkaRegistry.Library (Trace)
open KrabkaRegistry.Library.DepthFirst
open KrabkaRegistry.Library.PercentCoding (hasEscape)
open KrabkaRegistry.Library.UrlPath (isDoubleDot isSingleDot)
open KrabkaRegistry.Rest
open KrabkaRegistry.Serde
open KrabkaRegistry.Serde.RegistryClient (Sources)
open KrabkaRegistry.Store

/-! ## Whole walks -/

def localOrigin : Origin where
  scheme := "http"
  authority := "localhost:8081"
  scheme_plain := by
    intro c hc
    have hall : "http".toList.all (fun c => c ≠ ':') = true := by decide
    simpa using List.all_eq_true.mp hall c hc
  authority_plain := by
    intro c hc
    have hall : "localhost:8081".toList.all (fun c => c ≠ '/' && c ≠ '?' && c ≠ '#') = true := by
      decide
    simpa [and_assoc] using List.all_eq_true.mp hall c hc
  authority_ne := by decide

def plainUrls : UrlParser where
  encodeSet := .path
  query := id
  query_plain := fun _ _ => rfl

def sampleTexts : ServerTexts where
  debug messages := "[" ++ ", ".intercalate (messages.map fun m => "\"" ++ m ++ "\"") ++ "]"
  queryRejection name := "Failed to deserialize query string: duplicate field " ++ name
  pathRejection := ⟨400, "text/plain; charset=utf-8", "Invalid UTF-8 in path"⟩
  bodyRejection := ⟨413, "text/plain; charset=utf-8",
    "Failed to buffer the request body: length limit exceeded"⟩
  bodyError _ := "expected value at line 1 column 1"

/-- A client of a node that has the given store. -/
def nodeClient (st : StoreState) : HttpClient where
  baseUrl := "http://localhost:8081"
  send method url body :=
    (serve SerdeJson.sample sampleTexts st Libs.sample Formats.sample readDocument method
      (plainUrls.target url) body).elim (.error "connection closed before message completed") .ok
  J := SerdeJson.sample
  fromSlice := readDocument
  decodeError _ := "expected value at line 1 column 1"

theorem nodeClient_connected (st : StoreState) :
    Connected (nodeClient st) plainUrls localOrigin
      (serve SerdeJson.sample sampleTexts st Libs.sample Formats.sample readDocument) where
  baseUrl := by
    refine ⟨0, ?_⟩
    rw [baseUrlOf_origin]
    change "http://localhost:8081" = "http" ++ "://" ++ "localhost:8081"
    decide
  send method url body resp _ hresp := by
    unfold nodeClient
    dsimp only
    rw [hresp]
    rfl

theorem ranged_of_toList {st : StoreState}
    (h : ∀ p ∈ st.subjects.toList, ∀ e ∈ p.2, IsI32 e.id ∧ IsI32 e.version)
    (h' : ∀ p ∈ st.byId.toList, ∀ r ∈ p.2.references, IsI32 r.version) : Ranged st where
  entries := by
    intro s e he
    unfold entries at he
    cases hs : st.subjects[s]? with
    | none => simp [hs] at he
    | some l =>
      have hmem : (s, l) ∈ st.subjects.toList :=
        Std.ExtTreeMap.mem_toList_iff_getElem?_eq_some.mpr hs
      exact h _ hmem e (by simpa [hs] using he)
  references n reg hreg :=
    h' (n, reg) (Std.ExtTreeMap.mem_toList_iff_getElem?_eq_some.mpr hreg)

theorem diamondStore_ranged : Ranged diamondStore :=
  ranged_of_toList (by decide +kernel) (by decide +kernel)

theorem diamondStore_consistent : Consistent Formats.sample diamondStore := by
  have hrun : Run Formats.sample {} mayDropNullAlone _
      ((World.start {}).afterAll Formats.sample diamondOps) :=
    Run.steps (Trace.nil _) diamondOps (by decide +kernel)
  exact hrun.consistent

/-! ## Results -/

section Walks

variable {T : ServerTexts} {L : Libs} {F : Formats} {st : StoreState} {c : HttpClient}
  {P : UrlParser} {o : Origin}

/-- A content that is read by its id is the id's, and a live version has the id. -/
theorem live_of_schemaById {n : SchemaId} {ty : SchemaType} {schema : String}
    {references : List SchemaReference} {messageType : Option String}
    (h : st.schemaById n false = some (ty, schema, references, messageType)) :
    (∃ s, ∃ e ∈ entries st s, e.id = n) ∧
      ∃ extra, st.byId[n]? = some ⟨ty, schema, references, messageType, extra⟩ := by
  unfold StoreState.schemaById at h
  split at h
  · cases h
  · rename_i reg hreg
    split_ifs at h with hany
    cases h
    obtain ⟨⟨s, l⟩, hl, hentry⟩ := List.any_eq_true.mp hany
    obtain ⟨e, he, hid⟩ := List.any_eq_true.mp hentry
    have hs : st.subjects[s]? = some l := Std.ExtTreeMap.mem_toList_iff_getElem?_eq_some.mp hl
    refine ⟨⟨s, e, by rw [entries, hs, Option.getD_some]; exact he, ?_⟩, reg.extra, hreg⟩
    exact of_decide_eq_true (Bool.and_eq_true_iff.mp hid).1

/-- What is fetched for an id of a live version. -/
theorem storedById_found (hst : Ranged st) {id : UInt32} {ty : SchemaType} {schema : String}
    {references : List SchemaReference} {messageType : Option String}
    (h : st.schemaById id.toNat false = some (ty, schema, references, messageType)) :
    storedById T st id = .ok ⟨schema, .fromWireName ty.wireName, messageType, references⟩ := by
  obtain ⟨⟨s, e, he, hid⟩, _⟩ := live_of_schemaById h
  have hrange := (hst.entries s e he).1
  rw [hid] at hrange
  rw [storedById, if_pos hrange.2, h]

theorem routable_of_all {subject : String} (hne : subject ≠ "")
    (hplain : subject.toList.all (fun c => c ≠ '/' && c ≠ '?' && c ≠ '#') = true)
    (hescapes : hasEscape subject.toList = false ∧ '\\' ∉ subject.toList)
    (hdots : isSingleDot subject.toList = false ∧ isDoubleDot subject.toList = false) :
    Routable subject where
  nonempty := hne
  plain := by
    intro c hc
    simpa [and_assoc] using List.all_eq_true.mp hplain c hc
  unescaped := hescapes.1
  unescapedSlash := hescapes.2
  dotless := hdots

theorem routable_a : Routable "a" :=
  routable_of_all (by decide) (by decide) (by decide) (by decide)

/-- **What is looked up is what is fetched.**  Where a producer finds the id of its schema, a
consumer fetches by that id a schema of the same type, canonical form, references and message
type, or of one that the key of identities does not tell apart from it. -/
theorem lookup_then_fetch (hJ : FaithfulJson c.J c.fromSlice) (hst : Ranged st)
    (hconsistent : Consistent F st)
    (hconn : Connected c P o (serve c.J T st L F c.fromSlice)) {subject : String}
    {x : LocalSchema} {id : UInt32} (hsubject : Routable subject)
    (hrefs : ∀ r ∈ x.references, IsI32 r.version)
    (hlimit : (toJsonString c.J x.payload).utf8ByteSize ≤ bodyLimit)
    (hfound : c.registry.lookup subject x = .ok id) :
    ∃ fetched ty resolved canonical resolved' canonical',
      c.schemaById id = .ok fetched ∧ fetched.kind = .fromWireName ty.wireName ∧
      st.resolveClosure x.references = .ok resolved ∧
      F.parse (.fromWire x.kind.wireName) x.schema resolved = .ok canonical ∧
      F.parse ty fetched.schema resolved' = .ok canonical' ∧
      (Identity.Same ⟨.fromWire x.kind.wireName, canonical, x.references, x.messageType⟩
          ⟨ty, canonical', fetched.references, fetched.messageType⟩ ∨
        Ambiguous ⟨.fromWire x.kind.wireName, canonical, x.references, x.messageType⟩
          ⟨ty, canonical', fetched.references, fetched.messageType⟩) := by
  have hreports : Told T (·.id) (fun _ id => id) (Rest.lookup L F st subject false false
      (LocalSchema.registerBody x)) (c.registry.lookup subject x) :=
    lookup_store hJ hconn hst hsubject hrefs hlimit
  rw [hfound] at hreports
  obtain ⟨r, hlookup, ⟨e, he, hid, _⟩, key, hkey, hindexed, content, hcontent⟩ |
    ⟨e, hlookup⟩ := lookup_cases L F st subject (LocalSchema.registerBody x)
  · rw [hlookup] at hreports
    obtain ⟨ty, schema, references, messageType⟩ := content
    have hrange : IsI32 r.id := by
      rw [← hid]
      exact (hst.entries subject e he).1
    cases hreports with
    | found hlow =>
      -- The id that the client reads is the store's.
      have hsame : ((UInt32.ofNat r.id.toNat).toNat : Int) = r.id := by
        have hsmall : r.id.toNat < 2 ^ 32 := by
          have hhigh := hrange.2
          unfold i32Max at hhigh
          have hlow' : (0 : Int) ≤ r.id := hlow
          omega
        rw [UInt32.toNat_ofNat_of_lt' hsmall, Int.toNat_of_nonneg hlow]
      have hfetched : c.schemaById (UInt32.ofNat r.id.toNat) =
          .ok ⟨schema, .fromWireName ty.wireName, messageType, references⟩ := by
        rw [schemaById_store hJ hconn hst]
        exact storedById_found hst (by rw [hsame]; exact hcontent)
      -- The content of an indexed id has the key it is indexed under.
      obtain ⟨reg, hreg, hkeyOf⟩ := hconsistent.indexed_stored hindexed
      obtain ⟨_, extra, hstored⟩ := live_of_schemaById hcontent
      obtain rfl : reg = ⟨ty, schema, references, messageType, extra⟩ :=
        Option.some.inj (hreg.symm.trans hstored)
      obtain ⟨resolved', canonical', hparse', hkey'⟩ := hkeyOf
      obtain ⟨resolved, canonical, hresolved, hparse, hkey''⟩ := identityKey_ok hkey
      refine ⟨_, ty, resolved, canonical, resolved', canonical', hfetched, rfl, hresolved, hparse,
        hparse', (key_eq_iff (F.parse_nulFree hparse) (F.parse_nulFree hparse')).mp ?_⟩
      exact hkey''.symm.trans hkey'
  · rw [hlookup] at hreports
    cases hreports

/-- The document `true` is looked up under `a` and fetched by its id. -/
theorem lookup_then_fetch_true : ∃ fetched ty resolved canonical resolved' canonical',
    (nodeClient diamondStore).schemaById 1 = .ok fetched ∧
      fetched.kind = .fromWireName ty.wireName ∧
      diamondStore.resolveClosure [] = .ok resolved ∧
      Formats.sample.parse .json "true" resolved = .ok canonical ∧
      Formats.sample.parse ty fetched.schema resolved' = .ok canonical' ∧
      (Identity.Same ⟨.json, canonical, [], none⟩
          ⟨ty, canonical', fetched.references, fetched.messageType⟩ ∨
        Ambiguous ⟨.json, canonical, [], none⟩
          ⟨ty, canonical', fetched.references, fetched.messageType⟩) := by
  let x : LocalSchema := ⟨.json, "true", [], none⟩
  have hlimit : (toJsonString SerdeJson.sample x.payload).utf8ByteSize ≤ bodyLimit := by
    decide +kernel
  -- The lookup over HTTP tells what the store answers, which is an id.
  have hreports : Told sampleTexts (·.id) (fun _ id => id)
      (Rest.lookup Libs.sample Formats.sample diamondStore "a" false false
        (LocalSchema.registerBody x)) ((nodeClient diamondStore).registry.lookup "a" x) :=
    lookup_store faithfulJson_sample (nodeClient_connected diamondStore) diamondStore_ranged
      routable_a (by simp [x]) hlimit
  have hlookup : Rest.lookup Libs.sample Formats.sample diamondStore "a" false false
      (LocalSchema.registerBody x) = .ok ⟨"a", 1, 1, some "JSON", none, "true"⟩ := by
    decide +kernel
  rw [hlookup] at hreports
  have hfound : (nodeClient diamondStore).registry.lookup "a" x = .ok 1 := by
    generalize (nodeClient diamondStore).registry.lookup "a" x = answer at hreports
    cases hreports with
    | found _ => rfl
    | negative _ hneg => exact absurd hneg (by decide)
  exact lookup_then_fetch faithfulJson_sample diamondStore_ranged diamondStore_consistent
    (nodeClient_connected diamondStore) routable_a (by simp [x]) hlimit hfound

/-! ## Ids that a node does not have -/

variable {policy : SchemaFetchRetryPolicy} {r r' : Running} {id : UInt32}

/-- The last fetch of the id ended with the error. -/
def GivenUp (id : UInt32) (e : RegistryError) (r : Running) : Prop :=
  ∃ f fs t, r.fetchesOf id = f :: fs ∧ f.ended = some (t, .error e)

/-- An id that was given up is not fetched again, so it stays given up. -/
theorem givenUp_step {events : List CacheEvent} {ev : CacheEvent} {e : RegistryError}
    (he : e.isTransientRegistryFailure = false) (h : runCache policy events = some r)
    (hstep : r.step policy ev = some r') (hgiven : GivenUp id e r) : GivenUp id e r' := by
  obtain ⟨f, fs, t, hfs, hended⟩ := hgiven
  have hsettled : Settled events id (r.fetchesOf id) := by
    refine .inr ⟨f, t, e, ?_, hended, he⟩
    rw [hfs]
    rfl
  rcases fetchesOf_step id hstep with hsame | ⟨now, hspawned, _⟩ | ⟨now, outcome, hflight, _⟩
  · exact ⟨f, fs, t, hsame.trans hfs, hended⟩
  · have hread := congrArg Prod.snd (read_expected (tracks_run h id) now)
    rw [(expected_settled hsettled now).1] at hread
    exact absurd (hread.symm.trans hspawned) (by simp)
  · obtain ⟨g, gs, hgs, hnone⟩ := exists_inFlight (tracks_run h id).retried hflight
    obtain ⟨rfl, -⟩ := List.cons.inj (hfs.symm.trans hgs)
    rw [hnone] at hended
    cases hended

theorem givenUp_run {events more : List CacheEvent} {e : RegistryError}
    (he : e.isTransientRegistryFailure = false) (h : runCache policy events = some r)
    (h' : runCache policy (events ++ more) = some r') (hgiven : GivenUp id e r) :
    GivenUp id e r' := by
  induction more using List.reverseRecOn generalizing r' with
  | nil =>
    rw [List.append_nil] at h'
    obtain rfl := Option.some.inj (h.symm.trans h')
    exact hgiven
  | append_singleton more ev ih =>
    rw [← List.append_assoc, runCache, List.foldlM_append] at h'
    obtain ⟨before, hbefore, hstep⟩ := Option.bind_eq_some_iff.mp h'
    rw [List.foldlM_cons] at hstep
    obtain ⟨after, hafter, hlast⟩ := Option.bind_eq_some_iff.mp hstep
    obtain rfl := Option.some.inj hlast
    exact givenUp_step he hbefore hafter (ih hbefore)

/-- A fetch that ends with an error is the last one of its id. -/
theorem givenUp_fetched {events : List CacheEvent} {t : Instant} {e : RegistryError}
    (h : runCache policy events = some r)
    (hstep : r.step policy (.fetched id t (.error e)) = some r') : GivenUp id e r' := by
  rw [Running.step] at hstep
  split_ifs at hstep with hlegal
  obtain rfl := Option.some.inj hstep
  obtain ⟨f, fs, hfs, hended⟩ := exists_inFlight (tracks_run h id).retried hlegal.2
  have hretried := (tracks_run h id).retried
  rw [hfs] at hretried
  exact ⟨_, fs, t, fetchesOf_finish hretried hfs hended, rfl⟩

/-- **An id that one node did not have is refused from then on.**  When a fetch was answered by a
node that has no live version of the id, such as a replica that has not read it yet, no later step
of the cache fetches the id again: every read of it is refused with the same reason, unless a
schema was given to the cache by other means. -/
theorem unknown_id_refused (hJ : FaithfulJson c.J c.fromSlice) (hst : Ranged st)
    (hconn : Connected c P o (serve c.J T st L F c.fromSlice))
    (hid : (id.toNat : Int) ≤ i32Max) (hunknown : st.schemaById id.toNat false = none)
    {before more : List CacheEvent} {t : Instant}
    (hrun : runCache policy (before ++ .fetched id t (c.resolveWriterSchema id) :: more) = some r)
    (now : Instant) :
    (r.cache.writerSchemaWithReferences id now).spawned = false ∧
      (r.cache.writerSchemaWithReferences id now).answer =
        (lastInstalled (before ++ .fetched id t (c.resolveWriterSchema id) :: more) id).elim
          (.error (.writerSchemaUnavailable id "registry error 404 (40403): Schema not found"))
          .ok := by
  have hroot : c.schemaById id = .error (refusal T .schemaNotFound) := by
    rw [schemaById_store hJ hconn hst, storedById, if_pos hid, hunknown]
  have houtcome : c.resolveWriterSchema id = .error (refusal T .schemaNotFound) := by
    rw [HttpClient.resolveWriterSchema, resolveWriterSchema, hroot]
    rfl
  have hpermanent : (refusal T .schemaNotFound).isTransientRegistryFailure = false := rfl
  have hreason : (refusal T .schemaNotFound).display =
      "registry error 404 (40403): Schema not found" := rfl
  rw [houtcome] at hrun ⊢
  -- The run up to the end of the fetch, and the rest of it.
  have hsplit := hrun
  rw [List.append_cons, runCache, List.foldlM_append] at hsplit
  obtain ⟨r₁, hr₁, _⟩ := Option.bind_eq_some_iff.mp hsplit
  have hfetched := hr₁
  rw [List.foldlM_append] at hfetched
  obtain ⟨r₀, hr₀, hstep⟩ := Option.bind_eq_some_iff.mp hfetched
  rw [List.foldlM_cons] at hstep
  obtain ⟨after, hafter, hlast⟩ := Option.bind_eq_some_iff.mp hstep
  obtain rfl := Option.some.inj hlast
  have hwhole : runCache policy ((before ++ [.fetched id t (.error (refusal T .schemaNotFound))]) ++
      more) = some r := by
    rw [← List.append_cons]
    exact hrun
  obtain ⟨f, fs, t', hfs, hended⟩ :=
    givenUp_run hpermanent hr₁ hwhole (givenUp_fetched hr₀ hafter)
  have hread := read_expected (tracks_run hrun id) now
  have hanswer := congrArg Prod.fst hread
  have hspawned := congrArg Prod.snd hread
  dsimp only at hanswer hspawned
  rw [hanswer, hspawned, hfs]
  cases lastInstalled (before ++ .fetched id t (.error (refusal T .schemaNotFound)) :: more) id with
  | some schema => exact ⟨rfl, rfl⟩
  | none =>
    simp only [expected, hended, hpermanent, Bool.false_eq_true, if_false, hreason,
      Option.elim_none, and_self]

end Walks

/-- A reader asks for id 5 before it is there, and goes on asking for it and for another. -/
theorem unknown_id_refused_five : ∃ r,
    runCache defaultPolicy
      [.read 4 0, .read 5 1, .fetched 5 5 ((nodeClient diamondStore).resolveWriterSchema 5),
        .read 5 6, .fetched 4 7 (.error (.registryTransport "refused")),
        .read 5 400000000000] = some r ∧
    (r.cache.writerSchemaWithReferences 5 1000000000000).answer =
      .error (.writerSchemaUnavailable 5 "registry error 404 (40403): Schema not found") := by
  have hunknown : diamondStore.schemaById ((5 : UInt32).toNat : Int) false = none := by
    decide +kernel
  -- The fetch ends with the refusal of the store, which is none to retry.
  have houtcome : (nodeClient diamondStore).resolveWriterSchema 5 =
      .error (refusal sampleTexts .schemaNotFound) := by
    have hroot : (nodeClient diamondStore).schemaById 5 =
        .error (refusal sampleTexts .schemaNotFound) := by
      rw [schemaById_store faithfulJson_sample (nodeClient_connected diamondStore)
        diamondStore_ranged 5, storedById, if_pos (by decide), hunknown]
    rw [HttpClient.resolveWriterSchema, resolveWriterSchema, hroot]
    rfl
  obtain ⟨r, hr⟩ : ∃ r, runCache defaultPolicy ([.read 4 0, .read 5 1] ++
      .fetched 5 5 ((nodeClient diamondStore).resolveWriterSchema 5) ::
        [.read 5 6, .fetched 4 7 (.error (.registryTransport "refused")),
          .read 5 400000000000]) = some r := by
    rw [houtcome]
    exact ⟨_, rfl⟩
  refine ⟨r, hr, ?_⟩
  have hrefused := unknown_id_refused faithfulJson_sample diamondStore_ranged
    (nodeClient_connected diamondStore) (by decide) hunknown hr 1000000000000
  rw [hrefused.2, houtcome]
  rfl

end KrabkaRegistry.Guarantees
