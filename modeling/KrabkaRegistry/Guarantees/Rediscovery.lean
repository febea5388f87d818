import KrabkaRegistry.Guarantees.Lookup
import KrabkaRegistry.Guarantees.Transitivity
import KrabkaRegistry.Guarantees.Bindings

/-!
# Stored Schemas Are Found Again

Deduplication goes through one index from identity keys to ids, and every `SCHEMA` record
takes the key of its content for its own id.

- `stored_found_again`: in a run whose records leave the identities and the references of live
  schemas alone (`Spared`), registering what a live version stores finds a live version of the
  subject that stores it, and appends nothing.
- `lost_to_second_import` is a run in which an import takes the identity of another id.
-/

namespace KrabkaRegistry.Guarantees

open KrabkaRegistry.Format (Formats)
open KrabkaRegistry.Kafkastore
open KrabkaRegistry.Library (Trace)
open KrabkaRegistry.Library.DepthFirst
open KrabkaRegistry.Store
open StoreState (contentOf dedupKey)

variable {F : Formats} {d : Defaults} {mayDrop : List TopicRecord → TopicRecord → Prop}
  {st : StoreState}

/-! ## What is found, and what is spared -/

/-- Registering what a live version of `s` stores finds a live version of `s` that stores it. -/
def FoundAgain (F : Formats) (st : StoreState) (s : String) : Prop :=
  ∀ v reg, LiveAt st s v reg → st.effectiveMode s = "READWRITE" →
    ∃ found, Kafkastore.register F st (RegisteredSchema.request reg s) = .ok ([], found) ∧
      LiveAt st s found.version reg

/-- A live schema leads to the version, or the schema that the record writes does. -/
def Referenced (st : StoreState) (r : TopicRecord) (u : String × SchemaVersion) : Prop :=
  (∃ s, Depends st s u) ∨
    ∃ value, schemaValue? r = some value ∧ Reach (graph st) value.references u

/-- The record leaves the identities and the references of live schemas alone. -/
structure Spared (F : Formats) (st : StoreState) (r : TopicRecord) : Prop where
  /-- What is imported or deleted has an identity that is indexed under no other id. -/
  identity : ∀ {value K} {n : SchemaId}, schemaValue? r = some value →
    st.effectiveMode value.subject = "IMPORT" ∨ value.deleted = true →
    placeKey F st value = some K → st.byCanonical[K]? = some n → n = value.id
  /-- A text is registered in a form that is its own storage form. -/
  form : ∀ {value resolved}, schemaValue? r = some value → value.deleted = false →
    st.resolveClosure value.references = .ok resolved →
    F.normalizedStorageForm (contentOf value).ty value.schema resolved = .ok value.schema
  /-- What is referred to keeps its content. -/
  content : ∀ u, Referenced st r u → contentAt (applyTopicRecord F st r) u = contentAt st u

/-- Each record of the list is spared in the state that the ones before it leave. -/
def AllSpared (F : Formats) : StoreState → List TopicRecord → Prop
  | _, [] => True
  | st, r :: recs => Spared F st r ∧ AllSpared F (applyTopicRecord F st r) recs

/-! ## What an operation writes -/

/-- A written value has been read, and it gets the id of its identity unless it is imported;
or it is stored already. -/
inductive Written (F : Formats) (st : StoreState) (value : SchemaValue) : Prop where
  | registered {resolved : List ResolvedReference} {K : String} : value.deleted = false →
      st.resolveClosure value.references = .ok resolved →
      st.identityKey F (contentOf value).ty value.schema value.references value.messageType =
        .ok K →
      (st.effectiveMode value.subject ≠ "IMPORT" →
        ∀ n : SchemaId, st.byCanonical[K]? = some n → n = value.id) → Written F st value
  | deleted : value.deleted = true → st.byId[value.id]? = some (contentOf value) →
      Written F st value

private theorem Written.of_reads {req : RegisterSchema} {resolved : List ResolvedReference}
    {text key : String} (h : Reads F st req resolved text key) {reg : Registered}
    (hid : st.effectiveMode req.subject ≠ "IMPORT" →
      ∀ n : SchemaId, st.byCanonical[key]? = some n → n = reg.id) :
    Written F st (recordValue req text reg) := by
  have hidentity : st.identityKey F (contentOf (recordValue req text reg)).ty text
      req.references req.messageType = .ok key := by
    rw [contentOf_recordValue]
    exact h.identity
  exact .registered rfl h.closure hidentity hid

/-- An operation writes one schema at most, and then nothing else. -/
private theorem exec_written (hwf : WellFormed st) {op : Op} {recs : List TopicRecord}
    {reply : Reply} (h : exec F st op = .ok (recs, reply)) :
    (∀ r ∈ recs, schemaValue? r = none) ∨
      ∃ r value, recs = [r] ∧ schemaValue? r = some value ∧ Written F st value := by
  have hexec := exec_ok hwf h
  cases hexec with
  | known | levelAbsent => exact .inl (by simp)
  -- A registration writes what was read, under the id of its key if there is one.
  | registered _ hreads _ _ hdec =>
    refine .inr ⟨_, _, rfl, rfl, .of_reads hreads fun _ n hn => ?_⟩
    rcases hdec.id_cases with hid | ⟨hnone, _⟩
    · rw [hid] at hn
      exact (Option.some.inj hn).symm
    · rw [hnone] at hn
      cases hn
  | @imported req text reg hmode _ =>
    obtain ⟨⟨recs', reg'⟩, hreg, heq⟩ := map_ok h
    obtain ⟨_, text', _, hreads, _, _, hrecs, _⟩ := register_import_reads hmode hreg
    obtain ⟨rfl, -⟩ : recs' = _ ∧ _ = reply := by simpa using heq
    exact .inr ⟨_, _, hrecs, rfl, .of_reads hreads fun hno => absurd hmode hno⟩
  | softDeleted _ hreg =>
    refine .inr ⟨_, _, rfl, rfl, .deleted rfl ?_⟩
    simpa [contentOf] using hreg
  -- The other operations write no content.
  | subjectPurged s =>
    refine .inl fun r hr => ?_
    simp only [List.cons_append, List.mem_cons, List.mem_append, List.mem_map,
      List.not_mem_nil, or_false] at hr
    rcases hr with rfl | ⟨e, _, rfl⟩ | rfl | rfl <;> rfl
  | purged _ =>
    refine .inl fun r hr => ?_
    simp only [List.mem_cons, List.not_mem_nil, or_false] at hr
    rcases hr with rfl | rfl <;> rfl
  | leveled | levelCleared | subjectDeleted | globalModed | subjectModed | modeCleared =>
    exact .inl (List.forall_mem_singleton.mpr rfl)

/-! ## Schemas that can be found -/

/-- The schema is its own storage form, and the index leads from its key to the id. -/
structure Findable (F : Formats) (st : StoreState) (n : SchemaId) (reg : RegisteredSchema) :
    Prop where
  form : ∃ resolved, st.resolveClosure reg.references = .ok resolved ∧
    F.normalizedStorageForm reg.ty reg.schema resolved = .ok reg.schema
  indexed : ∃ K, st.identityKey F reg.ty reg.schema reg.references reg.messageType = .ok K ∧
    st.byCanonical[K]? = some n

/-- The schema of every live version can be found. -/
def AllFindable (F : Formats) (st : StoreState) : Prop :=
  ∀ s v e reg, entryOf st s v = some e → e.deleted = false → st.byId[e.id]? = some reg →
    Findable F st e.id reg

theorem AllFindable.foundAgain (hwf : WellFormed st) (h : AllFindable F st) (s : String) :
    FoundAgain F st s := by
  rintro v reg ⟨e, he, hlive, hreg⟩ hmode
  obtain ⟨⟨resolved, hres, hform⟩, K, hkey, hindex⟩ := h s v e reg he hlive hreg
  have hmem : e ∈ entries st s := (findVersion_some he).1
  -- The first live version of the id may be another one; it stores the same schema.
  have hsome : ((entries st s).find? fun x => x.id = e.id ∧ (false ∨ ¬ x.deleted)).isSome := by
    rw [List.find?_isSome]
    exact ⟨e, hmem, by simp [hlive]⟩
  obtain ⟨first, hfirst⟩ := Option.isSome_iff_exists.mp hsome
  refine ⟨⟨e.id, first.version⟩, ?_, ?_⟩
  · have hfind : st.findUnderSubject F s reg.ty reg.schema reg.references reg.messageType false =
        some ⟨e.id, first.version⟩ := by
      simp only [StoreState.findUnderSubject, hkey]
      rw [findUnderSubjectCanonical_eq, hindex, Option.bind_some, hfirst]
      rfl
    simp [Kafkastore.register, RegisteredSchema.request, hmode, hres, hform, registerAssign, hfind,
      bind, Except.bind]
  · have hprop := List.find?_some hfirst
    simp only [decide_eq_true_eq] at hprop
    have hentry : entryOf st s first.version = some first :=
      (hwf.increasing s).findVersion_eq (List.mem_of_find?_eq_some hfirst)
    exact ⟨first, hentry, by simpa using hprop.2, by rw [hprop.1, hreg]⟩

/-! ## One record -/

theorem identityKey_congr {st' : StoreState} {ty : SchemaType} {schema : String}
    {references : List SchemaReference} {messageType : Option String}
    (h : st'.resolveClosure references = st.resolveClosure references) :
    st'.identityKey F ty schema references messageType =
      st.identityKey F ty schema references messageType := by
  unfold StoreState.identityKey
  rw [h]

section Record

variable {r : TopicRecord} {value : SchemaValue}

/-- A closure whose versions are all referred to stays as it is. -/
private theorem Spared.closure (hspared : Spared F st r) {refs : List SchemaReference}
    (href : ∀ u, Reach (graph st) refs u → Referenced st r u) :
    (applyTopicRecord F st r).resolveClosure refs = st.resolveClosure refs :=
  resolveClosure_congr fun u hu => hspared.content u (href u hu)

private theorem referenced_live {s : String} {v : SchemaVersion} {e : VersionEntry}
    {reg : RegisteredSchema} (he : entryOf st s v = some e) (hlive : e.deleted = false)
    (hreg : st.byId[e.id]? = some reg) :
    ∀ u, Reach (graph st) reg.references u → Referenced st r u :=
  fun _ hu => .inl ⟨s, v, e, reg, he, hlive, hreg, hu⟩

/-- A schema that keeps its closure and its key can still be found. -/
private theorem Findable.congr {st' : StoreState} {n : SchemaId} {reg : RegisteredSchema}
    (h : Findable F st n reg)
    (hclosure : st'.resolveClosure reg.references = st.resolveClosure reg.references)
    (hindex : ∀ K, st.identityKey F reg.ty reg.schema reg.references reg.messageType = .ok K →
      st.byCanonical[K]? = some n → st'.byCanonical[K]? = some n) : Findable F st' n reg := by
  obtain ⟨⟨resolved, hres, hform⟩, K, hkey, hn⟩ := h
  refine ⟨⟨resolved, by rw [hclosure, hres], hform⟩, K, ?_, hindex K hkey hn⟩
  rw [identityKey_congr hclosure, hkey]

private theorem findable_plain (hwf : WellFormed st) (hr : schemaValue? r = none)
    (hspared : Spared F st r) (h : AllFindable F st) :
    AllFindable F (applyTopicRecord F st r) := by
  intro s v e' reg he' hlive' hreg
  have hunbind := unbinds_record (F := F) hwf hr
  obtain ⟨e, he, hid, hlive⟩ := hunbind.entry he'
  rw [hunbind.byId, ← hid] at hreg
  rw [← hid]
  refine (h s v e reg he (hlive hlive') hreg).congr ?_ ?_
  · exact hspared.closure (referenced_live he (hlive hlive') hreg)
  · intro K _ hn
    rw [(contents_applyTopicRecord st hr).2.2.1, hn]

/-- A value is indexed under the key it has before it is applied. -/
private theorem placeKey_of_identity (hwf : WellFormed st) (hr : schemaValue? r = some value)
    (hspared : Spared F st r) {K : String}
    (hkey : st.identityKey F (contentOf value).ty value.schema value.references
      value.messageType = .ok K) : placeKey F st value = some K := by
  have hclosure : (st.prepareSchema value).resolveClosure value.references =
      st.resolveClosure value.references := by
    refine resolveClosure_congr fun u hu => ?_
    rw [contentAt_prepareSchema]
    split
    -- The id of the value is bound there, so the record writes its content there too.
    · rename_i hid
      have hkeep := hspared.content u (.inr ⟨value, hr, hu⟩)
      rw [contentAt_schema hwf hr, if_pos (.inr hid)] at hkeep
      exact hkeep
    · rfl
  have hprepared : (st.prepareSchema value).identityKey F (contentOf value).ty value.schema
      value.references value.messageType = .ok K := by
    rw [identityKey_congr hclosure, hkey]
  show (st.prepareSchema value).indexKey F value = some K
  unfold StoreState.indexKey
  show ((st.prepareSchema value).identityKey F (contentOf value).ty value.schema
    value.references value.messageType).toOption = some K
  rw [hprepared]
  rfl

/-- The written schema can be found, if it was read before. -/
private theorem findable_written (hst : Consistent F st) (hr : schemaValue? r = some value)
    (hspared : Spared F st r) {resolved : List ResolvedReference} {K : String}
    (hres : st.resolveClosure value.references = .ok resolved)
    (hform : F.normalizedStorageForm (contentOf value).ty value.schema resolved =
      .ok value.schema)
    (hkey : st.identityKey F (contentOf value).ty value.schema value.references
      value.messageType = .ok K) :
    Findable F (applyTopicRecord F st r) value.id (contentOf value) := by
  have hclosure : (applyTopicRecord F st r).resolveClosure value.references =
      st.resolveClosure value.references :=
    hspared.closure fun u hu => .inr ⟨value, hr, hu⟩
  refine ⟨⟨resolved, hclosure.trans hres, hform⟩, K, (identityKey_congr hclosure).trans hkey, ?_⟩
  obtain ⟨k, hk⟩ := applyTopicRecord_schema (F := F) st hr
  rw [hk, byCanonical_applySchema hst.inverse]
  exact .inl ⟨rfl, placeKey_of_identity hst.wellFormed hr hspared hkey⟩

/-- The key that a written value is indexed under leads to no other id. -/
private theorem Written.identity (hwf : WellFormed st) (hr : schemaValue? r = some value)
    (hwritten : Written F st value) (hspared : Spared F st r) {K : String} {n : SchemaId}
    (hplace : placeKey F st value = some K) (hn : st.byCanonical[K]? = some n) :
    n = value.id := by
  cases hwritten with
  | @registered _ K' _ _ hkey hid =>
    by_cases hmode : st.effectiveMode value.subject = "IMPORT"
    · exact hspared.identity hr (.inl hmode) hplace hn
    · rw [placeKey_of_identity hwf hr hspared hkey] at hplace
      obtain rfl : K' = K := Option.some.inj hplace
      exact hid hmode n hn
  | deleted hdeleted _ => exact hspared.identity hr (.inr hdeleted) hplace hn

private theorem findable_schema (hst : Consistent F st) (hr : schemaValue? r = some value)
    (hwritten : Written F st value) (hspared : Spared F st r) (h : AllFindable F st) :
    AllFindable F (applyTopicRecord F st r) := by
  intro s v e reg he hlive hreg
  obtain ⟨k, hk⟩ := applyTopicRecord_schema (F := F) st hr
  rw [hk, entryOf_applySchema hst.wellFormed] at he
  rw [hk, applySchema_byId, BTreeMap.getElem?_insert] at hreg
  by_cases hid : e.id = value.id
  -- The id of the value: its content is the one that was written.
  · rw [if_pos hid] at hreg
    obtain rfl : contentOf value = reg := by simpa using hreg
    rw [hid]
    cases hwritten with
    | registered hdeleted hres hkey _ =>
      exact findable_written hst hr hspared hres (hspared.form hr hdeleted hres) hkey
    | deleted hdeleted hstored =>
      split at he
      · obtain rfl : _ = e := by simpa using he
        simp [hdeleted] at hlive
      -- Another live version stores the same schema.
      · have hfind := h s v e (contentOf value) he hlive (by rw [hid, hstored])
        obtain ⟨⟨resolved, hres, hform⟩, K, hkey, _⟩ := hfind
        exact findable_written hst hr hspared hres hform hkey
  -- Another id keeps its closure and its key.
  · rw [if_neg hid] at hreg
    split at he
    · obtain rfl : _ = e := by simpa using he
      exact absurd rfl hid
    · refine (h s v e reg he hlive hreg).congr ?_ ?_
      · exact hspared.closure (referenced_live he hlive hreg)
      · intro K hkey hn
        rw [hk, byCanonical_applySchema hst.inverse]
        refine .inr ⟨Ne.symm hid, ?_, hn⟩
        intro hplace
        exact hid (hwritten.identity hst.wellFormed hr hspared hplace hn)

end Record

/-! ## Runs -/

private theorem findable_plain_records {recs : List TopicRecord} (hwf : WellFormed st)
    (hplain : ∀ r ∈ recs, schemaValue? r = none) (hspared : AllSpared F st recs)
    (h : AllFindable F st) : AllFindable F (replay F st recs) := by
  induction recs generalizing st with
  | nil => exact h
  | cons r recs ih =>
    obtain ⟨hfirst, hrest⟩ := hspared
    exact ih (applyTopicRecord_wellFormed hwf r)
      (fun r' hr' => hplain r' (List.mem_cons_of_mem _ hr')) hrest
      (findable_plain hwf (hplain r List.mem_cons_self) hfirst h)

/-- The first `k` records of an operation. -/
private theorem findable_exec (hst : Consistent F st) {op : Op} {recs : List TopicRecord}
    {reply : Reply} (hex : exec F st op = .ok (recs, reply)) (k : ℕ)
    (hspared : AllSpared F st (recs.take k)) (h : AllFindable F st) :
    AllFindable F (replay F st (recs.take k)) := by
  rcases exec_written hst.wellFormed hex with hplain | ⟨r, value, rfl, hr, hwritten⟩
  · exact findable_plain_records hst.wellFormed
      (fun r hr => hplain r (List.mem_of_mem_take hr)) hspared h
  · cases k with
    | zero => exact h
    | succ k =>
      rw [List.take_succ_cons, List.take_nil] at hspared ⊢
      exact findable_schema hst hr hwritten hspared.1 h

private theorem findable_step {w w' : World} {l : Event} (hs : Step F d mayDrop w l w')
    (hst : Consistent F w.state) (hlive : Live l)
    (hspared : AllSpared F w.state (w.appended F l)) (h : AllFindable F w.state) :
    AllFindable F w'.state := by
  cases hs with
  | @completed op recs reply hex =>
    rw [World.appended, appendedBy_of_exec hex] at hspared
    have hall := findable_exec hst hex recs.length (by rwa [List.take_length]) h
    rwa [List.take_length] at hall
  | interrupted k hex =>
    rw [World.appended, appendedBy_of_exec hex] at hspared
    exact findable_exec hst hex k hspared h
  | refused _ => exact h
  | barrier token present => exact findable_plain hst.wellFormed rfl hspared.1 h
  | restarted _ => cases hlive

/-- In a run without restarts whose records leave the identities and the references of live
schemas alone, what a live version stores is found again. -/
theorem stored_found_again {t : List (World × Event)} {w : World} (h : Run F d mayDrop t w)
    (hlive : ∀ p ∈ t, Live p.2) (hspared : ∀ p ∈ t, AllSpared F p.1.state (p.1.appended F p.2)) :
    ∀ s, FoundAgain F w.state s := by
  have hstart : AllFindable F d.state := by
    intro s v e reg he
    simp [Defaults.state] at he
  have hrun : Consistent F w.state ∧ AllFindable F w.state :=
    Trace.invariant (I := fun w => Consistent F w.state ∧ AllFindable F w.state)
      (C := fun w l => Live l ∧ AllSpared F w.state (w.appended F l))
      ⟨d.state_consistent F, hstart⟩
      (fun w₁ l w₂ hC hs hi => ⟨hs.consistent hi.1, findable_step hs hi.1 hC.1 hC.2 hi.2⟩)
      h fun p hp => ⟨hlive p hp, hspared p hp⟩
  exact hrun.2.foundAgain hrun.1.wellFormed

/-! ### Two ids of one schema -/

/-- A schema to be imported as version 1 of a subject. -/
def importOf (subject : String) (id : SchemaId) : RegisterSchema :=
  { subject := subject, ty := .json, schema := "true", importId := some id,
    importVersion := some 1 }

/-- One schema is imported into two subjects under two ids. -/
def secondImportOps : List Op :=
  [.setSubjectMode "a" "IMPORT", .setSubjectMode "b" "IMPORT", .register (importOf "a" 10),
   .register (importOf "b" 20), .setSubjectMode "a" "READWRITE"]

/-- The second import takes the key, and `a` gets the schema again as version 2. -/
theorem lost_to_second_import :
    ∃ t w, Run Formats.sample {} mayDropNothing t w ∧ (∀ p ∈ t, Live p.2) ∧
      ¬ FoundAgain Formats.sample w.state "a" := by
  let w := (World.start {}).afterAll Formats.sample secondImportOps
  have hrun : Run Formats.sample {} mayDropNothing _ w :=
    Run.steps (Trace.nil (World.start {})) secondImportOps (by decide +kernel)
  refine ⟨_, w, hrun, by decide +kernel, ?_⟩
  intro hfound
  obtain ⟨e, he, heval⟩ : ∃ e, entryOf w.state "a" 1 = some e ∧ (e.id, e.deleted) = (10, false) :=
    Option.map_eq_some_iff.mp (show Option.map (fun e : VersionEntry => (e.id, e.deleted)) _ =
      some _ by decide +kernel)
  obtain ⟨hid, hdeleted⟩ := Prod.mk.inj heval
  let request : RegisterSchema := { subject := "a", ty := .json, schema := "true" }
  obtain ⟨reg, hreg, hrequest⟩ : ∃ reg, w.state.byId[(10 : SchemaId)]? = some reg ∧
      RegisteredSchema.request reg "a" = request :=
    Option.map_eq_some_iff.mp (show Option.map (RegisteredSchema.request · "a") _ = some _ by
      decide +kernel)
  obtain ⟨found, hregister, _⟩ :=
    hfound 1 reg ⟨e, he, hdeleted, by rw [hid, hreg]⟩ (by decide +kernel)
  rw [hrequest] at hregister
  have hone : (Kafkastore.register Formats.sample w.state request).map (·.1.length) = .ok 1 := by
    decide +kernel
  rw [hregister] at hone
  cases hone

/-- A record that writes no schema and removes none is spared. -/
theorem Spared.of_mode (hwf : WellFormed st) (s : Option String) (m : Option String) :
    Spared F st (.mode s m) := by
  constructor
  · intro _ _ _ hr
    cases hr
  · intro _ _ hr
    cases hr
  · intro u _
    obtain ⟨t, v⟩ := u
    rw [contentAt_eq, contentAt_eq, entryOf_applyTopicRecord hwf]
    simp only [byId_applyTopicRecord]
    rfl

/-- A schema that is imported under one id is found again. -/
theorem stored_found_again_import :
    let w := (World.start { mode := "IMPORT" }).afterAll Formats.sample
      [.register (importOf "a" 10), .setSubjectMode "a" "READWRITE"]
    boundId w.state "a" 1 = some 10 ∧ w.state.effectiveMode "a" = "READWRITE" ∧
      ∀ s, FoundAgain Formats.sample w.state s := by
  intro w
  have hrun : Run Formats.sample { mode := "IMPORT" } mayDropNothing _ w :=
    Run.steps (Trace.nil (World.start { mode := "IMPORT" }))
      [.register (importOf "a" 10), .setSubjectMode "a" "READWRITE"] (by decide +kernel)
  refine ⟨by decide +kernel, by decide +kernel,
    stored_found_again hrun (by decide +kernel) ?_⟩
  intro p hp
  obtain ⟨_, ht⟩ := Trace.of_mem hrun hp
  have hst : Consistent Formats.sample p.1.state := Run.consistent ht
  simp only [List.nil_append, World.steps, List.mem_cons, List.not_mem_nil, or_false] at hp
  rcases hp with rfl | rfl
  · have hrecs : (World.start { mode := "IMPORT" }).appended Formats.sample
        (.completed (.register (importOf "a" 10))) =
        [(importOf "a" 10).record "true" ⟨10, 1⟩] := by rfl
    rw [hrecs]
    refine ⟨?_, trivial⟩
    constructor
    · intro value K n _ _ _ hn
      simp [World.start, Defaults.state, StoreState.withDefaults] at hn
    · intro value resolved hr _ hres
      obtain rfl : recordValue (importOf "a" 10) "true" ⟨10, 1⟩ = value := by simpa using hr
      have hempty : (World.start { mode := "IMPORT" }).state.resolveClosure [] = .ok [] := by
        decide +kernel
      obtain rfl : [] = resolved := by simpa [recordValue, importOf, hempty] using hres
      decide +kernel
    -- Nothing is live, and the import refers to nothing.
    · rintro u (⟨s, v, e, reg, he, _⟩ | ⟨value, hr, hu⟩)
      · simp [World.start, Defaults.state] at he
      · obtain rfl : recordValue (importOf "a" 10) "true" ⟨10, 1⟩ = value := by simpa using hr
        have hnone : False := hu.closed (P := fun _ => False)
          (fun _ hmem => absurd hmem List.not_mem_nil) fun _ _ _ h _ _ => h
        exact hnone.elim
  · have hrecs : ((World.start { mode := "IMPORT" }).after Formats.sample
        (.register (importOf "a" 10))).appended Formats.sample
        (.completed (.setSubjectMode "a" "READWRITE")) = [encodeMode (some "a") "READWRITE"] := by
      rfl
    rw [hrecs]
    exact ⟨.of_mode hst.wellFormed _ _, trivial⟩

end KrabkaRegistry.Guarantees
