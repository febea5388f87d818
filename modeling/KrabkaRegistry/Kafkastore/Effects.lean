import KrabkaRegistry.Store.Index
import KrabkaRegistry.Kafkastore.Ops

/-!
# What a Successful Operation Has Decided

One inversion lemma for each operation: from its success, the facts it found in the state
and the records it appends.  Every later proof about runs starts from these and never
unfolds an operation again.
-/

namespace KrabkaRegistry.Kafkastore

open KrabkaRegistry.Format (Formats)
open KrabkaRegistry.Store

variable {F : Formats} {st : StoreState}

/-! ## Reads in terms of entries -/

/-- `version` finds the entry of the version, if it qualifies. -/
theorem version_some (h : WellFormed st) (s : String) (v : SchemaVersion) (d : Bool) :
    st.version s (some v) d =
      ((entryOf st s v).filter fun e => d || !e.deleted).bind fun e =>
        (st.byId[e.id]?).map fun reg =>
          ⟨e.id, e.version, reg.ty, reg.schema, reg.references, reg.messageType, reg.extra⟩ := by
  have hfind : ∀ l : List VersionEntry, Increasing l →
      (l.find? fun e => e.version = v ∧ (d ∨ ¬ e.deleted)) =
        (findVersion v l).filter fun e => d || !e.deleted := by
    intro l
    induction l with
    | nil => intro _; rfl
    | cons x l ih =>
      intro hinc
      obtain ⟨hx, hrest⟩ := List.pairwise_cons.mp hinc
      rw [List.find?_cons, findVersion_cons, ih hrest]
      by_cases hv : x.version = v
      -- No later entry has this version, so a deleted first hit is the end of it.
      · have hnone : findVersion v l = none :=
          findVersion_none.mpr fun e he => by rw [← hv]; exact (hx e he).ne'
        cases d <;> cases hdel : x.deleted <;> simp [hv, hdel, hnone, Option.filter]
      · simp [hv]
  unfold StoreState.version entryOf entries
  cases hs : st.subjects[s]? with
  | none => simp
  | some l =>
    simp only [Option.getD_some]
    rw [hfind l (h s l hs).2]
    cases (findVersion v l).filter fun e => d || !e.deleted <;> rfl

/-- The listed versions are those of the entries, without the deleted ones unless they are asked
for. -/
theorem versions_some {s : String} {d : Bool} {vs : List SchemaVersion}
    (h : st.versions s d = some vs) :
    vs = ((entries st s).filter fun v => d || !v.deleted).map (·.version) := by
  unfold StoreState.versions at h
  unfold entries
  cases hs : st.subjects[s]? with
  | none => simp [hs] at h
  | some l =>
    simp only [hs] at h
    split at h
    · cases h
    · simpa using h.symm

/-- The lookup of an identical schema: the index gives one id, and the subject is searched for that
id alone. -/
theorem findUnderSubjectCanonical_eq (st : StoreState) (s key : String) (d : Bool) :
    st.findUnderSubjectCanonical s key d =
      (st.byCanonical[key]?).bind fun id =>
        ((entries st s).find? fun v => v.id = id ∧ (d ∨ ¬ v.deleted)).map fun e =>
          ⟨id, e.version⟩ := by
  unfold StoreState.findUnderSubjectCanonical entries
  cases st.byCanonical[key]? with
  | none => rfl
  | some id =>
    cases st.subjects[s]? with
    | none => rfl
    | some l => rfl

/-- What it finds is the id of the index at the first entry that holds it. -/
theorem findUnderSubjectCanonical_some {s key : String} {d : Bool} {reg : Registered}
    (h : st.findUnderSubjectCanonical s key d = some reg) :
    st.byCanonical[key]? = some reg.id ∧
      ∃ e, ((entries st s).find? fun v => v.id = reg.id ∧ (d ∨ ¬ v.deleted)) = some e ∧
        e.version = reg.version := by
  rw [findUnderSubjectCanonical_eq] at h
  obtain ⟨id, hid, hfind⟩ := Option.bind_eq_some_iff.mp h
  obtain ⟨e, he, rfl⟩ := Option.map_eq_some_iff.mp hfind
  exact ⟨hid, e, he, rfl⟩

/-! ## Register -/

/-- How an identity `key` is given an id and a version in subject `s`. -/
inductive Decides (st : StoreState) (s key : String) (reg : Registered) : Prop where
  /-- The subject has a version, live or deleted, with the identity's id. -/
  | existing {e : VersionEntry} : st.byCanonical[key]? = some reg.id →
      ((entries st s).find? fun v => v.id = reg.id) = some e → e.version = reg.version →
      Decides st s key reg
  /-- The identity has an id, the subject takes its next version. -/
  | reused : st.byCanonical[key]? = some reg.id → (∀ e ∈ entries st s, e.id ≠ reg.id) →
      reg.version = st.nextVersion s → Decides st s key reg
  /-- A new identity takes the next id and the next version. -/
  | fresh : st.byCanonical[key]? = none → st.maxId ≠ i32Max → reg.id = st.maxId + 1 →
      reg.version = st.nextVersion s → Decides st s key reg

/-- An id that is decided is the identity's own, or the next one. -/
theorem Decides.id_cases {s key : String} {reg : Registered} (h : Decides st s key reg) :
    st.byCanonical[key]? = some reg.id ∨
      (st.byCanonical[key]? = none ∧ reg.id = st.maxId + 1) := by
  cases h with
  | existing hid _ _ => exact .inl hid
  | reused hid _ _ => exact .inl hid
  | fresh hnone _ hid _ => exact .inr ⟨hnone, hid⟩

/-- The id and version that an identity has in a subject, live or deleted, or else its own id,
or the next one, and the next version. -/
def decision (st : StoreState) (s key : String) : Registered :=
  (st.findUnderSubjectCanonical s key true).getD
    ⟨(st.byCanonical[key]?).getD (st.maxId + 1), st.nextVersion s⟩

/-- What a registration decides is determined by the state and the key. -/
theorem Decides.eq_decision {s key : String} {reg : Registered} (h : Decides st s key reg) :
    reg = decision st s key := by
  unfold decision
  rw [findUnderSubjectCanonical_eq]
  cases h with
  | existing hid hfind hv => simp [hid, hfind, hv]
  | reused hid hnone hv =>
    have hfind : (entries st s).find? (fun e => e.id = reg.id) = none := by simpa using hnone
    simp [hid, hfind, ← hv]
  | fresh hnone _ hid hv => simp [hnone, ← hid, ← hv]

/-- A registration that succeeds returns the decision for the key of its schema: an entry of the
subject, else the id of the index with a new version, else both new. -/
theorem storeRegister_ok {s : String} {ty : SchemaType} {schema : String}
    {references : List SchemaReference} {messageType : Option String} {reg : Registered}
    {st' : StoreState} (h : st.register F s ty schema references messageType = .ok (reg, st')) :
    ∃ key, st.identityKey F ty schema references messageType = .ok key ∧
      Decides st s key reg := by
  unfold StoreState.register at h
  obtain ⟨key, hkey, h⟩ := bind_ok h
  refine ⟨key, hkey, ?_⟩
  -- A version of the subject decides both numbers; else the index decides the id.
  cases hf : st.findUnderSubjectCanonical s key true with
  | some existing =>
    simp only [hf] at h
    obtain ⟨rfl, -⟩ : existing = reg ∧ st = st' := by simpa [pure, Except.pure] using h
    obtain ⟨hid, e, he, hv⟩ := findUnderSubjectCanonical_some hf
    exact .existing hid (by simpa using he) hv
  | none =>
    simp only [hf] at h
    obtain ⟨⟨id, st₁⟩, hassign, h⟩ := bind_ok h
    simp only [pure, Except.pure, Except.ok.injEq, Prod.mk.injEq] at h
    obtain ⟨hreg, -⟩ := h
    unfold StoreState.assignId at hassign
    cases hc : st.byCanonical[key]? with
    | some n =>
      simp only [hc] at hassign
      obtain ⟨rfl, rfl⟩ : n = id ∧ st = st₁ := by simpa using hassign
      subst hreg
      refine .reused hc ?_ rfl
      rw [findUnderSubjectCanonical_eq, hc] at hf
      simpa using hf
    | none =>
      simp only [hc] at hassign
      split at hassign
      · cases hassign
      · rename_i hmax
        obtain ⟨rfl, rfl⟩ : st.maxId + 1 = id ∧ _ = st₁ := by simpa using hassign
        subst hreg
        exact .fresh hc hmax rfl rfl

/-- What a registration has computed before it decides: the closure of its references,
its storage form and its identity key. -/
structure Reads (F : Formats) (st : StoreState) (req : RegisterSchema)
    (resolved : List ResolvedReference) (text key : String) : Prop where
  closure : st.resolveClosure req.references = .ok resolved
  storage : F.normalizedStorageForm req.ty req.schema resolved = .ok text
  identity : st.identityKey F req.ty text req.references req.messageType = .ok key

/-- A request reads one text and one key in a state. -/
theorem Reads.unique {req : RegisterSchema} {resolved resolved' : List ResolvedReference}
    {text text' key key' : String} (h : Reads F st req resolved text key)
    (h' : Reads F st req resolved' text' key') : text = text' ∧ key = key' := by
  obtain rfl : resolved = resolved' := by simpa [h.closure] using h'.closure
  obtain rfl : text = text' := by simpa [h.storage] using h'.storage
  exact ⟨rfl, by simpa [h.identity] using h'.identity⟩

/-- The record a registration appends. -/
def RegisterSchema.record (req : RegisterSchema) (text : String) (reg : Registered) :
    TopicRecord :=
  encodeSchemaWithMessageType req.subject reg.version reg.id req.ty text req.references
    req.messageType

/-- The value of the record that a registration appends. -/
def recordValue (req : RegisterSchema) (text : String) (reg : Registered) : SchemaValue :=
  ⟨req.subject, reg.version, reg.id, req.ty.wireName, req.messageType, req.references, text,
    false, ∅⟩

/-- The content that a registration writes. -/
def requestContent (req : RegisterSchema) (text : String) : RegisteredSchema :=
  ⟨req.ty, text, req.references, req.messageType, ∅⟩

/-- The record of a registration carries a schema. -/
@[simp] theorem schemaValue?_record (req : RegisterSchema) (text : String) (reg : Registered) :
    schemaValue? (req.record text reg) = some (recordValue req text reg) := rfl

/-- And its content is that of the request. -/
theorem contentOf_recordValue (req : RegisterSchema) (text : String) (reg : Registered) :
    StoreState.contentOf (recordValue req text reg) = requestContent req text := by
  simp [StoreState.contentOf, recordValue, requestContent]

/-- Applying it binds the version it decided on. -/
theorem entryOf_record (hwf : WellFormed st) (req : RegisterSchema) (text : String)
    (reg : Registered) (s : String) (v : SchemaVersion) :
    entryOf (applyTopicRecord F st (req.record text reg)) s v =
      if req.subject = s ∧ reg.version = v then some ⟨reg.version, reg.id, false⟩
      else entryOf st s v := by
  rw [entryOf_applyTopicRecord hwf]
  rfl

/-- And writes the content of the id it decided on. -/
theorem byId_record (req : RegisterSchema) (text : String) (reg : Registered) (n : SchemaId) :
    (applyTopicRecord F st (req.record text reg)).byId[n]? =
      if n = reg.id then some (requestContent req text) else st.byId[n]? := by
  rw [byId_applyTopicRecord, schemaValue?_record, ← contentOf_recordValue req text reg]
  rfl

/-- A registration outside `IMPORT` mode finds its schema live under the subject, or
passes the compatibility check and appends one record. -/
theorem register_ok {req : RegisterSchema} {recs : List TopicRecord} {reg : Registered}
    (hmode : st.effectiveMode req.subject ≠ "IMPORT")
    (h : register F st req = .ok (recs, reg)) :
    ∃ resolved text key, Reads F st req resolved text key ∧
      ((recs = [] ∧ st.findUnderSubjectCanonical req.subject key false = some reg) ∨
       (recs = [req.record text reg] ∧
        st.findUnderSubjectCanonical req.subject key false = none ∧
        Compat.checkRegistration F st req.subject req.ty text resolved = .ok () ∧
        Decides st req.subject key reg)) := by
  unfold register at h
  simp only at h
  split at h
  · cases h
  · obtain ⟨resolved, hres, h⟩ := bind_ok h
    obtain ⟨text, htext, h⟩ := bind_ok h
    unfold registerAssign at h
    cases hk : st.identityKey F req.ty text req.references req.messageType with
    | error e =>
      -- Without an identity key nothing is found, and the decision fails on it.
      have hnone : st.findUnderSubject F req.subject req.ty text req.references req.messageType
          false = none := by
        simp [StoreState.findUnderSubject, hk]
      simp only [hnone] at h
      obtain ⟨_, _, h⟩ := bind_ok h
      obtain ⟨⟨reg', st'⟩, hreg, _⟩ := bind_ok h
      obtain ⟨key, hkey, _⟩ := storeRegister_ok hreg
      rw [hk] at hkey
      cases hkey
    -- The lookup under the subject and the decision use the same key.
    | ok key =>
      have hfind : st.findUnderSubject F req.subject req.ty text req.references req.messageType
          false = st.findUnderSubjectCanonical req.subject key false := by
        simp [StoreState.findUnderSubject, hk]
      rw [hfind] at h
      refine ⟨resolved, text, key, ⟨hres, htext, hk⟩, ?_⟩
      cases hf : st.findUnderSubjectCanonical req.subject key false with
      | some existing =>
        simp only [hf] at h
        obtain ⟨rfl, rfl⟩ : [] = recs ∧ existing = reg := by simpa using h
        exact .inl ⟨rfl, rfl⟩
      | none =>
        simp only [hf] at h
        obtain ⟨_, hcheck, h⟩ := bind_ok h
        obtain ⟨⟨reg', st'⟩, hreg, h⟩ := bind_ok h
        obtain ⟨key', hkey', hdec⟩ := storeRegister_ok hreg
        obtain rfl : key = key' := by simpa [hk] using hkey'
        obtain ⟨rfl, rfl⟩ : [req.record text reg'] = recs ∧ reg' = reg := by
          simpa [pure, Except.pure, RegisterSchema.record] using h
        exact .inr ⟨rfl, rfl, hcheck, hdec⟩

/-- A registration in `IMPORT` mode appends one record of the request's storage form, at the
id and version it was given. -/
theorem register_import_reads {req : RegisterSchema} {recs : List TopicRecord} {reg : Registered}
    (hmode : st.effectiveMode req.subject = "IMPORT")
    (h : register F st req = .ok (recs, reg)) :
    ∃ resolved text key, Reads F st req resolved text key ∧
      req.importId = some reg.id ∧ req.importVersion = some reg.version ∧
      recs = [req.record text reg] ∧
      st.schemaIdConflicts F reg.id req.ty text req.references req.messageType = .ok false := by
  unfold register at h
  rw [hmode, if_neg (by decide)] at h
  obtain ⟨resolved, hres, h⟩ := bind_ok h
  obtain ⟨text, htext, h⟩ := bind_ok h
  simp only [if_true] at h
  -- Both numbers come with the request.
  unfold registerImport at h
  split at h
  · rename_i id version hid hversion
    obtain ⟨canonical, hparse, h⟩ := bind_ok h
    obtain ⟨conflicts, hconf, h⟩ := bind_ok h
    split at h
    · cases h
    · rename_i hfalse
      obtain ⟨rfl, rfl⟩ : _ = recs ∧ _ = reg := by simpa [pure, Except.pure] using h
      exact ⟨resolved, text, _, ⟨hres, htext, identityKey_of_parse hres hparse⟩, hid, hversion,
        rfl, by simpa [hfalse] using hconf⟩
  · cases h

/-- It is refused if the id stores a different identity. -/
theorem register_import_ok {req : RegisterSchema} {recs : List TopicRecord} {reg : Registered}
    (hmode : st.effectiveMode req.subject = "IMPORT")
    (h : register F st req = .ok (recs, reg)) :
    ∃ text, recs = [req.record text reg] ∧
      st.schemaIdConflicts F reg.id req.ty text req.references req.messageType = .ok false := by
  obtain ⟨_, text, _, _, _, _, hrecs, hconf⟩ := register_import_reads hmode h
  exact ⟨text, hrecs, hconf⟩

/-! ## Deletes -/

/-- The record that re-emits a stored version with the deleted flag set. -/
def deletedRecord (s : String) (v : SchemaVersion) (id : SchemaId) (reg : RegisteredSchema) :
    TopicRecord :=
  encodeSchemaDeletedWithMessageType s v id reg.ty reg.schema reg.references reg.messageType
    reg.extra

/-- A soft delete writes the same binding with the flag set. -/
theorem entryOf_deletedRecord (hwf : WellFormed st) (s' : String) (v' : SchemaVersion)
    (id : SchemaId) (reg : RegisteredSchema) (s : String) (v : SchemaVersion) :
    entryOf (applyTopicRecord F st (deletedRecord s' v' id reg)) s v =
      if s' = s ∧ v' = v then some ⟨v', id, true⟩ else entryOf st s v := by
  rw [entryOf_applyTopicRecord hwf]
  rfl

/-- A soft delete writes the stored content back. -/
theorem byId_deletedRecord {s : String} {v : SchemaVersion} {id : SchemaId}
    {reg : RegisteredSchema} (h : st.byId[id]? = some reg) (n : SchemaId) :
    (applyTopicRecord F st (deletedRecord s v id reg)).byId[n]? = st.byId[n]? := by
  rw [byId_applyTopicRecord]
  simp only [deletedRecord, encodeSchemaDeletedWithMessageType, schemaKv, schemaValue?_schema,
    StoreState.contentOf, SchemaType.fromWire_wireName]
  by_cases hn : n = id
  · rw [if_pos hn, hn, h]
  · rw [if_neg hn]

/-- The check passes only where no live version refers to this one. -/
theorem ensureUnreferenced_ok {s : String} {v : SchemaVersion} {u : Unit}
    (h : ensureUnreferenced st s v = .ok u) : st.referencedBy s v false = [] := by
  unfold ensureUnreferenced at h
  split at h
  · rename_i hempty
    exact List.isEmpty_iff.mp hempty
  · cases h

/-- A soft delete of a version succeeds only on a binding with content and without referrers, and
appends one record. -/
theorem softDeleteVersion_ok (hwf : WellFormed st) {s : String} {v v' : SchemaVersion}
    {recs : List TopicRecord} (h : softDeleteVersion st s v = .ok (recs, v')) :
    ∃ e reg, entryOf st s v = some e ∧ st.byId[e.id]? = some reg ∧
      st.referencedBy s v false = [] ∧ recs = [deletedRecord s v e.id reg] := by
  unfold softDeleteVersion at h
  obtain ⟨_, _, h⟩ := bind_ok h
  split at h
  · cases h
  · split at h
    · cases h
    · rename_i found hfound
      obtain ⟨_, hunref, h⟩ := bind_ok h
      rw [version_some hwf] at hfound
      -- Deleted versions qualify here, so the entry is the version's own.
      obtain ⟨e, he, hmap⟩ := Option.bind_eq_some_iff.mp hfound
      obtain ⟨reg, hreg, rfl⟩ := Option.map_eq_some_iff.mp hmap
      obtain ⟨he, _⟩ := Option.filter_eq_some_iff.mp he
      have hver := entryOf_version he
      obtain ⟨rfl, -⟩ : _ = recs ∧ _ = v' := by simpa [pure, Except.pure] using h
      exact ⟨e, reg, he, hreg, ensureUnreferenced_ok hunref, by rw [hver]; rfl⟩

/-- A permanent delete succeeds only on a bound version without live referrers. The version mark
goes before the tombstone, so that a restart between the two does not hand the version out again. -/
theorem permanentDeleteVersion_ok (hwf : WellFormed st) {s : String} {v v' : SchemaVersion}
    {recs : List TopicRecord} (h : permanentDeleteVersion st s v = .ok (recs, v')) :
    (∃ e, entryOf st s v = some e) ∧ st.referencedBy s v false = [] ∧
      recs = [encodeVersionHighWater s (st.nextVersion s), encodeTombstone s v] := by
  unfold permanentDeleteVersion at h
  obtain ⟨_, _, h⟩ := bind_ok h
  -- Refused for an unknown subject, an unknown version, or a version that is still live.
  split at h
  · cases h
  · split at h
    · cases h
    · rename_i hsome
      split at h
      · cases h
      · obtain ⟨_, hunref, h⟩ := bind_ok h
        obtain ⟨rfl, -⟩ : _ = recs ∧ _ = v' := by simpa [pure, Except.pure] using h
        refine ⟨?_, ensureUnreferenced_ok hunref, rfl⟩
        rw [version_some hwf] at hsome
        cases he : entryOf st s v with
        | some e => exact ⟨e, rfl⟩
        | none => simp [he] at hsome

/-- A soft delete of a subject is one record. -/
theorem softDeleteSubject_ok {s : String} {vs : List SchemaVersion} {recs : List TopicRecord}
    (h : softDeleteSubject st s = .ok (recs, vs)) : ∃ m, recs = [encodeDeleteSubject s m] := by
  unfold softDeleteSubject at h
  obtain ⟨_, _, h⟩ := bind_ok h
  split at h
  · split at h <;> cases h
  · obtain ⟨_, _, h⟩ := bind_ok h
    obtain ⟨rfl, -⟩ : _ = recs ∧ _ = vs := by simpa [pure, Except.pure] using h
    exact ⟨_, rfl⟩

/-- No versions are listed exactly when every entry is filtered out. -/
theorem versions_none {s : String} {d : Bool} :
    st.versions s d = none ↔ ∀ e ∈ entries st s, d = false ∧ e.deleted = true := by
  unfold StoreState.versions entries
  cases st.subjects[s]? with
  | none => simp
  | some l =>
    simp only [List.isEmpty_iff, Option.getD_some]
    split
    · rename_i hempty
      simpa using hempty
    · rename_i hsome
      simpa using hsome

/-- Writes are refused in read-only mode and in no other. -/
theorem ensureWritable_ok_iff {s : String} :
    ensureWritable st s = .ok () ↔ st.effectiveMode s ≠ "READONLY" := by
  unfold ensureWritable fail
  split
  · simpa using by assumption
  · simpa using by assumption

/-- A subject is purged if it may be written and all its versions are soft-deleted and free of
live referrers. -/
theorem permanentDeleteSubject_ok_iff {s : String} {vs : List SchemaVersion}
    {recs : List TopicRecord} :
    permanentDeleteSubject st s = .ok (recs, vs) ↔
      st.effectiveMode s ≠ "READONLY" ∧ entries st s ≠ [] ∧
      (∀ e ∈ entries st s, e.deleted = true ∧ st.referencedBy s e.version false = []) ∧
      vs = (entries st s).map (·.version) ∧
      recs = encodeVersionHighWater s (st.nextVersion s) ::
        vs.map (encodeTombstone s) ++ [configTombstone (some s), modeTombstone (some s)] := by
  -- The checks come in this order: mode, presence, every version deleted, no live referrer.
  constructor
  · intro h
    unfold permanentDeleteSubject at h
    obtain ⟨_, hwritable, h⟩ := bind_ok h
    split at h
    · cases h
    · rename_i allVersions hall
      split at h
      · cases h
      · rename_i hlive
        obtain ⟨_, hunref, h⟩ := bind_ok h
        obtain ⟨rfl, rfl⟩ : _ = recs ∧ allVersions = vs := by simpa [pure, Except.pure] using h
        obtain rfl : allVersions = (entries st s).map (·.version) := by
          simpa using versions_some hall
        have hnone : st.versions s false = none := by simpa using hlive
        refine ⟨ensureWritable_ok_iff.mp hwritable, ?_, ?_, rfl, rfl⟩
        · intro hempty
          rw [versions_none.mpr (by simp [hempty])] at hall
          cases hall
        · intro e he
          have hcheck := forM_ok_iff.mp hunref e.version (List.mem_map_of_mem he)
          exact ⟨(versions_none.mp hnone e he).2, ensureUnreferenced_ok hcheck⟩
  · rintro ⟨hmode, hne, hall, rfl, rfl⟩
    have hsome : st.versions s true = some ((entries st s).map (·.version)) := by
      cases h : st.versions s true with
      | none =>
        have hnil : ∀ e, e ∉ entries st s := fun e he => by simpa using versions_none.mp h e he
        exact absurd (List.eq_nil_iff_forall_not_mem.mpr hnil) hne
      | some vs => simpa using versions_some h
    have hnone : st.versions s false = none :=
      versions_none.mpr fun e he => ⟨rfl, (hall e he).1⟩
    have hunref : ((entries st s).map (·.version)).forM (ensureUnreferenced st s) = .ok () := by
      rw [forM_ok_iff]
      intro v hv
      obtain ⟨e, he, rfl⟩ := List.mem_map.mp hv
      simp [ensureUnreferenced, (hall e he).2]
    simp [permanentDeleteSubject, ensureWritable_ok_iff.mpr hmode, hsome, hnone, hunref, bind,
      Except.bind, pure, Except.pure]

/-! ## Levels and modes -/

/-- Setting a level appends one record, for the subject or for all. -/
theorem setCompat_ok {subject : Option String} {level : String} {recs : List TopicRecord}
    (h : setCompat st subject level = .ok recs) : recs = [encodeConfig subject level] := by
  unfold setCompat at h
  simp only at h
  split at h
  all_goals
    split at h
    · cases h
    · simpa using h.symm

/-- Setting the global mode appends one record. -/
theorem setGlobalMode_ok {mode : String} {recs : List TopicRecord}
    (h : setGlobalMode st mode = .ok recs) : recs = [encodeMode none mode] := by
  unfold setGlobalMode at h
  split_ifs at h
  · cases h
  · simpa using h.symm
  · cases h

/-- Setting the mode of a subject appends one record. -/
theorem setSubjectMode_ok {subject mode : String} {recs : List TopicRecord}
    (h : setSubjectMode st subject mode = .ok recs) : recs = [encodeMode (some subject) mode] := by
  unfold setSubjectMode at h
  split_ifs at h
  · cases h
  · simpa using h.symm
  · cases h

/-! ## Every operation -/

/-- The records that an operation appends when it succeeds, and what it has read. -/
inductive Executes (F : Formats) (st : StoreState) : Op → List TopicRecord → Prop where
  /-- The schema is live under the subject already. -/
  | known (req : RegisterSchema) : Executes F st (.register req) []
  | registered {req : RegisterSchema} {resolved : List ResolvedReference} {text key : String}
      {reg : Registered} : st.effectiveMode req.subject ≠ "IMPORT" →
      Reads F st req resolved text key →
      st.findUnderSubjectCanonical req.subject key false = none →
      Compat.checkRegistration F st req.subject req.ty text resolved = .ok () →
      Decides st req.subject key reg → Executes F st (.register req) [req.record text reg]
  | imported {req : RegisterSchema} {text : String} {reg : Registered} :
      st.effectiveMode req.subject = "IMPORT" →
      st.schemaIdConflicts F reg.id req.ty text req.references req.messageType = .ok false →
      Executes F st (.register req) [req.record text reg]
  | leveled (subject : Option String) (level : String) :
      Executes F st (.setCompat subject level) [encodeConfig subject level]
  | levelAbsent (s : String) : Executes F st (.deleteSubjectCompat s) []
  | levelCleared (s : String) : Executes F st (.deleteSubjectCompat s) [configTombstone (some s)]
  | softDeleted {s : String} {v : SchemaVersion} {e : VersionEntry} {reg : RegisteredSchema} :
      entryOf st s v = some e → st.byId[e.id]? = some reg →
      Executes F st (.softDeleteVersion s v) [deletedRecord s v e.id reg]
  | purged {s : String} {v : SchemaVersion} {e : VersionEntry} : entryOf st s v = some e →
      Executes F st (.permanentDeleteVersion s v)
        [encodeVersionHighWater s (st.nextVersion s), encodeTombstone s v]
  | subjectDeleted (s : String) (latest : SchemaVersion) :
      Executes F st (.softDeleteSubject s) [encodeDeleteSubject s latest]
  | subjectPurged (s : String) : Executes F st (.permanentDeleteSubject s)
      (encodeVersionHighWater s (st.nextVersion s) ::
        ((entries st s).map fun e => encodeTombstone s e.version) ++
          [configTombstone (some s), modeTombstone (some s)])
  | globalModed (mode : String) : Executes F st (.setGlobalMode mode) [encodeMode none mode]
  | subjectModed (s mode : String) :
      Executes F st (.setSubjectMode s mode) [encodeMode (some s) mode]
  | modeCleared (s : String) : Executes F st (.clearSubjectMode s) [modeTombstone (some s)]

/-- The records of an operation that answers with more than them. -/
private theorem records_of_map {α : Type} {x : Result (List TopicRecord × α)} {f : α → Reply}
    {recs : List TopicRecord} {reply : Reply}
    (h : (fun p : List TopicRecord × α => (p.1, f p.2)) <$> x = .ok (recs, reply)) :
    ∃ a, x = .ok (recs, a) := by
  obtain ⟨⟨recs', a⟩, hx, heq⟩ := map_ok h
  obtain ⟨rfl, -⟩ : recs' = recs ∧ f a = reply := by simpa using heq
  exact ⟨a, hx⟩

/-- The records of an operation that answers with nothing else. -/
private theorem records_of_done {x : Result (List TopicRecord)} {recs : List TopicRecord}
    {reply : Reply} (h : (·, Reply.done) <$> x = .ok (recs, reply)) : x = .ok recs := by
  obtain ⟨recs', hx, heq⟩ := map_ok h
  obtain ⟨rfl, -⟩ : recs' = recs ∧ _ = reply := by simpa using heq
  exact hx

/-- Every operation that succeeds is one of the cases of `Executes`, so later proofs split on these
and never unfold an operation. -/
theorem exec_ok (hwf : WellFormed st) {op : Op} {recs : List TopicRecord} {reply : Reply}
    (h : exec F st op = .ok (recs, reply)) : Executes F st op recs := by
  cases op with
  | register req =>
    obtain ⟨reg, hreg⟩ := records_of_map h
    -- In IMPORT mode the request brings its own numbers; elsewhere the registry decides them, or
    -- finds the schema known.
    by_cases hmode : st.effectiveMode req.subject = "IMPORT"
    · obtain ⟨text, rfl, hconf⟩ := register_import_ok hmode hreg
      exact .imported hmode hconf
    · obtain ⟨resolved, text, key, hreads, ⟨rfl, _⟩ | ⟨rfl, hnone, hcheck, hdec⟩⟩ :=
        register_ok hmode hreg
      · exact .known req
      · exact .registered hmode hreads hnone hcheck hdec
  | setCompat subject level =>
    rw [setCompat_ok (records_of_done h)]
    exact .leveled subject level
  | deleteSubjectCompat s =>
    obtain ⟨rfl, -⟩ : _ = recs ∧ _ = reply := by simpa [exec] using h
    unfold deleteSubjectCompat
    cases st.subjectCompat[s]? with
    | none => exact .levelAbsent s
    | some level => exact .levelCleared s
  -- The deletes.
  | softDeleteVersion s v =>
    obtain ⟨v', hdel⟩ := records_of_map h
    obtain ⟨e, reg, he, hreg, _, rfl⟩ := softDeleteVersion_ok hwf hdel
    exact .softDeleted he hreg
  | permanentDeleteVersion s v =>
    obtain ⟨v', hdel⟩ := records_of_map h
    obtain ⟨⟨e, he⟩, _, rfl⟩ := permanentDeleteVersion_ok hwf hdel
    exact .purged he
  | softDeleteSubject s =>
    obtain ⟨vs, hdel⟩ := records_of_map h
    obtain ⟨latest, rfl⟩ := softDeleteSubject_ok hdel
    exact .subjectDeleted s latest
  | permanentDeleteSubject s =>
    obtain ⟨vs, hdel⟩ := records_of_map h
    obtain ⟨_, _, _, rfl, rfl⟩ := permanentDeleteSubject_ok_iff.mp hdel
    rw [List.map_map]
    exact .subjectPurged s
  -- The modes.
  | setGlobalMode mode =>
    rw [setGlobalMode_ok (records_of_done h)]
    exact .globalModed mode
  | setSubjectMode s mode =>
    rw [setSubjectMode_ok (records_of_done h)]
    exact .subjectModed s mode
  | clearSubjectMode s =>
    obtain ⟨rfl, -⟩ : _ = recs ∧ _ = reply := by simpa [exec] using h
    exact .modeCleared s

end KrabkaRegistry.Kafkastore
