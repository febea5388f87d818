import KrabkaRegistry.Rest.Subjects
import KrabkaRegistry.Guarantees.References
import KrabkaRegistry.Guarantees.Replay
import KrabkaRegistry.Guarantees.Identity

/-!
# Looking Up What Was Registered

`register` computes the identity key of the storage form of a text, and `lookup` that of the
text as it was sent.

- `lookup_finds_iff`: after a successful registration the lookup of the same request answers
  its id and version exactly when both texts have the same canonical form and still parse once
  the record is applied.
- `recognised_raw`: Avro and JSON texts always have the same form, and they parse again unless
  the references of a request lead back to what it rewrites.
- `lookup_misses_options` is a Protobuf text whose storage form loses a file option.
-/

namespace KrabkaRegistry.Guarantees

open KrabkaRegistry.Format (Checker Formats Libs canonicalOf)
open KrabkaRegistry.Kafkastore
open KrabkaRegistry.Library (Trace)
open KrabkaRegistry.Library.DepthFirst
open KrabkaRegistry.Store
open StoreState (dedupKey contentOf)

variable {L : Libs} {F : Formats} {d : Defaults} {st : StoreState}

/-! ## One version for each id of a subject -/

/-- No subject has two versions with the same id. -/
def Distinct (st : StoreState) : Prop :=
  ∀ s v v' e e', entryOf st s v = some e → entryOf st s v' = some e' → e.id = e'.id → v = v'

private theorem distinct_bind {st' : StoreState} {s : String} {v : SchemaVersion} {n : SchemaId}
    (h : Distinct st) (hn : ∀ v' e, entryOf st s v' = some e → e.id = n → v' = v)
    (hentry : ∀ t u, ∀ e', entryOf st' t u = some e' →
      (t = s ∧ u = v ∧ e'.id = n) ∨ entryOf st t u = some e') : Distinct st' := by
  intro t u u' e e' he he' hid
  rcases hentry t u e he with ⟨rfl, rfl, hen⟩ | hold
  · rcases hentry t u' e' he' with ⟨_, rfl, _⟩ | hold'
    · rfl
    · exact (hn u' e' hold' (hid.symm.trans hen)).symm
  · rcases hentry t u' e' he' with ⟨rfl, rfl, hen'⟩ | hold'
    · exact hn u e hold (hid.trans hen')
    · exact h t u u' e e' hold hold' hid

private theorem distinct_unbinds {st' : StoreState} (h : Distinct st) (hu : Unbinds st st') :
    Distinct st' := by
  intro s v v' e e' he he' hid
  obtain ⟨x, hx, hxid, _⟩ := hu.entry he
  obtain ⟨x', hx', hxid', _⟩ := hu.entry he'
  exact h s v v' x x' hx hx' (by rw [hxid, hxid', hid])

/-- The id that a registration binds is bound to that version of the subject only. -/
theorem decided_unique (hst : Consistent F st) (h : Distinct st) {s key : String}
    {reg : Registered} (hdec : Decides st s key reg) :
    ∀ v e, entryOf st s v = some e → e.id = reg.id → v = reg.version := by
  intro v e he hid
  cases hdec with
  | @existing x _ hfind hv =>
    have hx : entryOf st s x.version = some x :=
      (hst.wellFormed.increasing s).findVersion_eq (List.mem_of_find?_eq_some hfind)
    have hxid : x.id = reg.id := by simpa using List.find?_some hfind
    rw [← hv]
    exact h s v x.version e x he hx (hid.trans hxid.symm)
  | reused _ hnone _ =>
    obtain ⟨hmem, _⟩ := findVersion_some he
    exact absurd hid (hnone e hmem)
  | fresh _ _ hfresh _ =>
    obtain ⟨content, hcontent⟩ := hst.entry_stored he
    have hle := hst.id_le_maxId hcontent
    rw [hid, hfresh] at hle
    exact absurd hle (not_le_of_gt (Int.lt_add_one_of_le (le_refl _)))

theorem distinct_register (hst : Consistent F st) (h : Distinct st) {req : RegisterSchema}
    {text key : String} {reg : Registered} (hdec : Decides st req.subject key reg) :
    Distinct (applyTopicRecord F st (req.record text reg)) := by
  refine distinct_bind (s := req.subject) (v := reg.version) (n := reg.id) h
    (decided_unique hst h hdec) ?_
  intro t u e' he'
  rw [entryOf_record hst.wellFormed] at he'
  split at he'
  · rename_i htarget
    obtain rfl : _ = e' := by simpa using he'
    exact .inl ⟨htarget.1.symm, htarget.2.symm, rfl⟩
  · exact .inr he'

private theorem distinct_emits {w : World} {r : TopicRecord} (he : Emits F false w r)
    (hw : Consistent F w.state ∧ Distinct w.state) :
    Consistent F (w.append F [r]).state ∧ Distinct (w.append F [r]).state := by
  obtain ⟨hst, hd⟩ := hw
  refine ⟨append_consistent hst [r], ?_⟩
  have hplain : schemaValue? r = none → Distinct (w.append F [r]).state := fun hr =>
    distinct_unbinds hd (unbinds_record (F := F) hst.wellFormed hr)
  cases he with
  | registered _ _ _ _ hdec => exact distinct_register hst hd hdec
  | imported himp => cases himp
  | softDeleted hentry hreg =>
    exact distinct_unbinds hd (unbinds_softDelete hst.wellFormed hentry hreg)
  | subjectDeleted | marked | purged | leveled | moded | barrier => exact hplain rfl

/-- The entries of a state are those of its log. -/
private def EntriesLogged (F : Formats) (d : Defaults) (w : World) : Prop :=
  ∀ s v, entryOf w.state s v = entryOf (replay F d.state w.log) s v

private theorem entriesLogged_append {w : World} (hst : Consistent F w.state)
    (h : EntriesLogged F d w) (recs : List TopicRecord) : EntriesLogged F d (w.append F recs) := by
  intro s v
  have hwf : WellFormed (replay F d.state w.log) :=
    replay_wellFormed (d.state_consistent F).wellFormed w.log
  change entryOf (replay F w.state recs) s v = entryOf (replay F d.state (w.log ++ recs)) s v
  rw [replay_append, entryOf_replay hst.wellFormed, entryOf_replay hwf, h s v]

/-- In a run without imports no subject has an id twice, also after restarts. -/
theorem run_distinct {t : List (World × Event)} {w : World} (h : Run F d mayDropNullAlone t w)
    (hassign : ∀ p ∈ t, Assigns p.1 p.2) : Distinct w.state := by
  have hrun : EntriesLogged F d w ∧ Distinct w.state := by
    induction h with
    | nil =>
      refine ⟨fun _ _ => rfl, ?_⟩
      intro s v v' e e' he
      simp [World.start, Defaults.state] at he
    | @snoc w₁ w₂ t l ht hs ih =>
      obtain ⟨hlogged, hdistinct⟩ := ih fun p hp => hassign p (List.mem_append_left _ hp)
      have hst := Run.consistent ht
      have hlast : Assigns w₁ l := hassign (w₁, l) (by simp)
      rcases hs.cases false hst (.inr hlast) with ⟨replayed, _, hc, rfl⟩ | ⟨_, recs, hw, rfl⟩
      -- A compaction replays to the entries of the log, which are the ones from before.
      · have hsame : ∀ s v, entryOf (replay F d.state replayed) s v = entryOf w₁.state s v := by
          intro s v
          rw [hlogged s v, entryOf_compacted (Run.writtenLog ht) hc]
        refine ⟨fun s v => (entryOf_compacted (Run.writtenLog ht) hc).symm, ?_⟩
        intro s v v' e e' he he'
        change entryOf (replay F d.state replayed) s v = some e at he
        change entryOf (replay F d.state replayed) s v' = some e' at he'
        rw [hsame] at he he'
        exact hdistinct s v v' e e' he he'
      · refine ⟨entriesLogged_append hst hlogged recs, ?_⟩
        exact (hw.invariant (I := fun w => Consistent F w.state ∧ Distinct w.state)
          (fun _ _ he hi => distinct_emits he hi) ⟨hst, hdistinct⟩).2
  exact hrun.2

/-! ## What `lookup` computes -/

/-- The body that sends a request's schema again. -/
def requestBody (req : RegisterSchema) : Rest.RegisterBody :=
  { schema := req.schema, schemaType := req.ty.wireName, references := req.references,
    messageType := req.messageType }

/-- `lookup` without normalization answers the id and version of `reg`. -/
def Finds (L : Libs) (F : Formats) (st : StoreState) (req : RegisterSchema) (deleted : Bool)
    (reg : Registered) : Prop :=
  ∃ response, Rest.lookup L F st req.subject deleted false (requestBody req) = .ok response ∧
    response.id = reg.id ∧ response.version = reg.version

/-- The version of `reg` is live in the subject and has its id. -/
def Bound (st : StoreState) (s : String) (reg : Registered) : Prop :=
  entryOf st s reg.version = some ⟨reg.version, reg.id, false⟩

private theorem Bound.mem {s : String} {reg : Registered} (h : Bound st s reg) :
    (⟨reg.version, reg.id, false⟩ : VersionEntry) ∈ entries st s :=
  (findVersion_some h).1

private theorem versions_bound {s : String} {reg : Registered} (h : Bound st s reg) (b : Bool) :
    (st.versions s b).isNone = false := by
  have hmem := h.mem
  unfold StoreState.versions
  unfold entries at hmem
  cases hs : st.subjects[s]? with
  | none => simp [hs] at hmem
  | some l =>
    simp only [hs, Option.getD_some] at hmem
    have hne : ((l.filter fun v => b || !v.deleted).map (·.version)).isEmpty = false := by
      rw [List.isEmpty_eq_false_iff_exists_mem]
      exact ⟨reg.version, List.mem_map.mpr ⟨_, List.mem_filter.mpr ⟨hmem, by simp⟩, rfl⟩⟩
    simp [hne]

/-- A found id has content. -/
private theorem schemaById_found (hst : Consistent F st) {s key : String} {b : Bool}
    {found : Registered} (h : st.findUnderSubjectCanonical s key b = some found) :
    ∃ content, st.schemaById found.id b = some content := by
  obtain ⟨_, e, he, _⟩ := findUnderSubjectCanonical_some h
  have hmem := List.mem_of_find?_eq_some he
  have hprop := List.find?_some he
  simp only [decide_eq_true_eq] at hprop
  have hentry : entryOf st s e.version = some e :=
    (hst.wellFormed.increasing s).findVersion_eq hmem
  obtain ⟨content, hcontent⟩ := hst.entry_stored hentry
  rw [hprop.1] at hcontent
  refine ⟨(content.ty, content.schema, content.references, content.messageType), ?_⟩
  unfold StoreState.schemaById
  unfold entries at hmem
  cases hs : st.subjects[s]? with
  | none => simp [hs] at hmem
  | some l =>
    simp only [hs, Option.getD_some] at hmem
    -- The entry that was found is the one that lets the content be seen.
    have hany : (st.subjects.toList.any fun p => p.2.any fun v =>
        v.id = found.id && (b || !v.deleted)) = true := by
      refine List.any_eq_true.mpr ⟨(s, l),
        Std.ExtTreeMap.mem_toList_iff_getElem?_eq_some.mpr hs, ?_⟩
      refine List.any_eq_true.mpr ⟨e, hmem, ?_⟩
      simpa using hprop
    simp [hcontent, hany]

/-- `lookup` answers `reg` exactly when the key of the text leads to its id. -/
theorem finds_iff (hst : Consistent F st) (hd : Distinct st) {req : RegisterSchema}
    {reg : Registered} (hbound : Bound st req.subject reg) (deleted : Bool) :
    Finds L F st req deleted reg ↔
      ∃ key, st.identityKey F req.ty req.schema req.references req.messageType = .ok key ∧
        st.byCanonical[key]? = some reg.id := by
  have hfind : ∀ key, st.byCanonical[key]? = some reg.id →
      st.findUnderSubjectCanonical req.subject key deleted = some reg := by
    intro key hkey
    rw [findUnderSubjectCanonical_eq, hkey, Option.bind_some]
    cases he : (entries st req.subject).find? fun v => v.id = reg.id ∧ (deleted ∨ ¬ v.deleted) with
    | none =>
      have hnone := List.find?_eq_none.mp he _ hbound.mem
      simp at hnone
    | some e =>
      -- No other version of the subject has the id.
      have hprop := List.find?_some he
      simp only [decide_eq_true_eq] at hprop
      have hentry : entryOf st req.subject e.version = some e :=
        (hst.wellFormed.increasing _).findVersion_eq (List.mem_of_find?_eq_some he)
      have hversion : e.version = reg.version := hd _ _ _ _ _ hentry hbound hprop.1
      simp [hversion]
  unfold Finds Rest.lookup Rest.sentText requestBody
  simp only [SchemaType.fromWire_wireName, Bool.false_eq_true, if_false, versions_bound hbound,
    bind, Except.bind, StoreState.findUnderSubject]
  cases hkey : st.identityKey F req.ty req.schema req.references req.messageType with
  | error e => simp [fail]
  | ok key =>
    simp only [Except.ok.injEq, exists_eq_left']
    cases hf : st.findUnderSubjectCanonical req.subject key deleted with
    | none =>
      have hne : st.byCanonical[key]? ≠ some reg.id := fun h => by simp [hfind key h] at hf
      simp [fail, hne]
    | some found =>
      obtain ⟨content, hcontent⟩ := schemaById_found hst hf
      simp only [hcontent, pure, Except.pure]
      constructor
      · rintro ⟨response, hresponse, hid, _⟩
        obtain rfl : _ = response := Except.ok.inj hresponse
        rw [← hid]
        exact (findUnderSubjectCanonical_some hf).1
      · intro hid
        obtain rfl : reg = found := by simpa [hfind key hid] using hf
        exact ⟨_, rfl, rfl, rfl⟩

/-! ## Two texts, one key -/

/-- The text parses with the references of the request as they are in `st`. -/
def Parses (F : Formats) (st : StoreState) (req : RegisterSchema) (text : String) : Prop :=
  ∃ resolved c, st.resolveClosure req.references = .ok resolved ∧
    F.parse req.ty text resolved = .ok c

/-- If the registration appends a record, the storage form parses where the record is indexed,
and the text as sent parses once it is applied. -/
def Reparses (F : Formats) (st : StoreState) (req : RegisterSchema) (text key : String) : Prop :=
  st.findUnderSubjectCanonical req.subject key false = none →
    Parses F (st.prepareSchema (recordValue req text (decision st req.subject key))) req text ∧
    Parses F (applyTopicRecord F st (req.record text (decision st req.subject key))) req
      req.schema

/-- The text as sent is recognised as the storage form `text` with the identity `key`. -/
structure Recognised (L : Libs) (F : Formats) (st : StoreState) (req : RegisterSchema)
    (text key : String) : Prop where
  same_form : canonicalOf L req.ty req.schema = canonicalOf L req.ty text
  reparses : Reparses F st req text key

private theorem dedupKey_canonical_inj {c c' : String} {references : List SchemaReference}
    {messageType : Option String}
    (h : dedupKey c references messageType = dedupKey c' references messageType) : c = c' := by
  rw [dedupKey_eq, dedupKey_eq] at h
  have hlist := congrArg String.toList h
  rw [String.toList_append, String.toList_append] at hlist
  exact String.toList_inj.mp (List.append_cancel_right hlist)

theorem identityKey_iff {req : RegisterSchema} {text key : String} :
    st.identityKey F req.ty text req.references req.messageType = .ok key ↔
      ∃ resolved c, st.resolveClosure req.references = .ok resolved ∧
        F.parse req.ty text resolved = .ok c ∧
        key = dedupKey c req.references req.messageType := by
  constructor
  · exact identityKey_ok
  · rintro ⟨resolved, c, hclosure, hparse, rfl⟩
    exact identityKey_of_parse hclosure hparse

/-- Two texts have one key exactly when they have one canonical form and both parse. -/
private theorem same_key_iff {st' : StoreState} {req : RegisterSchema} {text : String}
    (hcanonical : ∀ {schema refs c}, F.parse req.ty schema refs = .ok c →
      canonicalOf L req.ty schema = some c) :
    (∃ key, st'.identityKey F req.ty req.schema req.references req.messageType = .ok key ∧
        st.identityKey F req.ty text req.references req.messageType = .ok key) ↔
      canonicalOf L req.ty req.schema = canonicalOf L req.ty text ∧ Parses F st req text ∧
        Parses F st' req req.schema := by
  simp only [identityKey_iff]
  constructor
  · rintro ⟨_, ⟨resolved', c', hclosure', hparse', rfl⟩, ⟨resolved, c, hclosure, hparse, hkey⟩⟩
    obtain rfl : c' = c := dedupKey_canonical_inj hkey
    refine ⟨?_, ⟨resolved, c', hclosure, hparse⟩, ⟨resolved', c', hclosure', hparse'⟩⟩
    rw [hcanonical hparse', hcanonical hparse]
  · rintro ⟨hsame, ⟨resolved, c, hclosure, hparse⟩, ⟨resolved', c', hclosure', hparse'⟩⟩
    rw [hcanonical hparse', hcanonical hparse] at hsame
    obtain rfl : c' = c := by simpa using hsame
    exact ⟨_, ⟨resolved', c', hclosure', hparse', rfl⟩, ⟨resolved, c', hclosure, hparse, rfl⟩⟩

section Libraries

variable {C : Checker}

/-- What a parse yields is the canonical form of the text. -/
private theorem ofLibs_canonical {ty : SchemaType} {schema : String}
    {refs : List ResolvedReference} {c : String}
    (h : (Formats.ofLibs L C).parse ty schema refs = .ok c) :
    canonicalOf L ty schema = some c := by
  obtain ⟨p, hp, rfl⟩ := map_ok h
  exact Format.parse_canonicalOf hp

/-- The schema was live under its subject already. Nothing is appended, and the index still leads
from its key, and from no other, to its id. -/
private theorem finds_iff_live {req : RegisterSchema} {resolved : List ResolvedReference}
    {text key : String} {reg : Registered}
    (hst : Consistent (Formats.ofLibs L C) st) (hd : Distinct st)
    (hreads : Reads (Formats.ofLibs L C) st req resolved text key)
    (hfind : st.findUnderSubjectCanonical req.subject key false = some reg) (deleted : Bool) :
    Finds L (Formats.ofLibs L C) st req deleted reg ↔
      Recognised L (Formats.ofLibs L C) st req text key := by
  obtain ⟨hkey, e, he, hv⟩ := findUnderSubjectCanonical_some hfind
  have hbound : Bound st req.subject reg := by
    have hprop := List.find?_some he
    simp only [Bool.false_eq_true, false_or, decide_eq_true_eq, Bool.not_eq_true] at hprop
    have hentry : entryOf st req.subject e.version = some e :=
      (hst.wellFormed.increasing _).findVersion_eq (List.mem_of_find?_eq_some he)
    unfold Bound
    rw [← hv, hentry, ← hprop.1, ← hprop.2]
  rw [finds_iff hst hd hbound]
  have hkeys : ∀ key', st.byCanonical[key']? = some reg.id ↔
      st.identityKey (Formats.ofLibs L C) req.ty text req.references
        req.messageType = .ok key' := by
    intro key'
    rw [hreads.identity, Except.ok.injEq]
    constructor
    -- The index is injective, so the id has one key.
    · intro hkey'
      have hc := (hst.inverse key reg.id).mp hkey
      rw [(hst.inverse key' reg.id).mp hkey'] at hc
      simpa using hc.symm
    · rintro rfl
      exact hkey
  simp only [hkeys]
  rw [same_key_iff (L := L) fun hp => ofLibs_canonical hp]
  constructor
  · exact fun hk => ⟨hk.1, fun hnone => by simp [hnone] at hfind⟩
  · intro hr
    obtain ⟨c, hc⟩ := Formats.ofLibs_parses hreads.storage
    obtain ⟨resolved', c', hclosure, hparse, _⟩ := identityKey_ok hreads.identity
    exact ⟨hr.same_form, ⟨resolved', c', hclosure, hparse⟩, ⟨resolved, c, hreads.closure, hc⟩⟩

/-- The record was appended, and its identity indexed anew. So the lookup finds it exactly when the
request, prepared again, has the key under which it was indexed. -/
private theorem finds_iff_appended {req : RegisterSchema} {text key : String} {reg : Registered}
    (hst : Consistent (Formats.ofLibs L C) st) (hd : Distinct st)
    (hnone : st.findUnderSubjectCanonical req.subject key false = none)
    (hdec : Decides st req.subject key reg) (deleted : Bool) :
    Finds L (Formats.ofLibs L C)
        (applyTopicRecord (Formats.ofLibs L C) st (req.record text reg)) req deleted
        reg ↔
      Recognised L (Formats.ofLibs L C) st req text key := by
  have hst' : Consistent (Formats.ofLibs L C)
      (applyTopicRecord (Formats.ofLibs L C) st (req.record text reg)) :=
    replay_consistent hst [req.record text reg]
  have hbound : Bound
      (applyTopicRecord (Formats.ofLibs L C) st (req.record text reg)) req.subject
      reg := by
    unfold Bound
    rw [entryOf_record hst.wellFormed, if_pos ⟨rfl, rfl⟩]
  rw [finds_iff hst' (distinct_register hst hd hdec) hbound]
  -- After the append the index holds the id under the key of the appended schema, and under no
  -- other.
  have hindex : ∀ key' : String,
      (applyTopicRecord (Formats.ofLibs L C) st
        (req.record text reg)).byCanonical[key']? = some reg.id ↔
        (st.prepareSchema (recordValue req text reg)).identityKey
          (Formats.ofLibs L C) req.ty text req.references req.messageType =
            .ok key' := by
    intro key'
    obtain ⟨k, hk⟩ := applyTopicRecord_schema (F := Formats.ofLibs L C) st
      (schemaValue?_record req text reg)
    rw [hk, byCanonical_applySchema hst.inverse]
    simp only [recordValue, ne_eq, not_true_eq_false, false_and, or_false, true_and, placeKey,
      StoreState.indexKey, SchemaType.fromWire_wireName]
    cases StoreState.identityKey (Formats.ofLibs L C) _ req.ty text req.references
      req.messageType with
    | error e => simp [Except.toOption]
    | ok key' => simp [Except.toOption]
  simp only [hindex]
  -- So the lookup asks whether the request, read again, has that key.
  rw [same_key_iff (L := L) fun hp => ofLibs_canonical hp]
  constructor
  · intro hk
    refine ⟨hk.1, fun _ => ?_⟩
    rw [← hdec.eq_decision]
    exact hk.2
  · intro hr
    have hparses := hr.reparses hnone
    rw [← hdec.eq_decision] at hparses
    exact ⟨hr.same_form, hparses⟩

/-- After a successful registration, in any state that a run without imports reaches, `lookup`
answers its id and version exactly when the request is recognised as its storage form. -/
theorem lookup_finds_iff {t : List (World × Event)} {w : World}
    (h : Run (Formats.ofLibs L C) d mayDropNullAlone t w)
    (hassign : ∀ p ∈ t, Assigns p.1 p.2) {req : RegisterSchema}
    (hmode : w.state.effectiveMode req.subject ≠ "IMPORT") {recs : List TopicRecord}
    {reg : Registered}
    (hreg : Kafkastore.register (Formats.ofLibs L C) w.state req = .ok (recs, reg))
    (deleted : Bool) :
    Finds L (Formats.ofLibs L C)
        (w.append (Formats.ofLibs L C) recs).state req deleted reg ↔
      ∀ resolved text key, Reads (Formats.ofLibs L C) w.state req resolved text key →
        Recognised L (Formats.ofLibs L C) w.state req text key := by
  have hst := Run.consistent h
  have hd : Distinct w.state := run_distinct h hassign
  obtain ⟨resolved, text, key, hreads, hcases⟩ := register_ok hmode hreg
  -- The schema was known before, or it was appended; then the state after the append is asked.
  have hfinds : Finds L (Formats.ofLibs L C)
      (w.append (Formats.ofLibs L C) recs).state req deleted reg ↔
        Recognised L (Formats.ofLibs L C) w.state req text key := by
    rcases hcases with ⟨rfl, hfind⟩ | ⟨rfl, hnone, _, hdec⟩
    · rw [World.append_nil]
      exact finds_iff_live hst hd hreads hfind deleted
    · exact finds_iff_appended hst hd hnone hdec deleted
  rw [hfinds]
  constructor
  · intro hr resolved' text' key' hreads'
    obtain ⟨rfl, rfl⟩ := hreads.unique hreads'
    exact hr
  · exact fun hr => hr resolved text key hreads

/-! ## Requests that do not lead back to themselves -/

/-- The content of a version where a registration is indexed. -/
private theorem contentAt_prepare {req : RegisterSchema} {text : String} {reg : Registered}
    {u : String × SchemaVersion} {content : RegisteredSchema} (hc : contentAt st u = some content)
    (hid : (entryOf st u.1 u.2).map (·.id) = some reg.id → content = requestContent req text) :
    contentAt (st.prepareSchema (recordValue req text reg)) u = some content := by
  rw [contentAt_prepareSchema, contentOf_recordValue, hc]
  split_ifs with h
  · rw [hid h]
  · rfl

/-- A request whose references lead to nothing it rewrites parses again. The closure that it is read
with is the same before the record and after it. -/
theorem reparses_of_spared {req : RegisterSchema} {resolved : List ResolvedReference}
    {text key : String} (hwf : WellFormed st)
    (hreads : Reads (Formats.ofLibs L C) st req resolved text key)
    (hspared : ∀ u, Reach (graph st) req.references u → ¬ Rewrites st req text key u) :
    Reparses (Formats.ofLibs L C) st req text key := by
  intro _
  have hres : Resolves st req.references := ⟨resolved, hreads.closure⟩
  -- A reached version that is written keeps its content, since it is not rewritten.
  have hkeep : ∀ u content, Reach (graph st) req.references u → contentAt st u = some content →
      (u = (req.subject, (decision st req.subject key).version) ∨
        (entryOf st u.1 u.2).map (·.id) = some (decision st req.subject key).id) →
      content = requestContent req text := by
    intro u content hu hc hwrite
    by_contra hne
    exact hspared u hu ⟨hwrite, by simp [hc], by simpa [hc] using hne⟩
  obtain ⟨_, c, hclosure, hparse, _⟩ := identityKey_ok hreads.identity
  obtain ⟨c', hc'⟩ := Formats.ofLibs_parses hreads.storage
  constructor
  · refine ⟨resolved, c, ?_, ?_⟩
    · rw [hres.congr fun u content hu hc =>
        contentAt_prepare hc fun hid => hkeep u content hu hc (.inr hid)]
      exact hreads.closure
    · rw [hreads.closure, Except.ok.injEq] at hclosure
      rw [hclosure]
      exact hparse
  · refine ⟨resolved, c', ?_, hc'⟩
    rw [hres.congr fun u content hu hc => ?_]
    · exact hreads.closure
    · rw [contentAt_register hwf]
      split
      · rename_i hwrite
        rw [hkeep u content hu hc hwrite]
      · exact hc

/-- Avro and JSON requests are recognised, unless they lead back to what they rewrite. -/
theorem recognised_raw {req : RegisterSchema} {resolved : List ResolvedReference}
    {text key : String} (hwf : WellFormed st) (hty : req.ty ≠ .protobuf)
    (hreads : Reads (Formats.ofLibs L C) st req resolved text key)
    (hspared : ∀ u, Reach (graph st) req.references u → ¬ Rewrites st req text key u) :
    Recognised L (Formats.ofLibs L C) st req text key := by
  refine ⟨?_, reparses_of_spared hwf hreads hspared⟩
  rw [Format.normalizedStorageForm_raw hty hreads.storage]

end Libraries

/-! ### A file option that the storage form loses -/

/-- A Protobuf file with a package option for Java. -/
def requestProto : RegisterSchema := { subject := "a", ty := .protobuf, schema := Format.sampleProto }

/-- The registration of the file succeeds, and its lookup finds nothing. -/
theorem lookup_misses_options :
    ∃ t w recs reg, Run Formats.sample {} mayDropNullAlone t w ∧
      w.state.effectiveMode requestProto.subject = "READWRITE" ∧
      Kafkastore.register Formats.sample w.state requestProto = .ok (recs, reg) ∧
      ¬ Finds Libs.sample Formats.sample (w.append Formats.sample recs).state requestProto false
        reg := by
  obtain ⟨recs, hreg⟩ := register_of_answer (F := Formats.sample) (World.start {}).state
    requestProto ⟨1, 1⟩ (by decide +kernel)
  refine ⟨[], World.start {}, recs, ⟨1, 1⟩, Trace.nil _, by decide +kernel, hreg, ?_⟩
  rintro ⟨response, hresponse, _⟩
  have hmiss : (Kafkastore.register Formats.sample (World.start {}).state requestProto).map
      (fun p => (Rest.lookup Libs.sample Formats.sample
        ((World.start {}).append Formats.sample p.1).state "a" false false
        (requestBody requestProto)).isOk) = .ok false := by decide +kernel
  rw [hreg] at hmiss
  have hfalse : (Rest.lookup Libs.sample Formats.sample
      ((World.start {}).append Formats.sample recs).state "a" false false
      (requestBody requestProto)).isOk = false := by simpa [Except.map] using hmiss
  change Rest.lookup Libs.sample Formats.sample _ "a" false false _ = .ok response at hresponse
  rw [hresponse] at hfalse
  cases hfalse

/-- A schema with a reference, registered beside others as the second version of its subject, is
found again, with and without deleted versions. -/
theorem lookup_finds_iff_referrer :
    let w := (World.start {}).afterAll Formats.sample
      [.register requestTrue, .setCompat none "NONE", .register requestEmpty,
        .softDeleteVersion "a" 1]
    ∃ recs, Kafkastore.register Formats.sample w.state requestReferrer = .ok (recs, ⟨3, 2⟩) ∧
      ∀ deleted, Finds Libs.sample Formats.sample
        (w.append Formats.sample recs).state requestReferrer deleted ⟨3, 2⟩ := by
  intro w
  obtain ⟨recs, hreg⟩ := register_of_answer (F := Formats.sample) w.state requestReferrer ⟨3, 2⟩
    (by decide +kernel)
  have hrun : Run Formats.sample {} mayDropNullAlone _ w :=
    Run.steps (Trace.nil _) [.register requestTrue, .setCompat none "NONE",
      .register requestEmpty, .softDeleteVersion "a" 1] (by decide +kernel)
  refine ⟨recs, hreg, fun deleted => ?_⟩
  refine (lookup_finds_iff hrun (by decide +kernel) (by decide +kernel) hreg deleted).mpr ?_
  intro resolved text key hreads
  refine recognised_raw (Run.consistent hrun).wellFormed (by decide) hreads fun u hu => ?_
  -- Only `b` is reached, which keeps its id.
  have hb : u = ("b", 1) := by
    have hleaf : (graph w.state).next ("b", 1) = some [] := by decide +kernel
    refine hu.closed (P := (· = ("b", 1))) (fun e he => ?_) fun v es e hv hn he => ?_
    · rw [List.mem_singleton.mp he]
      rfl
    · subst hv
      obtain rfl := Option.some.inj (hleaf.symm.trans hn)
      cases he
  obtain rfl := hb
  have hkey : registerKey Formats.sample w.state requestReferrer =
      .ok (StoreState.dedupKey "\x7b\x7d" requestReferrer.references none) := by decide +kernel
  obtain rfl := Except.ok.inj ((registerKey_of_reads hreads).symm.trans hkey)
  have hspared : ¬ (((("b", 1) : String × SchemaVersion) = (requestReferrer.subject,
      (decision w.state requestReferrer.subject
        (StoreState.dedupKey "\x7b\x7d" requestReferrer.references none)).version) ∨
      (entryOf w.state "b" 1).map (·.id) = some (decision w.state requestReferrer.subject
        (StoreState.dedupKey "\x7b\x7d" requestReferrer.references none)).id)) := by
    decide +kernel
  exact fun hrewrites => hspared hrewrites.1

end KrabkaRegistry.Guarantees
