import KrabkaRegistry.Guarantees.Replay
import KrabkaRegistry.Guarantees.Ids

/-!
# New Ids and Versions

A new version takes the counter of its subject, which only rises and stops at `i32::MAX`; a new
id is one more than the greatest id, and the addition overflows at `i32::MAX`.

- `new_version_fresh_iff`: the new version is positive and above every version ever bound,
  exactly when those stay below `i32::MAX` and are not all negative.
- `new_id_safe_iff`: the new id is positive and above every id in use, and nothing overflows,
  exactly when `i32::MAX` is not in use yet or the registration is refused before.
-/

namespace KrabkaRegistry.Guarantees

open KrabkaRegistry.Format (Formats)
open KrabkaRegistry.Kafkastore
open KrabkaRegistry.Library (Trace)
open KrabkaRegistry.Library.Compaction
open KrabkaRegistry.Store

variable {F : Formats} {d : Defaults} {mayDrop : List TopicRecord → TopicRecord → Prop}
  {st : StoreState}

/-! ## Versions ever bound -/

/-- The versions that the records of a log bind in a subject, live or deleted. -/
def everBound (log : List TopicRecord) (s : String) : List SchemaVersion :=
  log.filterMap fun r =>
    (schemaValue? r).bind fun value => if value.subject = s then some value.version else none

/-- The version is positive and above all that the subject ever had. -/
def FreshVersion (log : List TopicRecord) (s : String) (v : SchemaVersion) : Prop :=
  1 ≤ v ∧ ∀ v' ∈ everBound log s, v' < v

/-- What the subject ever had stays below `i32::MAX`, and is not all negative. -/
def RoomAbove (log : List TopicRecord) (s : String) : Prop :=
  (∀ v ∈ everBound log s, v < i32Max) ∧
    (everBound log s ≠ [] → ∃ v ∈ everBound log s, 0 ≤ v)

instance (log : List TopicRecord) (s : String) (v : SchemaVersion) :
    Decidable (FreshVersion log s v) :=
  inferInstanceAs (Decidable (_ ∧ _))

instance (log : List TopicRecord) (s : String) : Decidable (RoomAbove log s) :=
  inferInstanceAs (Decidable (_ ∧ _))

theorem mem_everBound {log : List TopicRecord} {s : String} {v : SchemaVersion} :
    v ∈ everBound log s ↔
      ∃ r ∈ log, ∃ value, schemaValue? r = some value ∧ value.subject = s ∧ value.version = v := by
  simp only [everBound, List.mem_filterMap, Option.bind_eq_some_iff, Option.ite_none_right_eq_some,
    Option.some.injEq]

theorem mem_everBound_append {log : List TopicRecord} {s : String} {v : SchemaVersion}
    (h : v ∈ everBound log s) (recs : List TopicRecord) : v ∈ everBound (log ++ recs) s := by
  rw [everBound, List.filterMap_append]
  exact List.mem_append_left _ h

/-- Every version of a replayed state is bound by a replayed record. -/
private theorem everBound_of_replay {log : List TopicRecord} {s : String} {v : SchemaVersion}
    {e : VersionEntry} (h : entryOf (replay F d.state log) s v = some e) : v ∈ everBound log s := by
  have hwf : WellFormed d.state := (d.state_consistent F).wellFormed
  have hstart : entryOf d.state s v = none := entryOf_withDefaults _ _ s v
  rw [entryOf_replay hwf, hstart] at h
  induction log using List.reverseRecOn generalizing e with
  | nil => cases h
  | append_singleton log r ih =>
    rw [List.foldl_append, List.foldl_cons, List.foldl_nil] at h
    -- The last record binds the version, or it was bound before.
    cases hr : schemaValue? r with
    | some value =>
      by_cases hv : value.subject = s ∧ value.version = v
      · exact mem_everBound.mpr ⟨r, by simp, value, hr, hv⟩
      · cases r with
        | schema k value' =>
          obtain rfl : value' = some value := hr
          rw [entryStep, if_neg hv] at h
          exact mem_everBound_append (ih h) _
        | _ => cases hr
    | none =>
      obtain ⟨e', he', _⟩ := entryStep_of_no_value hr h
      exact mem_everBound_append (ih he') _

/-! ## The counter of a subject -/

/-- A marker or a tombstone asks for no more than some bound version does. -/
def BidsBound (log : List TopicRecord) : Prop :=
  ∀ s, ∀ r ∈ log, ∀ n, bid s r = some n → ∃ v ∈ everBound log s, n = saturatingSucc v

/-- A record with a value asks for the successor of the version that it binds. -/
private theorem bid_of_value {s : String} {r : TopicRecord} {value : SchemaValue}
    (hr : schemaValue? r = some value) {n : SchemaVersion} (hn : bid s r = some n) :
    value.subject = s ∧ n = saturatingSucc value.version := by
  cases r with
  | schema k value' =>
    obtain rfl : value' = some value := hr
    simp only [bid] at hn
    split at hn
    · exact ⟨by assumption, by simpa using hn.symm⟩
    · cases hn
  | _ => cases hr

/-- What an operation writes raises a counter for a version that it binds or finds. Without a schema
value that is a permanent delete, whose mark and tombstones concern versions that are there. -/
private theorem exec_bid (hwf : WellFormed st) {op : Op} {recs : List TopicRecord}
    {reply : Reply} (h : exec F st op = .ok (recs, reply)) {s : String} {r : TopicRecord}
    (hr : r ∈ recs) {n : SchemaVersion} (hn : bid s r = some n) :
    (∃ value, schemaValue? r = some value) ∨
    (∃ v e, entryOf st s v = some e ∧ (n = saturatingSucc v ∨ n = st.nextVersion s)) := by
  have hexec := exec_ok hwf h
  cases hexec with
  | known | levelAbsent => exact absurd hr List.not_mem_nil
  | registered | imported | softDeleted =>
    rw [List.mem_singleton.mp hr]
    exact .inl ⟨_, rfl⟩
  | leveled | levelCleared | subjectDeleted | globalModed | subjectModed | modeCleared =>
    rw [List.mem_singleton.mp hr] at hn
    cases hn
  | @purged s' v e he =>
    right
    simp only [List.mem_cons, List.not_mem_nil, or_false] at hr
    rcases hr with rfl | rfl
    · obtain ⟨rfl, rfl⟩ : s' = s ∧ st.nextVersion s' = n := by
        simpa [bid, encodeVersionHighWater] using hn
      exact ⟨v, e, he, .inr rfl⟩
    · obtain ⟨rfl, rfl⟩ : s' = s ∧ saturatingSucc v = n := by
        simpa [bid, encodeTombstone] using hn
      exact ⟨v, e, he, .inl rfl⟩
  | subjectPurged s' =>
    right
    have hentry : ∀ e ∈ entries st s', entryOf st s' e.version = some e :=
      fun e he => (hwf.increasing s').findVersion_eq he
    simp only [List.cons_append, List.mem_cons, List.mem_append, List.mem_map,
      List.not_mem_nil, or_false] at hr
    rcases hr with rfl | ⟨e, he, rfl⟩ | rfl | rfl
    -- The marker is written for a subject that has versions.
    · obtain ⟨rfl, rfl⟩ : s' = s ∧ st.nextVersion s' = n := by
        simpa [bid, encodeVersionHighWater] using hn
      obtain ⟨⟨recs', vs⟩, hpurge, _⟩ := map_ok h
      obtain ⟨_, hne, _⟩ := permanentDeleteSubject_ok_iff.mp hpurge
      obtain ⟨e, he⟩ := List.exists_mem_of_ne_nil _ hne
      exact ⟨e.version, e, hentry e he, .inr rfl⟩
    · obtain ⟨rfl, rfl⟩ : s' = s ∧ saturatingSucc e.version = n := by
        simpa [bid, encodeTombstone] using hn
      exact ⟨e.version, e, hentry e he, .inl rfl⟩
    · cases hn
    · cases hn

private theorem bidsBound_append {log recs : List TopicRecord} (h : BidsBound log)
    (hrecs : ∀ s, ∀ r ∈ recs, ∀ n, bid s r = some n → (∃ value, schemaValue? r = some value) ∨
      ∃ v ∈ everBound log s, n = saturatingSucc v) : BidsBound (log ++ recs) := by
  intro s r hr n hn
  have hbound : (∃ value, schemaValue? r = some value) ∨
      ∃ v ∈ everBound log s, n = saturatingSucc v := by
    rcases List.mem_append.mp hr with hlog | hrec
    · exact .inr (h s r hlog n hn)
    · exact hrecs s r hrec n hn
  rcases hbound with ⟨value, hvalue⟩ | ⟨v, hv, hsucc⟩
  · obtain ⟨hs, hsucc⟩ := bid_of_value hvalue hn
    exact ⟨value.version, mem_everBound.mpr ⟨r, hr, value, hvalue, hs, rfl⟩, hsucc⟩
  · exact ⟨v, mem_everBound_append hv recs, hsucc⟩

/-- The live versions and the live counter go back to the log. -/
private theorem Run.entry_everBound {t : List (World × Event)} {w : World}
    (h : Run F d mayDropNullAlone t w) {s : String} {v : SchemaVersion} {e : VersionEntry}
    (he : entryOf w.state s v = some e) : v ∈ everBound w.log s := by
  have hviews := Run.restarted_sameViews h (Compacts.refl w.log [])
  refine everBound_of_replay (F := F) (d := d) (e := e) ?_
  rw [hviews.entry, he]

private theorem Run.bidsBound {t : List (World × Event)} {w : World}
    (h : Run F d mayDropNullAlone t w) : BidsBound w.log := by
  induction h with
  | nil =>
    intro s r hr
    exact absurd hr List.not_mem_nil
  | @snoc w₁ w₂ t l ht hs ih =>
    have hrun : Run F d mayDropNullAlone t w₁ := ht
    have hst : Consistent F w₁.state := Run.consistent hrun
    have hexec : ∀ {op recs reply}, exec F w₁.state op = .ok (recs, reply) → ∀ k,
        BidsBound (w₁.log ++ recs.take k) := by
      intro op recs reply hop k
      refine bidsBound_append ih fun s r hr n hn => ?_
      rcases exec_bid hst.wellFormed hop (List.mem_of_mem_take hr) hn with
        hvalue | ⟨v, e, he, rfl | rfl⟩
      · exact .inl hvalue
      · exact .inr ⟨v, Run.entry_everBound hrun he, rfl⟩
      -- The counter is itself a bid of the log.
      · obtain ⟨m, hm, _⟩ := hst.entry_counted he
        have hfold := Run.nextVersions_eq hrun s
        obtain ⟨r', hr', hbid⟩ := foldl_raise_mem w₁.log (hfold.symm.trans hm)
        obtain ⟨v', hv', hsucc⟩ := ih s r' hr' m hbid
        refine .inr ⟨v', hv', ?_⟩
        rw [StoreState.nextVersion, hm, Option.getD_some, hsucc]
    cases hs with
    | @completed _ recs _ hop =>
      show BidsBound (w₁.log ++ recs)
      simpa using hexec hop recs.length
    | interrupted k hop => exact hexec hop k
    | refused _ => exact ih
    | barrier token present =>
      refine bidsBound_append ih fun s r hr n hn => ?_
      rw [List.mem_singleton.mp hr] at hn
      cases hn
    | restarted _ => exact ih

/-- The counter of a subject is above the greatest version it ever had, as far as it goes. It is the
greatest of the bids in the log, and in a run each bid speaks of a version that was bound. -/
private theorem Run.nextVersion_cases {t : List (World × Event)} {w : World}
    (h : Run F d mayDropNullAlone t w) (s : String) :
    (everBound w.log s = [] ∧ w.state.nextVersion s = 1) ∨
    ((∃ v ∈ everBound w.log s, w.state.nextVersion s = saturatingSucc v) ∧
      ∀ v ∈ everBound w.log s, saturatingSucc v ≤ w.state.nextVersion s) := by
  have hfold := Run.nextVersions_eq h s
  -- A version that was ever bound was bid for, so the mark lies above it.
  have hcounted : ∀ v ∈ everBound w.log s,
      ∃ m, w.state.nextVersions[s]? = some m ∧ saturatingSucc v ≤ m := by
    intro v hv
    obtain ⟨r, hr, value, hvalue, rfl, rfl⟩ := mem_everBound.mp hv
    have hbid : bid value.subject r = some (saturatingSucc value.version) := by
      cases r with
      | schema k value' =>
        obtain rfl : value' = some value := hvalue
        simp [bid]
      | _ => cases hvalue
    rw [hfold]
    exact le_foldl_raise hbid w.log none hr
  unfold StoreState.nextVersion
  cases hnext : w.state.nextVersions[s]? with
  | none =>
    refine .inl ⟨List.eq_nil_iff_forall_not_mem.mpr fun v hv => ?_, rfl⟩
    obtain ⟨m, hm, _⟩ := hcounted v hv
    rw [hnext] at hm
    cases hm
  -- The mark is one of the bids, and by the invariant of the run a bid comes from a bound version.
  | some m =>
    obtain ⟨r, hr, hbid⟩ := foldl_raise_mem w.log (hfold.symm.trans hnext)
    refine .inr ⟨Run.bidsBound h s r hr m hbid, fun v hv => ?_⟩
    obtain ⟨m', hm', hle⟩ := hcounted v hv
    obtain rfl : m = m' := by simpa [hnext] using hm'
    exact hle

/-! ## New versions -/

/-- The greatest of some saturating successors is fresh unless it stopped at either end. -/
private theorem fresh_iff_of_max {vs : List SchemaVersion} {m : SchemaVersion}
    (hm : ∃ v ∈ vs, m = saturatingSucc v) (hle : ∀ v ∈ vs, saturatingSucc v ≤ m) :
    (1 ≤ m ∧ ∀ v ∈ vs, v < m) ↔ (∀ v ∈ vs, v < i32Max) ∧ ∃ v ∈ vs, 0 ≤ v := by
  obtain ⟨top, htop, rfl⟩ := hm
  constructor
  · rintro ⟨hpos, hlt⟩
    refine ⟨fun v hv => ?_, top, htop, ?_⟩
    · exact (hlt v hv).trans_le (min_le_right _ _)
    · have hsucc : 1 ≤ top + 1 := hpos.trans (min_le_left _ _)
      exact Int.lt_add_one_iff.mp hsucc
  · rintro ⟨hmax, v, hv, hnonneg⟩
    constructor
    · have hone : 1 ≤ saturatingSucc v := le_min (Int.lt_add_one_iff.mpr hnonneg) (by decide)
      exact hone.trans (hle v hv)
    · intro v hv
      have hsucc : v < saturatingSucc v := lt_min (Int.lt_succ v) (hmax v hv)
      exact hsucc.trans_le (hle v hv)

/-- No version of the subject has the identity's id. -/
def Unbound (st : StoreState) (s key : String) : Prop :=
  ∀ e ∈ entries st s, st.byCanonical[key]? ≠ some e.id

instance (st : StoreState) (s key : String) : Decidable (Unbound st s key) :=
  inferInstanceAs (Decidable (∀ e ∈ entries st s, st.byCanonical[key]? ≠ some e.id))

/-- An identity that the subject does not have takes the next version, whatever its id. -/
theorem register_unbound {req : RegisterSchema} {recs : List TopicRecord} {reg : Registered}
    {key : String} (hmode : st.effectiveMode req.subject = "READWRITE")
    (hkey : registerKey F st req = .ok key) (hnew : Unbound st req.subject key)
    (h : Kafkastore.register F st req = .ok (recs, reg)) :
    reg.version = st.nextVersion req.subject ∧ Decides st req.subject key reg := by
  have hassign : st.effectiveMode req.subject ≠ "IMPORT" := by
    rw [hmode]
    decide
  obtain ⟨resolved, text, key', hreads, hcases⟩ := register_ok hassign h
  obtain rfl : key' = key := by
    have hkey' := registerKey_of_reads hreads
    rw [hkey] at hkey'
    exact (Except.ok.inj hkey').symm
  -- The key is bound to no version of the subject, so the registration neither finds it there nor
  -- takes a version over.
  rcases hcases with ⟨_, hfound⟩ | ⟨_, _, _, hdec⟩
  · obtain ⟨hid, e, hfind, _⟩ := findUnderSubjectCanonical_some hfound
    have heid : e.id = reg.id := by
      have hprop := List.find?_some hfind
      simp only [decide_eq_true_eq] at hprop
      exact hprop.1
    exact absurd (by rw [hid, heid]) (hnew e (List.mem_of_find?_eq_some hfind))
  · refine ⟨?_, hdec⟩
    cases hdec with
    | @existing e hid hfind _ =>
      have heid : e.id = reg.id := by simpa using List.find?_some hfind
      exact absurd (by rw [hid, heid]) (hnew e (List.mem_of_find?_eq_some hfind))
    | reused _ _ hv => exact hv
    | fresh _ _ _ hv => exact hv

/-- In any reachable state, with imports and restarts in between, a new version is positive and
above every version ever bound to its subject, exactly when those leave room for it. -/
theorem new_version_fresh_iff {t : List (World × Event)} {w : World}
    (h : Run F d mayDropNullAlone t w) {req : RegisterSchema} {recs : List TopicRecord}
    {reg : Registered} {key : String} (hmode : w.state.effectiveMode req.subject = "READWRITE")
    (hkey : registerKey F w.state req = .ok key) (hnew : Unbound w.state req.subject key)
    (hreg : Kafkastore.register F w.state req = .ok (recs, reg)) :
    FreshVersion w.log req.subject reg.version ↔ RoomAbove w.log req.subject := by
  rw [(register_unbound hmode hkey hnew hreg).1]
  rcases Run.nextVersion_cases h req.subject with ⟨hnone, hone⟩ | ⟨hmax, hle⟩
  · have hfresh : FreshVersion w.log req.subject (w.state.nextVersion req.subject) :=
      ⟨hone.ge, by simp [hnone]⟩
    have hroom : RoomAbove w.log req.subject := ⟨by simp [hnone], fun hne => absurd hnone hne⟩
    exact iff_of_true hfresh hroom
  · refine (fresh_iff_of_max hmax hle).trans (and_congr_right fun _ => ?_)
    obtain ⟨v, hv, _⟩ := hmax
    exact ⟨fun hex _ => hex, fun himp => himp (List.ne_nil_of_mem hv)⟩

/-- A request that brings its own id and version. -/
def requestImported (id : SchemaId) (version : SchemaVersion) : RegisterSchema :=
  { subject := "a", ty := .json, schema := "true", importId := some id,
    importVersion := some version }

/-- Import a schema at an id and version, then make the subject writable again. -/
def importedThenWritable (id : SchemaId) (version : SchemaVersion) : List Op :=
  [.setSubjectMode "a" "IMPORT", .register (requestImported id version),
    .setSubjectMode "a" "READWRITE"]

/-- A new schema of the subject. -/
def requestNew : RegisterSchema := { subject := "a", ty := .json, schema := "\x7b\x7d" }

/-- After an import at version 3 the next version is 4. -/
theorem new_version_fresh_iff_import :
    let w := (World.start {}).afterAll Formats.sample (importedThenWritable 1 3)
    FreshVersion w.log "a" 4 := by
  intro w
  have hrun : Run Formats.sample {} mayDropNullAlone _ w :=
    Run.steps (Trace.nil (World.start {})) (importedThenWritable 1 3) (by decide +kernel)
  obtain ⟨recs, hreg⟩ := register_of_answer (F := Formats.sample) w.state requestNew ⟨2, 4⟩
    (by decide +kernel)
  have hkey : registerKey Formats.sample w.state requestNew = .ok "\x7b\x7d" := by decide +kernel
  exact (new_version_fresh_iff hrun (by decide +kernel) hkey (by decide +kernel) hreg).mpr
    (by decide +kernel)

/-- After an import at `i32::MAX` the next version is that version again. -/
theorem version_taken_twice :
    ∃ t w recs reg, Run Formats.sample {} mayDropNullAlone t w ∧
      w.state.effectiveMode "a" = "READWRITE" ∧
      registerKey Formats.sample w.state requestNew = .ok "\x7b\x7d" ∧
      Unbound w.state "a" "\x7b\x7d" ∧
      Kafkastore.register Formats.sample w.state requestNew = .ok (recs, reg) ∧
      ¬ FreshVersion w.log "a" reg.version := by
  let w := (World.start {}).afterAll Formats.sample (importedThenWritable 1 i32Max)
  have hrun : Run Formats.sample {} mayDropNullAlone _ w :=
    Run.steps (Trace.nil (World.start {})) (importedThenWritable 1 i32Max) (by decide +kernel)
  obtain ⟨recs, hreg⟩ := register_of_answer (F := Formats.sample) w.state requestNew
    ⟨2, i32Max⟩ (by decide +kernel)
  exact ⟨_, w, recs, _, hrun, by decide +kernel, by decide +kernel, by decide +kernel, hreg,
    by decide +kernel⟩

/-! ## New ids -/

/-- The greatest id starts at `0` and only rises. -/
private theorem maxId_nonneg_replay {st : StoreState} (h : 0 ≤ st.maxId)
    (log : List TopicRecord) : 0 ≤ (replay F st log).maxId := by
  induction log generalizing st with
  | nil => exact h
  | cons r log ih =>
    refine ih ?_
    rw [maxId_applyTopicRecord]
    split
    · exact h.trans (le_max_left _ _)
    · exact h

private theorem Run.maxId_nonneg {t : List (World × Event)} {w : World}
    (h : Run F d mayDrop t w) : 0 ≤ w.state.maxId := by
  have hstart : 0 ≤ d.state.maxId := le_refl (0 : Int)
  refine Trace.invariant (I := fun w => 0 ≤ w.state.maxId) (C := fun _ _ => True) hstart ?_ h
    fun _ _ => trivial
  intro w₁ w₂ l _ hs hi
  cases hs with
  | completed _ => exact maxId_nonneg_replay hi _
  | interrupted _ _ => exact maxId_nonneg_replay hi _
  | refused _ => exact hi
  | barrier _ _ => exact maxId_nonneg_replay hi _
  | restarted _ => exact maxId_nonneg_replay hstart _

/-- The registration does not overflow, and an id that it answers is positive and above every
id in use. -/
def AssignsSafely (F : Formats) (st : StoreState) (req : RegisterSchema) : Prop :=
  Kafkastore.register F st req ≠ .error .overflow ∧
    ∀ recs reg, Kafkastore.register F st req = .ok (recs, reg) →
      1 ≤ reg.id ∧ ∀ n : SchemaId, (st.byId[n]?).isSome → n < reg.id

private theorem checkRegistration_ne_overflow {s : String} {ty : SchemaType} {text : String}
    {resolved : List ResolvedReference} :
    Compat.checkRegistration F st s ty text resolved ≠ .error .overflow := by
  unfold Compat.checkRegistration
  simp only
  split
  · simp
  · split <;> simp

/-- An unknown identity passes the compatibility check and takes the next id and version. The only
other way for it to fail is that no next id exists. -/
private theorem register_unknown {req : RegisterSchema} {resolved : List ResolvedReference}
    {text key : String} (hmode : st.effectiveMode req.subject = "READWRITE")
    (hreads : Reads F st req resolved text key) (hnew : st.byCanonical[key]? = none) :
    Kafkastore.register F st req =
      (Compat.checkRegistration F st req.subject req.ty text resolved >>= fun _ =>
        if st.maxId = i32Max then .error .overflow
        else
          let reg := ⟨st.maxId + 1, st.nextVersion req.subject⟩
          .ok ([req.record text reg], reg)) := by
  -- A key that the index does not hold is under no subject, so the registration goes on to the
  -- checks.
  have hfind : ∀ deleted, st.findUnderSubjectCanonical req.subject key deleted = none := by
    intro deleted
    rw [findUnderSubjectCanonical_eq, hnew]
    rfl
  have hlookup : st.findUnderSubject F req.subject req.ty text req.references req.messageType
      false = none := by
    simp only [StoreState.findUnderSubject, hreads.identity, hfind]
  have hregister : registerAssign F st req text resolved =
      (Compat.checkRegistration F st req.subject req.ty text resolved >>= fun _ =>
        st.register F req.subject req.ty text req.references req.messageType >>= fun p =>
          .ok ([req.record text p.1], p.1)) := by
    unfold registerAssign
    rw [hlookup]
    rfl
  have hdecide : (st.register F req.subject req.ty text req.references req.messageType >>=
      fun p => .ok ([req.record text p.1], p.1)) =
      (if st.maxId = i32Max then .error .overflow
      else
        let reg : Registered := ⟨st.maxId + 1, st.nextVersion req.subject⟩
        (.ok ([req.record text reg], reg) : Result (List TopicRecord × Registered))) := by
    -- The next id exists unless the largest one is the largest `i32`.
    by_cases hmax : st.maxId = i32Max
    · simp [StoreState.register, hreads.identity, hfind, StoreState.assignId, hnew, hmax, bind,
        Except.bind]
    · simp [StoreState.register, hreads.identity, hfind, StoreState.assignId, hnew, hmax, bind,
        Except.bind, pure, Except.pure, StoreState.nextVersion]
  simp only [Kafkastore.register, hmode, hreads.closure, hreads.storage, bind, Except.bind]
  simp only [bind, Except.bind] at hregister hdecide
  simp [hregister, hdecide]

/-- In any reachable state, with imports and restarts in between, the registration of an unknown
identity assigns a positive id above all in use, and does not overflow, exactly when the greatest
id is not `i32::MAX` or the schema is refused as incompatible before. -/
theorem new_id_safe_iff {t : List (World × Event)} {w : World} (h : Run F d mayDrop t w)
    {req : RegisterSchema} {resolved : List ResolvedReference} {text key : String}
    (hmode : w.state.effectiveMode req.subject = "READWRITE")
    (hreads : Reads F w.state req resolved text key) (hnew : w.state.byCanonical[key]? = none) :
    AssignsSafely F w.state req ↔ w.state.maxId ≠ i32Max ∨
      Compat.checkRegistration F w.state req.subject req.ty text resolved ≠ .ok () := by
  have hst : Consistent F w.state := Run.consistent h
  have hnonneg : 0 ≤ w.state.maxId := Run.maxId_nonneg h
  unfold AssignsSafely
  rw [register_unknown hmode hreads hnew]
  cases hcheck : Compat.checkRegistration F w.state req.subject req.ty text resolved with
  -- A refused registration assigns nothing.
  | error e =>
    have hoverflow : e ≠ .overflow := by
      rintro rfl
      exact checkRegistration_ne_overflow hcheck
    refine iff_of_true ⟨?_, ?_⟩ (.inr (by simp))
    · simpa [bind, Except.bind] using hoverflow
    · intro recs reg hreg
      cases hreg
  | ok u =>
    by_cases hmax : w.state.maxId = i32Max
    · simp [hmax, bind, Except.bind]
    · refine iff_of_true ?_ (.inl hmax)
      simp only [hmax, bind, Except.bind, if_false]
      refine ⟨by simp, fun recs reg hreg => ?_⟩
      obtain ⟨-, rfl⟩ : _ = recs ∧ _ = reg := by simpa using hreg
      refine ⟨Int.lt_add_one_iff.mpr hnonneg, fun n hn => ?_⟩
      obtain ⟨content, hcontent⟩ := Option.isSome_iff_exists.mp hn
      exact Int.lt_add_one_iff.mpr (hst.id_le_maxId hcontent)

/-- After an import at id 7 a new schema is registered safely. -/
theorem new_id_safe_iff_import :
    let w := (World.start {}).afterAll Formats.sample (importedThenWritable 7 1)
    AssignsSafely Formats.sample w.state requestNew := by
  intro w
  have hrun : Run Formats.sample {} mayDropNothing _ w :=
    Run.steps (Trace.nil (World.start {})) (importedThenWritable 7 1) (by decide +kernel)
  have hreads : Reads Formats.sample w.state requestNew [] "\x7b\x7d" "\x7b\x7d" :=
    ⟨by decide +kernel, by decide +kernel, by decide +kernel⟩
  exact (new_id_safe_iff hrun (by decide +kernel) hreads (by decide +kernel)).mpr
    (.inl (by decide +kernel))

/-- After an import at `i32::MAX` the next registration overflows. -/
theorem id_overflows :
    ∃ t w, Run Formats.sample {} mayDropNothing t w ∧
      w.state.effectiveMode "a" = "READWRITE" ∧
      Reads Formats.sample w.state requestNew [] "\x7b\x7d" "\x7b\x7d" ∧
      (w.state.byCanonical["\x7b\x7d"]?) = none ∧
      ¬ AssignsSafely Formats.sample w.state requestNew := by
  let w := (World.start {}).afterAll Formats.sample (importedThenWritable i32Max 1)
  have hrun : Run Formats.sample {} mayDropNothing _ w :=
    Run.steps (Trace.nil (World.start {})) (importedThenWritable i32Max 1) (by decide +kernel)
  have hanswer : (Kafkastore.register Formats.sample w.state requestNew).map (·.2) =
      .error .overflow := by decide +kernel
  refine ⟨_, w, hrun, by decide +kernel, ⟨by decide +kernel, by decide +kernel, by decide +kernel⟩,
    by decide +kernel, ?_⟩
  rintro ⟨hsafe, _⟩
  cases hreg : Kafkastore.register Formats.sample w.state requestNew with
  | error e =>
    rw [hreg] at hanswer hsafe
    exact hsafe (congrArg Except.error (Except.error.inj hanswer))
  | ok p =>
    rw [hreg] at hanswer
    cases hanswer

end KrabkaRegistry.Guarantees
