import KrabkaRegistry.Kafkastore.Run

/-!
# Completing an Interrupted Purge

`permanent_delete_subject` appends a version marker, a tombstone for each version, and tombstones
for the level and mode of the subject.  A call that stops after some of them leaves a state in
which the same operation checks its preconditions again.

- While a version is left, the second call finds the others gone, writes what is missing, and
  its marker changes nothing.
- After the last version has gone the subject is unknown, and its level and mode stay.
-/

namespace KrabkaRegistry.Guarantees

open KrabkaRegistry.Format (Formats)
open KrabkaRegistry.Kafkastore
open KrabkaRegistry.Library (Trace)
open KrabkaRegistry.Store

variable {F : Formats} {d : Defaults} {mayDrop : List TopicRecord → TopicRecord → Prop}
  {st : StoreState} {s : String}

/-! ## Referrers -/

/-- A live version that refers to the given one. -/
def Refers (st : StoreState) (s : String) (v : SchemaVersion) (e : VersionEntry) : Prop :=
  e.deleted = false ∧ ∃ reg, st.byId[e.id]? = some reg ∧
    ∃ ref ∈ reg.references, ref.subject = s ∧ ref.version = v

theorem referencedBy_eq_nil_iff {v : SchemaVersion} :
    st.referencedBy s v false = [] ↔ ∀ t, ∀ e ∈ entries st t, ¬ Refers st s v e := by
  -- Sorting and removing duplicates leave nothing only of nothing.
  have hsort : ∀ l : List SchemaId, l.dedup.insertionSort (· ≤ ·) = [] ↔ l = [] := by
    intro l
    have hperm := List.perm_insertionSort (· ≤ ·) l.dedup
    rw [← List.length_eq_zero_iff, hperm.length_eq, List.length_eq_zero_iff, List.dedup_eq_nil]
  show List.insertionSort _ (List.dedup (List.flatMap _ _)) = [] ↔ _
  rw [hsort, List.flatMap_eq_nil_iff]
  simp only [List.filterMap_eq_nil_iff]
  constructor
  · intro h t e he hrefers
    obtain ⟨hlive, reg, hreg, href⟩ := hrefers
    unfold entries at he
    cases hs : st.subjects[t]? with
    | none => simp [hs] at he
    | some l =>
      have hrow := h (t, l) (Std.ExtTreeMap.mem_toList_iff_getElem?_eq_some.mpr hs) e
        (by simpa [hs] using he)
      simp only [hlive, hreg, Bool.false_and, Bool.false_eq_true, if_false] at hrow
      simp [href] at hrow
  · intro h p hp e he
    have hs := Std.ExtTreeMap.mem_toList_iff_getElem?_eq_some.mp hp
    have hnot := h p.1 e (by simpa [entries, hs] using he)
    cases hlive : e.deleted with
    | true => simp
    | false =>
      cases hreg : st.byId[e.id]? with
      | none => simp
      | some reg =>
        have hrefs : ¬ ∃ ref ∈ reg.references, ref.subject = s ∧ ref.version = v :=
          fun href => hnot ⟨hlive, reg, hreg, href⟩
        simpa using hrefs

/-- Fewer versions have fewer referrers. -/
theorem referencedBy_mono {st' : StoreState} {v : SchemaVersion}
    (hsub : ∀ t, ∀ e ∈ entries st' t, e ∈ entries st t) (hbyId : st'.byId = st.byId)
    (h : st.referencedBy s v false = []) : st'.referencedBy s v false = [] := by
  rw [referencedBy_eq_nil_iff] at h ⊢
  intro t e he hrefers
  refine h t e (hsub t e he) ?_
  rwa [Refers, hbyId] at hrefers

/-! ## What the tombstones of some versions do -/

theorem entries_tombstones (l : List SchemaVersion) (st : StoreState) (t : String) :
    entries (replay F st (l.map (encodeTombstone s))) t =
      if s = t then (entries st t).filter fun e => e.version ∉ l else entries st t := by
  induction l generalizing st with
  | nil => simp
  | cons v l ih =>
    have hstep : applyTopicRecord F st (encodeTombstone s v) = st.permanentDeleteVersion s v := rfl
    rw [List.map_cons, replay_cons, ih, hstep, entries_permanentDeleteVersion]
    by_cases ht : s = t
    · simp [ht, List.filter_filter, Bool.and_comm]
    · simp [ht, Ne.symm ht]

/-! ## A purge that stopped -/

/-- A marker that says what the counter says changes nothing. -/
theorem applyTopicRecord_marker {n : SchemaVersion} (h : st.nextVersions[s]? = some n) :
    applyTopicRecord F st (encodeVersionHighWater s n) = st := by
  have hinsert : st.nextVersions.insert s n = st.nextVersions := by
    apply Std.ExtTreeMap.ext_getElem?
    intro t
    rw [BTreeMap.getElem?_insert]
    split
    · rename_i ht
      rw [ht, h]
    · rfl
  show st.observeNextVersion s n = st
  unfold StoreState.observeNextVersion
  simp only [h, max_self, hinsert]

/-- In an increasing list, what is left without the versions of a prefix is the suffix. -/
private theorem filter_take_versions {l : List VersionEntry} (h : Increasing l) (j : ℕ) :
    (l.filter fun e => e.version ∉ (l.take j).map (·.version)) = l.drop j := by
  induction l generalizing j with
  | nil => simp
  | cons e l ih =>
    obtain ⟨hlt, hrest⟩ := List.pairwise_cons.mp h
    cases j with
    | zero => simp
    | succ j =>
      have hne : ∀ x ∈ l, x.version ≠ e.version := fun x hx => (hlt x hx).ne'
      rw [List.take_succ_cons, List.map_cons, List.drop_succ_cons, ← ih hrest j,
        List.filter_cons_of_neg (by simp)]
      apply List.filter_congr
      intro x hx
      simp [hne x hx]

/-- What a purge leaves after its marker and `j` tombstones. -/
def stopped (F : Formats) (st : StoreState) (s : String) (j : ℕ) : StoreState :=
  replay F st (encodeVersionHighWater s (st.nextVersion s) ::
    ((entries st s).take j).map fun e => encodeTombstone s e.version)

private theorem stopped_entries (hst : Consistent F st) (j : ℕ) (t : String) :
    entries (stopped F st s j) t = if s = t then (entries st s).drop j else entries st t := by
  have hmarker : ∀ t, entries (applyTopicRecord F st
      (encodeVersionHighWater s (st.nextVersion s))) t = entries st t :=
    fun t => entries_congr rfl t
  have hmap : ((entries st s).take j).map (fun e => encodeTombstone s e.version) =
      (((entries st s).take j).map (·.version)).map (encodeTombstone s) := by
    rw [List.map_map]
    rfl
  rw [stopped, replay_cons, hmap, entries_tombstones, hmarker]
  by_cases hs : s = t
  · subst hs
    rw [if_pos rfl, if_pos rfl]
    exact filter_take_versions (hst.wellFormed.increasing s) j
  · rw [if_neg hs, if_neg hs]

private theorem nextVersions_tombstones {n : SchemaVersion} (l : List VersionEntry)
    {st : StoreState} (h : st.nextVersions[s]? = some n)
    (hl : ∀ e ∈ l, saturatingSucc e.version ≤ n) :
    (replay F st (l.map fun e => encodeTombstone s e.version)).nextVersions[s]? = some n := by
  induction l generalizing st with
  | nil => exact h
  | cons e l ih =>
    obtain ⟨he, hl⟩ := List.forall_mem_cons.mp hl
    refine ih ?_ hl
    rw [nextVersions_applyTopicRecord, h]
    simp [bid, encodeTombstone, raise, he]

private theorem stopped_nextVersions (hst : Consistent F st) (j : ℕ) :
    (stopped F st s j).nextVersions[s]? = some (st.nextVersion s) := by
  rw [stopped, replay_cons]
  apply nextVersions_tombstones
  · rw [nextVersions_applyTopicRecord]
    have hbid : bid s (encodeVersionHighWater s (st.nextVersion s)) = some (st.nextVersion s) := by
      simp [bid, encodeVersionHighWater]
    rw [hbid, StoreState.nextVersion]
    cases st.nextVersions[s]? <;> simp [raise]
  · intro e he
    have hentry : entryOf st s e.version = some e :=
      (hst.wellFormed.increasing s).findVersion_eq (List.mem_of_mem_take he)
    obtain ⟨n, hn, hle⟩ := hst.entry_counted hentry
    simpa [StoreState.nextVersion, hn] using hle

/-- Markers and tombstones of versions leave contents, levels and modes alone. -/
private theorem stopped_rest (j : ℕ) :
    (stopped F st s j).byId = st.byId ∧
      ∀ t, (stopped F st s j).effectiveMode t = st.effectiveMode t := by
  have hrecs : ∀ r ∈ encodeVersionHighWater s (st.nextVersion s) ::
      ((entries st s).take j).map (fun e => encodeTombstone s e.version),
      schemaValue? r = none ∧ (∀ s level, r ≠ .config s level) ∧ ∀ s m, r ≠ .mode s m := by
    intro r hr
    rcases List.mem_cons.mp hr with rfl | hr
    · simp [encodeVersionHighWater, schemaValue?]
    · obtain ⟨e, _, rfl⟩ := List.mem_map.mp hr
      simp [encodeTombstone]
  unfold stopped
  generalize encodeVersionHighWater s (st.nextVersion s) ::
    ((entries st s).take j).map (fun e => encodeTombstone s e.version) = recs at hrecs ⊢
  induction recs using List.reverseRecOn with
  | nil => exact ⟨rfl, fun _ => rfl⟩
  | append_singleton recs r ih =>
    obtain ⟨hbyId, hmode⟩ := ih fun x hx => hrecs x (List.mem_append_left _ hx)
    obtain ⟨hvalue, hconfig, hmoded⟩ := hrecs r (by simp)
    rw [replay_append, replay_cons, replay_nil]
    obtain ⟨_, _, hsubject, hglobal⟩ := levels_applyTopicRecord (F := F) (replay F st recs)
      hconfig hmoded
    refine ⟨(contents_applyTopicRecord _ hvalue).1.trans hbyId, fun t => ?_⟩
    rw [← hmode t]
    simp only [StoreState.effectiveMode, StoreState.globalModeName, hsubject, hglobal,
      defaultMode_applyTopicRecord]

/-! ## Completing the purge -/

/-- From the state `st` an uninterrupted purge of `s` succeeds and ends in `goal`. -/
def PurgesTo (F : Formats) (s : String) (st goal : StoreState) : Prop :=
  ∃ recs vs, permanentDeleteSubject st s = .ok (recs, vs) ∧ replay F st recs = goal

/-- No version, level or mode of the subject is left, and its counter is kept. -/
structure Purged (s : String) (st st' : StoreState) : Prop where
  versions : ∀ deleted, st'.versions s deleted = none
  subjectCompat : st'.subjectCompat[s]? = none
  subjectMode : st'.subjectMode[s]? = none
  nextVersion : st'.nextVersion s = st.nextVersion s

/-- A purge that was stopped before the last tombstone can be completed. The second call writes the
marker again, which changes nothing, and the tombstones that are missing. -/
private theorem stopped_purgesTo (hst : Consistent F st) {recs : List TopicRecord}
    {vs : List SchemaVersion} (h : permanentDeleteSubject st s = .ok (recs, vs)) {j : ℕ}
    (hj : j < (entries st s).length) :
    PurgesTo F s (stopped F st s j) (replay F st recs) := by
  obtain ⟨hmode, _, hall, rfl, rfl⟩ := permanentDeleteSubject_ok_iff.mp h
  obtain ⟨hbyId, heffective⟩ : (stopped F st s j).byId = st.byId ∧
      ∀ t, (stopped F st s j).effectiveMode t = st.effectiveMode t := stopped_rest j
  have hentries := stopped_entries (s := s) hst j
  have hleft : entries (stopped F st s j) s = (entries st s).drop j := by
    rw [hentries, if_pos rfl]
  have hsub : ∀ t, ∀ e ∈ entries (stopped F st s j) t, e ∈ entries st t := by
    intro t e he
    rw [hentries] at he
    split at he
    · rename_i hs
      subst hs
      exact List.mem_of_mem_drop he
    · exact he
  have hnext : (stopped F st s j).nextVersion s = st.nextVersion s := by
    rw [StoreState.nextVersion, stopped_nextVersions hst, Option.getD_some]
  refine ⟨_, _, permanentDeleteSubject_ok_iff.mpr
    ⟨by rwa [heffective], by rw [hleft]; simpa using hj, ?_, rfl, rfl⟩, ?_⟩
  · intro e he
    obtain ⟨hdeleted, hunref⟩ := hall e (hsub s e he)
    exact ⟨hdeleted, referencedBy_mono hsub hbyId hunref⟩
  · -- The second marker changes nothing, and then the rest of the first call follows.
    rw [hnext, hleft, List.cons_append, replay_cons,
      applyTopicRecord_marker (stopped_nextVersions hst j), stopped, ← replay_append]
    congr 1
    have hsplit : ((entries st s).take j).map (fun e => encodeTombstone s e.version) ++
        (((entries st s).drop j).map (·.version)).map (encodeTombstone s) =
        ((entries st s).map (·.version)).map (encodeTombstone s) := by
      rw [List.map_map, List.map_map]
      show ((entries st s).take j).map (fun e => encodeTombstone s e.version) ++
        ((entries st s).drop j).map (fun e => encodeTombstone s e.version) =
        (entries st s).map fun e => encodeTombstone s e.version
      rw [← List.map_append, List.take_append_drop]
    rw [← hsplit, List.cons_append, List.cons_append, List.append_assoc]

/-- The levels and modes of the purged subject go with the last two records. -/
private theorem purged_of_ok (hst : Consistent F st) {recs : List TopicRecord}
    {vs : List SchemaVersion} (h : permanentDeleteSubject st s = .ok (recs, vs)) :
    Purged s st (replay F st recs) := by
  obtain ⟨_, _, _, rfl, rfl⟩ := permanentDeleteSubject_ok_iff.mp h
  have hall : ((entries st s).take (entries st s).length).map
      (fun e => encodeTombstone s e.version) =
      ((entries st s).map (·.version)).map (encodeTombstone s) := by
    rw [List.take_length, List.map_map]
    rfl
  -- A full purge is one stopped after its last tombstone, followed by the two settings.
  have hstopped : replay F st (encodeVersionHighWater s (st.nextVersion s) ::
      ((entries st s).map (·.version)).map (encodeTombstone s) ++
        [configTombstone (some s), modeTombstone (some s)]) =
      ((stopped F st s (entries st s).length).clearSubjectCompat s).clearSubjectMode s := by
    rw [replay_append, stopped, hall]
    rfl
  rw [hstopped]
  have hnone : entries (stopped F st s (entries st s).length) s = [] := by
    rw [stopped_entries hst, if_pos rfl, List.drop_length]
  constructor
  · intro deleted
    refine versions_none.mpr fun e he => ?_
    have hin : e ∈ entries (stopped F st s (entries st s).length) s := he
    simp [hnone] at hin
  · simp [StoreState.clearSubjectMode, StoreState.clearSubjectCompat]
  · simp [StoreState.clearSubjectMode, StoreState.clearSubjectCompat]
  · show (stopped F st s _).nextVersion s = _
    rw [StoreState.nextVersion, stopped_nextVersions hst, Option.getD_some]

/-- Dropping a level or a mode leaves the versions alone. -/
private theorem entries_levels (st : StoreState) (i : ℕ) :
    entries (replay F st ([configTombstone (some s), modeTombstone (some s)].take i)) s =
      entries st s := by
  rcases i with _ | _ | i
  · rfl
  · rfl
  · rw [List.take_of_length_le (by simp)]
    rfl

/-- Once all versions have gone the subject is unknown to a second call. -/
private theorem not_purgesTo_of_gone {goal : StoreState} (h : entries st s = []) :
    ¬ PurgesTo F s st goal := by
  rintro ⟨recs, vs, hok, _⟩
  obtain ⟨_, hne, _⟩ := permanentDeleteSubject_ok_iff.mp hok
  exact hne h

/-- In any reachable state, with imports and restarts in between, a purge that stops after `k` of
its appends is completed by a second call, to the state that an uninterrupted call ends in,
exactly when its last version tombstone was not written yet. -/
theorem purge_completed_iff {t : List (World × Event)} {w : World} (h : Run F d mayDrop t w)
    {recs : List TopicRecord} {vs : List SchemaVersion}
    (hdel : permanentDeleteSubject w.state s = .ok (recs, vs)) (k : ℕ) :
    (PurgesTo F s (replay F w.state (recs.take k)) (replay F w.state recs) ∧
      Purged s w.state (replay F w.state recs)) ↔ k ≤ vs.length := by
  have hst : Consistent F w.state := Run.consistent h
  obtain ⟨_, _, _, hvs, hrecs⟩ := permanentDeleteSubject_ok_iff.mp hdel
  have hlen : vs.length = (entries w.state s).length := by rw [hvs, List.length_map]
  have hpurged := purged_of_ok hst hdel
  cases k with
  | zero => exact iff_of_true ⟨⟨recs, vs, hdel, rfl⟩, hpurged⟩ (Nat.zero_le _)
  | succ j =>
    have htake : recs.take (j + 1) = encodeVersionHighWater s (w.state.nextVersion s) ::
        ((entries w.state s).map (fun e => encodeTombstone s e.version) ++
          [configTombstone (some s), modeTombstone (some s)]).take j := by
      rw [hrecs, hvs, List.map_map]
      rfl
    -- Among the tombstones some versions are left to purge; behind the last one none are.
    rcases Nat.lt_or_ge j (entries w.state s).length with hj | hj
    · have hstopped : replay F w.state (recs.take (j + 1)) = stopped F w.state s j := by
        rw [htake, List.take_append_of_le_length (by simpa using hj.le), ← List.map_take]
        rfl
      rw [hstopped, hlen]
      exact iff_of_true ⟨stopped_purgesTo hst hdel hj, hpurged⟩ hj
    · have hgone : entries (replay F w.state (recs.take (j + 1))) s = [] := by
        obtain ⟨i, rfl⟩ := Nat.exists_eq_add_of_le hj
        rw [htake, List.take_append, List.take_of_length_le (by simp), List.length_map,
          Nat.add_sub_cancel_left, ← List.cons_append, replay_append, entries_levels]
        have hall := stopped_entries (s := s) hst (entries w.state s).length s
        rw [stopped, List.take_length, if_pos rfl, List.drop_length] at hall
        exact hall
      refine iff_of_false (fun hto => not_purgesTo_of_gone hgone hto.1) ?_
      rw [hlen]
      exact Nat.not_le.mpr (Nat.lt_succ_of_le hj)

/-- A subject with a level of its own, whose only version is soft-deleted. -/
def softDeletedOps : List Op :=
  [.setCompat (some "a") "NONE", .register { subject := "a", ty := .json, schema := "true" },
    .softDeleteSubject "a"]

private theorem softDeletedOps_purge :
    let w := (World.start {}).afterAll Formats.sample softDeletedOps
    ∃ recs, permanentDeleteSubject w.state "a" = .ok (recs, [1]) := by
  intro w
  have hversions : [1] = (entries w.state "a").map (·.version) := by decide +kernel
  exact ⟨_, permanentDeleteSubject_ok_iff.mpr
    ⟨by decide +kernel, by decide +kernel, by decide +kernel, hversions, rfl⟩⟩

/-- A purge that stopped after its marker is completed. -/
theorem purge_completed_iff_marker :
    let w := (World.start {}).afterAll Formats.sample softDeletedOps
    ∃ recs, permanentDeleteSubject w.state "a" = .ok (recs, [1]) ∧
      PurgesTo Formats.sample "a" (replay Formats.sample w.state (recs.take 1))
        (replay Formats.sample w.state recs) := by
  intro w
  have hrun : Run Formats.sample {} mayDropNothing _ w :=
    Run.steps (Trace.nil (World.start {})) softDeletedOps (by decide +kernel)
  obtain ⟨recs, hdel⟩ := softDeletedOps_purge
  exact ⟨recs, hdel, ((purge_completed_iff hrun hdel 1).mpr (by decide)).1⟩

/-- A purge that stopped after its version tombstone is not, and the level of the subject
stays. -/
theorem purge_stuck_after_versions :
    ∃ t w recs vs k, Run Formats.sample {} mayDropNothing t w ∧
      permanentDeleteSubject w.state "a" = .ok (recs, vs) ∧ k < recs.length ∧
      (replay Formats.sample w.state (recs.take k)).subjectCompat["a"]? = some "NONE" ∧
      ¬ PurgesTo Formats.sample "a" (replay Formats.sample w.state (recs.take k))
        (replay Formats.sample w.state recs) := by
  let w := (World.start {}).afterAll Formats.sample softDeletedOps
  have hrun : Run Formats.sample {} mayDropNothing _ w :=
    Run.steps (Trace.nil (World.start {})) softDeletedOps (by decide +kernel)
  obtain ⟨recs, hdel⟩ := softDeletedOps_purge
  obtain ⟨_, _, _, _, hrecs⟩ := permanentDeleteSubject_ok_iff.mp hdel
  subst hrecs
  refine ⟨_, w, _, _, 2, hrun, hdel, by decide, by decide +kernel, not_purgesTo_of_gone ?_⟩
  decide +kernel

end KrabkaRegistry.Guarantees
