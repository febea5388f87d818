import KrabkaRegistry.Guarantees.Replay

/-!
# A Version Keeps Its Id

Applying a `SCHEMA` record overwrites the id of the version it names, so whether a version
keeps its id rests on what the operations write.  `version_keeps_id` follows one version
through a run, restarts included: below the 32-bit maximum it keeps its id until its
tombstone is written or an `IMPORT` registration brings the version again under another id.
`imported_over` is a run in which the latter happens.
-/

namespace KrabkaRegistry.Guarantees

open KrabkaRegistry.Format (Formats)
open KrabkaRegistry.Kafkastore
open KrabkaRegistry.Library (Trace)
open KrabkaRegistry.Store

variable {F : Formats} {d : Defaults} {s : String} {v : SchemaVersion} {n : SchemaId}

/-- The id that a version is bound to. -/
def boundId (st : StoreState) (s : String) (v : SchemaVersion) : Option SchemaId :=
  (entryOf st s v).map (·.id)

/-- The step writes the tombstone of the version. -/
def Purges (F : Formats) (w : World) (l : Event) (s : String) (v : SchemaVersion) : Prop :=
  encodeTombstone s v ∈ w.appended F l

theorem eq_encodeTombstone_iff {r : TopicRecord} :
    r.key = .schema ⟨s, v⟩ ∧ r.isNull = true ↔ encodeTombstone s v = r := by
  cases r with
  | schema k value => cases value <;> simp [TopicRecord.key, TopicRecord.isNull, encodeTombstone,
      eq_comm]
  | _ => simp [TopicRecord.key, encodeTombstone]

instance (F : Formats) (w : World) (l : Event) (s : String) (v : SchemaVersion) :
    Decidable (Purges F w l s v) :=
  decidable_of_iff (∃ r ∈ w.appended F l, r.key = .schema ⟨s, v⟩ ∧ r.isNull = true) (by
    simp only [eq_encodeTombstone_iff, exists_eq_right', Purges])

/-- The step runs a registration in `IMPORT` mode that brings version `v` of `s` under
another id than `n`. -/
def ImportsOver (w : World) (l : Event) (s : String) (v : SchemaVersion) (n : SchemaId) : Prop :=
  ∃ req, l.op? = some (.register req) ∧ w.state.effectiveMode req.subject = "IMPORT" ∧
    req.subject = s ∧ req.importVersion = some v ∧ req.importId ≠ some n

/-! ## One record -/

/-- Without a schema value and a tombstone of its own, a version stays bound as it was. -/
theorem boundId_of_no_value {st : StoreState} (hwf : WellFormed st) {r : TopicRecord}
    (hr : schemaValue? r = none) (hne : r ≠ encodeTombstone s v) :
    boundId (applyTopicRecord F st r) s v = boundId st s v := by
  unfold boundId
  rw [entryOf_applyTopicRecord hwf]
  cases r with
  | schema k value =>
    obtain rfl : value = none := hr
    have hk : k ≠ ⟨s, v⟩ := by
      intro h
      rw [h] at hne
      exact hne rfl
    simp [entryStep, hk]
  | deleteSubject s' value =>
    -- A deleted subject keeps its versions, with their flags set.
    cases value with
    | none => rfl
    | some value =>
      simp only [entryStep]
      split
      · cases entryOf st s v <;> rfl
      · rfl
  | versionHighWater s' next => rfl
  | config s' level => rfl
  | mode s' m => rfl
  | barrier token present => rfl

/-- A version in range lies below the next version of its subject. -/
theorem entry_lt_nextVersion {st : StoreState} (hst : Consistent F st) {e : VersionEntry}
    (he : entryOf st s v = some e) (hv : v < i32Max) : v < st.nextVersion s := by
  obtain ⟨next, hnext, hle⟩ := hst.entry_counted he
  unfold StoreState.nextVersion
  rw [hnext, Option.getD_some]
  have hsucc : v < saturatingSucc v := lt_min (Int.lt_succ v) hv
  exact hsucc.trans_le hle

/-- A registration is decided to be a version of its own id, or a new version. -/
theorem decided_boundId {st : StoreState} (hst : Consistent F st) {key : String}
    {reg : Registered} (hdec : Decides st s key reg) (hv : reg.version < i32Max)
    (hb : boundId st s reg.version = some n) : reg.id = n := by
  obtain ⟨e, he, rfl⟩ := Option.map_eq_some_iff.mp hb
  cases hdec with
  | @existing e' _ hfind hver =>
    have hmem := List.mem_of_find?_eq_some hfind
    have hid : e'.id = reg.id := by simpa using List.find?_some hfind
    have hentry : entryOf st s e'.version = some e' :=
      (hst.wellFormed.increasing s).findVersion_eq hmem
    rw [hver, he] at hentry
    rw [Option.some.inj hentry, hid]
  -- A new version has a number that no version has.
  | reused _ _ hver => exact absurd hver (entry_lt_nextVersion hst he hv).ne
  | fresh _ _ _ hver => exact absurd hver (entry_lt_nextVersion hst he hv).ne

/-- One record of an operation that is not an import. -/
private theorem boundId_emits {w : World} {r : TopicRecord} (he : Emits F false w r)
    (hw : Consistent F w.state) (hv : v < i32Max) (hb : boundId w.state s v = some n)
    (hne : r ≠ encodeTombstone s v) : boundId (w.append F [r]).state s v = some n := by
  show boundId (applyTopicRecord F w.state r) s v = some n
  have hother : schemaValue? r = none → boundId (applyTopicRecord F w.state r) s v = some n := by
    intro hr
    rw [boundId_of_no_value hw.wellFormed hr hne, hb]
  cases he with
  | @registered req _ text key reg _ _ _ _ hdec =>
    unfold boundId
    rw [entryOf_record hw.wellFormed]
    split_ifs with hsv
    · obtain ⟨rfl, rfl⟩ := hsv
      rw [Option.map_some, decided_boundId hw hdec hv hb]
    · exact hb
  | imported himp => cases himp
  | @softDeleted s' v' e reg hentry _ =>
    unfold boundId
    rw [entryOf_deletedRecord hw.wellFormed]
    split_ifs with hsv
    -- The version is written again under the id it has.
    · obtain ⟨rfl, rfl⟩ := hsv
      simpa [boundId, hentry] using hb
    · exact hb
  | subjectDeleted s' m => exact hother rfl
  | marked s' => exact hother rfl
  | purged _ _ _ => exact hother rfl
  | leveled s' level _ => exact hother rfl
  | moded s' m => exact hother rfl
  | barrier token present => exact hother rfl

/-- All records of such an operation, or the first ones. -/
private theorem boundId_writes {w : World} {recs : List TopicRecord} (h : Writes F false w recs)
    (hw : Consistent F w.state) (hv : v < i32Max) (hb : boundId w.state s v = some n)
    (hne : encodeTombstone s v ∉ recs) : boundId (w.append F recs).state s v = some n := by
  induction h with
  | nil w => simpa using hb
  | @cons w r recs he _ ih =>
    obtain ⟨hr, hrecs⟩ := not_or.mp fun h => hne (List.mem_cons.mpr h)
    rw [World.append_cons]
    exact ih (append_consistent hw [r]) (boundId_emits he hw hv hb (Ne.symm hr)) hrecs

/-! ## One step -/

/-- An import writes its version under the id it brings. -/
private theorem boundId_imported {w : World} {req : RegisterSchema} {recs : List TopicRecord}
    {reply : Reply} (hw : Consistent F w.state)
    (hmode : w.state.effectiveMode req.subject = "IMPORT")
    (hex : exec F w.state (.register req) = .ok (recs, reply)) {l : Event}
    (hl : l.op? = some (.register req)) (hover : ¬ ImportsOver w l s v n)
    (hb : boundId w.state s v = some n) (k : ℕ) :
    boundId (w.append F (recs.take k)).state s v = some n := by
  obtain ⟨⟨recs', reg⟩, hreg, heq⟩ := map_ok hex
  obtain ⟨rfl, -⟩ : recs' = recs ∧ _ = reply := by simpa using heq
  obtain ⟨_, text, _, _, hid, hver, rfl, _⟩ := register_import_reads hmode hreg
  cases k with
  | zero => simpa using hb
  | succ k =>
    have happend : (w.append F ([req.record text reg].take (k + 1))).state =
        applyTopicRecord F w.state (req.record text reg) := by simp [World.append]
    unfold boundId
    rw [happend, entryOf_record hw.wellFormed]
    split_ifs with hsv
    · obtain ⟨rfl, rfl⟩ := hsv
      by_contra hne
      refine hover ⟨req, hl, hmode, rfl, hver, ?_⟩
      rw [hid]
      exact hne
    · exact hb

private theorem boundId_step {w w' : World} {l : Event} {t : List (World × Event)}
    (hrun : Run F d mayDropNullAlone t w) (hs : Step F d mayDropNullAlone w l w')
    (hv : v < i32Max) (hpurge : ¬ Purges F w l s v) (hover : ¬ ImportsOver w l s v n)
    (hb : boundId w.state s v = some n) : boundId w'.state s v = some n := by
  have hw := hrun.consistent
  by_cases hassign : Assigns w l
  · rcases hs.cases false hw (.inr hassign) with ⟨c, _, hc, rfl⟩ | ⟨hlive, recs, hwrites, rfl⟩
    · -- A restart finds every version again.
      unfold boundId
      rw [(Run.restarted_sameViews hrun hc).entry]
      exact hb
    · have hlog := congrArg World.log (hs.appended hlive)
      have hrecs : recs = w.appended F l := List.append_cancel_left hlog
      rw [Purges, ← hrecs] at hpurge
      exact boundId_writes hwrites hw hv hb hpurge
  · cases hs with
    | @completed op recs reply hex =>
      cases op with
      | register req =>
        have hmode : w.state.effectiveMode req.subject = "IMPORT" := not_not.mp hassign
        simpa using boundId_imported hw hmode hex rfl hover hb recs.length
      | _ => exact absurd trivial hassign
    | @interrupted op recs reply k hex =>
      cases op with
      | register req =>
        have hmode : w.state.effectiveMode req.subject = "IMPORT" := not_not.mp hassign
        exact boundId_imported hw hmode hex rfl hover hb k
      | _ => exact absurd trivial hassign
    | refused _ => exact absurd trivial hassign
    | barrier token present => exact absurd trivial hassign
    | restarted _ => exact absurd trivial hassign

/-! ## Runs -/

/-- From any reachable world on, in any modes and across restarts, a version below the 32-bit
maximum keeps its id until its tombstone is written or an import brings it under another id. -/
theorem version_keeps_id {t₀ t : List (World × Event)} {w₀ w : World}
    (h₀ : Run F d mayDropNullAlone t₀ w₀) (h : Trace (Step F d mayDropNullAlone) w₀ t w)
    (hv : v < i32Max) (hb : boundId w₀.state s v = some n)
    (hkeep : ∀ p ∈ t, ¬ Purges F p.1 p.2 s v ∧ ¬ ImportsOver p.1 p.2 s v n) :
    boundId w.state s v = some n := by
  have hinv : (∃ t, Run F d mayDropNullAlone t w) ∧ boundId w.state s v = some n := by
    refine Trace.invariant
      (I := fun w => (∃ t, Run F d mayDropNullAlone t w) ∧ boundId w.state s v = some n)
      (C := fun w l => ¬ Purges F w l s v ∧ ¬ ImportsOver w l s v n) ⟨⟨t₀, h₀⟩, hb⟩ ?_ h hkeep
    rintro w₁ l w₂ ⟨hpurge, hover⟩ hs ⟨⟨t₁, hrun⟩, hb₁⟩
    exact ⟨⟨_, Trace.snoc hrun hs⟩, boundId_step hrun hs hv hpurge hover hb₁⟩
  exact hinv.2

/-- The document `true` as version 1 of `a`, with the id it is imported under, if any. -/
def requestVersionOne (importId : Option SchemaId) : RegisterSchema :=
  { subject := "a", ty := .json, schema := "true", importId, importVersion := some 1 }

/-- A version that is registered, deleted and registered again has the id it had. -/
theorem version_keeps_id_resurrected :
    let ops : List Op := [.softDeleteVersion "a" 1, .register (requestVersionOne none)]
    let w₀ := (World.start {}).afterAll Formats.sample [.register (requestVersionOne none)]
    boundId (w₀.afterAll Formats.sample ops).state "a" 1 = some 1 := by
  intro ops w₀
  have hrun : Run Formats.sample {} mayDropNullAlone _ w₀ :=
    Run.steps (Trace.nil _) [.register (requestVersionOne none)] (by decide +kernel)
  refine version_keeps_id hrun (Step.trace_steps (Trace.nil w₀) ops (by decide +kernel))
    (by decide) (by decide +kernel) fun p hp => ?_
  have hmodes : ∀ p ∈ w₀.steps Formats.sample ops, p.1.state.effectiveMode "a" ≠ "IMPORT" := by
    decide +kernel
  have hpurges : ∀ p ∈ w₀.steps Formats.sample ops, ¬ Purges Formats.sample p.1 p.2 "a" 1 := by
    decide +kernel
  refine ⟨hpurges p hp, ?_⟩
  rintro ⟨req, _, hmode, hsubject, _, _⟩
  rw [hsubject] at hmode
  exact hmodes p hp hmode

/-- Version 1 of `a` is imported under id 1, and then under id 2. -/
theorem imported_over :
    ∃ t₀ t w₀ w, Run Formats.sample {} mayDropNullAlone t₀ w₀ ∧
      Trace (Step Formats.sample {} mayDropNullAlone) w₀ t w ∧
      (∀ p ∈ t, ¬ Purges Formats.sample p.1 p.2 "a" 1) ∧
      boundId w₀.state "a" 1 = some 1 ∧ boundId w.state "a" 1 = some 2 := by
  let before : List Op := [.setSubjectMode "a" "IMPORT", .register (requestVersionOne (some 1))]
  let after : List Op := [.register (requestVersionOne (some 2))]
  let w₀ := (World.start {}).afterAll Formats.sample before
  have hrun : Run Formats.sample {} mayDropNullAlone _ w₀ :=
    Run.steps (Trace.nil _) before (by decide +kernel)
  exact ⟨_, _, w₀, _, hrun, Step.trace_steps (Trace.nil w₀) after (by decide +kernel),
    by decide +kernel, by decide +kernel, by decide +kernel⟩

end KrabkaRegistry.Guarantees
