import KrabkaRegistry.Cluster.Fencing
import KrabkaRegistry.Guarantees.Ids
import KrabkaRegistry.Guarantees.Replay

/-!
# No Split-Brain Writes

What the nodes of a cluster commit is a log of one registry (`Cluster.committed_sequential`).
A log of registrations alone is a run without restarts, so its ids are named, and its versions
rise in every subject.  `no_split_brain` puts both together for every interleaving of the
nodes.
-/

namespace KrabkaRegistry.Guarantees

open KrabkaRegistry.Cluster
open KrabkaRegistry.Format (Formats)
open KrabkaRegistry.Kafkastore
open KrabkaRegistry.Library (Trace perform)
open KrabkaRegistry.Store
open StoreState (contentOf)

variable {F : Formats} {d : Defaults}

/-! ## Logs of registrations -/

/-- A later record of the same subject has a greater version, until the numbers run out. -/
def VersionRises (r r' : TopicRecord) : Prop :=
  ∀ v v', schemaValue? r = some v → schemaValue? r' = some v' → v.subject = v'.subject →
    v.version < i32Max → v.version < v'.version

/-- What holds of a log of registrations and of its replay. -/
private structure OnlyRegistered (F : Formats) (d : Defaults) (log : List TopicRecord) :
    Prop where
  mode : ∀ s, (replay F d.state log).effectiveMode s = d.mode
  live : ∀ {s v e}, entryOf (replay F d.state log) s v = some e → e.deleted = false
  rising : log.Pairwise VersionRises

private theorem effectiveMode_record {st : StoreState} (req : RegisterSchema) (text : String)
    (reg : Registered) (s : String) :
    (applyTopicRecord F st (req.record text reg)).effectiveMode s = st.effectiveMode s := by
  obtain ⟨k, hk⟩ := applyTopicRecord_schema (F := F) st (schemaValue?_record req text reg)
  rw [hk]
  unfold StoreState.effectiveMode StoreState.globalModeName
  rw [applySchema_subjectMode, applySchema_globalMode, applySchema_defaultMode]

/-- Without deletes a registration takes the next version. -/
private theorem decided_next {st : StoreState} {s key : String} {reg : Registered}
    (hwf : WellFormed st) (hlive : ∀ {v e}, entryOf st s v = some e → e.deleted = false)
    (hnone : st.findUnderSubjectCanonical s key false = none) (hdec : Decides st s key reg) :
    reg.version = st.nextVersion s := by
  cases hdec with
  | @existing e hid hfind _ =>
    -- The version that was found would be live.
    have hmem := List.mem_of_find?_eq_some hfind
    have hdeleted : e.deleted = false := hlive ((hwf.increasing s).findVersion_eq hmem)
    rw [findUnderSubjectCanonical_eq, hid] at hnone
    have hprop : e.id = reg.id := by simpa using List.find?_some hfind
    have hall := List.find?_eq_none.mp (Option.map_eq_none_iff.mp hnone) e hmem
    simp [hprop, hdeleted] at hall
  | reused _ _ hv => exact hv
  | fresh _ _ _ hv => exact hv

/-- Every version of the log is below the next version of its subject. -/
private theorem lt_nextVersion {log : List TopicRecord} {r : TopicRecord} {v : SchemaValue}
    (hr : r ∈ log) (hv : schemaValue? r = some v) (hmax : v.version < i32Max) :
    v.version < (replay F d.state log).nextVersion v.subject := by
  have hbid : bid v.subject r = some (saturatingSucc v.version) := by
    cases r with
    | schema k value =>
      obtain rfl : value = some v := hv
      simp [bid]
    | config | mode | deleteSubject | versionHighWater | barrier => cases hv
  obtain ⟨m, hm, hle⟩ := le_foldl_raise hbid log (d.state.nextVersions[v.subject]?) hr
  have hnext : (replay F d.state log).nextVersion v.subject = m := by
    unfold StoreState.nextVersion
    rw [nextVersions_replay (d.state_consistent F).wellFormed, hm, Option.getD_some]
  rw [hnext]
  refine lt_of_lt_of_le ?_ hle
  exact lt_min (Int.lt_add_one_of_le (le_refl _)) hmax

/-- The records of a registration, as a step of a run. -/
private theorem decided_step {h : List TopicRecord} {r : TopicRecord} (hdec : Decided F d h r) :
    ∃ req, Step F d mayDropNothing ⟨h, replay F d.state h⟩ (.completed (.register req))
      ⟨h ++ [r], replay F d.state (h ++ [r])⟩ := by
  obtain ⟨req, reg, hreg⟩ := hdec
  refine ⟨req, ?_⟩
  have hex : exec F (replay F d.state h) (.register req) = .ok ([r], .registered reg) := by
    simp [exec, hreg, Functor.map, Except.map]
  rw [replay_append]
  exact .completed (w := ⟨h, replay F d.state h⟩) hex

private theorem onlyRegistered_snoc {h : List TopicRecord} {r : TopicRecord}
    (hmode : d.mode ≠ "IMPORT") (hh : OnlyRegistered F d h) (hdec : Decided F d h r) :
    OnlyRegistered F d (h ++ [r]) := by
  obtain ⟨req, reg, hreg⟩ := hdec
  have hst : Consistent F (replay F d.state h) := replay_consistent (d.state_consistent F) h
  -- A decision outside IMPORT mode that writes is a registration.
  obtain ⟨resolved, text, key, _, ⟨hnil, _⟩ | ⟨hrec, hnone, _, hdec⟩⟩ :=
    register_ok (by rw [hh.mode]; exact hmode) hreg
  · simp at hnil
  obtain rfl : r = req.record text reg := by simpa using hrec
  refine ⟨?_, ?_, ?_⟩
  · intro s
    rw [replay_append, replay_cons, replay_nil, effectiveMode_record]
    exact hh.mode s
  · intro s v e he
    rw [replay_append, replay_cons, replay_nil, entryOf_record hst.wellFormed] at he
    split at he
    · obtain rfl : _ = e := by simpa using he
      rfl
    · exact hh.live he
  · refine List.pairwise_append.mpr ⟨hh.rising, by simp, ?_⟩
    intro x hx y hy v v' hv hv' hsubject hmax
    rw [List.mem_singleton.mp hy, schemaValue?_record] at hv'
    obtain rfl : recordValue req text reg = v' := Option.some.inj hv'
    -- Its version is the next one, which lies above all before it.
    have hnext := decided_next hst.wellFormed hh.live hnone hdec
    have hlt := lt_nextVersion (F := F) (d := d) hx hv hmax
    rw [hsubject] at hlt
    change v.version < reg.version
    rw [hnext]
    exact hlt

private theorem sequential_registered (hmode : d.mode ≠ "IMPORT") {log : List TopicRecord}
    (h : Sequential F d log) : OnlyRegistered F d log := by
  induction h with
  | nil =>
    refine ⟨fun s => ?_, fun he => ?_, List.Pairwise.nil⟩
    · simp [StoreState.effectiveMode, StoreState.globalModeName, Defaults.state,
        StoreState.withDefaults]
    · simp [Defaults.state] at he
  | snoc _ hdec ih => exact onlyRegistered_snoc hmode ih hdec

/-- A sequential log is the log of a run of one registry. -/
theorem sequential_run (hmode : d.mode ≠ "IMPORT") {log : List TopicRecord}
    (h : Sequential F d log) :
    ∃ t, Run F d mayDropNothing t ⟨log, replay F d.state log⟩ ∧
      ∀ p ∈ t, Live p.2 ∧ Assigns p.1 p.2 := by
  induction h with
  | nil => exact ⟨[], Trace.nil _, by simp⟩
  | @snoc h r hseq hdec ih =>
    obtain ⟨t, hrun, hlive⟩ := ih
    obtain ⟨req, hstep⟩ := decided_step hdec
    refine ⟨_, Trace.snoc hrun hstep, ?_⟩
    intro p hp
    rcases List.mem_append.mp hp with hp | hp
    · exact hlive p hp
    · rw [List.mem_singleton.mp hp]
      refine ⟨trivial, ?_⟩
      change (replay F d.state h).effectiveMode req.subject ≠ "IMPORT"
      rw [(sequential_registered hmode hseq).mode]
      exact hmode

/-! ## The cluster -/

/-- The records are those of one registry: every schema has an identity, an id has one
identity, and no version of a subject is given twice. -/
structure OneRegistry (F : Formats) (log : List TopicRecord) : Prop where
  identified : ∀ r ∈ log, ∀ v, schemaValue? r = some v → ∃ K, KeyOf F (contentOf v) K
  one_identity : ∀ r ∈ log, ∀ r' ∈ log, ∀ v v' K K', schemaValue? r = some v →
    schemaValue? r' = some v' → KeyOf F (contentOf v) K → KeyOf F (contentOf v') K' →
    v.id = v'.id → K = K'
  versions_rise : log.Pairwise VersionRises

/-- On every run of any number of nodes, the committed records are those of one registry. -/
theorem no_split_brain {ι : Type} [DecidableEq ι] (hmode : d.mode = "READWRITE")
    {t : List (System ι × Action ι)} {s : System ι}
    (h : Trace (fun s a s' => next F s a = some s') (System.start ι d) t s) :
    OneRegistry F s.broker.committed := by
  have himport : d.mode ≠ "IMPORT" := by
    rw [hmode]
    decide
  have hseq := committed_sequential h
  obtain ⟨t', hrun, hlive⟩ := sequential_run himport hseq
  obtain ⟨key, hnamed⟩ := run_named hrun (fun p hp => (hlive p hp).2) (by
    -- There is no restart that could lose an id.
    intro p hp
    cases hl : p.2 with
    | restarted replayed =>
      have hno := (hlive p hp).1
      rw [hl] at hno
      cases hno
    | completed | interrupted | refused | barrier => trivial)
  refine ⟨?_, ?_, (sequential_registered himport hseq).rising⟩
  · exact fun r hr v hv => ⟨_, (hnamed r hr v hv).1⟩
  · intro r hr r' hr' v v' K K' hv hv' hK hK' hid
    have hname := (hnamed r hr v hv).1.unique hK
    have hname' := (hnamed r' hr' v' hv').1.unique hK'
    rw [← hname, ← hname', hid]

/-! ### A change of the primary -/

/-- A call from the fence to the commit request, with `k` entries to read. -/
def callActions (n : Bool) (req : RegisterSchema) (k : ℕ) : List (Action Bool) :=
  ([.read n req, .fence n, .fenceDone n, .order n] : List (Action Bool)) ++
    List.replicate k (Action.deliver n) ++
    ([.seen n, .recheck n, .decide n, .send n, .requestCommit n] : List (Action Bool))

/-- The first node registers a schema.  Its next call is under way when the second node is
elected, which fences it and registers another schema; the old call asks for its commit and is
not answered. -/
def takeoverActions : List (Action Bool) :=
  ([.elect 1 ["m0", "m1"], .observe false ⟨true, some 1, some "m0"⟩] : List (Action Bool)) ++
    callActions false requestEmpty 1 ++ ([.commit 0, .abandon false] : List (Action Bool)) ++
    ([.read false { requestTrue with subject := "a" }, .fence false, .order false,
      .deliver false, .deliver false, .seen false, .recheck false, .decide false] :
      List (Action Bool)) ++
    ([.elect 2 ["m1"], .observe true ⟨true, some 2, some "m1"⟩] : List (Action Bool)) ++
    callActions true requestTrue 4 ++ ([.commit 1] : List (Action Bool)) ++
    ([.send false, .requestCommit false] : List (Action Bool))

/-- Two records are committed in this run, and they are those of one registry. -/
theorem no_split_brain_takeover :
    ∃ s, perform (next Formats.sample) (fun _ _ => true) (System.start Bool {}) takeoverActions =
        some s ∧
      s.broker.committed.length = 2 ∧ OneRegistry Formats.sample s.broker.committed := by
  obtain ⟨s, hs, hlen⟩ := Option.map_eq_some_iff.mp
    (show (perform (next Formats.sample) (fun _ _ => true) (System.start Bool {})
      takeoverActions).map (fun s => s.broker.committed.length) = some 2 by decide +kernel)
  obtain ⟨t, ht, _⟩ := (Trace.nil (System.start Bool {})).perform (by simp) hs
  exact ⟨s, hs, hlen, no_split_brain (d := {}) rfl ht⟩

end KrabkaRegistry.Guarantees
