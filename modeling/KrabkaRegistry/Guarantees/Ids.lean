import KrabkaRegistry.Store.Closure
import KrabkaRegistry.Kafkastore.Run

/-!
# Schema Ids Across Restarts

The id counter and the identity index live in memory and are derived again from the records
that a restart replays.

- `register_never_reuses_id`: as long as every restart sees a record of the greatest id in
  the log, no id is given to two identities.  `reused_id_after_purge` is a run in which a
  permanent delete and a compaction lose that record.
- `restart_keeps_id_iff`: after a restart a stored schema gets its id back exactly when the
  last record of the id can be indexed at its place in the replay and keeps its key.
  `lost_id_after_reordering` is a run in which compaction moves a referrer before its
  dependency.
-/

namespace KrabkaRegistry.Guarantees

open KrabkaRegistry.Format (Formats)
open KrabkaRegistry.Kafkastore
open KrabkaRegistry.Library (Trace)
open KrabkaRegistry.Library.Compaction
open KrabkaRegistry.Store
open StoreState (contentOf)

variable {F : Formats} {d : Defaults} {mayDrop : List TopicRecord → TopicRecord → Prop}

/-! ## Issued ids -/

/-- The identity key that a registration is decided under. -/
def registerKey (F : Formats) (st : StoreState) (req : RegisterSchema) : Result String := do
  let resolved ← st.resolveClosure req.references
  let text ← F.normalizedStorageForm req.ty req.schema resolved
  st.identityKey F req.ty text req.references req.messageType

theorem registerKey_of_reads {st : StoreState} {req : RegisterSchema}
    {resolved : List ResolvedReference} {text key : String}
    (h : Reads F st req resolved text key) : registerKey F st req = .ok key := by
  simp [registerKey, h.closure, h.storage, h.identity, bind, Except.bind]

/-- The step is a registration that answered id `n` for identity `K`. -/
def Issues (F : Formats) (w : World) (l : Event) (K : String) (n : SchemaId) : Prop :=
  ∃ req recs reg, l = .completed (.register req) ∧
    Kafkastore.register F w.state req = .ok (recs, reg) ∧
    registerKey F w.state req = .ok K ∧ reg.id = n

/-- No id was answered for two identities. -/
def IdsNotReused (F : Formats) (t : List (World × Event)) : Prop :=
  ∀ p ∈ t, ∀ q ∈ t, ∀ K K' n, Issues F p.1 p.2 K n → Issues F q.1 q.2 K' n → K = K'

/-- A restart replays, for each `SCHEMA` record written so far, one whose id is at least
as great. -/
def KeepsTopId (w : World) : Event → Prop
  | .restarted replayed => ∀ r ∈ w.log, ∀ value, schemaValue? r = some value →
      ∃ r' ∈ replayed, ∃ value', schemaValue? r' = some value' ∧ value.id ≤ value'.id
  | _ => True

/-! ## Naming the ids of a log -/

/-- The state was rebuilt from records of the log. -/
def Reflects (F : Formats) (d : Defaults) (w : World) : Prop :=
  ∃ c, (∀ r ∈ c, r ∈ w.log) ∧ w.state = replay F d.state c

theorem Reflects.append {w : World} (h : Reflects F d w) (recs : List TopicRecord) :
    Reflects F d (w.append F recs) := by
  obtain ⟨c, hsub, hst⟩ := h
  refine ⟨c ++ recs, ?_, ?_⟩
  · intro r hr
    rcases List.mem_append.mp hr with hr | hr
    · exact List.mem_append_left _ (hsub r hr)
    · exact List.mem_append_right _ hr
  · rw [replay_append, ← hst]
    rfl

theorem Reflects.consistent {w : World} (h : Reflects F d w) : Consistent F w.state := by
  obtain ⟨c, _, hst⟩ := h
  rw [hst]
  exact replay_consistent (d.state_consistent F) c

/-- Stored content comes from a record of the log. -/
theorem Reflects.stored {w : World} (h : Reflects F d w) {n : SchemaId} {reg : RegisteredSchema}
    (hreg : w.state.byId[n]? = some reg) :
    ∃ r ∈ w.log, ∃ value, schemaValue? r = some value ∧ value.id = n ∧ contentOf value = reg := by
  obtain ⟨c, hsub, hst⟩ := h
  rw [hst] at hreg
  obtain ⟨r, hr, hrest⟩ := byId_replay hreg
  exact ⟨r, hsub r hr, hrest⟩

/-- `key` names the identity of every id in the log, and the counter is above them all. -/
def Named (F : Formats) (key : SchemaId → String) (w : World) : Prop :=
  ∀ r ∈ w.log, ∀ value, schemaValue? r = some value →
    KeyOf F (contentOf value) (key value.id) ∧ value.id ≤ w.state.maxId

/-- The id was given to a record of the log. -/
def Logged (log : List TopicRecord) (n : SchemaId) : Prop :=
  ∃ r ∈ log, ∃ value, schemaValue? r = some value ∧ value.id = n

theorem Logged.append {log : List TopicRecord} {n : SchemaId} (h : Logged log n)
    (recs : List TopicRecord) : Logged (log ++ recs) n := by
  obtain ⟨r, hr, hrest⟩ := h
  exact ⟨r, List.mem_append_left _ hr, hrest⟩

theorem Named.logged_le {key : SchemaId → String} {w : World} (hn : Named F key w) {n : SchemaId}
    (h : Logged w.log n) : n ≤ w.state.maxId := by
  obtain ⟨r, hr, value, hv, rfl⟩ := h
  exact (hn r hr value hv).2

/-- Under a naming, the index sends each key to an id of that name. -/
theorem Named.indexed {key : SchemaId → String} {w : World} (hn : Named F key w)
    (hr : Reflects F d w) {K : String} {n : SchemaId} (h : w.state.byCanonical[K]? = some n) :
    key n = K ∧ Logged w.log n := by
  obtain ⟨reg, hreg, hK⟩ := hr.consistent.indexed_stored h
  obtain ⟨r, hrl, value, hv, rfl, rfl⟩ := hr.stored hreg
  exact ⟨(hn r hrl value hv).1.unique hK, r, hrl, value, hv, rfl⟩

private theorem maxId_append (w : World) (r : TopicRecord) :
    w.state.maxId ≤ (w.append F [r]).state.maxId := by
  change w.state.maxId ≤ (applyTopicRecord F w.state r).maxId
  rw [maxId_applyTopicRecord]
  cases schemaValue? r with
  | none => exact le_refl _
  | some value => exact le_max_left _ _

/-- Appending a record without a `SCHEMA` value changes no name. -/
private theorem Named.append_other {key : SchemaId → String} {w : World} (h : Named F key w)
    {r : TopicRecord} (hr : schemaValue? r = none) : Named F key (w.append F [r]) := by
  intro r' hr' value hv
  rcases List.mem_append.mp hr' with hr' | hr'
  · exact ⟨(h r' hr' value hv).1, (h r' hr' value hv).2.trans (maxId_append w r)⟩
  · rw [List.mem_singleton.mp hr', hr] at hv
    cases hv

/-- Appending a `SCHEMA` record keeps a naming that fits the record. -/
private theorem Named.append_schema {key : SchemaId → String} {w : World} (h : Named F key w)
    {r : TopicRecord} {value : SchemaValue} (hv : schemaValue? r = some value)
    (hkey : KeyOf F (contentOf value) (key value.id)) : Named F key (w.append F [r]) := by
  intro r' hr' value' hv'
  rcases List.mem_append.mp hr' with hr' | hr'
  · exact ⟨(h r' hr' value' hv').1, (h r' hr' value' hv').2.trans (maxId_append w r)⟩
  · rw [List.mem_singleton.mp hr', hv] at hv'
    obtain rfl : value = value' := by simpa using hv'
    refine ⟨hkey, ?_⟩
    change value.id ≤ (applyTopicRecord F w.state r).maxId
    rw [maxId_applyTopicRecord, hv]
    exact le_max_right _ _

theorem keyOf_recordValue {st : StoreState} {req : RegisterSchema}
    {resolved : List ResolvedReference} {text key : String} (h : Reads F st req resolved text key)
    (reg : Registered) : KeyOf F (contentOf (recordValue req text reg)) key := by
  have hid : st.identityKey F (contentOf (recordValue req text reg)).ty text req.references
      req.messageType = .ok key := by
    simpa [contentOf, recordValue] using h.identity
  exact KeyOf.of_identityKey hid

/-- One record: names below the counter stay, and a new id gets a name. A record that reuses an id
repeats the identity that the id is named by. -/
private theorem named_emits {w : World} {r : TopicRecord} (he : Emits F false w r)
    (hr : Reflects F d w) {key : SchemaId → String} (hn : Named F key w) :
    ∃ key', (∀ n ≤ w.state.maxId, key' n = key n) ∧ Named F key' (w.append F [r]) := by
  cases he with
  | @registered req resolved text K reg _ hreads _ _ hdec =>
    have hK := keyOf_recordValue hreads reg
    rcases hdec.id_cases with hid | ⟨_, hid⟩
    -- A known identity: the id already has this name.
    · have hname := (hn.indexed hr hid).1
      refine ⟨key, fun _ _ => rfl, hn.append_schema (schemaValue?_record req text reg) ?_⟩
      change KeyOf F _ (key reg.id)
      rw [hname]
      exact hK
    -- A new identity: its id lies above the counter, where no name is in use.
    · refine ⟨Function.update key reg.id K, ?_, ?_⟩
      · intro n hle
        have hne : n ≠ reg.id := by rw [hid]; exact (Int.lt_add_one_of_le hle).ne
        exact Function.update_of_ne hne K key
      · have hn' : Named F (Function.update key reg.id K) w := by
          intro r' hr' value hv
          obtain ⟨hk, hle⟩ := hn r' hr' value hv
          have hne : value.id ≠ reg.id := by rw [hid]; exact (Int.lt_add_one_of_le hle).ne
          exact ⟨by rwa [Function.update_of_ne hne], hle⟩
        refine hn'.append_schema (schemaValue?_record req text reg) ?_
        change KeyOf F _ (Function.update key reg.id K reg.id)
        rw [Function.update_self]
        exact hK
  | imported himp => cases himp
  | @softDeleted s v e reg _ hreg =>
    -- The content comes back from the log, so it has the name of its id.
    obtain ⟨r', hr', value, hv, hid, hcontent⟩ := hr.stored hreg
    refine ⟨key, fun _ _ => rfl, hn.append_schema rfl ?_⟩
    have hk := (hn r' hr' value hv).1
    rw [hid, hcontent] at hk
    simpa [contentOf] using hk
  | subjectDeleted s m => exact ⟨key, fun _ _ => rfl, hn.append_other rfl⟩
  | marked s => exact ⟨key, fun _ _ => rfl, hn.append_other rfl⟩
  | purged _ _ _ => exact ⟨key, fun _ _ => rfl, hn.append_other rfl⟩
  | leveled s level _ => exact ⟨key, fun _ _ => rfl, hn.append_other rfl⟩
  | moded s m => exact ⟨key, fun _ _ => rfl, hn.append_other rfl⟩
  | barrier token present => exact ⟨key, fun _ _ => rfl, hn.append_other rfl⟩

/-- A whole operation: names below the counter stay. -/
private theorem named_writes {w : World} {recs : List TopicRecord} (hw : Writes F false w recs)
    (hr : Reflects F d w) {key : SchemaId → String} (hn : Named F key w) :
    w.state.maxId ≤ (w.append F recs).state.maxId ∧
      ∃ key', (∀ n ≤ w.state.maxId, key' n = key n) ∧ Named F key' (w.append F recs) := by
  induction hw generalizing key with
  | nil w => exact ⟨by simp, key, fun _ _ => rfl, by simpa using hn⟩
  | @cons w r recs he _ ih =>
    obtain ⟨key₁, hagree₁, hn₁⟩ := named_emits he hr hn
    obtain ⟨hle, key₂, hagree₂, hn₂⟩ := ih (hr.append [r]) hn₁
    rw [World.append_cons]
    refine ⟨(maxId_append w r).trans hle, key₂, ?_, hn₂⟩
    intro n hnle
    rw [hagree₂ n (hnle.trans (maxId_append w r)), hagree₁ n hnle]

/-- The answer of a registration carries the name that its id has afterwards. -/
private theorem named_issue {w : World} {req : RegisterSchema} {recs : List TopicRecord}
    {reg : Registered} {K : String} (hmode : w.state.effectiveMode req.subject ≠ "IMPORT")
    (hreg : Kafkastore.register F w.state req = .ok (recs, reg))
    (hK : registerKey F w.state req = .ok K) (hr : Reflects F d w) {key : SchemaId → String}
    (hn : Named F key (w.append F recs)) :
    key reg.id = K ∧ Logged (w.append F recs).log reg.id := by
  obtain ⟨resolved, text, K', hreads, hcases⟩ := register_ok hmode hreg
  obtain rfl : K' = K := by simpa [registerKey_of_reads hreads] using hK
  rcases hcases with ⟨rfl, hfind⟩ | ⟨rfl, _, _, _⟩
  · have hid := (findUnderSubjectCanonical_some hfind).1
    rw [World.append_nil] at hn ⊢
    exact hn.indexed hr hid
  · have hmem : req.record text reg ∈ (w.append F [req.record text reg]).log := by
      simp [World.append]
    obtain ⟨hk, _⟩ := hn _ hmem (recordValue req text reg) rfl
    exact ⟨hk.unique (keyOf_recordValue hreads reg), _, hmem, _, rfl, rfl⟩

/-! ## Ids are not reused -/

/-- The invariant of a run: some naming fits the log and everything answered so far. -/
private def NamedRun (F : Formats) (d : Defaults) (t : List (World × Event)) (w : World) : Prop :=
  Reflects F d w ∧ ∃ key, Named F key w ∧
    ∀ p ∈ t, ∀ K n, Issues F p.1 p.2 K n → key n = K ∧ Logged w.log n

/-- A step that appends records keeps the naming and adds what it answers. -/
private theorem namedRun_append {t : List (World × Event)} {w : World} {l : Event}
    {recs : List TopicRecord} (hw : Writes F false w recs) (h : NamedRun F d t w)
    (hissue : ∀ K n, Issues F w l K n → ∀ key, Named F key (w.append F recs) →
      key n = K ∧ Logged (w.append F recs).log n) :
    NamedRun F d (t ++ [(w, l)]) (w.append F recs) := by
  obtain ⟨hr, key, hn, hissued⟩ := h
  obtain ⟨hle, key', hagree, hn'⟩ := named_writes hw hr hn
  refine ⟨hr.append recs, key', hn', ?_⟩
  intro p hp K n hpn
  rcases List.mem_append.mp hp with hp | hp
  · obtain ⟨hk, hlog⟩ := hissued p hp K n hpn
    exact ⟨by rw [hagree n (hn.logged_le hlog), hk], hlog.append recs⟩
  · rw [List.mem_singleton.mp hp] at hpn
    exact hissue K n hpn key' hn'

/-- Only a completed registration answers an id. -/
private theorem not_issues {w : World} {l : Event} (h : ∀ op, l ≠ .completed op) (K : String)
    (n : SchemaId) : ¬ Issues F w l K n := by
  rintro ⟨req, _, _, rfl, _⟩
  exact h _ rfl

private theorem namedRun_step {t : List (World × Event)} {w w' : World} {l : Event}
    (hs : Step F d mayDrop w l w') (hassign : Assigns w l) (hkeep : KeepsTopId w l)
    (h : NamedRun F d t w) : NamedRun F d (t ++ [(w, l)]) w' := by
  have hcons := h.1.consistent
  cases hs with
  | @completed op recs reply hex =>
    refine namedRun_append (exec_writes hcons (.inr hassign) hex) h ?_
    rintro K n ⟨req, recs', reg, hop, hreg, hK, rfl⟩ key hn
    obtain rfl : op = .register req := by simpa using hop
    obtain ⟨⟨recs₀, reg₀⟩, hreg₀, heq⟩ := map_ok hex
    obtain ⟨rfl, rfl⟩ : recs' = recs₀ ∧ reg = reg₀ := by simpa [hreg] using hreg₀
    obtain ⟨rfl, -⟩ : recs' = recs ∧ _ = reply := by simpa using heq
    exact named_issue hassign hreg hK h.1 hn
  | interrupted k hex =>
    refine namedRun_append ((exec_writes hcons (.inr hassign) hex).take k) h ?_
    exact fun K n hi => absurd hi (not_issues (by simp) K n)
  | @refused op _ _ =>
    have happend := namedRun_append (l := .refused op) (Writes.nil (F := F) w) h
      fun K n hi => absurd hi (not_issues (by simp) K n)
    simpa using happend
  | barrier token present =>
    refine namedRun_append (.single (.barrier token present)) h ?_
    exact fun K n hi => absurd hi (not_issues (by simp) K n)
  | @restarted replayed hc =>
    -- A restart keeps the log, and its counter is high enough by the condition.
    obtain ⟨_, key, hn, hissued⟩ := h
    refine ⟨⟨replayed, fun r hr => hc.subset hr, rfl⟩, key, ?_, ?_⟩
    · intro r hr value hv
      obtain ⟨r', hr', value', hv', hle⟩ := hkeep r hr value hv
      exact ⟨(hn r hr value hv).1, hle.trans (id_le_maxId_replay hr' hv')⟩
    · intro p hp K n hi
      rcases List.mem_append.mp hp with hp | hp
      · exact hissued p hp K n hi
      · rw [List.mem_singleton.mp hp] at hi
        exact absurd hi (not_issues (by simp) K n)

private theorem run_namedRun {t : List (World × Event)} {w : World} (h : Run F d mayDrop t w)
    (hassign : ∀ p ∈ t, Assigns p.1 p.2) (hkeep : ∀ p ∈ t, KeepsTopId p.1 p.2) :
    NamedRun F d t w := by
  have hstart : NamedRun F d [] (World.start d) := by
    refine ⟨⟨[], by simp, rfl⟩, fun _ => "", ?_, by simp⟩
    intro r hr
    simp [World.start] at hr
  exact Trace.history_invariant (I := NamedRun F d)
    (C := fun w l => Assigns w l ∧ KeepsTopId w l) hstart
    (fun _ _ _ _ hC hs hi => namedRun_step hs hC.1 hC.2 hi) h
    fun p hp => ⟨hassign p hp, hkeep p hp⟩

/-- The ids of a log have names, as long as no restart loses the greatest one. -/
theorem run_named {t : List (World × Event)} {w : World} (h : Run F d mayDrop t w)
    (hassign : ∀ p ∈ t, Assigns p.1 p.2) (hkeep : ∀ p ∈ t, KeepsTopId p.1 p.2) :
    ∃ key, Named F key w := by
  obtain ⟨_, key, hn, _⟩ := run_namedRun h hassign hkeep
  exact ⟨key, hn⟩

/-- In a run without imports whose restarts all see a record of the greatest id written so
far, no id is answered for two identities. -/
theorem register_never_reuses_id {t : List (World × Event)} {w : World}
    (h : Run F d mayDropNull t w) (hassign : ∀ p ∈ t, Assigns p.1 p.2)
    (hkeep : ∀ p ∈ t, KeepsTopId p.1 p.2) : IdsNotReused F t := by
  obtain ⟨_, key, _, hissued⟩ := run_namedRun h hassign hkeep
  intro p hp q hq K K' n hpn hqn
  rw [← (hissued p hp K n hpn).1, ← (hissued q hq K' n hqn).1]

/-! ### A purge and a compaction -/

/-- A request for the empty JSON Schema, and one for another schema. -/
def requestEmpty : RegisterSchema := { subject := "a", ty := .json, schema := "\x7b\x7d" }

def requestTrue : RegisterSchema := { subject := "b", ty := .json, schema := "true" }

/-- The restart of a world on the records that a mask keeps of its log. -/
def World.restartOn (w : World) (mask : List Bool) : World :=
  ⟨w.log, replay Formats.sample ({} : Defaults).state (select mask w.log)⟩

/-- Operations, a restart on a mask of the log, and one more registration. -/
def restartRun (ops : List Op) (mask : List Bool) (req : RegisterSchema) : List (World × Event) :=
  let w := (World.start {}).afterAll Formats.sample ops
  (World.start {}).steps Formats.sample ops ++ [(w, .restarted (select mask w.log))] ++
    [(World.restartOn w mask, .completed (.register req))]

theorem restartRun_run (ops : List Op) (mask : List Bool) (req : RegisterSchema)
    (hops : (World.start {}).completes Formats.sample ops = true)
    (hmask : admits TopicRecord.key (fun _ r => r.isNull) [] mask
      ((World.start {}).afterAll Formats.sample ops).log = true)
    (hreq : (exec Formats.sample
      (World.restartOn ((World.start {}).afterAll Formats.sample ops) mask).state
      (.register req)).isOk = true) :
    ∃ w, Run Formats.sample {} mayDropNull (restartRun ops mask req) w := by
  have hrun : Run Formats.sample {} mayDropNull _ _ :=
    Run.steps (Trace.nil (World.start {})) ops hops
  have hrestart : Step Formats.sample {} mayDropNull _ (.restarted _) _ :=
    .restarted (Compacts.of_admits (fun _ (r : TopicRecord) => r.isNull) (fun _ _ hr => hr) _ mask
      [] hmask)
  exact ⟨_, Trace.snoc (Trace.snoc hrun hrestart) (Step.after hreq)⟩

/-- A registration whose answer is known has appended some records. -/
theorem register_of_answer (st : StoreState) (req : RegisterSchema) (reg : Registered)
    (h : (Kafkastore.register F st req).map (·.2) = .ok reg) :
    ∃ recs, Kafkastore.register F st req = .ok (recs, reg) := by
  cases hr : Kafkastore.register F st req with
  | error e => simp [hr, Except.map] at h
  | ok p =>
    obtain rfl : p.2 = reg := by simpa [hr, Except.map] using h
    exact ⟨p.1, rfl⟩

/-- Register a schema, then delete it for good. -/
def purgeOps : List Op :=
  [.register requestEmpty, .softDeleteVersion "a" 1, .permanentDeleteVersion "a" 1]

/-- Compaction leaves only the version marker of a purged subject, and the next schema is
answered the purged schema's id. -/
theorem reused_id_after_purge :
    ∃ t w, Run Formats.sample {} mayDropNull t w ∧ (∀ p ∈ t, Assigns p.1 p.2) ∧
      ¬ IdsNotReused Formats.sample t := by
  obtain ⟨w, hrun⟩ := restartRun_run purgeOps [false, false, true, false] requestTrue
    (by decide +kernel) (by decide +kernel) (by decide +kernel)
  refine ⟨_, w, hrun, by decide +kernel, ?_⟩
  intro hids
  obtain ⟨recs, hfirst⟩ := register_of_answer (F := Formats.sample) (World.start {}).state
    requestEmpty ⟨1, 1⟩ (by decide +kernel)
  obtain ⟨recs', hsecond⟩ := register_of_answer (F := Formats.sample)
    (World.restartOn ((World.start {}).afterAll Formats.sample purgeOps)
      [false, false, true, false]).state requestTrue ⟨1, 1⟩ (by decide +kernel)
  have heq := hids (World.start {}, .completed (.register requestEmpty))
    (by simp [restartRun, purgeOps, World.steps])
    (_, .completed (.register requestTrue))
    (List.mem_append_right _ (List.mem_singleton.mpr rfl)) "\x7b\x7d" "true" 1
    ⟨requestEmpty, recs, ⟨1, 1⟩, rfl, hfirst, by decide +kernel, rfl⟩
    ⟨requestTrue, recs', ⟨1, 1⟩, rfl, hsecond, by decide +kernel, rfl⟩
  exact absurd heq (by decide)

/-- A restart on the whole log satisfies the condition. -/
theorem register_never_reuses_id_whole_log :
    IdsNotReused Formats.sample (restartRun [.register requestEmpty] [true] requestTrue) := by
  obtain ⟨w, hrun⟩ := restartRun_run [.register requestEmpty] [true] requestTrue
    (by decide +kernel) (by decide +kernel) (by decide +kernel)
  refine register_never_reuses_id hrun (by decide +kernel) ?_
  intro p hp
  simp only [restartRun, World.steps, List.cons_append, List.nil_append,
    List.mem_cons, List.not_mem_nil, or_false] at hp
  rcases hp with rfl | rfl | rfl
  · trivial
  · exact fun r hr value hv => ⟨r, hr, value, hv, le_refl _⟩
  · trivial

/-! ## A stored schema gets its id back -/

/-- The request that registers a stored content again under a subject. -/
def RegisteredSchema.request (reg : RegisteredSchema) (subject : String) : RegisterSchema :=
  { subject := subject, ty := reg.ty, schema := reg.schema, references := reg.references,
    messageType := reg.messageType }

/-- In the replay of `c`, the last record of id `n` is indexed under `K` at its place, and no
later record takes the key. -/
def IndexedLast (F : Formats) (d : Defaults) (c : List TopicRecord) (n : SchemaId) (K : String) :
    Prop :=
  ∃ pre r post value, c = pre ++ r :: post ∧ schemaValue? r = some value ∧ value.id = n ∧
    placeKey F (replay F d.state pre) value = some K ∧
    ∀ mid r' post' value', post = mid ++ r' :: post' → schemaValue? r' = some value' →
      value'.id ≠ n ∧ placeKey F (replay F d.state (pre ++ r :: mid)) value' ≠ some K

/-- What is indexed after one more record. -/
private theorem indexedLast_snoc {c : List TopicRecord} {r : TopicRecord} {n : SchemaId}
    {K : String} :
    IndexedLast F d (c ++ [r]) n K ↔
      (∃ value, schemaValue? r = some value ∧ value.id = n ∧
        placeKey F (replay F d.state c) value = some K) ∨
      (IndexedLast F d c n K ∧ ∀ value, schemaValue? r = some value →
        value.id ≠ n ∧ placeKey F (replay F d.state c) value ≠ some K) := by
  constructor
  · rintro ⟨pre, x, post, value, hsplit, hv, hid, hkey, hlater⟩
    rcases List.eq_nil_or_concat post with rfl | ⟨mid, y, rfl⟩
    -- The record in question is the new one.
    · obtain ⟨rfl, rfl⟩ : c = pre ∧ r = x := by
        simpa using List.append_inj' hsplit rfl
      exact .inl ⟨value, hv, hid, hkey⟩
    · have hsplit' : c ++ [r] = (pre ++ x :: mid) ++ [y] := by simpa using hsplit
      obtain ⟨rfl, rfl⟩ : c = pre ++ x :: mid ∧ r = y := by
        simpa using List.append_inj' hsplit' rfl
      refine .inr ⟨⟨pre, x, mid, value, rfl, hv, hid, hkey, ?_⟩, ?_⟩
      · intro mid' r' post' value' hmid hv'
        exact hlater mid' r' (post' ++ [r]) value' (by simp [hmid]) hv'
      · intro value' hv'
        exact hlater mid r [] value' (by simp) hv'
  · rintro (⟨value, hv, hid, hkey⟩ | ⟨⟨pre, x, post, value, rfl, hv, hid, hkey, hlater⟩, hr⟩)
    · exact ⟨c, r, [], value, rfl, hv, hid, hkey, by simp⟩
    · refine ⟨pre, x, post ++ [r], value, by simp, hv, hid, hkey, ?_⟩
      intro mid r' post' value' hsplit hv'
      rcases List.eq_nil_or_concat post' with rfl | ⟨post'', y, rfl⟩
      · obtain ⟨rfl, rfl⟩ : post = mid ∧ r = r' := by
          simpa using List.append_inj' hsplit rfl
        exact hr value' hv'
      · have hsplit' : post ++ [r] = (mid ++ r' :: post'') ++ [y] := by simpa using hsplit
        obtain ⟨rfl, rfl⟩ : post = mid ++ r' :: post'' ∧ r = y := by
          simpa using List.append_inj' hsplit' rfl
        exact hlater mid r' post'' value' rfl hv'

/-- The index of a replay, in terms of the records. -/
theorem byCanonical_replay (c : List TopicRecord) (n : SchemaId) (K : String) :
    (replay F d.state c).byCanonical[K]? = some n ↔ IndexedLast F d c n K := by
  induction c using List.reverseRecOn with
  | nil =>
    constructor
    · intro h
      simp [Defaults.state, StoreState.withDefaults] at h
    · rintro ⟨pre, r, post, value, hsplit, _⟩
      simp at hsplit
  | append_singleton c r ih =>
    rw [indexedLast_snoc, ← ih, replay_append, replay_cons, replay_nil]
    have hinv := (replay_consistent (d.state_consistent F) c).inverse
    cases hr : schemaValue? r with
    | none =>
      rw [(contents_applyTopicRecord _ hr).2.2.1]
      simp
    | some value =>
      obtain ⟨k, hk⟩ := applyTopicRecord_schema (F := F) (replay F d.state c) hr
      rw [hk, byCanonical_applySchema hinv]
      simp only [Option.some.injEq, forall_eq', exists_eq_left']
      tauto

/-- After any restart, registering the schema that a version stores returns the version's id
exactly when the replay left the id indexed under the request's key. -/
theorem restart_keeps_id_iff {w w' : World} {replayed : List TopicRecord}
    (hstep : Step F d mayDrop w (.restarted replayed) w') {s subject : String}
    {v : SchemaVersion} {n : SchemaId} {reg₀ : RegisteredSchema}
    (hbound : ∃ e, entryOf w'.state s v = some e ∧ e.id = n ∧ w'.state.byId[n]? = some reg₀)
    (hmode : w'.state.effectiveMode subject ≠ "IMPORT") {recs : List TopicRecord}
    {reg : Registered} {K : String}
    (hreg : Kafkastore.register F w'.state (RegisteredSchema.request reg₀ subject) =
      .ok (recs, reg))
    (hkey : registerKey F w'.state (RegisteredSchema.request reg₀ subject) = .ok K) :
    reg.id = n ↔ IndexedLast F d replayed n K := by
  obtain ⟨_, _, _, hcontent⟩ := hbound
  cases hstep with
  | restarted _ =>
    rw [← byCanonical_replay]
    have hcons := replay_consistent (d.state_consistent F) replayed
    obtain ⟨resolved, text, K', hreads, hcases⟩ := register_ok hmode hreg
    obtain rfl : K' = K := by simpa [registerKey_of_reads hreads] using hkey
    have hid : (replay F d.state replayed).byCanonical[K']? = some reg.id ∨
        ((replay F d.state replayed).byCanonical[K']? = none ∧
          reg.id = (replay F d.state replayed).maxId + 1) := by
      rcases hcases with ⟨_, hfind⟩ | ⟨_, _, _, hdec⟩
      · exact .inl (findUnderSubjectCanonical_some hfind).1
      · exact hdec.id_cases
    rcases hid with hid | ⟨hnone, hfresh⟩
    · simp [hid]
    -- A fresh id is above every stored one.
    · have hle := hcons.id_le_maxId hcontent
      have hne : reg.id ≠ n := by
        rw [hfresh]
        exact (Int.lt_add_one_of_le hle).ne'
      simp [hnone, hne]

/-- The stored content of a version is the schema of a request. -/
def Stores (st : StoreState) (s : String) (v : SchemaVersion) (n : SchemaId)
    (req : RegisterSchema) : Prop :=
  ∃ e reg, entryOf st s v = some e ∧ e.id = n ∧ st.byId[n]? = some reg ∧
    RegisteredSchema.request reg req.subject = req

private theorem stores_of_eval {st : StoreState} {s : String} {v : SchemaVersion} {n : SchemaId}
    {req : RegisterSchema} (hid : (entryOf st s v).map (·.id) = some n)
    (hreg : (st.byId[n]?).map (RegisteredSchema.request · req.subject) = some req) :
    Stores st s v n req := by
  obtain ⟨e, he, hn⟩ := Option.map_eq_some_iff.mp hid
  obtain ⟨reg, hr, hreq⟩ := Option.map_eq_some_iff.mp hreg
  exact ⟨e, reg, he, hn, hr, hreq⟩

/-- A schema that refers to version 1 of subject `b`. -/
def requestReferrer : RegisterSchema :=
  { subject := "a", ty := .json, schema := "\x7b\x7d", references := [⟨"b.json", "b", 1⟩] }

private theorem compacts_of_mask (log : List TopicRecord) (mask : List Bool)
    (h : admits TopicRecord.key (fun _ _ => false) [] mask log = true) :
    CompactsTo mayDropNothing log (select mask log) :=
  Compacts.of_admits (fun _ _ => false) (by simp) log mask [] h

/-- Register a dependency and a referrer, then soft-delete the referrer. -/
def referrerOps : List Op :=
  [.register requestTrue, .register requestReferrer, .softDeleteVersion "a" 1]

/-- The restart leaves out the registration that the soft delete supersedes; the id stays indexed
under the key of the schema and its reference. -/
theorem restart_keeps_id_iff_superseded :
    IndexedLast Formats.sample {}
      (select [true, false, true] ((World.start {}).afterAll Formats.sample referrerOps).log) 2
      (StoreState.dedupKey "\x7b\x7d" requestReferrer.references none) := by
  let w := (World.start {}).afterAll Formats.sample referrerOps
  let replayed := select [true, false, true] w.log
  have hstep : Step Formats.sample {} mayDropNothing w (.restarted replayed)
      ⟨w.log, replay Formats.sample ({} : Defaults).state replayed⟩ :=
    .restarted (compacts_of_mask _ [true, false, true] (by decide +kernel))
  obtain ⟨e, reg₀, he, hn, hreg₀, hreq⟩ : Stores
      (replay Formats.sample ({} : Defaults).state replayed) "a" 1 2
      { requestReferrer with subject := "c" } :=
    stores_of_eval (by decide +kernel) (by decide +kernel)
  obtain ⟨recs, hreg⟩ := register_of_answer (F := Formats.sample)
    (replay Formats.sample ({} : Defaults).state replayed)
    { requestReferrer with subject := "c" } ⟨2, 1⟩ (by decide +kernel)
  rw [← hreq] at hreg
  have hiff := restart_keeps_id_iff hstep ⟨e, he, hn, hreg₀⟩ (by decide +kernel) hreg
    (K := StoreState.dedupKey "\x7b\x7d" requestReferrer.references none) (by rw [hreq]; decide +kernel)
  exact hiff.mp rfl

/-! ### A referrer before its dependency -/

/-- Register a dependency and a referrer, then soft-delete the referrer and the dependency. -/
def reorderOps : List Op := referrerOps ++ [.softDeleteVersion "b" 1]

/-- The world after the four operations, and its restart on the two soft deletes, which
supersede the two registrations. -/
def reorderWorld : World := (World.start {}).afterAll Formats.sample reorderOps

def reorderReplay : List TopicRecord := select [false, false, true, true] reorderWorld.log

/-- Version 1 of `a` is bound to id 2 and its reference resolves, before and after the
restart, but registering its schema again gives id 3. -/
theorem lost_id_after_reordering :
    ∃ t w w', Run Formats.sample {} mayDropNothing t w ∧
      (∀ p ∈ t, Live p.2 ∧ Assigns p.1 p.2) ∧
      Step Formats.sample {} mayDropNothing w (.restarted reorderReplay) w' ∧
      Stores w.state "a" 1 2 requestReferrer ∧ Stores w'.state "a" 1 2 requestReferrer ∧
      Resolves w'.state requestReferrer.references ∧
      ∃ recs, Kafkastore.register Formats.sample w'.state requestReferrer = .ok (recs, ⟨3, 2⟩) := by
  have hrun : Run Formats.sample {} mayDropNothing _ reorderWorld :=
    Run.steps (Trace.nil (World.start {})) reorderOps (by decide +kernel)
  have hrestart : Step Formats.sample {} mayDropNothing reorderWorld (.restarted reorderReplay)
      ⟨reorderWorld.log, replay Formats.sample ({} : Defaults).state reorderReplay⟩ :=
    .restarted (compacts_of_mask _ [false, false, true, true] (by decide +kernel))
  refine ⟨_, reorderWorld, _, hrun, by decide +kernel, hrestart, ?_, ?_, ?_, ?_⟩
  · exact stores_of_eval (by decide +kernel) (by decide +kernel)
  · exact stores_of_eval (by decide +kernel) (by decide +kernel)
  · exact ⟨[⟨"b.json", .json, "true"⟩], by decide +kernel⟩
  · exact register_of_answer _ _ _ (by decide +kernel)

end KrabkaRegistry.Guarantees
