import KrabkaRegistry.Store.Closure
import KrabkaRegistry.Kafkastore.Run
import KrabkaRegistry.Guarantees.Ids

/-!
# References of Live Versions

A delete is refused while a live version refers to the deleted one directly.  A closure also
runs through soft-deleted versions, which protect nothing.

- `live_references_resolve`: in a run whose permanent deletes remove no version that a live
  one leads to, the references of every live version resolve.
- `dangling_after_chain` is a run in which a chain through a soft-deleted version is cut.
-/

namespace KrabkaRegistry.Guarantees

open KrabkaRegistry.Format (Formats)
open KrabkaRegistry.Kafkastore
open KrabkaRegistry.Library (Trace)
open KrabkaRegistry.Library.DepthFirst
open KrabkaRegistry.Store

variable {F : Formats} {d : Defaults} {mayDrop : List TopicRecord → TopicRecord → Prop}
  {st st' : StoreState} {s : String}

/-! ## What a subject depends on -/

/-- `s` has a live version whose references lead to `u`. -/
def Depends (st : StoreState) (s : String) (u : String × SchemaVersion) : Prop :=
  ∃ v e reg, entryOf st s v = some e ∧ e.deleted = false ∧ st.byId[e.id]? = some reg ∧
    Reach (graph st) reg.references u

/-- Everything that `s` depends on is stored. -/
def Supported (st : StoreState) (s : String) : Prop :=
  ∀ u, Depends st s u → contentAt st u ≠ none

/-- The references of every live version of `s` have a closure. -/
def LiveResolves (st : StoreState) (s : String) : Prop :=
  ∀ v found, st.version s (some v) false = some found → Resolves st found.references

theorem version_live (hwf : WellFormed st) {v : SchemaVersion} {found : VersionedSchema}
    (h : st.version s (some v) false = some found) :
    ∃ e reg, entryOf st s v = some e ∧ e.deleted = false ∧ st.byId[e.id]? = some reg ∧
      found = ⟨e.id, e.version, reg.ty, reg.schema, reg.references, reg.messageType,
        reg.extra⟩ := by
  rw [version_some hwf] at h
  obtain ⟨e, he, hmap⟩ := Option.bind_eq_some_iff.mp h
  obtain ⟨he, hlive⟩ := Option.filter_eq_some_iff.mp he
  obtain ⟨reg, hreg, rfl⟩ := Option.map_eq_some_iff.mp hmap
  exact ⟨e, reg, he, by simpa using hlive, hreg, rfl⟩

theorem Supported.liveResolves (h : Supported st s) (hwf : WellFormed st) : LiveResolves st s := by
  intro v found hfound
  obtain ⟨e, reg, he, hlive, hreg, rfl⟩ := version_live hwf hfound
  rw [resolves_iff]
  intro u hu
  exact h u ⟨v, e, reg, he, hlive, hreg, hu⟩

/-- The references of one live version resolve. -/
theorem Supported.resolves (h : Supported st s) {v : SchemaVersion} {e : VersionEntry}
    {reg : RegisteredSchema} (he : entryOf st s v = some e) (hlive : e.deleted = false)
    (hreg : st.byId[e.id]? = some reg) : Resolves st reg.references := by
  rw [resolves_iff]
  exact fun u hu => h u ⟨v, e, reg, he, hlive, hreg, hu⟩

/-! ## Steps that bind nothing -/

/-- `st'` has the contents of `st` and, of its versions, some that are as live as before or
less. -/
structure Unbinds (st st' : StoreState) : Prop where
  byId : ∀ n : SchemaId, st'.byId[n]? = st.byId[n]?
  entry : ∀ {s v e'}, entryOf st' s v = some e' →
    ∃ e, entryOf st s v = some e ∧ e.id = e'.id ∧ (e'.deleted = false → e.deleted = false)

theorem Unbinds.refl (st : StoreState) : Unbinds st st :=
  ⟨fun _ => rfl, fun he => ⟨_, he, rfl, id⟩⟩

theorem Unbinds.trans {st'' : StoreState} (h : Unbinds st st') (h' : Unbinds st' st'') :
    Unbinds st st'' := by
  refine ⟨fun n => (h'.byId n).trans (h.byId n), fun he => ?_⟩
  obtain ⟨e', he', hid', hdel'⟩ := h'.entry he
  obtain ⟨e, he, hid, hdel⟩ := h.entry he'
  exact ⟨e, he, hid.trans hid', fun hl => hdel (hdel' hl)⟩

theorem Unbinds.contentAt {u : String × SchemaVersion} {reg : RegisteredSchema}
    (h : Unbinds st st') (hc : contentAt st' u = some reg) : contentAt st u = some reg := by
  obtain ⟨t, v⟩ := u
  rw [contentAt_eq] at hc ⊢
  obtain ⟨e', he', hreg⟩ := Option.bind_eq_some_iff.mp hc
  obtain ⟨e, he, hid, _⟩ := h.entry he'
  rw [he, Option.bind_some, hid, ← h.byId]
  exact hreg

theorem Unbinds.reach {refs : List SchemaReference} {u : String × SchemaVersion}
    (h : Unbinds st st') (hr : Reach (graph st') refs u) : Reach (graph st) refs u := by
  refine hr.closed (fun r hmem => .direct (G := graph st) hmem) ?_
  intro v es' r hv hn hmem
  obtain ⟨reg, hreg, rfl⟩ := Option.map_eq_some_iff.mp hn
  have hnext : (graph st).next v = some reg.references := by
    simp [graph, h.contentAt hreg]
  exact Reach.step (G := graph st) hv hnext hmem

theorem Unbinds.depends {u : String × SchemaVersion} (h : Unbinds st st')
    (hu : Depends st' s u) : Depends st s u := by
  obtain ⟨v, e', reg, he', hlive, hreg, hreach⟩ := hu
  obtain ⟨e, he, hid, hdel⟩ := h.entry he'
  refine ⟨v, e, reg, he, hdel hlive, ?_, h.reach hreach⟩
  rw [hid, ← h.byId]
  exact hreg

theorem unbinds_record (hwf : WellFormed st) {r : TopicRecord}
    (hr : schemaValue? r = none) : Unbinds st (applyTopicRecord F st r) := by
  refine ⟨fun n => by rw [byId_applyTopicRecord, hr], ?_⟩
  intro s v e' he'
  rw [entryOf_applyTopicRecord hwf] at he'
  cases r with
  | schema k value =>
    cases value with
    | some value => simp at hr
    | none =>
      simp only [entryStep] at he'
      split at he'
      · cases he'
      · exact ⟨e', he', rfl, id⟩
  | deleteSubject t value =>
    cases value with
    | none => exact ⟨e', he', rfl, id⟩
    | some m =>
      simp only [entryStep] at he'
      split at he'
      · obtain ⟨e, he, rfl⟩ := Option.map_eq_some_iff.mp he'
        exact ⟨e, he, rfl, by simp⟩
      · exact ⟨e', he', rfl, id⟩
  | config | mode | versionHighWater | barrier => exact ⟨e', he', rfl, id⟩

/-- Only a tombstone removes content. -/
private theorem contentAt_record (hwf : WellFormed st) {r : TopicRecord}
    (hr : schemaValue? r = none) {u : String × SchemaVersion}
    (hu : r ≠ encodeTombstone u.1 u.2) (hc : contentAt st u ≠ none) :
    contentAt (applyTopicRecord F st r) u ≠ none := by
  obtain ⟨t, v⟩ := u
  have hbyId : ∀ n : SchemaId, (applyTopicRecord F st r).byId[n]? = st.byId[n]? := by
    intro n
    rw [byId_applyTopicRecord, hr]
  rw [contentAt_eq] at hc ⊢
  simp only [hbyId]
  rw [entryOf_applyTopicRecord hwf]
  cases r with
  | schema k value =>
    cases value with
    | some value => simp at hr
    | none =>
      have hk : k ≠ ⟨t, v⟩ := fun hk => hu (by rw [hk]; rfl)
      simpa [entryStep, hk] using hc
  | deleteSubject s' value =>
    cases value with
    | none => exact hc
    | some m =>
      simp only [entryStep]
      split
      -- The flag changes, the id does not.
      · cases he : entryOf st t v with
        | none => simp [he] at hc
        | some e => simpa [he] using hc
      · exact hc
  | config | mode | versionHighWater | barrier => exact hc

/-- Records that bind nothing and remove nothing that `s` depends on. -/
theorem supported_unbinding {recs : List TopicRecord} (hwf : WellFormed st)
    (hplain : ∀ r ∈ recs, schemaValue? r = none)
    (hspare : ∀ t v, encodeTombstone t v ∈ recs → ¬ Depends st s (t, v))
    (h : Supported st s) :
    Unbinds st (replay F st recs) ∧ Supported (replay F st recs) s := by
  induction recs generalizing st with
  | nil => exact ⟨.refl st, h⟩
  | cons r recs ih =>
    have hr : schemaValue? r = none := hplain r List.mem_cons_self
    have hunbind := unbinds_record (F := F) hwf hr
    have hsupp : Supported (applyTopicRecord F st r) s := by
      intro u hu
      have hu' := hunbind.depends hu
      refine contentAt_record hwf hr ?_ (h u hu')
      rintro rfl
      exact hspare u.1 u.2 List.mem_cons_self hu'
    -- Dependencies only shrink, so what was spared at the start is spared later on.
    obtain ⟨hrest, hsupp'⟩ := ih (applyTopicRecord_wellFormed hwf r)
      (fun r' hr' => hplain r' (List.mem_cons_of_mem _ hr'))
      (fun t v hmem hdep => hspare t v (List.mem_cons_of_mem _ hmem) (hunbind.depends hdep)) hsupp
    exact ⟨hunbind.trans hrest, hsupp'⟩

theorem unbinds_softDelete (hwf : WellFormed st) {t : String} {v : SchemaVersion}
    {e : VersionEntry} {reg : RegisteredSchema} (he : entryOf st t v = some e)
    (hreg : st.byId[e.id]? = some reg) :
    Unbinds st (applyTopicRecord F st (deletedRecord t v e.id reg)) := by
  refine ⟨byId_deletedRecord hreg, ?_⟩
  intro s' v' e' he'
  rw [entryOf_deletedRecord hwf] at he'
  split at he'
  · rename_i heq
    obtain ⟨rfl, rfl⟩ := heq
    obtain rfl : _ = e' := by simpa using he'
    exact ⟨e, he, rfl, by simp⟩
  · exact ⟨e', he', rfl, id⟩

theorem supported_softDelete (hwf : WellFormed st) {t : String} {v : SchemaVersion}
    {e : VersionEntry} {reg : RegisteredSchema} (he : entryOf st t v = some e)
    (hreg : st.byId[e.id]? = some reg) (h : Supported st s) :
    Supported (applyTopicRecord F st (deletedRecord t v e.id reg)) s := by
  intro u hu
  have hc := h u ((unbinds_softDelete hwf he hreg).depends hu)
  obtain ⟨t', v'⟩ := u
  rw [contentAt_eq] at hc ⊢
  simp only [byId_deletedRecord hreg]
  rw [entryOf_deletedRecord hwf]
  split
  · simp [hreg]
  · exact hc

/-! ## Registrations -/

/-- Registering the identity `key` replaces the content of version `u` by another one. -/
def Rewrites (st : StoreState) (req : RegisterSchema) (text key : String)
    (u : String × SchemaVersion) : Prop :=
  (u = (req.subject, (decision st req.subject key).version) ∨
      (entryOf st u.1 u.2).map (·.id) = some (decision st req.subject key).id) ∧
    contentAt st u ≠ none ∧ contentAt st u ≠ some (requestContent req text)

section Register

variable {req : RegisterSchema} {text : String} {reg : Registered}

/-- The content of a version after a registration is the request's, or the old one. -/
theorem contentAt_register (hwf : WellFormed st) (u : String × SchemaVersion) :
    contentAt (applyTopicRecord F st (req.record text reg)) u =
      if u = (req.subject, reg.version) ∨ (entryOf st u.1 u.2).map (·.id) = some reg.id then
        some (requestContent req text)
      else contentAt st u := by
  rw [contentAt_schema hwf (schemaValue?_record req text reg), contentOf_recordValue]
  rfl

/-- New paths lead where old ones did, or where the request's references did. -/
theorem reach_register (hwf : WellFormed st) {refs : List SchemaReference}
    {u : String × SchemaVersion}
    (h : Reach (graph (applyTopicRecord F st (req.record text reg))) refs u) :
    Reach (graph st) refs u ∨ Reach (graph st) req.references u := by
  have hstart : ∀ r ∈ refs, Reach (graph st) refs (r.subject, r.version) ∨
      Reach (graph st) req.references (r.subject, r.version) := fun r hmem =>
    .inl (.direct (G := graph st) hmem)
  refine h.closed (P := fun u => Reach (graph st) refs u ∨ Reach (graph st) req.references u)
    hstart ?_
  intro v es' r hv hn hmem
  obtain ⟨content, hcontent, rfl⟩ := Option.map_eq_some_iff.mp hn
  rw [contentAt_register hwf] at hcontent
  split at hcontent
  · obtain rfl : _ = content := by simpa using hcontent
    exact .inr (.direct (G := graph st) hmem)
  · have hnext : (graph st).next v = some content.references := by simp [graph, hcontent]
    rcases hv with hv | hv
    · exact .inl (Reach.step (G := graph st) hv hnext hmem)
    · exact .inr (Reach.step (G := graph st) hv hnext hmem)

theorem depends_register (hwf : WellFormed st) {u : String × SchemaVersion}
    (h : Depends (applyTopicRecord F st (req.record text reg)) s u) :
    Depends st s u ∨ Reach (graph st) req.references u := by
  obtain ⟨v, e, content, he, hlive, hcontent, hreach⟩ := h
  rw [byId_record] at hcontent
  split at hcontent
  -- The version reads the request's content, so it refers to what the request does.
  · obtain rfl : _ = content := by simpa using hcontent
    exact .inr ((reach_register hwf hreach).elim id id)
  · rename_i hid
    rcases reach_register hwf hreach with hreach | hreach
    · refine .inl ⟨v, e, content, ?_, hlive, hcontent, hreach⟩
      rw [entryOf_record hwf] at he
      split at he
      · obtain rfl : _ = e := by simpa using he
        exact absurd rfl hid
      · exact he
    · exact .inr hreach

theorem supported_register (hwf : WellFormed st) {resolved : List ResolvedReference} {key : String}
    (hreads : Reads F st req resolved text key) (h : Supported st s) :
    Supported (applyTopicRecord F st (req.record text reg)) s := by
  intro u hu
  have hc : contentAt st u ≠ none := by
    rcases depends_register hwf hu with hu | hu
    · exact h u hu
    · exact (resolves_iff st req.references).mp ⟨resolved, hreads.closure⟩ u hu
  rw [contentAt_register hwf]
  split
  · simp
  · exact hc

end Register

/-! ## Runs -/

/-- The step removes no version for good that `s` depends on. -/
def Spares (s : String) (w : World) (l : Event) : Prop :=
  ∀ op, l.op? = some op → ∀ t v, op.PermanentlyDeletes t v → ¬ Depends w.state s (t, v)

theorem supported_effect {w w' : World} {l : Event} (hwf : WellFormed w.state)
    (heffect : Effect F w l w') (hspares : Spares s w l) (h : Supported w.state s) :
    Supported w'.state s := by
  cases heffect with
  | registered _ hreads _ _ _ => exact supported_register hwf hreads h
  | softDeleted he hreg => exact supported_softDelete hwf he hreg h
  | unbinding hplain htomb =>
    refine (supported_unbinding hwf hplain ?_ h).2
    intro t v hmem
    obtain ⟨op, hop, hpurge⟩ := htomb t v hmem
    exact hspares op hop t v hpurge

/-- In a run that spares the dependencies of `s`, all of them stay. -/
theorem run_supported {t : List (World × Event)} {w : World} (h : Run F d mayDrop t w)
    (hlive : ∀ p ∈ t, Live p.2 ∧ Assigns p.1 p.2) (hspares : ∀ p ∈ t, Spares s p.1 p.2) :
    Supported w.state s := by
  have hstart : Supported d.state s := by
    rintro u ⟨v, e, reg, he, _⟩
    simp [Defaults.state] at he
  have hrun : Consistent F w.state ∧ Supported w.state s :=
    Trace.invariant (I := fun w => Consistent F w.state ∧ Supported w.state s)
      (C := fun w l => (Live l ∧ Assigns w l) ∧ Spares s w l) ⟨d.state_consistent F, hstart⟩
      (fun w₁ l w₂ hC hs hi => ⟨hs.consistent hi.1,
        supported_effect hi.1.wellFormed (hs.effect hi.1 hC.1.1 hC.1.2) hC.2 hi.2⟩)
      h fun p hp => ⟨hlive p hp, hspares p hp⟩
  exact hrun.2

/-- In a run without restarts and imports whose permanent deletes remove no version that a
live one leads to, the references of every live version resolve. -/
theorem live_references_resolve {t : List (World × Event)} {w : World}
    (h : Run F d mayDrop t w) (hlive : ∀ p ∈ t, Live p.2 ∧ Assigns p.1 p.2)
    (hspares : ∀ p ∈ t, ∀ s, Spares s p.1 p.2) : ∀ s, LiveResolves w.state s := by
  intro s
  have hsupp : Supported w.state s := run_supported h hlive fun p hp => hspares p hp s
  exact hsupp.liveResolves (Run.consistent h).wellFormed

/-! ### A chain through a soft-deleted version -/

/-- Three schemas: `b` refers to `a`, and `c` refers to `b`. -/
def requestMiddle : RegisterSchema :=
  { subject := "b", ty := .json, schema := "true", references := [⟨"a.json", "a", 1⟩] }

def requestOuter : RegisterSchema :=
  { subject := "c", ty := .json, schema := "true", references := [⟨"b.json", "b", 1⟩] }

/-- `b` is soft-deleted before `c` refers to it, and then `a` is deleted for good. -/
def chainOps : List Op :=
  [.register requestEmpty, .register requestMiddle, .softDeleteVersion "b" 1,
   .register requestOuter, .softDeleteVersion "a" 1, .permanentDeleteVersion "a" 1]

/-- `c` is live, and its references have no closure. -/
theorem dangling_after_chain :
    ∃ t w, Run Formats.sample {} mayDropNothing t w ∧
      (∀ p ∈ t, Live p.2 ∧ Assigns p.1 p.2) ∧ ¬ LiveResolves w.state "c" := by
  have hrun : Run Formats.sample {} mayDropNothing _
      ((World.start {}).afterAll Formats.sample chainOps) :=
    Run.steps (Trace.nil (World.start {})) chainOps (by decide +kernel)
  refine ⟨_, _, hrun, by decide +kernel, ?_⟩
  intro hlive
  obtain ⟨found, hfound, hrefs⟩ : ∃ found,
      ((World.start {}).afterAll Formats.sample chainOps).state.version "c" (some 1) false =
        some found ∧ found.references = requestOuter.references :=
    Option.map_eq_some_iff.mp (show Option.map VersionedSchema.references _ = some _ by
      decide +kernel)
  obtain ⟨out, hout⟩ := hlive 1 found hfound
  rw [hrefs] at hout
  have herror : (((World.start {}).afterAll Formats.sample chainOps).state.resolveClosure
      requestOuter.references).isOk = false := by decide +kernel
  rw [hout] at herror
  cases herror

/-- Without the permanent delete the closure of `c` runs through `b` to `a`. -/
theorem live_references_resolve_chain :
    ∃ w, (∀ s, LiveResolves w.state s) ∧
      w = (World.start {}).afterAll Formats.sample (chainOps.take 5) := by
  have hrun : Run Formats.sample {} mayDropNothing _
      ((World.start {}).afterAll Formats.sample (chainOps.take 5)) :=
    Run.steps (Trace.nil (World.start {})) (chainOps.take 5) (by decide +kernel)
  refine ⟨_, live_references_resolve hrun (by decide +kernel) ?_, rfl⟩
  -- None of the five operations purges anything.
  intro p hp s op hop t v hpurge
  obtain ⟨op', hmem, hp'⟩ := World.mem_steps hp
  obtain rfl : op' = op := by simpa [hp', Event.op?] using hop
  have hnone : ∀ op ∈ chainOps.take 5, ¬ op.PermanentlyDeletes t v := by
    simp [chainOps, Op.PermanentlyDeletes]
  exact absurd hpurge (hnone op' hmem)

end KrabkaRegistry.Guarantees
