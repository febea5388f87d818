import KrabkaRegistry.Guarantees.References

/-!
# Live Histories Under a Transitive Level

A registration is checked as the newer schema against every live version of its subject.
Registering a soft-deleted schema brings its old version number back, which may be lower than
that of a live version it was only checked against the other way round.

- `live_history_compatible`: in a run that brings back only versions above all live ones,
  rewrites no content the subject uses and purges nothing it depends on, every two live
  versions are compatible in the order of their numbers.
- `incompatible_after_resurrection` is a run in which an old number comes back.
-/

namespace KrabkaRegistry.Guarantees

open KrabkaRegistry.Compat
open KrabkaRegistry.Format (Formats)
open KrabkaRegistry.Kafkastore
open KrabkaRegistry.Library (Trace)
open KrabkaRegistry.Library.DepthFirst
open KrabkaRegistry.Store

variable {F : Formats} {d : Defaults} {mayDrop : List TopicRecord → TopicRecord → Prop}
  {st st' : StoreState} {s : String} {level : CompatibilityLevel}

/-! ## Compatible histories -/

/-- The closure that a stored version is checked with. -/
def closureOf (st : StoreState) (refs : List SchemaReference) : List ResolvedReference :=
  (st.resolveClosure refs).toOption.getD []

/-- Of two live versions the later number passes the check as the newer schema. -/
def HistoryCompatible (F : Formats) (level : CompatibilityLevel) (st : StoreState) (s : String) :
    Prop :=
  ∀ i j older newer, st.version s (some i) false = some older →
    st.version s (some j) false = some newer → i < j → ∀ dir ∈ level.directions,
    checkDirection F newer.ty newer.schema (closureOf st newer.references) older.schema
      (closureOf st older.references) dir = .ok ()

/-- Version `v` of `s` is live and stores `reg`. -/
def LiveAt (st : StoreState) (s : String) (v : SchemaVersion) (reg : RegisteredSchema) : Prop :=
  ∃ e, entryOf st s v = some e ∧ e.deleted = false ∧ st.byId[e.id]? = some reg

/-- `reg` as the newer schema passes the check against `reg'`. -/
def Passes (F : Formats) (level : CompatibilityLevel) (st : StoreState)
    (reg reg' : RegisteredSchema) : Prop :=
  ∀ dir ∈ level.directions, checkDirection F reg.ty reg.schema (closureOf st reg.references)
    reg'.schema (closureOf st reg'.references) dir = .ok ()

/-- The same history in terms of stored contents. -/
def Ordered (F : Formats) (level : CompatibilityLevel) (st : StoreState) (s : String) : Prop :=
  ∀ i j older newer, LiveAt st s i older → LiveAt st s j newer → i < j →
    Passes F level st newer older

theorem Ordered.historyCompatible (h : Ordered F level st s) (hwf : WellFormed st) :
    HistoryCompatible F level st s := by
  intro i j older newer hi hj hlt
  obtain ⟨e, reg, he, hlive, hreg, rfl⟩ := version_live hwf hi
  obtain ⟨e', reg', he', hlive', hreg', rfl⟩ := version_live hwf hj
  exact h i j reg reg' ⟨e, he, hlive, hreg⟩ ⟨e', he', hlive', hreg'⟩ hlt

theorem LiveAt.contentAt {v : SchemaVersion} {reg : RegisteredSchema} (h : LiveAt st s v reg) :
    contentAt st (s, v) = some reg := by
  obtain ⟨e, he, _, hreg⟩ := h
  rw [contentAt_eq, he, Option.bind_some, hreg]

theorem LiveAt.depends {v : SchemaVersion} {reg : RegisteredSchema} (h : LiveAt st s v reg)
    {u : String × SchemaVersion} (hu : Reach (graph st) reg.references u) : Depends st s u := by
  obtain ⟨e, he, hlive, hreg⟩ := h
  exact ⟨v, e, reg, he, hlive, hreg, hu⟩

theorem LiveAt.resolves {v : SchemaVersion} {reg : RegisteredSchema} (h : LiveAt st s v reg)
    (hsupp : Supported st s) : Resolves st reg.references := by
  obtain ⟨e, he, hlive, hreg⟩ := h
  exact hsupp.resolves he hlive hreg

theorem Passes.congr {reg reg' : RegisteredSchema} (h : Passes F level st reg reg')
    (hreg : closureOf st' reg.references = closureOf st reg.references)
    (hreg' : closureOf st' reg'.references = closureOf st reg'.references) :
    Passes F level st' reg reg' := by
  intro dir hdir
  rw [hreg, hreg']
  exact h dir hdir

/-! ## Steps that bind nothing -/

theorem ordered_unbinding (hunbind : Unbinds st st') (hsupp : Supported st' s)
    (h : Ordered F level st s) : Ordered F level st' s := by
  have hold : ∀ {v reg}, LiveAt st' s v reg → LiveAt st s v reg := by
    rintro v reg ⟨e', he', hlive', hreg⟩
    obtain ⟨e, he, hid, hlive⟩ := hunbind.entry he'
    exact ⟨e, he, hlive hlive', by rw [hid, ← hunbind.byId]; exact hreg⟩
  have hclosure : ∀ {v reg}, LiveAt st' s v reg →
      closureOf st' reg.references = closureOf st reg.references := by
    intro v reg hreg
    unfold closureOf
    rw [(hreg.resolves hsupp).congr fun u content _ hc => hunbind.contentAt hc]
  intro i j older newer hi hj hlt
  exact (h i j older newer (hold hi) (hold hj) hlt).congr (hclosure hj) (hclosure hi)

/-! ## What a registration was checked against -/

theorem mem_versionsSchemas {v : SchemaVersion} {reg : RegisteredSchema}
    (h : LiveAt st s v reg) : (reg.ty, reg.schema, reg.references) ∈ st.versionsSchemas s := by
  obtain ⟨e, he, hlive, hreg⟩ := h
  unfold StoreState.versionsSchemas
  cases hs : st.subjects[s]? with
  | none => simp [entryOf, entries, hs] at he
  | some l =>
    have hmem : e ∈ l := by
      have hfind : findVersion v l = some e := by simpa [entryOf, entries, hs] using he
      exact (findVersion_some hfind).1
    refine List.mem_filterMap.mpr ⟨e, ?_, ?_⟩
    · simp [hmem, hlive]
    · simp [hreg]

/-- Under a transitive level a registration was checked against every live version. -/
theorem checkRegistration_ok {ty : SchemaType} {candidate : String}
    {resolved : List ResolvedReference} (hlevel : effectiveLevel st s = level)
    (htrans : level.isTransitive = true)
    (h : checkRegistration F st s ty candidate resolved = .ok ()) {v : SchemaVersion}
    {reg : RegisteredSchema} (hv : LiveAt st s v reg) :
    ∀ dir ∈ level.directions, checkDirection F ty candidate resolved reg.schema
      (closureOf st reg.references) dir = .ok () := by
  unfold checkRegistration at h
  simp only [hlevel, targets, htrans, if_true] at h
  split at h
  · rename_i hempty
    simp [List.isEmpty_iff.mp hempty]
  · split at h
    · rename_i hmessages
      have hnil := List.flatMap_eq_nil_iff.mp (List.isEmpty_iff.mp hmessages) _
        (mem_versionsSchemas hv)
      exact checkPair_eq_nil_iff.mp hnil
    · cases h

/-! ## Version numbers stay in range -/

/-- No version and no version counter is above the 32-bit maximum. -/
structure Bounded (st : StoreState) : Prop where
  entry : ∀ {s v e}, entryOf st s v = some e → v ≤ i32Max
  counter : ∀ {s : String} {n : SchemaVersion}, st.nextVersions[s]? = some n → n ≤ i32Max

theorem Bounded.nextVersion (h : Bounded st) (s : String) : st.nextVersion s ≤ i32Max := by
  unfold StoreState.nextVersion
  cases hn : st.nextVersions[s]? with
  | none => decide
  | some n => exact h.counter hn

/-- A version is not above the next version of its subject. -/
theorem Bounded.le_nextVersion (h : Bounded st) (hst : Consistent F st) {v : SchemaVersion}
    {e : VersionEntry} (he : entryOf st s v = some e) : v ≤ st.nextVersion s := by
  obtain ⟨n, hn, hle⟩ := hst.entry_counted he
  have hnext : st.nextVersion s = n := by simp [StoreState.nextVersion, hn]
  have hv := h.entry he
  rw [hnext]
  unfold saturatingSucc at hle
  rcases min_le_iff.mp hle with hle | hle
  · exact (Int.lt_add_one_of_le (le_refl v)).le.trans hle
  · exact hv.trans hle

private theorem raise_le {n : Option SchemaVersion} {b : Option SchemaVersion}
    (hn : ∀ m, n = some m → m ≤ i32Max) (hb : ∀ m, b = some m → m ≤ i32Max) :
    ∀ m, raise n b = some m → m ≤ i32Max := by
  intro m hm
  cases n with
  | none =>
    cases b with
    | none => simp [raise] at hm
    | some b => exact hb m (by simpa [raise] using hm)
  | some n =>
    cases b with
    | none => exact hn m (by simpa [raise] using hm)
    | some b =>
      obtain rfl : max n b = m := by simpa [raise] using hm
      exact max_le (hn n rfl) (hb b rfl)

theorem saturatingSucc_le (v : SchemaVersion) : saturatingSucc v ≤ i32Max := min_le_right _ _

/-- One more record, if it binds and announces only versions in range. The successor that a binding
leaves as a mark saturates, so it is in range as well. -/
private theorem bounded_record (hwf : WellFormed st) {r : TopicRecord} (h : Bounded st)
    (hvalue : ∀ value, schemaValue? r = some value → value.version ≤ i32Max)
    (hmark : ∀ t n, r = .versionHighWater t (some n) → n ≤ i32Max) :
    Bounded (applyTopicRecord F st r) := by
  constructor
  -- The versions that are bound: only a schema record binds a new one.
  · intro s v e he
    rw [entryOf_applyTopicRecord hwf] at he
    cases r with
    | schema k value =>
      cases value with
      | some value =>
        simp only [entryStep] at he
        split at he
        · rename_i hv
          rw [← hv.2]
          exact hvalue value rfl
        · exact h.entry he
      | none =>
        simp only [entryStep] at he
        split at he
        · cases he
        · exact h.entry he
    | deleteSubject t value =>
      cases value with
      | none => exact h.entry he
      | some m =>
        simp only [entryStep] at he
        split at he
        · obtain ⟨e', he', _⟩ := Option.map_eq_some_iff.mp he
          exact h.entry he'
        · exact h.entry he
    | config | mode | versionHighWater | barrier => exact h.entry he
  -- The marks: a bid is a saturating successor or the number of a mark.
  · intro s n hn
    rw [nextVersions_applyTopicRecord] at hn
    refine raise_le (fun m hm => h.counter hm) ?_ n hn
    intro m hm
    cases r with
    | schema k value =>
      cases value with
      | some value =>
        simp only [bid] at hm
        split at hm
        · obtain rfl : saturatingSucc value.version = m := by simpa using hm
          exact saturatingSucc_le _
        · cases hm
      | none =>
        simp only [bid] at hm
        split at hm
        · obtain rfl : saturatingSucc k.version = m := by simpa using hm
          exact saturatingSucc_le _
        · cases hm
    | versionHighWater t value =>
      cases value with
      | none => simp [bid] at hm
      | some n =>
        simp only [bid] at hm
        split at hm
        · obtain rfl : n = m := by simpa using hm
          exact hmark t n rfl
        · cases hm
    | config | mode | deleteSubject | barrier => simp [bid] at hm

/-- A decided version is in range. -/
theorem Bounded.decided (h : Bounded st) {key : String} {reg : Registered}
    (hst : Consistent F st) (hdec : Decides st s key reg) : reg.version ≤ i32Max := by
  cases hdec with
  | existing _ hfind hv =>
    rw [← hv]
    have hmem := List.mem_of_find?_eq_some hfind
    exact h.entry ((hst.wellFormed.increasing s).findVersion_eq hmem)
  | reused _ _ hv => rw [hv]; exact h.nextVersion s
  | fresh _ _ _ hv => rw [hv]; exact h.nextVersion s

private theorem bounded_emits {w : World} {r : TopicRecord} (he : Emits F false w r)
    (hw : Consistent F w.state ∧ Bounded w.state) :
    Consistent F (w.append F [r]).state ∧ Bounded (w.append F [r]).state := by
  obtain ⟨hst, hb⟩ := hw
  refine ⟨append_consistent hst [r], bounded_record hst.wellFormed hb ?_ ?_⟩
  · intro value hv
    cases he with
    | registered _ _ _ _ hdec =>
      obtain rfl : recordValue _ _ _ = value := by simpa using hv
      exact hb.decided hst hdec
    | imported himp => cases himp
    | softDeleted hentry _ =>
      obtain rfl : _ = value := Option.some.inj hv
      exact hb.entry hentry
    | subjectDeleted | marked | purged | leveled | moded | barrier => cases hv
  · rintro t n rfl
    cases he with
    | marked => exact hb.nextVersion t

/-! ## Registrations -/

/-- Version `u` is live in `s`, or one of its live versions leads to it, or the request will
once it is registered there. -/
def InUse (st : StoreState) (s : String) (req : RegisterSchema) (u : String × SchemaVersion) :
    Prop :=
  (u.1 = s ∧ ∃ reg, LiveAt st s u.2 reg) ∨ Depends st s u ∨
    (req.subject = s ∧ Reach (graph st) req.references u)

/-- The registration brings no version back below a live one, and rewrites nothing that is in
use. -/
structure InOrder (st : StoreState) (s : String) (req : RegisterSchema) (text key : String) :
    Prop where
  above : req.subject = s → ∀ reg, st.findUnderSubjectCanonical s key true = some reg →
    ∀ v content, LiveAt st s v content → v < reg.version
  keeps : ∀ u, Rewrites st req text key u → ¬ InUse st s req u

section Register

variable {req : RegisterSchema} {resolved : List ResolvedReference} {text key : String}
  {reg : Registered}

/-- What is in use keeps its content. -/
private theorem contentAt_inUse (hwf : WellFormed st) (hdec : Decides st req.subject key reg)
    (horder : InOrder st s req text key) {u : String × SchemaVersion} (hu : InUse st s req u)
    (hstored : contentAt st u ≠ none) :
    contentAt (applyTopicRecord F st (req.record text reg)) u = contentAt st u := by
  rw [contentAt_register hwf]
  split
  · rename_i hwrite
    by_contra hne
    refine horder.keeps u ⟨?_, hstored, fun h => hne h.symm⟩ hu
    rwa [← hdec.eq_decision]
  · rfl

private theorem closureOf_register (hwf : WellFormed st) (hdec : Decides st req.subject key reg)
    (horder : InOrder st s req text key) {refs : List SchemaReference} (hres : Resolves st refs)
    (huse : ∀ u, Reach (graph st) refs u → InUse st s req u) :
    closureOf (applyTopicRecord F st (req.record text reg)) refs = closureOf st refs := by
  unfold closureOf
  rw [hres.congr fun u content hu hc => ?_]
  rw [contentAt_inUse hwf hdec horder (huse u hu) (by simp [hc]), hc]

/-- The live versions of `s` after a registration: the new one, or those of before. -/
private theorem liveAt_register (hwf : WellFormed st) (hdec : Decides st req.subject key reg)
    (horder : InOrder st s req text key) (hst : Consistent F st) {v : SchemaVersion}
    {content : RegisteredSchema}
    (h : LiveAt (applyTopicRecord F st (req.record text reg)) s v content) :
    (req.subject = s ∧ v = reg.version ∧ content = requestContent req text) ∨
      LiveAt st s v content := by
  have hcontent := h.contentAt
  obtain ⟨e, he, hlive, hreg⟩ := h
  rw [entryOf_record hwf] at he
  split at he
  · rename_i htarget
    obtain ⟨rfl, rfl⟩ := htarget
    refine .inl ⟨rfl, rfl, ?_⟩
    rw [contentAt_register hwf] at hcontent
    simpa using hcontent.symm
  -- Another version: it was live before, so it is in use and keeps its content.
  · obtain ⟨old, hold⟩ := hst.entry_stored he
    have hbefore : LiveAt st s v old := ⟨e, he, hlive, hold⟩
    have hsame := contentAt_inUse (F := F) hwf hdec horder (u := (s, v))
      (.inl ⟨rfl, old, hbefore⟩) (by simp [hbefore.contentAt])
    rw [hsame, hbefore.contentAt] at hcontent
    obtain rfl : old = content := by simpa using hcontent
    exact .inr hbefore

/-- A registration in order gets a number above all live versions. -/
private theorem le_decided (hst : Consistent F st) (hb : Bounded st)
    (hdec : Decides st req.subject key reg) (horder : InOrder st s req text key)
    (hs : req.subject = s) {v : SchemaVersion} {content : RegisteredSchema}
    (h : LiveAt st s v content) : v ≤ reg.version := by
  subst hs
  have hnext : v ≤ st.nextVersion req.subject := by
    obtain ⟨e, he, _, _⟩ := h
    exact hb.le_nextVersion hst he
  cases hdec with
  | existing hid hfind hv =>
    refine (horder.above rfl reg ?_ v content h).le
    rw [findUnderSubjectCanonical_eq, hid]
    simp [hfind, hv]
  | reused _ _ hv => rw [hv]; exact hnext
  | fresh _ _ _ hv => rw [hv]; exact hnext

theorem ordered_register (hst : Consistent F st) (hb : Bounded st) (hsupp : Supported st s)
    (htrans : level.isTransitive = true)
    (hlevel : req.subject = s → effectiveLevel st s = level)
    (hreads : Reads F st req resolved text key)
    (hcheck : checkRegistration F st req.subject req.ty text resolved = .ok ())
    (hdec : Decides st req.subject key reg) (horder : InOrder st s req text key)
    (h : Ordered F level st s) :
    Ordered F level (applyTopicRecord F st (req.record text reg)) s := by
  have hwf := hst.wellFormed
  have hclosure : ∀ {v content}, LiveAt st s v content →
      closureOf (applyTopicRecord F st (req.record text reg)) content.references =
        closureOf st content.references := by
    intro v content hv
    exact closureOf_register hwf hdec horder (hv.resolves hsupp) fun u hu =>
      .inr (.inl (hv.depends hu))
  have hrequest : req.subject = s →
      closureOf (applyTopicRecord F st (req.record text reg)) req.references = resolved := by
    intro hs
    rw [closureOf_register hwf hdec horder ⟨resolved, hreads.closure⟩ fun u hu =>
      .inr (.inr ⟨hs, hu⟩)]
    simp [closureOf, hreads.closure, Except.toOption]
  intro i j older newer hi hj hlt
  rcases liveAt_register hwf hdec horder hst hj with ⟨hs, rfl, rfl⟩ | hj
  · rcases liveAt_register hwf hdec horder hst hi with ⟨_, rfl, _⟩ | hi
    · exact absurd hlt (lt_irrefl _)
    -- The new version against an older number: this pair was checked.
    · subst hs
      intro dir hdir
      have hpass := checkRegistration_ok (hlevel rfl) htrans hcheck hi dir hdir
      rw [hclosure hi]
      change checkDirection F req.ty text (closureOf _ req.references) _ _ dir = .ok ()
      rw [hrequest rfl]
      exact hpass
  · rcases liveAt_register hwf hdec horder hst hi with ⟨hs, rfl, _⟩ | hi
    -- The new version below a live one: excluded.
    · exact absurd hlt (not_lt_of_ge (le_decided hst hb hdec horder hs hj))
    · exact (h i j older newer hi hj hlt).congr (hclosure hj) (hclosure hi)

end Register

/-! ## Runs -/

/-- The level is in force whenever the step registers under `s`. -/
def InForce (level : CompatibilityLevel) (s : String) (w : World) (l : Event) : Prop :=
  ∀ req, l.op? = some (.register req) → req.subject = s → effectiveLevel w.state s = level

/-- A registration that appends a record is in order. -/
def RegistersInOrder (F : Formats) (s : String) (w : World) (l : Event) : Prop :=
  ∀ req, l.op? = some (.register req) → ∀ resolved text key,
    Reads F w.state req resolved text key →
    w.state.findUnderSubjectCanonical req.subject key false = none → InOrder w.state s req text key

/-- The invariant of a run. -/
private structure Protected (F : Formats) (level : CompatibilityLevel) (s : String)
    (st : StoreState) : Prop where
  consistent : Consistent F st
  bounded : Bounded st
  supported : Supported st s
  ordered : Ordered F level st s

private theorem ordered_effect {w w' : World} {l : Event} (htrans : level.isTransitive = true)
    (heffect : Effect F w l w') (hspares : Spares s w l) (hlevel : InForce level s w l)
    (horder : RegistersInOrder F s w l) (h : Protected F level s w.state) :
    Ordered F level w'.state s := by
  have hwf := h.consistent.wellFormed
  cases heffect with
  | @registered req _ text key _ hop hreads hnone hcheck hdec =>
    exact ordered_register h.consistent h.bounded h.supported htrans (hlevel req hop) hreads hcheck
      hdec (horder req hop _ text key hreads hnone) h.ordered
  | softDeleted he hreg =>
    exact ordered_unbinding (unbinds_softDelete hwf he hreg)
      (supported_softDelete hwf he hreg h.supported) h.ordered
  | unbinding hplain htomb =>
    obtain ⟨hunbind, hsupp⟩ := supported_unbinding (F := F) hwf hplain (fun t v hmem => by
      obtain ⟨op, hop, hpurge⟩ := htomb t v hmem
      exact hspares op hop t v hpurge) h.supported
    exact ordered_unbinding hunbind hsupp h.ordered

private theorem bounded_step {w w' : World} {l : Event} (hs : Step F d mayDrop w l w')
    (hst : Consistent F w.state) (hlive : Live l) (hassign : Assigns w l)
    (hb : Bounded w.state) : Bounded w'.state := by
  rcases hs.cases false hst (.inr hassign) with ⟨replayed, rfl, _⟩ | ⟨_, recs, hwrites, rfl⟩
  · cases hlive
  · exact (hwrites.invariant (I := fun w => Consistent F w.state ∧ Bounded w.state)
      (fun _ _ he hw => bounded_emits he hw) ⟨hst, hb⟩).2

/-- In a run without restarts and imports, with a transitive level in force on `s`, whose
registrations bring no version of `s` back below a live one and rewrite no content in use, and
whose permanent deletes spare what `s` depends on, the live history of `s` is compatible. -/
theorem live_history_compatible {t : List (World × Event)} {w : World}
    (htrans : level.isTransitive = true) (h : Run F d mayDrop t w)
    (hlive : ∀ p ∈ t, Live p.2 ∧ Assigns p.1 p.2) (hlevel : ∀ p ∈ t, InForce level s p.1 p.2)
    (hspares : ∀ p ∈ t, Spares s p.1 p.2) (horder : ∀ p ∈ t, RegistersInOrder F s p.1 p.2) :
    HistoryCompatible F level w.state s := by
  have hstart : Protected F level s d.state := by
    refine ⟨d.state_consistent F, ⟨?_, ?_⟩, ?_, ?_⟩
    · intro s v e he
      simp [Defaults.state] at he
    · intro s n hn
      simp [Defaults.state, StoreState.withDefaults] at hn
    · rintro u ⟨v, e, reg, he, _⟩
      simp [Defaults.state] at he
    · rintro i j older newer ⟨e, he, _⟩
      simp [Defaults.state] at he
  -- What one step of such a run preserves is the protected history, not its compatibility alone.
  have hrun : Protected F level s w.state :=
    Trace.invariant (I := fun w => Protected F level s w.state)
      (C := fun w l => (Live l ∧ Assigns w l) ∧ InForce level s w l ∧ Spares s w l ∧
        RegistersInOrder F s w l) hstart
      (fun w₁ l w₂ hC hs hi =>
        have heffect := hs.effect hi.consistent hC.1.1 hC.1.2
        ⟨hs.consistent hi.consistent, bounded_step hs hi.consistent hC.1.1 hC.1.2 hi.bounded,
          supported_effect hi.consistent.wellFormed heffect hC.2.2.1 hi.supported,
          ordered_effect htrans heffect hC.2.2.1 hC.2.1 hC.2.2.2 hi⟩)
      h fun p hp => ⟨hlive p hp, hlevel p hp, hspares p hp, horder p hp⟩
  exact hrun.ordered.historyCompatible hrun.consistent.wellFormed

/-! ### An old number comes back -/

/-- The sample formats, with a check under which a schema of strings cannot read what any
schema wrote. -/
def narrowing : Formats :=
  Formats.ofLibs Format.Libs.sample {
    check := fun _ reader writer _ _ =>
      if reader = "\x7b\"type\":\"string\"\x7d" ∧ writer = "\x7b\x7d" then
        .error ["type narrowed"]
      else .ok ()
    check_error := by
      intro ty reader writer readerRefs writerRefs messages h
      split at h
      · cases h
        simp
      · cases h }

/-- A registry whose default level is `BACKWARD_TRANSITIVE`. -/
def transitiveDefaults : Defaults := { compatibility := "BACKWARD_TRANSITIVE" }

/-- The schema of all strings. -/
def requestString : RegisterSchema :=
  { subject := "a", ty := .json, schema := "\x7b\"type\":\"string\"\x7d" }

/-- The wide schema is deleted, the narrow one registered, and the wide one registered
again. -/
def resurrectOps : List Op :=
  [.register requestEmpty, .softDeleteVersion "a" 1, .register requestString,
   .register requestEmpty]

/-- Version 1 is wide again and live below the narrow version 2. -/
theorem incompatible_after_resurrection :
    ∃ t w, Run narrowing transitiveDefaults mayDropNothing t w ∧
      (∀ p ∈ t, Live p.2 ∧ Assigns p.1 p.2) ∧
      (∀ p ∈ t, effectiveLevel p.1.state "a" = .backwardTransitive) ∧
      ¬ HistoryCompatible narrowing .backwardTransitive w.state "a" := by
  let w := (World.start transitiveDefaults).afterAll narrowing resurrectOps
  have hrun : Run narrowing transitiveDefaults mayDropNothing _ w :=
    Run.steps (Trace.nil (World.start transitiveDefaults)) resurrectOps (by decide +kernel)
  refine ⟨_, w, hrun, by decide +kernel, by decide +kernel, ?_⟩
  intro hcompat
  obtain ⟨older, holder, htext⟩ : ∃ older, w.state.version "a" (some 1) false = some older ∧
      older.schema = "\x7b\x7d" :=
    Option.map_eq_some_iff.mp (show Option.map VersionedSchema.schema _ = some _ by
      decide +kernel)
  obtain ⟨newer, hnewer, htext'⟩ : ∃ newer, w.state.version "a" (some 2) false = some newer ∧
      newer.schema = "\x7b\"type\":\"string\"\x7d" :=
    Option.map_eq_some_iff.mp (show Option.map VersionedSchema.schema _ = some _ by
      decide +kernel)
  have hpass := hcompat 1 2 older newer holder hnewer (by decide) .newReadsOld (by decide)
  rw [htext, htext'] at hpass
  simp [checkDirection, narrowing, Formats.ofLibs] at hpass

/-- A new identity under a fresh version is in order. -/
theorem InOrder.of_fresh (hst : Consistent F st) {req : RegisterSchema} {text key : String}
    (hkey : st.byCanonical[key]? = none)
    (hversion : entryOf st req.subject (st.nextVersion req.subject) = none) :
    InOrder st s req text key := by
  have hfind : ∀ t d, st.findUnderSubjectCanonical t key d = none := by
    intro t d
    rw [findUnderSubjectCanonical_eq, hkey]
    rfl
  have hdecision : decision st req.subject key = ⟨st.maxId + 1, st.nextVersion req.subject⟩ := by
    simp [decision, hfind, hkey]
  refine ⟨fun _ reg hreg => ?_, ?_⟩
  · simp [hfind] at hreg
  · rintro ⟨t, v⟩ ⟨hwrite, hstored, _⟩
    rw [hdecision] at hwrite
    rcases hwrite with hu | hid
    -- Nothing is stored under the new version.
    · obtain ⟨rfl, rfl⟩ := Prod.mk.inj hu
      simp [contentAt_eq, hversion] at hstored
    -- No version has the new id.
    · obtain ⟨e, he, hid⟩ := Option.map_eq_some_iff.mp hid
      obtain ⟨content, hcontent⟩ := hst.entry_stored he
      have hle := hst.id_le_maxId hcontent
      rw [hid] at hle
      exact absurd hle (not_le_of_gt (Int.lt_add_one_of_le (le_refl _)))

/-- Widening in the order of the version numbers keeps the history compatible. -/
theorem live_history_compatible_widening :
    HistoryCompatible narrowing .backwardTransitive
      ((World.start transitiveDefaults).afterAll narrowing
        [.register requestString, .register requestEmpty]).state "a" := by
  have hrun : Run narrowing transitiveDefaults mayDropNothing _
      ((World.start transitiveDefaults).afterAll narrowing
        [.register requestString, .register requestEmpty]) :=
    Run.steps (Trace.nil (World.start transitiveDefaults))
      [.register requestString, .register requestEmpty] (by decide +kernel)
  refine live_history_compatible rfl hrun (by decide +kernel) ?_ ?_ ?_
  · intro p hp req _ _
    have hlevels : ∀ p ∈ [] ++ (World.start transitiveDefaults).steps narrowing
        [.register requestString, .register requestEmpty],
        effectiveLevel p.1.state "a" = .backwardTransitive := by decide +kernel
    exact hlevels p hp
  · intro p hp op hop t v hpurge
    obtain ⟨op', hmem, hp'⟩ := World.mem_steps hp
    obtain rfl : op' = op := by simpa [hp', Event.op?] using hop
    simp only [List.mem_cons, List.not_mem_nil, or_false] at hmem
    rcases hmem with rfl | rfl <;> cases hpurge
  -- Both registrations bring a new identity.
  · intro p hp req hop resolved text key hreads hnone
    obtain ⟨_, ht⟩ := Trace.of_mem hrun hp
    have hst : Consistent narrowing p.1.state := Run.consistent ht
    simp only [List.nil_append, World.steps, List.mem_cons, List.not_mem_nil, or_false] at hp
    rcases hp with rfl | rfl
    · obtain rfl : requestString = req := by simpa [Event.op?] using hop
      have hreads' : Reads narrowing (World.start transitiveDefaults).state requestString []
          requestString.schema requestString.schema :=
        ⟨by decide +kernel, by decide +kernel, by decide +kernel⟩
      obtain ⟨rfl, rfl⟩ := hreads'.unique hreads
      exact .of_fresh hst (by decide +kernel) (by decide +kernel)
    · obtain rfl : requestEmpty = req := by simpa [Event.op?] using hop
      have hreads' : Reads narrowing
          ((World.start transitiveDefaults).after narrowing (.register requestString)).state
          requestEmpty [] requestEmpty.schema requestEmpty.schema :=
        ⟨by decide +kernel, by decide +kernel, by decide +kernel⟩
      obtain ⟨rfl, rfl⟩ := hreads'.unique hreads
      exact .of_fresh hst (by decide +kernel) (by decide +kernel)

end KrabkaRegistry.Guarantees
