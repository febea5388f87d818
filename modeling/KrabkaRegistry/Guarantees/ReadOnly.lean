import KrabkaRegistry.Guarantees.Replay

/-!
# A Subject in `READONLY` Mode

Each mutating operation checks the effective mode of its subject for itself.
`readonly_freezes` says which of them append nothing while the mode is `READONLY`: all but
`delete_subject_compat`, which has no check and removes the subject's level.  Without such a
call, and until the subject's mode or the global one is changed, the subject keeps its
versions, flags and level through every run, restarts and other subjects' operations
included; and it keeps its schemas as long as no registration elsewhere rewrites the content
of an id that it uses.  `level_removed_in_readonly` is the call that gets through.
-/

namespace KrabkaRegistry.Guarantees

open KrabkaRegistry.Format (Formats)
open KrabkaRegistry.Kafkastore
open KrabkaRegistry.Library (Trace)
open KrabkaRegistry.Store
open StoreState (contentOf)

variable {F : Formats} {d : Defaults} {st : StoreState} {s : String}

/-! ## The gate -/

/-- The operation changes the mode that a subject is under. -/
def ChangesMode (s : String) : Op → Prop
  | .setGlobalMode _ => True
  | .setSubjectMode s' _ | .clearSubjectMode s' => s' = s
  | _ => False

/-- The operation removes the level that the subject has for itself. -/
def ClearsLevel (st : StoreState) (s : String) (op : Op) : Prop :=
  op = .deleteSubjectCompat s ∧ st.subjectCompat[s]? ≠ none

/-- In `READONLY` mode an operation on the subject appends nothing, unless it clears the
subject's level. -/
theorem appendedBy_readonly (hro : st.effectiveMode s = "READONLY") {op : Op}
    (hs : op.subject? = some s) (hmode : ¬ ChangesMode s op) :
    appendedBy F st op = [] ↔ ¬ ClearsLevel st s op := by
  have hwritable : ensureWritable st s = fail (.operationNotPermitted s) := by
    simp [ensureWritable, hro]
  cases op with
  | register req =>
    obtain rfl : req.subject = s := Option.some.inj hs
    simp [appendedBy, exec, register, hro, fail, ClearsLevel]
  | setCompat subject level =>
    obtain rfl : subject = some s := hs
    simp [appendedBy, exec, setCompat, hro, fail, ClearsLevel]
  | deleteSubjectCompat s' =>
    -- The one operation that does not ask for the mode.
    obtain rfl : s' = s := Option.some.inj hs
    cases hlevel : st.subjectCompat[s']? with
    | none => simp [appendedBy, exec, deleteSubjectCompat, hlevel, ClearsLevel]
    | some level => simp [appendedBy, exec, deleteSubjectCompat, hlevel, ClearsLevel]
  | softDeleteVersion s' v =>
    obtain rfl : s' = s := Option.some.inj hs
    simp [appendedBy, exec, softDeleteVersion, hwritable, fail, bind, Except.bind, ClearsLevel]
  | permanentDeleteVersion s' v =>
    obtain rfl : s' = s := Option.some.inj hs
    simp [appendedBy, exec, permanentDeleteVersion, hwritable, fail, bind, Except.bind, ClearsLevel]
  | softDeleteSubject s' =>
    obtain rfl : s' = s := Option.some.inj hs
    simp [appendedBy, exec, softDeleteSubject, hwritable, fail, bind, Except.bind, ClearsLevel]
  | permanentDeleteSubject s' =>
    obtain rfl : s' = s := Option.some.inj hs
    simp [appendedBy, exec, permanentDeleteSubject, hwritable, fail, bind, Except.bind, ClearsLevel]
  | setGlobalMode mode => cases hs
  | setSubjectMode s' mode => exact absurd (Option.some.inj hs) hmode
  | clearSubjectMode s' => exact absurd (Option.some.inj hs) hmode

/-! ## Records about other subjects -/

/-- The record is not about the subject and does not set the global mode. -/
def NotAbout (s : String) : TopicRecord → Prop
  | .schema k value => k.subject ≠ s ∧ ∀ v, value = some v → v.subject ≠ s
  | .deleteSubject s' _ => s' ≠ s
  | .config s' _ => s' ≠ some s
  | .mode s' _ => s' ≠ some s ∧ s' ≠ none
  | .versionHighWater _ _ | .barrier _ _ => True

/-- The subject has the same versions, ids and flags, the same level and the same mode. -/
structure SameSubject (s : String) (st st' : StoreState) : Prop where
  entry : ∀ v, entryOf st' s v = entryOf st s v
  level : st'.subjectCompat[s]? = st.subjectCompat[s]?
  mode : st'.effectiveMode s = st.effectiveMode s

theorem SameSubject.refl (s : String) (st : StoreState) : SameSubject s st st :=
  ⟨fun _ => rfl, rfl, rfl⟩

theorem SameSubject.trans {st₁ st₂ st₃ : StoreState} (h : SameSubject s st₁ st₂)
    (h' : SameSubject s st₂ st₃) : SameSubject s st₁ st₃ :=
  ⟨fun v => (h'.entry v).trans (h.entry v), h'.level.trans h.level, h'.mode.trans h.mode⟩

theorem SameViews.sameSubject {st st' : StoreState} (h : SameViews st st') (s : String) :
    SameSubject s st st' :=
  ⟨h.entry s, h.subjectCompat s, h.effectiveMode s⟩

theorem sameSubject_applyTopicRecord (hwf : WellFormed st) {r : TopicRecord} (hr : NotAbout s r) :
    SameSubject s st (applyTopicRecord F st r) := by
  refine ⟨fun v => ?_, ?_, ?_⟩
  · rw [entryOf_applyTopicRecord hwf]
    cases r with
    | schema k value =>
      cases value with
      | none =>
        have hk : k ≠ ⟨s, v⟩ := fun h => hr.1 (by rw [h])
        simp [entryStep, hk]
      | some value =>
        have hsubject : value.subject ≠ s := hr.2 value rfl
        simp [entryStep, hsubject]
    | deleteSubject s' value =>
      have hs' : s' ≠ s := hr
      cases value with
      | none => rfl
      | some value => simp [entryStep, hs']
    | _ => rfl
  -- Three things are the subject's own: its bindings, its level and its mode.
  · rw [subjectCompat_applyTopicRecord]
    cases r with
    | config s' level =>
      cases s' with
      | none => rfl
      | some s' =>
        have hs' : s' ≠ s := fun h => hr (by rw [h])
        simp [subjectCompatStep, hs']
    | _ => rfl
  · have hsubject : (applyTopicRecord F st r).subjectMode[s]? = st.subjectMode[s]? := by
      rw [subjectMode_applyTopicRecord]
      cases r with
      | mode s' m =>
        cases s' with
        | none => rfl
        | some s' =>
          have hs' : s' ≠ s := fun h => hr.1 (by rw [h])
          simp [subjectModeStep, hs']
      | _ => rfl
    -- The mode in force also depends on the global one, which such a record does not carry.
    have hglobal : (applyTopicRecord F st r).globalMode = st.globalMode := by
      rw [globalMode_applyTopicRecord]
      cases r with
      | mode s' m =>
        cases s' with
        | none => exact absurd rfl hr.2
        | some s' => rfl
      | _ => rfl
    simp only [StoreState.effectiveMode, StoreState.globalModeName, hsubject, hglobal,
      defaultMode_applyTopicRecord]

theorem sameSubject_replay (hwf : WellFormed st) {recs : List TopicRecord}
    (h : ∀ r ∈ recs, NotAbout s r) : SameSubject s st (replay F st recs) := by
  induction recs generalizing st with
  | nil => exact .refl s st
  | cons r recs ih =>
    rw [replay_cons]
    have hfirst := sameSubject_applyTopicRecord (F := F) hwf (h r List.mem_cons_self)
    exact hfirst.trans (ih (applyTopicRecord_wellFormed hwf r) fun x hx =>
      h x (List.mem_cons_of_mem r hx))

/-- An operation on another subject, or on the global level, writes about `s` nothing. All of its
records are keyed by the subject that it names. -/
theorem notAbout_of_executes {op : Op} {recs : List TopicRecord} (h : Executes F st op recs)
    (hs : op.subject? ≠ some s) (hmode : ¬ ChangesMode s op) : ∀ r ∈ recs, NotAbout s r := by
  have hother : ∀ s', op.subject? = some s' → s' ≠ s := by
    intro s' hs' heq
    rw [hs', heq] at hs
    exact hs rfl
  cases h with
  | known req => simp
  | @registered req _ text _ reg _ _ _ _ _ =>
    have hsubject := hother req.subject rfl
    simp [RegisterSchema.record, encodeSchemaWithMessageType, schemaKv, NotAbout, hsubject]
  | @imported req text reg _ _ =>
    have hsubject := hother req.subject rfl
    simp [RegisterSchema.record, encodeSchemaWithMessageType, schemaKv, NotAbout, hsubject]
  | leveled subject level =>
    have hsubject : subject ≠ some s := hs
    simp [encodeConfig, NotAbout, hsubject]
  | levelAbsent s' => simp
  | levelCleared s' =>
    have hsubject := hother s' rfl
    simp [configTombstone, NotAbout, hsubject]
  | @softDeleted s' v e reg _ _ =>
    have hsubject := hother s' rfl
    simp [deletedRecord, encodeSchemaDeletedWithMessageType, schemaKv, NotAbout, hsubject]
  | @purged s' v e _ =>
    have hsubject := hother s' rfl
    simp [encodeVersionHighWater, encodeTombstone, NotAbout, hsubject]
  | subjectDeleted s' latest =>
    have hsubject := hother s' rfl
    simp [encodeDeleteSubject, NotAbout, hsubject]
  | subjectPurged s' =>
    -- The other subject loses its level and mode with its versions.
    have hsubject := hother s' rfl
    intro r hr
    simp only [List.cons_append, List.mem_cons, List.mem_append, List.mem_map,
      List.not_mem_nil, or_false] at hr
    rcases hr with rfl | ⟨e, _, rfl⟩ | rfl | rfl
    · trivial
    · simp [encodeTombstone, NotAbout, hsubject]
    · simp [configTombstone, NotAbout, hsubject]
    · simp [modeTombstone, NotAbout, hsubject]
  | globalModed mode => exact absurd trivial hmode
  | subjectModed s' mode =>
    have hsubject := hother s' rfl
    simp [encodeMode, NotAbout, hsubject]
  | modeCleared s' =>
    have hsubject := hother s' rfl
    simp [modeTombstone, NotAbout, hsubject]

/-! ## Steps -/

/-- The operation of the step, if any, changes no mode of the subject and clears no level. -/
def LeavesAlone (s : String) (w : World) (l : Event) : Prop :=
  ∀ op, l.op? = some op → ¬ ChangesMode s op ∧ ¬ ClearsLevel w.state s op

theorem notAbout_appendedBy (hwf : WellFormed st) (hro : st.effectiveMode s = "READONLY") {op : Op}
    (hmode : ¬ ChangesMode s op) (hlevel : ¬ ClearsLevel st s op) :
    ∀ r ∈ appendedBy F st op, NotAbout s r := by
  by_cases hs : op.subject? = some s
  · simp [(appendedBy_readonly hro hs hmode).mpr hlevel]
  · unfold appendedBy
    cases hex : exec F st op with
    | error e => simp
    | ok p => exact notAbout_of_executes (exec_ok hwf hex) hs hmode

theorem notAbout_appended {w : World} {l : Event} (hwf : WellFormed w.state)
    (hro : w.state.effectiveMode s = "READONLY") (h : LeavesAlone s w l) :
    ∀ r ∈ w.appended F l, NotAbout s r := by
  cases l with
  | completed op =>
    obtain ⟨hmode, hlevel⟩ := h op rfl
    exact notAbout_appendedBy hwf hro hmode hlevel
  | interrupted op k =>
    obtain ⟨hmode, hlevel⟩ := h op rfl
    exact fun r hr => notAbout_appendedBy hwf hro hmode hlevel r (List.mem_of_mem_take hr)
  | refused op => simp [World.appended]
  | barrier token present => simp [World.appended, NotAbout]
  | restarted replayed => simp [World.appended]

theorem sameSubject_step {w w' : World} {l : Event} {t : List (World × Event)}
    (hrun : Run F d mayDropNullAlone t w) (hs : Step F d mayDropNullAlone w l w')
    (hro : w.state.effectiveMode s = "READONLY") (h : LeavesAlone s w l) :
    SameSubject s w.state w'.state := by
  have hwf := hrun.consistent.wellFormed
  by_cases hlive : Live l
  · rw [hs.appended hlive]
    exact sameSubject_replay hwf (notAbout_appended hwf hro h)
  · cases hs with
    | restarted hc => exact (Run.restarted_sameViews hrun hc).sameSubject s
    | _ => exact absurd trivial hlive

/-! ## Contents -/

/-- If the registration stores its schema under an id that a version of `s` is bound to, it
stores what is there already. -/
def WritesWhatIsThere (F : Formats) (st : StoreState) (s : String) (req : RegisterSchema) : Prop :=
  ∀ resolved text n, st.resolveClosure req.references = .ok resolved →
    F.normalizedStorageForm req.ty req.schema resolved = .ok text →
    (if st.effectiveMode req.subject = "IMPORT" then req.importId = some n
      else ∃ key, st.identityKey F req.ty text req.references req.messageType = .ok key ∧
        st.byCanonical[key]? = some n) →
    (∃ v e, entryOf st s v = some e ∧ e.id = n) → st.byId[n]? = some (requestContent req text)

/-- The contents of the ids that the versions of `s` are bound to. -/
def SameContents (s : String) (st st' : StoreState) : Prop :=
  ∀ v e, entryOf st s v = some e → st'.byId[e.id]? = st.byId[e.id]?

theorem sameContents_of_no_values {recs : List TopicRecord}
    (h : ∀ r ∈ recs, schemaValue? r = none) : SameContents s st (replay F st recs) := by
  have hbyId : (replay F st recs).byId = st.byId := by
    induction recs generalizing st with
    | nil => rfl
    | cons r recs ih =>
      rw [replay_cons, ih fun x hx => h x (List.mem_cons_of_mem r hx)]
      exact (contents_applyTopicRecord st (h r List.mem_cons_self)).1
  intro v e _
  rw [hbyId]

/-- The first records of an operation that appends at most one. -/
private theorem sameContents_single {r : TopicRecord} (k : ℕ)
    (h : SameContents s st (applyTopicRecord F st r)) :
    SameContents s st (replay F st ([r].take k)) := by
  cases k with
  | zero => exact sameContents_of_no_values (by simp)
  | succ k => simpa using h

theorem sameContents_record {req : RegisterSchema} {text : String} {reg : Registered}
    (h : (∃ v e, entryOf st s v = some e ∧ e.id = reg.id) →
      st.byId[reg.id]? = some (requestContent req text)) :
    SameContents s st (applyTopicRecord F st (req.record text reg)) := by
  intro v e he
  rw [byId_record]
  split_ifs with hid
  · rw [hid, h ⟨v, e, he, hid⟩]
  · rfl

private theorem sameContents_registered (hst : Consistent F st) {req : RegisterSchema}
    {recs : List TopicRecord} {reg : Registered} (h : WritesWhatIsThere F st s req)
    (hreg : Kafkastore.register F st req = .ok (recs, reg)) (k : ℕ) :
    SameContents s st (replay F st (recs.take k)) := by
  by_cases hmode : st.effectiveMode req.subject = "IMPORT"
  · obtain ⟨resolved, text, _, hreads, hid, _, rfl, _⟩ := register_import_reads hmode hreg
    refine sameContents_single k (sameContents_record fun hbound => ?_)
    exact h resolved text reg.id hreads.closure hreads.storage (by rwa [if_pos hmode]) hbound
  · obtain ⟨resolved, text, key, hreads, ⟨rfl, _⟩ | ⟨rfl, _, _, hdec⟩⟩ := register_ok hmode hreg
    · exact sameContents_of_no_values (by simp)
    · refine sameContents_single k (sameContents_record fun hbound => ?_)
      rcases hdec.id_cases with hid | ⟨_, hid⟩
      · refine h resolved text reg.id hreads.closure hreads.storage ?_ hbound
        rw [if_neg hmode]
        exact ⟨key, hreads.identity, hid⟩
      -- A new id is above the counter, where no version is bound.
      · obtain ⟨v, e, he, heq⟩ := hbound
        obtain ⟨content, hcontent⟩ := hst.entry_stored he
        have hle := hst.id_le_maxId hcontent
        rw [heq, hid] at hle
        exact absurd hle (not_le.mpr (Int.lt_succ st.maxId))

/-- The first `k` records of any operation. -/
private theorem sameContents_exec (hst : Consistent F st) {op : Op} {recs : List TopicRecord}
    {reply : Reply} (hex : exec F st op = .ok (recs, reply))
    (h : ∀ req, op = .register req → WritesWhatIsThere F st s req) (k : ℕ) :
    SameContents s st (replay F st (recs.take k)) := by
  -- Records without a value leave every content; a registration is covered by `h`, a soft delete
  -- writes the content back.
  have hplain : (∀ r ∈ recs, schemaValue? r = none) →
      SameContents s st (replay F st (recs.take k)) := fun hrecs =>
    sameContents_of_no_values fun r hr => hrecs r (List.mem_of_mem_take hr)
  have hregister : ∀ req, op = .register req → SameContents s st (replay F st (recs.take k)) := by
    rintro req rfl
    obtain ⟨⟨recs', reg⟩, hreg, heq⟩ := map_ok hex
    obtain ⟨rfl, -⟩ : recs' = recs ∧ _ = reply := by simpa using heq
    exact sameContents_registered hst (h req rfl) hreg k
  cases exec_ok hst.wellFormed hex with
  | known req => exact hregister req rfl
  | registered _ _ _ _ _ => exact hregister _ rfl
  | imported _ _ => exact hregister _ rfl
  | leveled subject level => exact hplain (by simp [encodeConfig, schemaValue?])
  | levelAbsent s' => exact hplain (by simp)
  | levelCleared s' => exact hplain (by simp [configTombstone, schemaValue?])
  | softDeleted he hreg =>
    refine sameContents_single k fun v e _ => ?_
    exact byId_deletedRecord hreg e.id
  | purged _ => exact hplain (by simp [encodeVersionHighWater, encodeTombstone, schemaValue?])
  | subjectDeleted s' latest => exact hplain (by simp [encodeDeleteSubject, schemaValue?])
  | subjectPurged s' =>
    refine hplain fun r hr => ?_
    simp only [List.cons_append, List.mem_cons, List.mem_append, List.mem_map,
      List.not_mem_nil, or_false] at hr
    rcases hr with rfl | ⟨e, _, rfl⟩ | rfl | rfl <;> rfl
  | globalModed mode => exact hplain (by simp [encodeMode, schemaValue?])
  | subjectModed s' mode => exact hplain (by simp [encodeMode, schemaValue?])
  | modeCleared s' => exact hplain (by simp [modeTombstone, schemaValue?])

/-- The step is no restart, and a registration in it rewrites no content of `s`. -/
def KeepsContents (F : Formats) (s : String) (w : World) (l : Event) : Prop :=
  Live l ∧ ∀ req, l.op? = some (.register req) → WritesWhatIsThere F w.state s req

theorem sameContents_step {mayDrop : List TopicRecord → TopicRecord → Prop} {w w' : World}
    {l : Event} (hw : Consistent F w.state) (hs : Step F d mayDrop w l w')
    (h : KeepsContents F s w l) : SameContents s w.state w'.state := by
  obtain ⟨hlive, hreq⟩ := h
  cases hs with
  | @completed op recs reply hex =>
    have hall := sameContents_exec (s := s) hw hex (fun req hop => hreq req (by rw [hop]; rfl))
      recs.length
    simpa [World.append] using hall
  | interrupted k hex =>
    exact sameContents_exec hw hex (fun req hop => hreq req (by rw [hop]; rfl)) k
  | refused _ => exact fun v e _ => rfl
  | barrier token present => exact fun v e _ => rfl
  | restarted _ => cases hlive

/-- Versions, ids, flags and contents decide what is read of a subject. -/
theorem version_congr {st st' : StoreState} (hsubject : st'.subjects[s]? = st.subjects[s]?)
    (hcontent : ∀ e ∈ entries st s, st'.byId[e.id]? = st.byId[e.id]?)
    (version : Option SchemaVersion) (includeDeleted : Bool) :
    st'.version s version includeDeleted = st.version s version includeDeleted := by
  unfold StoreState.version
  rw [hsubject]
  cases hs : st.subjects[s]? with
  | none => rfl
  | some l =>
    have hl : entries st s = l := by simp [entries, hs]
    rw [hl] at hcontent
    cases version with
    | some v =>
      cases hfind : l.find? fun e => e.version = v ∧ (includeDeleted ∨ ¬ e.deleted) with
      | none => simp only [hfind]
      | some e => simp only [hfind, hcontent e (List.mem_of_find?_eq_some hfind)]
    | none =>
      cases hfind : l.reverse.find? fun e => includeDeleted || !e.deleted with
      | none => simp only [hfind]
      | some e =>
        have hmem : e ∈ l := List.mem_reverse.mp (List.mem_of_find?_eq_some hfind)
        simp only [hfind, hcontent e hmem]

/-! ## Runs -/

private theorem sameSubject_trace {t₀ t : List (World × Event)} {w₀ w : World}
    (h₀ : Run F d mayDropNullAlone t₀ w₀) (h : Trace (Step F d mayDropNullAlone) w₀ t w)
    (hro : w₀.state.effectiveMode s = "READONLY") (halone : ∀ p ∈ t, LeavesAlone s p.1 p.2) :
    (∃ t, Run F d mayDropNullAlone t w) ∧ SameSubject s w₀.state w.state := by
  refine Trace.invariant
    (I := fun w => (∃ t, Run F d mayDropNullAlone t w) ∧ SameSubject s w₀.state w.state)
    (C := LeavesAlone s) ⟨⟨t₀, h₀⟩, .refl s _⟩ ?_ h halone
  rintro w₁ l w₂ hl hs ⟨⟨t₁, hrun⟩, hsame⟩
  -- The mode is still the one of the start, so the gates are still closed.
  have hro₁ : w₁.state.effectiveMode s = "READONLY" := hsame.mode.trans hro
  exact ⟨⟨_, Trace.snoc hrun hs⟩, hsame.trans (sameSubject_step hrun hs hro₁ hl)⟩

private theorem sameContents_trace {t₀ t : List (World × Event)} {w₀ w : World}
    (h₀ : Run F d mayDropNullAlone t₀ w₀) (h : Trace (Step F d mayDropNullAlone) w₀ t w)
    (hro : w₀.state.effectiveMode s = "READONLY") (halone : ∀ p ∈ t, LeavesAlone s p.1 p.2)
    (hkeep : ∀ p ∈ t, KeepsContents F s p.1 p.2) : SameContents s w₀.state w.state := by
  induction h with
  | nil => exact fun v e _ => rfl
  | @snoc w₁ w₂ t l ht hs ih =>
    have halone₁ : ∀ p ∈ t, LeavesAlone s p.1 p.2 := fun p hp =>
      halone p (List.mem_append_left _ hp)
    obtain ⟨⟨t₁, hrun⟩, hsame⟩ := sameSubject_trace h₀ ht hro halone₁
    have hbefore := ih halone₁ fun p hp => hkeep p (List.mem_append_left _ hp)
    have hstep := sameContents_step hrun.consistent hs (hkeep (w₁, l) (by simp))
    intro v e he
    rw [hstep v e (by rw [hsame.entry, he]), hbefore v e he]

/-- In every reachable world in which `s` is in `READONLY` mode, an operation on `s` appends
nothing exactly when it does not clear the level of `s`.  From there on, as long as no
operation clears it or changes the mode of `s` or the global one, `s` keeps its versions, ids,
flags and level; and it keeps its schemas if no restart and no registration elsewhere changes
the content of an id that it uses. -/
theorem readonly_freezes {t : List (World × Event)} {w : World}
    (h : Run F d mayDropNullAlone t w) (hro : w.state.effectiveMode s = "READONLY") :
    (∀ op, op.subject? = some s → ¬ ChangesMode s op →
      (appendedBy F w.state op = [] ↔ ¬ ClearsLevel w.state s op)) ∧
    ∀ t' w', Trace (Step F d mayDropNullAlone) w t' w' → (∀ p ∈ t', LeavesAlone s p.1 p.2) →
      w'.state.subjects[s]? = w.state.subjects[s]? ∧
      w'.state.subjectCompat[s]? = w.state.subjectCompat[s]? ∧
      ((∀ p ∈ t', KeepsContents F s p.1 p.2) → ∀ version includeDeleted,
        w'.state.version s version includeDeleted = w.state.version s version includeDeleted) := by
  refine ⟨fun op hs hmode => appendedBy_readonly hro hs hmode, ?_⟩
  intro t' w' ht halone
  obtain ⟨⟨t₁, hrun⟩, hsame⟩ := sameSubject_trace h ht hro halone
  have hsubject := subject_ext hrun.consistent.wellFormed h.consistent.wellFormed hsame.entry
  refine ⟨hsubject, hsame.level, fun hkeep version includeDeleted => ?_⟩
  refine version_congr hsubject ?_ version includeDeleted
  intro e he
  have hentry := (h.consistent.wellFormed.increasing s).findVersion_eq he
  exact sameContents_trace h ht hro halone hkeep e.version e hentry

/-- The document `true` under `a`, which gets a level of its own and is then frozen. -/
def frozenOps : List Op :=
  [.register { subject := "a", ty := .json, schema := "true" }, .setCompat (some "a") "FULL",
   .setSubjectMode "a" "READONLY"]

def frozenWorld : World := (World.start {}).afterAll Formats.sample frozenOps

private theorem frozenWorld_run : ∃ t, Run Formats.sample {} mayDropNullAlone t frozenWorld :=
  ⟨_, Run.steps (Trace.nil _) frozenOps (by decide +kernel)⟩

/-- The frozen subject refuses a deletion and is not touched by a registration elsewhere. -/
theorem readonly_freezes_elsewhere :
    let op : Op := .register { subject := "b", ty := .json, schema := "false" }
    appendedBy Formats.sample frozenWorld.state (.softDeleteVersion "a" 1) = [] ∧
      ∀ version includeDeleted,
        (frozenWorld.afterAll Formats.sample [op]).state.version "a" version includeDeleted =
          frozenWorld.state.version "a" version includeDeleted := by
  intro op
  obtain ⟨t, hrun⟩ := frozenWorld_run
  obtain ⟨hgate, hfrozen⟩ := readonly_freezes (s := "a") hrun (by decide +kernel)
  refine ⟨(hgate _ rfl id).mpr (by simp [ClearsLevel]), ?_⟩
  have htrace : Trace (Step Formats.sample {} mayDropNullAlone) frozenWorld _
      (frozenWorld.afterAll Formats.sample [op]) :=
    Step.trace_steps (Trace.nil frozenWorld) [op] (by decide +kernel)
  refine (hfrozen _ _ htrace ?_).2.2 ?_
  · intro p hp op' hop
    obtain rfl : p = (frozenWorld, .completed op) := by simpa [World.steps] using hp
    obtain rfl : op = op' := Option.some.inj hop
    exact ⟨id, by simp [ClearsLevel, op]⟩
  · intro p hp
    obtain rfl : p = (frozenWorld, .completed op) := by simpa [World.steps] using hp
    refine ⟨trivial, ?_⟩
    rintro req hreq resolved text n hres htext hid -
    obtain rfl : _ = req := Op.register.inj (Option.some.inj hreq)
    rw [if_neg (by decide +kernel)] at hid
    obtain ⟨key, hkey, hn⟩ := hid
    have hreads : Reads Formats.sample frozenWorld.state
        { subject := "b", ty := .json, schema := "false" } [] "false" "false" :=
      ⟨by decide +kernel, by decide +kernel, by decide +kernel⟩
    obtain ⟨rfl, rfl⟩ := Reads.unique hreads ⟨hres, htext, hkey⟩
    -- The identity is new, so it has no id yet that `a` could use.
    have hnone : frozenWorld.state.byCanonical["false"]? = none := by decide +kernel
    rw [hnone] at hn
    cases hn

/-- The frozen subject loses its level. -/
theorem level_removed_in_readonly :
    ∃ t w, Run Formats.sample {} mayDropNullAlone t w ∧
      w.state.effectiveMode "a" = "READONLY" ∧
      (appendedBy Formats.sample w.state (.deleteSubjectCompat "a")).length = 1 ∧
      w.state.subjectCompat["a"]? = some "FULL" ∧
      (w.after Formats.sample (.deleteSubjectCompat "a")).state.subjectCompat["a"]? = none := by
  obtain ⟨t, hrun⟩ := frozenWorld_run
  exact ⟨t, frozenWorld, hrun, by decide +kernel, by decide +kernel, by decide +kernel,
    by decide +kernel⟩

end KrabkaRegistry.Guarantees
