import KrabkaRegistry.Library.Compaction
import KrabkaRegistry.Library.Trace
import KrabkaRegistry.Kafkastore.Effects

/-!
# Runs of the Registry over One Topic

A world is the log written so far and the live state.  Operations take the write gate, so
they run one after the other; each appends its records and the reader applies them before
the next one starts.  A call can also stop after any prefix of its appends.  A restart
rebuilds the state from its defaults by replaying a compaction of the log.

Runs are traces of these steps.  `exec_writes` breaks every operation into single records,
each justified by the world it is appended to (`Emits`), so that an invariant has to be
checked against one record at a time (`Writes.invariant`).
-/

namespace KrabkaRegistry.Kafkastore

open KrabkaRegistry.Format (Formats)
open KrabkaRegistry.Library (Trace)
open KrabkaRegistry.Library.Compaction
open KrabkaRegistry.Store

/-! ## Worlds and steps -/

/-- The configured defaults that a fresh state starts from. -/
structure Defaults where
  compatibility : String := "BACKWARD"
  mode : String := "READWRITE"
  deriving DecidableEq, Repr

/-- The state before anything is replayed. -/
def Defaults.state (d : Defaults) : StoreState :=
  StoreState.withDefaults d.compatibility d.mode

structure World where
  log : List TopicRecord
  state : StoreState

/-- An empty topic and a fresh state. -/
def World.start (d : Defaults) : World := ⟨[], d.state⟩

/-- Append records to the log and apply them. -/
def World.append (F : Formats) (w : World) (recs : List TopicRecord) : World :=
  ⟨w.log ++ recs, replay F w.state recs⟩

inductive Event where
  /-- The operation answered. -/
  | completed (op : Op)
  /-- The operation failed after `k` of its appends. -/
  | interrupted (op : Op) (k : ℕ)
  /-- The operation was refused before its first append. -/
  | refused (op : Op)
  /-- An ordering barrier, or its cleanup. -/
  | barrier (token : Uuid) (present : Bool)
  /-- The registry restarted on the records `replayed`. -/
  | restarted (replayed : List TopicRecord)

/-- A null record that is the last of its key may go. -/
def mayDropNull (_kept : List TopicRecord) (r : TopicRecord) : Prop := r.isNull = true

/-- A null record that is the last of its key may go once the earlier ones have gone. -/
def mayDropNullAlone (kept : List TopicRecord) (r : TopicRecord) : Prop :=
  r.isNull = true ∧ ∀ r' ∈ kept, r'.key ≠ r.key

/-- No last record of a key may go. -/
def mayDropNothing (_kept : List TopicRecord) (_r : TopicRecord) : Prop := False

/-- Compactions of a topic under a rule for null records. -/
abbrev CompactsTo (mayDrop : List TopicRecord → TopicRecord → Prop)
    (log log' : List TopicRecord) : Prop :=
  Compacts TopicRecord.key mayDrop [] log log'

variable (F : Formats) (d : Defaults) (mayDrop : List TopicRecord → TopicRecord → Prop)

inductive Step : World → Event → World → Prop where
  | completed {w : World} {op : Op} {recs : List TopicRecord} {reply : Reply} :
      exec F w.state op = .ok (recs, reply) → Step w (.completed op) (w.append F recs)
  | interrupted {w : World} {op : Op} {recs : List TopicRecord} {reply : Reply} (k : ℕ) :
      exec F w.state op = .ok (recs, reply) →
      Step w (.interrupted op k) (w.append F (recs.take k))
  | refused {w : World} {op : Op} {e : Failure} :
      exec F w.state op = .error e → Step w (.refused op) w
  | barrier (w : World) (token : Uuid) (present : Bool) :
      Step w (.barrier token present) (w.append F [.barrier token present])
  | restarted {w : World} {replayed : List TopicRecord} : CompactsTo mayDrop w.log replayed →
      Step w (.restarted replayed) ⟨w.log, replay F d.state replayed⟩

/-- The steps `t` lead from the empty topic to `w`. -/
abbrev Run (t : List (World × Event)) (w : World) : Prop :=
  Trace (Step F d mayDrop) (World.start d) t w

/-- The operation is not a registration in `IMPORT` mode, which brings its own id. -/
def NotImport (st : StoreState) : Op → Prop
  | .register req => st.effectiveMode req.subject ≠ "IMPORT"
  | _ => True

instance (st : StoreState) : DecidablePred (NotImport st) := fun op =>
  match op with
  | .register req => inferInstanceAs (Decidable (st.effectiveMode req.subject ≠ "IMPORT"))
  | .setCompat _ _ | .deleteSubjectCompat _ | .softDeleteVersion _ _ | .permanentDeleteVersion _ _
  | .softDeleteSubject _ | .permanentDeleteSubject _ | .setGlobalMode _ | .setSubjectMode _ _
  | .clearSubjectMode _ => .isTrue trivial

/-- The step runs no registration in `IMPORT` mode. -/
def Assigns (w : World) : Event → Prop
  | .completed op | .interrupted op _ => NotImport w.state op
  | _ => True

instance (w : World) : DecidablePred (Assigns w) := fun l =>
  match l with
  | .completed op | .interrupted op _ => inferInstanceAs (Decidable (NotImport w.state op))
  | .refused _ | .barrier _ _ | .restarted _ => .isTrue trivial

/-- The step is not a restart. -/
def Live : Event → Prop
  | .restarted _ => False
  | _ => True

instance : DecidablePred Live := fun l =>
  match l with
  | .restarted _ => .isFalse id
  | .completed _ | .interrupted _ _ | .refused _ | .barrier _ _ => .isTrue trivial

/-- The records that a step appends to the log. -/
def World.appended (w : World) : Event → List TopicRecord
  | .completed op => appendedBy F w.state op
  | .interrupted op k => (appendedBy F w.state op).take k
  | .barrier token present => [.barrier token present]
  | .refused _ | .restarted _ => []

/-! ## Runs that are computed -/

/-- The world after an operation, unchanged if the operation fails. -/
def World.after (F : Formats) (w : World) (op : Op) : World :=
  match exec F w.state op with
  | .ok (recs, _) => w.append F recs
  | .error _ => w

/-- The world after a list of operations. -/
def World.afterAll (F : Formats) (w : World) : List Op → World
  | [] => w
  | op :: ops => (w.after F op).afterAll F ops

/-- The steps of a list of operations that all complete. -/
def World.steps (F : Formats) (w : World) : List Op → List (World × Event)
  | [] => []
  | op :: ops => (w, .completed op) :: (w.after F op).steps F ops

/-- Whether a list of operations completes, each in the world that the ones before it
leave. -/
def World.completes (F : Formats) (w : World) : List Op → Bool
  | [] => true
  | op :: ops => (exec F w.state op).isOk && (w.after F op).completes F ops

/-! ## Records one at a time -/

/-- `Emits F imports w r`: an operation may append `r` to the world `w`. -/
inductive Emits (imports : Bool) (w : World) : TopicRecord → Prop where
  | registered {req : RegisterSchema} {resolved : List ResolvedReference} {text key : String}
      {reg : Registered} :
      w.state.effectiveMode req.subject ≠ "IMPORT" →
      Reads F w.state req resolved text key →
      w.state.findUnderSubjectCanonical req.subject key false = none →
      Compat.checkRegistration F w.state req.subject req.ty text resolved = .ok () →
      Decides w.state req.subject key reg → Emits imports w (req.record text reg)
  | imported {req : RegisterSchema} {text : String} {reg : Registered} :
      imports = true → w.state.effectiveMode req.subject = "IMPORT" →
      w.state.schemaIdConflicts F reg.id req.ty text req.references req.messageType = .ok false →
      Emits imports w (req.record text reg)
  | softDeleted {s : String} {v : SchemaVersion} {e : VersionEntry} {reg : RegisteredSchema} :
      entryOf w.state s v = some e → w.state.byId[e.id]? = some reg →
      Emits imports w (deletedRecord s v e.id reg)
  | subjectDeleted (s : String) (m : SchemaVersion) : Emits imports w (encodeDeleteSubject s m)
  | marked (s : String) :
      Emits imports w (encodeVersionHighWater s (w.state.nextVersion s))
  /-- A tombstone follows a marker that lies above the version it removes. -/
  | purged {s : String} {v n : SchemaVersion} {e : VersionEntry} :
      entryOf w.state s v = some e → encodeVersionHighWater s n ∈ w.log →
      saturatingSucc v ≤ n → Emits imports w (encodeTombstone s v)
  | leveled (s : Option String) (level : Option String) : (s = none → level ≠ none) →
      Emits imports w (.config s level)
  | moded (s : Option String) (m : Option String) : Emits imports w (.mode s m)
  | barrier (token : Uuid) (present : Bool) : Emits imports w (.barrier token present)

/-- Each record of the list may be appended after the ones before it. -/
inductive Writes (imports : Bool) : World → List TopicRecord → Prop where
  | nil (w : World) : Writes imports w []
  | cons {w : World} {r : TopicRecord} {recs : List TopicRecord} :
      Emits F imports w r → Writes imports (w.append F [r]) recs → Writes imports w (r :: recs)

variable {F} {d} {mayDrop}

@[simp] theorem World.append_nil (w : World) : w.append F [] = w := by
  simp [World.append]

theorem World.append_cons (w : World) (r : TopicRecord) (recs : List TopicRecord) :
    w.append F (r :: recs) = (w.append F [r]).append F recs := by
  simp [World.append]

theorem Step.after {w : World} {op : Op} (h : (exec F w.state op).isOk = true) :
    Step F d mayDrop w (.completed op) (w.after F op) := by
  unfold World.after
  cases hex : exec F w.state op with
  | error e => simp [hex, Except.isOk, Except.toBool] at h
  | ok p => exact .completed hex

theorem appendedBy_of_exec {st : StoreState} {op : Op} {recs : List TopicRecord} {reply : Reply}
    (h : exec F st op = .ok (recs, reply)) : appendedBy F st op = recs := by
  unfold appendedBy
  rw [h]

/-- A step that is not a restart appends its records and does nothing else. -/
theorem Step.appended {w w' : World} {l : Event} (h : Step F d mayDrop w l w') (hlive : Live l) :
    w' = w.append F (w.appended F l) := by
  cases h with
  | completed hex => rw [World.appended, appendedBy_of_exec hex]
  | interrupted k hex => rw [World.appended, appendedBy_of_exec hex]
  | refused _ => simp [World.appended]
  | barrier token present => rfl
  | restarted _ => cases hlive

/-- Operations that complete extend a trace. -/
theorem Step.trace_steps {t : List (World × Event)} {w₀ w : World}
    (h : Trace (Step F d mayDrop) w₀ t w) :
    ∀ ops, w.completes F ops = true →
      Trace (Step F d mayDrop) w₀ (t ++ w.steps F ops) (w.afterAll F ops) := by
  intro ops
  induction ops generalizing t w with
  | nil => intro _; simpa [World.steps, World.afterAll] using h
  | cons op ops ih =>
    intro hok
    obtain ⟨hop, hops⟩ := Bool.and_eq_true_iff.mp hok
    have hnext := ih (Trace.snoc h (Step.after hop)) hops
    simpa [World.steps, World.afterAll] using hnext

theorem Run.steps {t : List (World × Event)} {w : World} (h : Run F d mayDrop t w) :
    ∀ ops, w.completes F ops = true → Run F d mayDrop (t ++ w.steps F ops) (w.afterAll F ops) :=
  Step.trace_steps h

/-- The steps of a list of operations complete operations of the list. -/
theorem World.mem_steps {p : World × Event} :
    ∀ {ops : List Op} {w : World}, p ∈ w.steps F ops → ∃ op ∈ ops, p.2 = .completed op := by
  intro ops
  induction ops with
  | nil => intro w hp; simp [World.steps] at hp
  | cons op ops ih =>
    intro w hp
    rcases List.mem_cons.mp hp with rfl | hp
    · exact ⟨op, List.mem_cons_self, rfl⟩
    · obtain ⟨op', hop', heq⟩ := ih hp
      exact ⟨op', List.mem_cons_of_mem _ hop', heq⟩

theorem Writes.single {imports : Bool} {w : World} {r : TopicRecord} (h : Emits F imports w r) :
    Writes F imports w [r] :=
  .cons h (.nil _)

theorem Writes.take {imports : Bool} {w : World} {recs : List TopicRecord}
    (h : Writes F imports w recs) : ∀ k, Writes F imports w (recs.take k) := by
  induction h with
  | nil w => intro k; simpa using Writes.nil w
  | cons hr _ ih =>
    intro k
    cases k with
    | zero => exact .nil _
    | succ k => exact .cons hr (ih k)

/-- An invariant that every justified record keeps is kept by a whole operation. -/
theorem Writes.invariant {imports : Bool} {I : World → Prop}
    (hstep : ∀ w r, Emits F imports w r → I w → I (w.append F [r]))
    {w : World} {recs : List TopicRecord} (h : Writes F imports w recs) (hw : I w) :
    I (w.append F recs) := by
  induction h with
  | nil w => simpa using hw
  | @cons w r recs hr _ ih =>
    rw [World.append_cons]
    exact ih (hstep w r hr hw)

/-! ## Every operation writes justified records -/

private theorem writes_tombstones {imports : Bool} {s : String} {n : SchemaVersion}
    {rest : List TopicRecord}
    (hrest : ∀ w : World, Writes F imports w rest) :
    ∀ (l : List VersionEntry) (w : World), WellFormed w.state → Increasing l →
      (∀ e ∈ l, entryOf w.state s e.version = some e ∧ saturatingSucc e.version ≤ n) →
      encodeVersionHighWater s n ∈ w.log →
      Writes F imports w (l.map (fun e => encodeTombstone s e.version) ++ rest) := by
  intro l
  induction l with
  | nil => intro w _ _ _ _; exact hrest w
  | cons e l ih =>
    intro w hwf hinc hl hmark
    obtain ⟨hlt, hinc'⟩ := List.pairwise_cons.mp hinc
    obtain ⟨he, hle⟩ := hl e List.mem_cons_self
    refine .cons (.purged he hmark hle) (ih _ (replay_wellFormed hwf _) hinc' ?_ ?_)
    -- The tombstone of one version leaves the entries of the later ones in place.
    · intro x hx
      obtain ⟨hxe, hxn⟩ := hl x (List.mem_cons_of_mem _ hx)
      refine ⟨?_, hxn⟩
      have hne : x.version ≠ e.version := (hlt x hx).ne'
      change entryOf (applyTopicRecord F w.state (encodeTombstone s e.version)) s x.version = some x
      rw [entryOf_applyTopicRecord hwf]
      simp [encodeTombstone, entryStep, Ne.symm hne, hxe]
    · exact List.mem_append_left _ hmark

private theorem nextVersion_of_counted {st : StoreState} {s : String} {v : SchemaVersion}
    (h : ∃ n, st.nextVersions[s]? = some n ∧ saturatingSucc v ≤ n) :
    saturatingSucc v ≤ st.nextVersion s := by
  obtain ⟨n, hn, hle⟩ := h
  simpa [StoreState.nextVersion, hn] using hle

private theorem mem_log_append (w : World) (r : TopicRecord) : r ∈ (w.append F [r]).log := by
  simp [World.append]

theorem exec_writes {imports : Bool} {w : World} (hw : Consistent F w.state) {op : Op}
    {recs : List TopicRecord} {reply : Reply} (himp : imports = true ∨ NotImport w.state op)
    (h : exec F w.state op = .ok (recs, reply)) : Writes F imports w recs := by
  cases exec_ok hw.wellFormed h with
  | known req => exact .nil w
  | registered hmode hreads hnone hcheck hdec =>
    exact .single (.registered hmode hreads hnone hcheck hdec)
  | imported hmode hconf =>
    have himports : imports = true := himp.resolve_right fun hno => hno hmode
    exact .single (.imported himports hmode hconf)
  | leveled subject level => exact .single (.leveled _ _ (by simp))
  | levelAbsent s => exact .nil w
  | levelCleared s => exact .single (.leveled _ _ (by simp))
  | softDeleted he hreg => exact .single (.softDeleted he hreg)
  | @purged s v e he =>
    -- The marker goes first, and it accounts for the version.
    refine .cons (.marked s) (.single (.purged (e := e) ?_ (mem_log_append w _) ?_))
    · exact he
    · exact nextVersion_of_counted (hw.entry_counted he)
  | subjectDeleted s latest => exact .single (.subjectDeleted s latest)
  | subjectPurged s =>
    have hwf : WellFormed (w.append F [encodeVersionHighWater s (w.state.nextVersion s)]).state :=
      replay_wellFormed hw.wellFormed _
    refine .cons (.marked s) (writes_tombstones ?_ (entries w.state s) _ hwf
      (hw.wellFormed.increasing s) ?_ (mem_log_append w _))
    · intro w'
      exact .cons (.leveled _ _ (by simp)) (.single (.moded _ _))
    · intro e he
      have hentry : entryOf w.state s e.version = some e :=
        (hw.wellFormed.increasing s).findVersion_eq he
      exact ⟨hentry, nextVersion_of_counted (hw.entry_counted hentry)⟩
  | globalModed mode => exact .single (.moded _ _)
  | subjectModed s mode => exact .single (.moded _ _)
  | modeCleared s => exact .single (.moded _ _)

/-! ## Invariants of runs -/

theorem Defaults.state_consistent (F : Formats) (d : Defaults) : Consistent F d.state :=
  withDefaults_consistent F d.compatibility d.mode

theorem append_consistent {w : World} (h : Consistent F w.state) (recs : List TopicRecord) :
    Consistent F (w.append F recs).state :=
  replay_consistent h recs

theorem Step.consistent {w w' : World} {l : Event} (h : Step F d mayDrop w l w')
    (hw : Consistent F w.state) : Consistent F w'.state := by
  cases h with
  | completed _ => exact append_consistent hw _
  | interrupted _ _ => exact append_consistent hw _
  | refused _ => exact hw
  | barrier _ _ => exact append_consistent hw _
  | restarted _ => exact replay_consistent (d.state_consistent F) _

theorem Run.consistent {t : List (World × Event)} {w : World} (h : Run F d mayDrop t w) :
    Consistent F w.state :=
  Trace.invariant (I := fun w => Consistent F w.state) (C := fun _ _ => True)
    (d.state_consistent F) (fun _ _ _ _ hs hw => hs.consistent hw) h (fun _ _ => trivial)

/-- One step, seen through its records: it restarts, or appends justified records. -/
theorem Step.cases (imports : Bool) {w w' : World} {l : Event} (h : Step F d mayDrop w l w')
    (hw : Consistent F w.state) (himp : imports = true ∨ Assigns w l) :
    (∃ replayed, l = .restarted replayed ∧ CompactsTo mayDrop w.log replayed ∧
      w' = ⟨w.log, replay F d.state replayed⟩) ∨
    (Live l ∧ ∃ recs, Writes F imports w recs ∧ w' = w.append F recs) := by
  cases h with
  | completed hex => exact .inr ⟨trivial, _, exec_writes hw himp hex, rfl⟩
  | interrupted k hex => exact .inr ⟨trivial, _, (exec_writes hw himp hex).take k, rfl⟩
  | refused _ => exact .inr ⟨trivial, [], .nil w, by simp⟩
  | barrier token present => exact .inr ⟨trivial, _, .single (.barrier token present), rfl⟩
  | restarted hc => exact .inl ⟨_, rfl, hc, rfl⟩

/-! ## Steps between restarts -/

/-- The operation whose records a step appends. -/
def Event.op? : Event → Option Op
  | .completed op | .interrupted op _ => some op
  | .refused _ | .barrier _ _ | .restarted _ => none

/-- The versions that an operation may remove for good. -/
def Op.PermanentlyDeletes : Op → String → SchemaVersion → Prop
  | .permanentDeleteVersion s v, s', v' => s' = s ∧ v' = v
  | .permanentDeleteSubject s, s', _ => s' = s
  | _, _, _ => False

/-- What a step without a restart or an import does to a world. -/
inductive Effect (F : Formats) (w : World) (l : Event) : World → Prop where
  /-- A registration binds a version to a schema. -/
  | registered {req : RegisterSchema} {resolved : List ResolvedReference} {text key : String}
      {reg : Registered} : l.op? = some (.register req) →
      Reads F w.state req resolved text key →
      w.state.findUnderSubjectCanonical req.subject key false = none →
      Compat.checkRegistration F w.state req.subject req.ty text resolved = .ok () →
      Decides w.state req.subject key reg → Effect F w l (w.append F [req.record text reg])
  /-- A soft delete writes a version again, with its flag set. -/
  | softDeleted {s : String} {v : SchemaVersion} {e : VersionEntry} {reg : RegisteredSchema} :
      entryOf w.state s v = some e → w.state.byId[e.id]? = some reg →
      Effect F w l (w.append F [deletedRecord s v e.id reg])
  /-- Everything else writes no schema, and tombstones only what its operation purges. -/
  | unbinding {recs : List TopicRecord} : (∀ r ∈ recs, schemaValue? r = none) →
      (∀ s v, encodeTombstone s v ∈ recs → ∃ op, l.op? = some op ∧ op.PermanentlyDeletes s v) →
      Effect F w l (w.append F recs)

/-- Records that carry no schema and are no tombstones have no effect to justify. -/
private theorem Effect.plain {w : World} {l : Event} {recs : List TopicRecord}
    (h : ∀ r ∈ recs, ∀ k value, r ≠ .schema k value) : Effect F w l (w.append F recs) := by
  refine .unbinding ?_ ?_
  · intro r hr
    cases r with
    | schema k value => exact absurd rfl (h _ hr k value)
    | config | mode | deleteSubject | versionHighWater | barrier => rfl
  · intro s v hmem
    exact absurd rfl (h _ hmem ⟨s, v⟩ none)

/-- The effect of the first `k` records of an operation. One record happens or does not; several
change no content, or they are the mark and the tombstones of a permanent delete. -/
private theorem exec_effect {w : World} (hw : Consistent F w.state) {l : Event} {op : Op}
    (hl : l.op? = some op) (himp : NotImport w.state op) {recs : List TopicRecord} {reply : Reply}
    (h : exec F w.state op = .ok (recs, reply)) (k : ℕ) :
    Effect F w l (w.append F (recs.take k)) := by
  -- An append may stop anywhere, so for one record it happens or it does not.
  have hsingle : ∀ r, Effect F w l (w.append F [r]) → Effect F w l (w.append F ([r].take k)) := by
    intro r hr
    cases k with
    | zero => exact .plain (by simp)
    | succ k => simpa using hr
  -- Records without a schema change no content, however many of them get through.
  have hplain : ∀ recs : List TopicRecord, (∀ r ∈ recs, ∀ k value, r ≠ .schema k value) →
      Effect F w l (w.append F (recs.take k)) := fun recs hrecs =>
    .plain fun r hr => hrecs r (List.mem_of_mem_take hr)
  cases exec_ok hw.wellFormed h with
  | known req => exact hplain [] (by simp)
  | registered _ hreads hnone hcheck hdec =>
    exact hsingle _ (.registered hl hreads hnone hcheck hdec)
  | imported hmode _ => exact absurd hmode himp
  | leveled subject level => exact hplain _ (by simp [encodeConfig])
  | levelAbsent s => exact hplain _ (by simp)
  | levelCleared s => exact hplain _ (by simp [configTombstone])
  | softDeleted he hreg => exact hsingle _ (.softDeleted he hreg)
  -- A permanent delete writes a mark and a tombstone; only the tombstone unbinds.
  | @purged s v e he =>
    refine .unbinding ?_ ?_
    · intro r hr
      have hmem := List.mem_of_mem_take hr
      simp only [List.mem_cons, List.not_mem_nil, or_false] at hmem
      rcases hmem with rfl | rfl <;> rfl
    · intro s' v' hmem
      have hmem := List.mem_of_mem_take hmem
      refine ⟨_, hl, ?_⟩
      simpa [encodeTombstone, encodeVersionHighWater, Op.PermanentlyDeletes] using hmem
  | subjectDeleted s latest => exact hplain _ (by simp [encodeDeleteSubject])
  -- So does that of a subject, with a tombstone for each of its versions.
  | subjectPurged s =>
    refine .unbinding ?_ ?_
    · intro r hr
      have hmem := List.mem_of_mem_take hr
      simp only [List.cons_append, List.mem_cons, List.mem_append, List.mem_map,
        List.not_mem_nil, or_false] at hmem
      rcases hmem with rfl | ⟨e, _, rfl⟩ | rfl | rfl <;> rfl
    · intro s' v' hmem
      have hmem := List.mem_of_mem_take hmem
      simp only [List.cons_append, List.mem_cons, List.mem_append, List.mem_map,
        List.not_mem_nil, or_false, encodeTombstone, encodeVersionHighWater,
        configTombstone, modeTombstone, reduceCtorEq, false_or] at hmem
      obtain ⟨e, _, heq⟩ := hmem
      obtain ⟨rfl, -⟩ : s = s' ∧ e.version = v' := by simpa using heq
      exact ⟨_, hl, rfl⟩
  | globalModed mode => exact hplain _ (by simp [encodeMode])
  | subjectModed s mode => exact hplain _ (by simp [encodeMode])
  | modeCleared s => exact hplain _ (by simp [modeTombstone])

/-- What a step between restarts can do. -/
theorem Step.effect {w w' : World} {l : Event} (h : Step F d mayDrop w l w')
    (hw : Consistent F w.state) (hlive : Live l) (hassign : Assigns w l) : Effect F w l w' := by
  cases h with
  | @completed op recs _ hex =>
    simpa using exec_effect hw (l := .completed op) rfl hassign hex recs.length
  | interrupted k hex => exact exec_effect hw rfl hassign hex k
  | @refused op _ _ =>
    have hnone : Effect F w (.refused op) (w.append F []) := .plain (by simp)
    simpa using hnone
  | barrier token present => exact .plain (by simp)
  | restarted _ => cases hlive

end KrabkaRegistry.Kafkastore
