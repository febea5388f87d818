import KrabkaRegistry.Kafkastore.Run
import KrabkaRegistry.Rest.Delete

/-!
# Deleting the Latest Version

A request for `latest` reads the version before it waits for the write gate, and other requests
may hold the gate in between.

- `latest_deleted`: if none of their records puts a live version above the resolved one or takes
  that one away, the version that is marked deleted is the latest when the request decides.
- `stale_latest_deleted` is an interleaving with a registration in between.
-/

namespace KrabkaRegistry.Guarantees

open KrabkaRegistry.Format (Formats)
open KrabkaRegistry.Kafkastore
open KrabkaRegistry.Library (Trace)
open KrabkaRegistry.Rest
open KrabkaRegistry.Store

variable {F : Formats} {d : Defaults} {mayDrop : List TopicRecord → TopicRecord → Prop}
  {st : StoreState} {s : String} {v : SchemaVersion}

/-! ## One request among others -/

/-- A request for the latest version of `s`: it resolves `v` in `w₀`, the steps `t` of other
requests follow while it waits for the write gate, and in `w` it deletes what it resolved. -/
structure LatestDelete (F : Formats) (d : Defaults)
    (mayDrop : List TopicRecord → TopicRecord → Prop) (s : String) (v : SchemaVersion)
    (w₀ : World) (t : List (World × Event)) (w : World) (recs : List TopicRecord) : Prop where
  resolved : resolveDeleted w₀.state s "latest" = .ok v
  others : Trace (Step F d mayDrop) w₀ t w
  /-- The node stays up, since a restart ends the request. -/
  live : ∀ p ∈ t, Live p.2
  decided : deleteResolved w.state s false v = .ok (recs, v)

/-- The record puts no live version of `s` above `v`, and does not take `v` away. -/
def LeavesLatest (s : String) (v : SchemaVersion) : TopicRecord → Prop
  | .schema _ (some value) =>
    value.subject = s → if value.deleted then value.version ≠ v else value.version ≤ v
  | .schema k none => k ≠ ⟨s, v⟩
  | .deleteSubject s' (some _) => s' ≠ s
  | _ => True

instance (s : String) (v : SchemaVersion) : DecidablePred (LeavesLatest s v) := fun r =>
  match r with
  | .schema _ (some value) => inferInstanceAs (Decidable
    (value.subject = s → if value.deleted then value.version ≠ v else value.version ≤ v))
  | .schema k none => inferInstanceAs (Decidable (k ≠ ⟨s, v⟩))
  | .deleteSubject s' (some _) => inferInstanceAs (Decidable (s' ≠ s))
  | .deleteSubject _ none | .config _ _ | .mode _ _ | .versionHighWater _ _ | .barrier _ _ =>
    .isTrue trivial

/-! ## One record -/

/-- A value of the subject moves the latest version if it flags that one or is live above it. The
proof looks at the written version alone; all others keep their entries. -/
private theorem valued_iff {value : SchemaValue} (hlive : isLive (entryOf st s v) = true)
    (hgreatest : ∀ v', isLive (entryOf st s v') = true → v' ≤ v) :
    (if value.deleted then value.version ≠ v else value.version ≤ v) ↔
      isLive (if value.version = v then some ⟨value.version, value.id, value.deleted⟩
        else entryOf st s v) = true ∧
      ∀ v', isLive (if value.version = v' then some ⟨value.version, value.id, value.deleted⟩
        else entryOf st s v') = true → v' ≤ v := by
  cases hdel : value.deleted with
  -- A deleted entry takes its version away; a live one may only stand at or below the latest.
  | true =>
    rw [if_pos rfl]
    constructor
    · intro hne
      refine ⟨by rwa [if_neg hne], fun v' hv' => ?_⟩
      by_cases hv : value.version = v'
      · simp [hv, isLive] at hv'
      · rw [if_neg hv] at hv'
        exact hgreatest v' hv'
    · rintro ⟨hflag, _⟩ heq
      simp [heq, isLive] at hflag
  | false =>
    rw [if_neg (by simp)]
    constructor
    · intro hle
      refine ⟨?_, fun v' hv' => ?_⟩
      · by_cases hv : value.version = v
        · simp [hv, isLive]
        · rwa [if_neg hv]
      · by_cases hv : value.version = v'
        · rwa [← hv]
        · rw [if_neg hv] at hv'
          exact hgreatest v' hv'
    · rintro ⟨_, hall⟩
      exact hall value.version (by simp [isLive])

/-- The latest version stays the latest exactly when the record leaves it. The latest version is the
greatest live one, so only the live entries of the subject have to be followed through the record.
-/
theorem leavesLatest_iff (h : WellFormed st) (hlatest : IsLatest st s v) (r : TopicRecord) :
    LeavesLatest s v r ↔ IsLatest (applyTopicRecord F st r) s v := by
  obtain ⟨hlive, hgreatest⟩ := (isLatest_iff h).mp hlatest
  rw [isLatest_iff (applyTopicRecord_wellFormed h r)]
  simp only [entryOf_applyTopicRecord h]
  -- A record that moves no binding of the subject leaves the latest version.
  have hidle : (∀ v', entryStep s v' (entryOf st s v') r = entryOf st s v') →
      (isLive (entryStep s v (entryOf st s v) r) = true ∧
        ∀ v', isLive (entryStep s v' (entryOf st s v') r) = true → v' ≤ v) := by
    intro hstep
    simp only [hstep]
    exact ⟨hlive, hgreatest⟩
  cases r with
  | schema k value =>
    cases value with
    -- A tombstone takes the latest version away exactly when it is the one removed.
    | none =>
      simp only [LeavesLatest, entryStep]
      by_cases hk : k = ⟨s, v⟩
      · simp [hk, isLive]
      · refine iff_of_true hk ⟨?_, fun v' hv' => ?_⟩
        · rwa [if_neg hk]
        · by_cases hk' : k = ⟨s, v'⟩
          · simp [hk', isLive] at hv'
          · rw [if_neg hk'] at hv'
            exact hgreatest v' hv'
    | some value =>
      by_cases hs : value.subject = s
      · simp only [LeavesLatest, entryStep, hs, true_and, true_implies]
        exact valued_iff hlive hgreatest
      · refine iff_of_true (fun hs' => absurd hs' hs) (hidle fun v' => ?_)
        simp [entryStep, hs]
  | deleteSubject s' value =>
    cases value with
    | none => exact iff_of_true trivial (hidle fun _ => rfl)
    | some value =>
      by_cases hs : s' = s
      -- A delete of the subject leaves no version live.
      · refine iff_of_false (fun hne => hne hs) ?_
        rintro ⟨hstep, _⟩
        rw [entryStep, if_pos hs] at hstep
        cases hentry : entryOf st s v <;> simp [hentry, isLive] at hstep
      · refine iff_of_true hs (hidle fun v' => ?_)
        rw [entryStep, if_neg hs]
  | config s' level => exact iff_of_true trivial (hidle fun _ => rfl)
  | mode s' m => exact iff_of_true trivial (hidle fun _ => rfl)
  | versionHighWater s' next => exact iff_of_true trivial (hidle fun _ => rfl)
  | barrier token present => exact iff_of_true trivial (hidle fun _ => rfl)

/-! ## Whole interleavings -/

private theorem isLatest_replay (recs : List TopicRecord) {st : StoreState} (h : WellFormed st)
    (hlatest : IsLatest st s v) (hrecs : ∀ r ∈ recs, LeavesLatest s v r) :
    IsLatest (replay F st recs) s v := by
  induction recs generalizing st with
  | nil => exact hlatest
  | cons r recs ih =>
    obtain ⟨hr, hrest⟩ := List.forall_mem_cons.mp hrecs
    exact ih (applyTopicRecord_wellFormed h r) ((leavesLatest_iff h hlatest r).mp hr) hrest

/-- In every interleaving in which no record of another request puts a live version above the
resolved one or takes that one away, what is marked deleted is the latest version at the time. -/
theorem latest_deleted {t₀ t : List (World × Event)} {w₀ w : World} {recs : List TopicRecord}
    (h₀ : Run F d mayDrop t₀ w₀) (h : LatestDelete F d mayDrop s v w₀ t w recs)
    (hleaves : ∀ p ∈ t, ∀ r ∈ p.1.appended F p.2, LeavesLatest s v r) :
    IsLatest w.state s v ∧ ∃ id reg, recs = [deletedRecord s v id reg] := by
  have hst₀ : Consistent F w₀.state := Run.consistent h₀
  have hkept := Trace.invariant (I := fun w => Consistent F w.state ∧ IsLatest w.state s v)
    (C := fun w l => Live l ∧ ∀ r ∈ w.appended F l, LeavesLatest s v r)
    ⟨hst₀, resolveDeleted_latest hst₀ h.resolved⟩ ?_ h.others
    (fun p hp => ⟨h.live p hp, hleaves p hp⟩)
  · obtain ⟨hst, hlatest⟩ := hkept
    obtain ⟨e, reg, _, _, _, hrecs⟩ := softDeleteVersion_ok hst.wellFormed h.decided
    exact ⟨hlatest, e.id, reg, hrecs⟩
  · rintro w₁ l w₂ ⟨hlive, hrecs⟩ hs ⟨hst, hlatest⟩
    refine ⟨hs.consistent hst, ?_⟩
    rw [hs.appended hlive]
    exact isLatest_replay _ hst.wellFormed hlatest hrecs

/-- Two schemas of one subject. -/
def requestFirst : RegisterSchema := { subject := "a", ty := .json, schema := "true" }

def requestSecond : RegisterSchema := { subject := "a", ty := .json, schema := "\x7b\x7d" }

private theorem deleteResolved_of_answer (st : StoreState) (s : String) (permanent : Bool)
    (v : SchemaVersion) (h : (deleteResolved st s permanent v).map (·.2) = .ok v) :
    ∃ recs, deleteResolved st s permanent v = .ok (recs, v) := by
  cases hdel : deleteResolved st s permanent v with
  | error e => simp [hdel, Except.map] at h
  | ok p =>
    have hv : p.2 = v := by simpa [hdel, Except.map] using h
    exact ⟨p.1, by rw [← hv]⟩

/-- What does not move the latest version of `a`: an earlier version of it goes, its level is set,
and another subject gets a version and loses it. -/
def besideOps : List Op :=
  [.softDeleteVersion "a" 1, .register { requestFirst with subject := "b" },
    .setCompat (some "a") "NONE", .softDeleteSubject "b"]

theorem latest_deleted_beside_others :
    let w₀ := (World.start {}).afterAll Formats.sample
      [.register requestFirst, .setCompat none "NONE", .register requestSecond]
    IsLatest (w₀.afterAll Formats.sample besideOps).state "a" 2 := by
  intro w₀
  have h₀ : Run Formats.sample {} mayDropNothing _ w₀ :=
    Run.steps (Trace.nil (World.start {}))
      [.register requestFirst, .setCompat none "NONE", .register requestSecond]
      (by decide +kernel)
  have hothers : Trace (Step Formats.sample {} mayDropNothing) w₀ _
      (w₀.afterAll Formats.sample besideOps) :=
    Step.trace_steps (Trace.nil w₀) besideOps (by decide +kernel)
  obtain ⟨recs, hdel⟩ := deleteResolved_of_answer
    (w₀.afterAll Formats.sample besideOps).state "a" false 2 (by decide +kernel)
  exact (latest_deleted h₀ ⟨by decide +kernel, hothers, by decide +kernel, hdel⟩
    (by decide +kernel)).1

/-- A registration of the same subject in between is left live above the deleted version. -/
theorem stale_latest_deleted :
    ∃ t₀ w₀ t w recs, Run Formats.sample {} mayDropNothing t₀ w₀ ∧
      LatestDelete Formats.sample {} mayDropNothing "a" 1 w₀ t w recs ∧
      ¬ IsLatest w.state "a" 1 := by
  let w₀ := (World.start {}).afterAll Formats.sample [.register requestFirst]
  let w := w₀.afterAll Formats.sample [.register requestSecond]
  have h₀ : Run Formats.sample {} mayDropNothing _ w₀ :=
    Run.steps (Trace.nil (World.start {})) [.register requestFirst] (by decide +kernel)
  have hothers : Trace (Step Formats.sample {} mayDropNothing) w₀ _ w :=
    Step.trace_steps (Trace.nil w₀) [.register requestSecond] (by decide +kernel)
  obtain ⟨recs, hdel⟩ := deleteResolved_of_answer w.state "a" false 1 (by decide +kernel)
  exact ⟨_, w₀, _, w, recs, h₀, ⟨by decide +kernel, hothers, by decide +kernel, hdel⟩,
    by decide +kernel⟩

end KrabkaRegistry.Guarantees
