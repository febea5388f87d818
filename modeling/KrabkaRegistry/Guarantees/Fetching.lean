import KrabkaRegistry.Library.Attempts
import KrabkaRegistry.Serde.Fetch

/-!
# Fetches of Writer Schemas

What the deserialize side of the cache does over a whole run, for every interleaving of reads, ends
of fetches, `prewarm` and seeds.

- `reads_follow_history`: the answer to a read, and whether it spawns a fetch, is what the history
  of the id says;
- `fetches_spaced`: an id has at most one fetch in flight, a fetch follows a transient failure only,
  and no earlier than the retry delay after it, however many reads there are;
- `settled_not_fetched`: an id that has a schema, or that the registry has answered for good, is
  not fetched again;
- `retry_delays`: the delay grows with the attempts, within the bounds of the policy.
-/

namespace KrabkaRegistry.Guarantees

open KrabkaRegistry.Library.Attempts
open KrabkaRegistry.Library.Seconds
open KrabkaRegistry.Serde

/-! ## The history of an id -/

/-- The writer schema that a step keeps under an id. -/
def installed (id : UInt32) : CacheEvent → Option WriterSchema
  | .prewarmed _ r => if r.id = id then some r.writerSchema else none
  | .seedWriterSchema id' schema references =>
    if id' = id then
      some ⟨schema, Std.ExtTreeMap.ofList references compare, references.map (·.1)⟩
    else none
  | .fetched id' _ (.ok (schema, _)) => if id' = id then some schema else none
  | _ => none

/-- The writer schema that was kept last under an id. -/
def lastInstalled (events : List CacheEvent) (id : UInt32) : Option WriterSchema :=
  events.reverse.findSome? (installed id)

/-- What follows the `n`th transient failure of an id in a row. -/
def delays (policy : SchemaFetchRetryPolicy) (id : UInt32) (n : ℕ) : Duration :=
  policy.retryDelay id (UInt32.ofNat (min n 4294967295))

/-- The answer to a read of an id, and whether it spawns a fetch, from the schema kept last and
from the fetches of the id. -/
def expected (policy : SchemaFetchRetryPolicy) (id : UInt32) (now : Instant)
    (kept : Option WriterSchema) (fetches : List Fetch) : Except ReadError WriterSchema × Bool :=
  match kept with
  | some schema => (.ok schema, false)
  | none =>
    match fetches with
    | [] => (.error (.writerSchemaPending id), true)
    | f :: _ =>
      match f.ended with
      | some (failed, .error e) =>
        if e.isTransientRegistryFailure then
          (.error (.writerSchemaPending id), failed + delays policy id fetches.length ≤ now)
        else (.error (.writerSchemaUnavailable id e.display), false)
      -- A fetch is in flight.
      | _ => (.error (.writerSchemaPending id), false)

/-- A fetch that failed and may be tried again. -/
def failure? (f : Fetch) : Option Attempt :=
  match f.ended with
  | some (failed, .error e) =>
    if e.isTransientRegistryFailure then some ⟨f.started, failed⟩ else none
  | _ => none

/-- Fetches of which all but the newest failed, each spawned when it might be. -/
def Retried (delay : ℕ → ℕ) : List Fetch → Prop
  | [] => True
  | f :: fs => ∃ as, fs.map failure? = as.map some ∧ Spaced delay as ∧ Ready delay as f.started

/-! ## What the cache remembers -/

/-- The attempts that are counted after that many failures. -/
def attemptsAfter (n : ℕ) : Option UInt32 :=
  if n = 0 then none else some (UInt32.ofNat (min n 4294967295))

/-- What the cache holds of an id under which it keeps no schema. -/
inductive Remembers (policy : SchemaFetchRetryPolicy) (id : UInt32) (c : SchemaCache) :
    List Fetch → Prop where
  | fresh (hunavailable : c.unavailableSchemas[id]? = none) (hretry : c.retryAfter[id]? = none)
      (hattempts : c.retryAttempts[id]? = none) : Remembers policy id c []
  | inFlight {f : Fetch} {fs : List Fetch} (hended : f.ended = none)
      (hunavailable : c.unavailableSchemas[id]? = none)
      (hattempts : c.retryAttempts[id]? = attemptsAfter fs.length) : Remembers policy id c (f :: fs)
  | failed {f : Fetch} {fs : List Fetch} {failed : Instant} {e : RegistryError}
      (hended : f.ended = some (failed, .error e)) (he : e.isTransientRegistryFailure = true)
      (hunavailable : c.unavailableSchemas[id]? = none)
      (hretry : c.retryAfter[id]? = some (failed + delays policy id (fs.length + 1)))
      (hattempts : c.retryAttempts[id]? = attemptsAfter (fs.length + 1)) :
      Remembers policy id c (f :: fs)
  | unavailable {f : Fetch} {fs : List Fetch} {failed : Instant} {e : RegistryError}
      (hended : f.ended = some (failed, .error e)) (he : e.isTransientRegistryFailure = false)
      (hunavailable : c.unavailableSchemas[id]? = some e.display) : Remembers policy id c (f :: fs)

/-- The cache agrees with the history of an id. -/
structure Tracks (policy : SchemaFetchRetryPolicy) (id : UInt32) (kept : Option WriterSchema)
    (r : Running) : Prop where
  keeps : r.cache.idWriterSchema[id]? = kept
  fetching : id ∈ r.cache.fetching ↔ ∃ f, (r.fetchesOf id).head? = some f ∧ f.ended = none
  remembers : kept = none → Remembers policy id r.cache (r.fetchesOf id)
  retried : Retried (delays policy id) (r.fetchesOf id)
  started : ∀ f ∈ r.fetchesOf id, f.started ≤ r.clock
  ended : ∀ f ∈ r.fetchesOf id, ∀ t o, f.ended = some (t, o) → f.started ≤ t

variable {policy : SchemaFetchRetryPolicy} {id : UInt32} {kept : Option WriterSchema}
  {r r' : Running}

/-- An empty cache remembers nothing, and nothing was fetched. -/
theorem tracks_start (policy : SchemaFetchRetryPolicy) (id : UInt32) :
    Tracks policy id none {} where
  keeps := rfl
  fetching := by simp [Running.fetchesOf]
  remembers := fun _ => .fresh rfl rfl rfl
  retried := trivial
  started := by simp [Running.fetchesOf]
  ended := by simp [Running.fetchesOf]

/-- Two caches that hold the same of an id. -/
structure SameAt (id : UInt32) (c c' : SchemaCache) : Prop where
  keeps : c'.idWriterSchema[id]? = c.idWriterSchema[id]?
  fetching : id ∈ c'.fetching ↔ id ∈ c.fetching
  unavailable : c'.unavailableSchemas[id]? = c.unavailableSchemas[id]?
  retryAfter : c'.retryAfter[id]? = c.retryAfter[id]?
  retryAttempts : c'.retryAttempts[id]? = c.retryAttempts[id]?

/-- What is remembered about an id depends on the cache at that id alone. -/
theorem Remembers.sameAt {c c' : SchemaCache} {fs : List Fetch} (h : Remembers policy id c fs)
    (hsame : SameAt id c c') : Remembers policy id c' fs := by
  cases h with
  | fresh hunavailable hretry hattempts =>
    exact .fresh (hsame.unavailable.trans hunavailable) (hsame.retryAfter.trans hretry)
      (hsame.retryAttempts.trans hattempts)
  | inFlight hended hunavailable hattempts =>
    exact .inFlight hended (hsame.unavailable.trans hunavailable)
      (hsame.retryAttempts.trans hattempts)
  | failed hended he hunavailable hretry hattempts =>
    exact .failed hended he (hsame.unavailable.trans hunavailable) (hsame.retryAfter.trans hretry)
      (hsame.retryAttempts.trans hattempts)
  | unavailable hended he hunavailable =>
    exact .unavailable hended he (hsame.unavailable.trans hunavailable)

/-- A step that does not concern the id. -/
theorem Tracks.frame (h : Tracks policy id kept r) (hsame : SameAt id r.cache r'.cache)
    (hfetches : r'.fetchesOf id = r.fetchesOf id) (hclock : r.clock ≤ r'.clock) :
    Tracks policy id kept r' where
  keeps := hsame.keeps.trans h.keeps
  fetching := by rw [hsame.fetching, hfetches, h.fetching]
  remembers hnone := by
    rw [hfetches]
    exact (h.remembers hnone).sameAt hsame
  retried := by
    rw [hfetches]
    exact h.retried
  started f hf := by
    rw [hfetches] at hf
    exact (h.started f hf).trans hclock
  ended := by
    rw [hfetches]
    exact h.ended

/-- A step that keeps a schema under the id. -/
theorem Tracks.keep {schema : WriterSchema} (h : Tracks policy id kept r)
    (hkept : r'.cache.idWriterSchema[id]? = some schema)
    (hfetching : r'.cache.fetching = r.cache.fetching) (hfetches : r'.fetches = r.fetches)
    (hclock : r'.clock = r.clock) : Tracks policy id (some schema) r' where
  keeps := hkept
  fetching := by rw [hfetching, Running.fetchesOf, hfetches, h.fetching, Running.fetchesOf]
  remembers := by simp
  retried := by
    rw [Running.fetchesOf, hfetches]
    exact h.retried
  started := by
    rw [Running.fetchesOf, hfetches, hclock]
    exact h.started
  ended := by
    rw [Running.fetchesOf, hfetches]
    exact h.ended

/-! ## Steps -/

/-- What a read does where no schema is kept and none is known to be unavailable. -/
theorem read_cases (c : SchemaCache) (id : UInt32) (now : Instant) :
    (∃ schema, c.idWriterSchema[id]? = some schema ∧
      c.writerSchemaWithReferences id now = ⟨.ok schema, false, c⟩) ∨
    (c.idWriterSchema[id]? = none ∧ ∃ reason, c.unavailableSchemas[id]? = some reason ∧
      c.writerSchemaWithReferences id now =
        ⟨.error (.writerSchemaUnavailable id reason), false, c⟩) ∨
    (c.idWriterSchema[id]? = none ∧ c.unavailableSchemas[id]? = none ∧
      (c.retryAfter[id]?.any (now < ·) = true ∨ id ∈ c.fetching) ∧
      c.writerSchemaWithReferences id now = ⟨.error (.writerSchemaPending id), false, c⟩) ∨
    (c.idWriterSchema[id]? = none ∧ c.unavailableSchemas[id]? = none ∧
      c.retryAfter[id]?.any (now < ·) = false ∧ id ∉ c.fetching ∧
      c.writerSchemaWithReferences id now = ⟨.error (.writerSchemaPending id), true,
        { c with fetching := insert id c.fetching }⟩) := by
  unfold SchemaCache.writerSchemaWithReferences
  -- The order of the source: the schema, then the final failure, then the delay and the fetch in
  -- flight.
  cases hschema : c.idWriterSchema[id]? with
  | some schema => exact .inl ⟨schema, rfl, rfl⟩
  | none =>
    refine .inr ?_
    cases hunavailable : c.unavailableSchemas[id]? with
    | some reason => exact .inl ⟨rfl, reason, rfl, rfl⟩
    | none =>
      refine .inr ?_
      by_cases hretry : c.retryAfter[id]?.any (now < ·) = true
      · exact .inl ⟨rfl, rfl, .inl hretry, if_pos hretry⟩
      · by_cases hfetching : id ∈ c.fetching
        · exact .inl ⟨rfl, rfl, .inr hfetching, (if_neg hretry).trans (if_pos hfetching)⟩
        · exact .inr ⟨rfl, rfl, eq_false_of_ne_true hretry, hfetching,
            (if_neg hretry).trans (if_neg hfetching)⟩

/-- A finished fetch is for the id it was started for. -/
@[simp] theorem finish_id {id' : UInt32} {now : Instant} {outcome : FetchOutcome} {f : Fetch} :
    (f.finish id' now outcome).id = f.id := by
  unfold Fetch.finish
  split_ifs <;> rfl

/-- The fetches of an id can be picked out before or after one of them finishes. -/
theorem filter_finish {id' : UInt32} {now : Instant} {outcome : FetchOutcome} (fs : List Fetch) :
    (fs.map (Fetch.finish id' now outcome)).filter (·.id = id) =
      (fs.filter (·.id = id)).map (Fetch.finish id' now outcome) := by
  rw [List.filter_map]
  congr 2
  funext f
  simp

/-- An end that is not for these fetches changes none of them. -/
theorem map_finish_of_forall {id' : UInt32} {now : Instant} {outcome : FetchOutcome}
    {fs : List Fetch} (h : ∀ f ∈ fs, f.id ≠ id' ∨ f.ended ≠ none) :
    fs.map (Fetch.finish id' now outcome) = fs := by
  conv_rhs => rw [← List.map_id fs]
  apply List.map_congr_left
  intro f hf
  rw [Fetch.finish, if_neg, id_eq]
  rintro ⟨hid, hended⟩
  rcases h f hf with hother | hdone
  · exact hother hid
  · exact hdone (Option.isNone_iff_eq_none.mp hended)

/-- Older fetches have all ended. -/
theorem ended_of_retried {f g : Fetch} {fs : List Fetch} {delay : ℕ → ℕ}
    (h : Retried delay (f :: fs)) (hg : g ∈ fs) : g.ended ≠ none := by
  obtain ⟨as, has, _⟩ := h
  intro hnone
  have hfailed : failure? g ∈ as.map some := by
    rw [← has]
    exact List.mem_map_of_mem hg
  obtain ⟨a, _, ha⟩ := List.mem_map.mp hfailed
  rw [failure?, hnone] at ha
  cases ha

/-- The newest fetch of an id is the one in flight. -/
theorem exists_inFlight (h : Retried (delays policy id) (r.fetchesOf id))
    (hflight : ∃ f ∈ r.fetches, f.id = id ∧ f.ended.isNone) :
    ∃ f fs, r.fetchesOf id = f :: fs ∧ f.ended = none := by
  obtain ⟨f, hf, hid, hended⟩ := hflight
  have hmem : f ∈ r.fetchesOf id := by
    rw [Running.fetchesOf, List.mem_filter]
    exact ⟨hf, by simpa using hid⟩
  cases hfs : r.fetchesOf id with
  | nil =>
    rw [hfs] at hmem
    cases hmem
  | cons g gs =>
    rw [hfs] at h hmem
    refine ⟨g, gs, rfl, ?_⟩
    rcases List.mem_cons.mp hmem with rfl | hold
    · exact Option.isNone_iff_eq_none.mp hended
    · exact absurd (Option.isNone_iff_eq_none.mp hended) (ended_of_retried h hold)

/-- The end of a fetch is noted in the fetch that is in flight. -/
theorem fetchesOf_finish {f : Fetch} {fs : List Fetch} {now : Instant} {outcome : FetchOutcome}
    (h : Retried (delays policy id) (f :: fs)) (hfs : r.fetchesOf id = f :: fs)
    (hended : f.ended = none) :
    (r.fetches.map (Fetch.finish id now outcome)).filter (·.id = id) =
      { f with ended := some (now, outcome) } :: fs := by
  have hid : f.id = id := by
    have hmem : f ∈ r.fetchesOf id := by
      rw [hfs]
      exact List.mem_cons_self
    simpa using (List.mem_filter.mp hmem).2
  rw [filter_finish, ← Running.fetchesOf, hfs, List.map_cons,
    map_finish_of_forall fun g hg => .inr (ended_of_retried h hg), Fetch.finish,
    if_pos ⟨hid, by rw [hended]; rfl⟩]

/-- Its end leaves the fetches of other ids alone. -/
theorem fetchesOf_finish_of_ne {id' : UInt32} {now : Instant} {outcome : FetchOutcome}
    (h : id' ≠ id) :
    (r.fetches.map (Fetch.finish id' now outcome)).filter (·.id = id) = r.fetchesOf id := by
  rw [filter_finish, ← Running.fetchesOf]
  apply map_finish_of_forall
  intro f hf
  have hid : f.id = id := by simpa using (List.mem_filter.mp hf).2
  exact .inl (by rw [hid]; exact h.symm)

/-- One more attempt is counted. -/
theorem nextAttempt_attemptsAfter (n : ℕ) :
    ((attemptsAfter n).map SchemaCache.nextAttempt).getD 1 =
      UInt32.ofNat (min (n + 1) 4294967295) := by
  unfold attemptsAfter
  split_ifs with hzero
  · rw [hzero]
    rfl
  · rw [Option.map_some, Option.getD_some, SchemaCache.nextAttempt]
    rcases lt_or_ge n 4294967295 with hlt | hge
    · have hne : UInt32.ofNat n ≠ 4294967295 := by
        intro heq
        have hn : n % 2 ^ 32 = 4294967295 := by
          rw [← UInt32.toNat_ofNat']
          exact congrArg UInt32.toNat heq
        omega
      rw [min_eq_left hlt.le, min_eq_left (Nat.succ_le_of_lt hlt), if_neg hne]
      exact (UInt32.ofNat_add n 1).symm
    · -- The count stays at its maximum.
      rw [min_eq_right hge, min_eq_right (hge.trans (Nat.le_succ n))]
      exact if_pos rfl

/-! ## Reads -/

/-- An id is marked as being fetched exactly while its latest fetch is in flight. -/
theorem fetching_of_inFlight {f : Fetch} {fs : List Fetch} (h : Tracks policy id kept r)
    (hfs : r.fetchesOf id = f :: fs) : id ∈ r.cache.fetching ↔ f.ended = none := by
  rw [h.fetching, hfs]
  simp

/-- Without a fetch it is not marked. -/
theorem not_fetching_of_nil (h : Tracks policy id kept r) (hfs : r.fetchesOf id = []) :
    id ∉ r.cache.fetching := by
  rw [h.fetching, hfs]
  simp

/-- A read of an id, from the history of the id. The four cases are those of the code; in each of
them what the cache remembers leaves one kind of history. -/
theorem read_expected (h : Tracks policy id kept r) (now : Instant) :
    ((r.cache.writerSchemaWithReferences id now).answer,
      (r.cache.writerSchemaWithReferences id now).spawned) =
        expected policy id now kept (r.fetchesOf id) := by
  rcases read_cases r.cache id now with ⟨schema, hschema, hread⟩ |
    ⟨hschema, reason, hreason, hread⟩ | ⟨hschema, havailable, hwait, hread⟩ |
    ⟨hschema, havailable, hretry, hfetching, hread⟩
  · obtain rfl : kept = some schema := h.keeps.symm.trans hschema
    rw [hread]
    rfl
  · obtain rfl : kept = none := h.keeps.symm.trans hschema
    rw [hread]
    generalize hfs : r.fetchesOf id = fs
    have hremembers := h.remembers rfl
    rw [hfs] at hremembers
    cases hremembers with
    | fresh hunavailable => rw [hunavailable] at hreason; cases hreason
    | inFlight _ hunavailable => rw [hunavailable] at hreason; cases hreason
    | failed _ _ hunavailable => rw [hunavailable] at hreason; cases hreason
    | unavailable hended he hunavailable =>
      obtain rfl := Option.some.inj (hunavailable.symm.trans hreason)
      simp [expected, hended, he]
  · obtain rfl : kept = none := h.keeps.symm.trans hschema
    rw [hread]
    generalize hfs : r.fetchesOf id = fs
    have hremembers := h.remembers rfl
    rw [hfs] at hremembers
    cases hremembers with
    | fresh _ hretry =>
      rw [hretry] at hwait
      exact absurd (hwait.resolve_left (by simp)) (not_fetching_of_nil h hfs)
    | inFlight hended => simp [expected, hended]
    | failed hended he _ hretry =>
      -- Not in flight, so that it is too early.
      have hnot : id ∉ r.cache.fetching := by
        rw [fetching_of_inFlight h hfs, hended]
        simp
      have hearly := hwait.resolve_right hnot
      rw [hretry, Option.any_some, decide_eq_true_eq] at hearly
      simp [expected, hended, he, hearly]
    | unavailable _ _ hunavailable => rw [hunavailable] at havailable; cases havailable
  · obtain rfl : kept = none := h.keeps.symm.trans hschema
    rw [hread]
    generalize hfs : r.fetchesOf id = fs
    have hremembers := h.remembers rfl
    rw [hfs] at hremembers
    cases hremembers with
    | fresh => rfl
    | inFlight hended => exact absurd ((fetching_of_inFlight h hfs).mpr hended) hfetching
    | failed hended he _ hretry' =>
      rw [hretry', Option.any_some, decide_eq_false_iff_not, not_lt] at hretry
      simp [expected, hended, he, hretry]
    | unavailable _ _ hunavailable => rw [hunavailable] at havailable; cases havailable

/-- A read that spawns no fetch changes the clock alone. -/
theorem Tracks.clock {now : Instant} (h : Tracks policy id kept r) (hclock : r.clock ≤ now) :
    Tracks policy id kept { r with clock := now } :=
  h.frame ⟨rfl, Iff.rfl, rfl, rfl, rfl⟩ rfl hclock

/-- A read that spawns a fetch. Nothing is in flight and the delay of the last failure has passed,
so all fetches so far have failed and the new one is spaced from them. -/
theorem tracks_spawned {now : Instant} (h : Tracks policy id none r) (hclock : r.clock ≤ now)
    (havailable : r.cache.unavailableSchemas[id]? = none)
    (hretry : r.cache.retryAfter[id]?.any (now < ·) = false) (hfetching : id ∉ r.cache.fetching) :
    Tracks policy id none
      { cache := { r.cache with fetching := insert id r.cache.fetching }, clock := now,
        fetches := ⟨id, now, none⟩ :: r.fetches } := by
  have hfetches : (({ id := id, started := now } : Fetch) :: r.fetches).filter (·.id = id) =
      ⟨id, now, none⟩ :: r.fetchesOf id :=
    List.filter_cons_of_pos (by simp)
  -- What the cache remembers says why a fetch may be spawned.
  have hspawn : r.cache.retryAttempts[id]? = attemptsAfter (r.fetchesOf id).length ∧
      ∃ as, (r.fetchesOf id).map failure? = as.map some ∧ Spaced (delays policy id) as ∧
        Ready (delays policy id) as now := by
    have hretried := h.retried
    have hended := h.ended
    generalize hfs : r.fetchesOf id = fs at hretried hended
    have hremembers := h.remembers rfl
    rw [hfs] at hremembers
    cases hremembers with
    | fresh _ _ hattempts => exact ⟨hattempts, [], rfl, trivial, trivial⟩
    | inFlight hflight => exact absurd ((fetching_of_inFlight h hfs).mpr hflight) hfetching
    | @failed f fs failed e hfailed he _ hretry' hattempts =>
      obtain ⟨as, has, hspaced, hready⟩ := hretried
      refine ⟨hattempts, ⟨f.started, failed⟩ :: as, ?_, ?_, ?_⟩
      · rw [List.map_cons, List.map_cons, ← has, failure?, hfailed]
        simp [he]
      · exact ⟨hready, hended f List.mem_cons_self failed _ hfailed, hspaced⟩
      · have hlength : as.length = fs.length := by
          rw [← List.length_map (f := some), ← has, List.length_map]
        rw [hretry', Option.any_some, decide_eq_false_iff_not, not_lt] at hretry
        rw [Ready, hlength]
        exact hretry
    | unavailable _ _ hunavailable => rw [hunavailable] at havailable; cases havailable
  obtain ⟨hattempts, as, has, hspaced, hready⟩ := hspawn
  -- The new fetch is the newest of the id, and in flight.
  refine ⟨h.keeps, ?_, fun _ => ?_, ?_, ?_, ?_⟩
  · simp [Running.fetchesOf]
  · rw [Running.fetchesOf, hfetches]
    exact .inFlight rfl havailable hattempts
  · rw [Running.fetchesOf, hfetches]
    exact ⟨as, has, hspaced, hready⟩
  · intro f hf
    rw [Running.fetchesOf, hfetches] at hf
    rcases List.mem_cons.mp hf with rfl | hold
    · exact le_rfl
    · exact (h.started f hold).trans hclock
  · intro f hf t o ht
    rw [Running.fetchesOf, hfetches] at hf
    rcases List.mem_cons.mp hf with rfl | hold
    · cases ht
    · exact h.ended f hold t o ht

/-- A read spawns a fetch or changes nothing but the clock. -/
theorem tracks_read {now : Instant} (h : Tracks policy id kept r) (hclock : r.clock ≤ now) :
    Tracks policy id kept
      { cache := (r.cache.writerSchemaWithReferences id now).cache, clock := now,
        fetches := if (r.cache.writerSchemaWithReferences id now).spawned then
          ⟨id, now, none⟩ :: r.fetches else r.fetches } := by
  rcases read_cases r.cache id now with ⟨_, _, hread⟩ | ⟨_, _, _, hread⟩ | ⟨_, _, _, hread⟩ |
    ⟨hschema, havailable, hretry, hfetching, hread⟩
  · rw [hread]
    exact h.clock hclock
  · rw [hread]
    exact h.clock hclock
  · rw [hread]
    exact h.clock hclock
  · obtain rfl : kept = none := h.keeps.symm.trans hschema
    rw [hread]
    exact tracks_spawned h hclock havailable hretry hfetching

/-! ## Ends of fetches -/

/-- What does not depend on how a fetch ended. It is the newest one of its id, so the fetches before
it are untouched; what the cache remembers of it is given. -/
theorem tracks_finish {now : Instant} {outcome : FetchOutcome} {c : SchemaCache} {f : Fetch}
    {fs : List Fetch} (h : Tracks policy id kept r) (hclock : r.clock ≤ now)
    (hfs : r.fetchesOf id = f :: fs) (hended : f.ended = none) {kept' : Option WriterSchema}
    (hkeeps : c.idWriterSchema[id]? = kept') (hfetching : c.fetching = r.cache.fetching.erase id)
    (hremembers : kept' = none →
      Remembers policy id c ({ f with ended := some (now, outcome) } :: fs)) :
    Tracks policy id kept'
      { cache := c, clock := now, fetches := r.fetches.map (Fetch.finish id now outcome) } := by
  have hretried := h.retried
  have hstarted := h.started
  have hold := h.ended
  rw [hfs] at hretried hstarted hold
  -- The fetch that finishes is the latest of the id.
  have hfetches : (r.fetches.map (Fetch.finish id now outcome)).filter (·.id = id) =
      { f with ended := some (now, outcome) } :: fs :=
    fetchesOf_finish hretried hfs hended
  refine ⟨hkeeps, ?_, ?_, ?_, ?_, ?_⟩ <;> rw [Running.fetchesOf, hfetches]
  · rw [hfetching]
    simp
  · exact hremembers
  · exact hretried
  · intro g hg
    rcases List.mem_cons.mp hg with rfl | hg
    · exact (hstarted f List.mem_cons_self).trans hclock
    · exact (hstarted g (List.mem_cons_of_mem _ hg)).trans hclock
  · intro g hg t o ht
    rcases List.mem_cons.mp hg with rfl | hg
    · obtain ⟨rfl, _⟩ := Prod.mk.inj (Option.some.inj ht)
      exact (hstarted f List.mem_cons_self).trans hclock
    · exact hold g (List.mem_cons_of_mem _ hg) t o ht

/-- A fetch that finishes installs its schema, or is remembered as a failure to retry or to give up
on. -/
theorem tracks_fetched {now : Instant} {outcome : FetchOutcome} (h : Tracks policy id kept r)
    (hclock : r.clock ≤ now) (hflight : ∃ f ∈ r.fetches, f.id = id ∧ f.ended.isNone) :
    Tracks policy id ((installed id (.fetched id now outcome)).or kept)
      { cache := r.cache.fetched policy id now outcome, clock := now,
        fetches := r.fetches.map (Fetch.finish id now outcome) } := by
  obtain ⟨f, fs, hfs, hended⟩ := exists_inFlight h.retried hflight
  cases outcome with
  | ok found =>
    obtain ⟨schema, messageType⟩ := found
    rw [installed, if_pos rfl, Option.some_or]
    refine tracks_finish h hclock hfs hended ?_ rfl (by simp)
    show (r.cache.idWriterSchema.insert id schema)[id]? = some schema
    rw [BTreeMap.getElem?_insert, if_pos rfl]
  | error e =>
    have hinstalled : installed id (.fetched id now (.error e)) = none := rfl
    rw [hinstalled, Option.none_or]
    by_cases he : e.isTransientRegistryFailure = true
    · have hfetched : r.cache.fetched policy id now (.error e) = _ := if_pos he
      rw [hfetched]
      refine tracks_finish h hclock hfs hended h.keeps rfl fun hnone => ?_
      have hremembers := h.remembers hnone
      rw [hfs] at hremembers
      -- The failure is counted on top of those before.
      cases hremembers with
      | inFlight _ hunavailable hattempts =>
        refine .failed rfl he hunavailable ?_ ?_
        · rw [BTreeMap.getElem?_insert, if_pos rfl, hattempts, nextAttempt_attemptsAfter]
          rfl
        · rw [BTreeMap.getElem?_insert, if_pos rfl, hattempts, nextAttempt_attemptsAfter,
            attemptsAfter, if_neg (Nat.succ_ne_zero _)]
      | failed hfailed => rw [hended] at hfailed; cases hfailed
      | unavailable hfailed => rw [hended] at hfailed; cases hfailed
    · have hfetched : r.cache.fetched policy id now (.error e) = _ := if_neg he
      rw [hfetched]
      refine tracks_finish h hclock hfs hended h.keeps rfl fun _ => ?_
      exact .unavailable rfl (eq_false_of_ne_true he)
        (by rw [BTreeMap.getElem?_insert, if_pos rfl])

/-! ## Other ids -/

/-- The outcome for one id does not touch another. -/
theorem sameAt_fetched {id' : UInt32} {now : Instant} {outcome : FetchOutcome} {c : SchemaCache}
    (h : id ≠ id') : SameAt id c (c.fetched policy id' now outcome) := by
  have herase : id ∈ c.fetching.erase id' ↔ id ∈ c.fetching := by simp [h]
  cases outcome with
  | ok found =>
    obtain ⟨schema, messageType⟩ := found
    refine ⟨?_, herase, ?_, ?_, ?_⟩
    · exact (BTreeMap.getElem?_insert ..).trans (if_neg h)
    · exact (BTreeMap.getElem?_erase ..).trans (if_neg h)
    · exact (BTreeMap.getElem?_erase ..).trans (if_neg h)
    · exact (BTreeMap.getElem?_erase ..).trans (if_neg h)
  | error e =>
    by_cases he : e.isTransientRegistryFailure = true
    · have hfetched : c.fetched policy id' now (.error e) = _ := if_pos he
      rw [hfetched]
      refine ⟨rfl, herase, rfl, ?_, ?_⟩
      · exact (BTreeMap.getElem?_insert ..).trans (if_neg h)
      · exact (BTreeMap.getElem?_insert ..).trans (if_neg h)
    · have hfetched : c.fetched policy id' now (.error e) = _ := if_neg he
      rw [hfetched]
      refine ⟨rfl, herase, ?_, ?_, ?_⟩
      · exact (BTreeMap.getElem?_insert ..).trans (if_neg h)
      · exact (BTreeMap.getElem?_erase ..).trans (if_neg h)
      · exact (BTreeMap.getElem?_erase ..).trans (if_neg h)

/-- Nor does a read of another id. -/
theorem tracks_read_of_ne {id' : UInt32} {now : Instant} (h : Tracks policy id kept r)
    (hclock : r.clock ≤ now) (hne : id' ≠ id) :
    Tracks policy id kept
      { cache := (r.cache.writerSchemaWithReferences id' now).cache, clock := now,
        fetches := if (r.cache.writerSchemaWithReferences id' now).spawned then
          ⟨id', now, none⟩ :: r.fetches else r.fetches } := by
  rcases read_cases r.cache id' now with ⟨_, _, hread⟩ | ⟨_, _, _, hread⟩ | ⟨_, _, _, hread⟩ |
    ⟨_, _, _, _, hread⟩
  · rw [hread]
    exact h.clock hclock
  · rw [hread]
    exact h.clock hclock
  · rw [hread]
    exact h.clock hclock
  · rw [hread]
    refine h.frame ⟨rfl, ?_, rfl, rfl, rfl⟩ ?_ hclock
    · rw [Finset.mem_insert]
      exact or_iff_right hne.symm
    · exact List.filter_cons_of_neg (by simpa using hne)

/-! ## Runs -/

/-- Every step keeps the agreement of the cache with the history of an id. A step for another id is
framed: it leaves what the cache holds under this one. -/
theorem tracks_step {e : CacheEvent} (h : Tracks policy id kept r)
    (hstep : r.step policy e = some r') : Tracks policy id ((installed id e).or kept) r' := by
  cases e with
  | intern i =>
    obtain rfl := Option.some.inj hstep
    -- Interning does not touch what is kept under an id.
    have hsame : r.cache.toInner.intern i = { r.cache.toInner with
        interned := (r.cache.toInner.intern i).interned } := by
      unfold Inner.intern
      split_ifs <;> rfl
    refine h.frame ⟨?_, Iff.rfl, rfl, rfl, rfl⟩ rfl le_rfl
    show (r.cache.toInner.intern i).idWriterSchema[id]? = _
    rw [hsame]
  | prewarmed i resolved =>
    obtain rfl := Option.some.inj hstep
    have hkeeps : (r.cache.toInner.insert i resolved).idWriterSchema[id]? =
        if id = resolved.id then some resolved.writerSchema else r.cache.idWriterSchema[id]? :=
      BTreeMap.getElem?_insert ..
    by_cases hid : resolved.id = id
    · rw [if_pos hid.symm] at hkeeps
      rw [installed, if_pos hid, Option.some_or]
      exact h.keep hkeeps rfl rfl rfl
    · rw [if_neg (Ne.symm hid)] at hkeeps
      rw [installed, if_neg hid, Option.none_or]
      exact h.frame ⟨hkeeps, Iff.rfl, rfl, rfl, rfl⟩ rfl le_rfl
  -- Seeding installs a schema for its id and forgets the failures there.
  | seedWriterSchema id' schema references =>
    obtain rfl := Option.some.inj hstep
    by_cases hid : id' = id
    · rw [installed, if_pos hid, Option.some_or]
      refine h.keep ?_ rfl rfl rfl
      exact (BTreeMap.getElem?_insert ..).trans (if_pos hid.symm)
    · have hne : id ≠ id' := Ne.symm hid
      rw [installed, if_neg hid, Option.none_or]
      refine h.frame ⟨?_, Iff.rfl, ?_, ?_, ?_⟩ rfl le_rfl
      · exact (BTreeMap.getElem?_insert ..).trans (if_neg hne)
      · exact (BTreeMap.getElem?_erase ..).trans (if_neg hne)
      · exact (BTreeMap.getElem?_erase ..).trans (if_neg hne)
      · exact (BTreeMap.getElem?_erase ..).trans (if_neg hne)
  -- The two other seeds concern maps that no read of a schema looks at.
  | seedWriterMessageType id' messageType =>
    obtain rfl := Option.some.inj hstep
    exact h.frame ⟨rfl, Iff.rfl, rfl, rfl, rfl⟩ rfl le_rfl
  | seedSubjectId subject id' =>
    obtain rfl := Option.some.inj hstep
    exact h.frame ⟨rfl, Iff.rfl, rfl, rfl, rfl⟩ rfl le_rfl
  -- The steps that the clock has to allow.
  | read id' now =>
    rw [Running.step] at hstep
    split_ifs at hstep with hclock
    obtain rfl := Option.some.inj hstep
    by_cases hid : id' = id
    · subst hid
      exact tracks_read h hclock
    · exact tracks_read_of_ne h hclock hid
  | fetched id' now outcome =>
    rw [Running.step] at hstep
    split_ifs at hstep with hlegal
    obtain rfl := Option.some.inj hstep
    by_cases hid : id' = id
    · subst hid
      exact tracks_fetched h hlegal.1 hlegal.2
    · have hinstalled : installed id (.fetched id' now outcome) = none := by
        cases outcome with
        | ok found => exact if_neg hid
        | error e => rfl
      rw [hinstalled, Option.none_or]
      exact h.frame (sameAt_fetched (Ne.symm hid)) (fetchesOf_finish_of_ne hid) hlegal.1

/-- What was installed last, after one more event. -/
theorem lastInstalled_append (events : List CacheEvent) (e : CacheEvent) :
    lastInstalled (events ++ [e]) id = (installed id e).or (lastInstalled events id) := by
  rw [lastInstalled, List.reverse_append, List.reverse_singleton, List.singleton_append,
    List.findSome?_cons, lastInstalled]
  cases installed id e <;> rfl

/-- The cache agrees with the history of every id, in every run. -/
theorem tracks_run {events : List CacheEvent} (h : runCache policy events = some r)
    (id : UInt32) : Tracks policy id (lastInstalled events id) r := by
  induction events using List.reverseRecOn generalizing r with
  | nil =>
    obtain rfl := Option.some.inj h
    exact tracks_start policy id
  | append_singleton events e ih =>
    rw [runCache, List.foldlM_append] at h
    obtain ⟨before, hbefore, hstep⟩ := Option.bind_eq_some_iff.mp h
    rw [List.foldlM_cons] at hstep
    obtain ⟨after, hafter, hlast⟩ := Option.bind_eq_some_iff.mp hstep
    obtain rfl := Option.some.inj hlast
    rw [lastInstalled_append]
    exact tracks_step (ih hbefore) hafter

/-! ## What a read answers -/

/-- The default policy: from ten milliseconds to a second. -/
def defaultPolicy : SchemaFetchRetryPolicy where
  initialBackoff := 10000000
  maxBackoff := 1000000000
  positive := by decide
  ordered := by decide
  fits := by decide

/-- Two fetches that fail, each with a read after it that comes too early, and a seed. -/
def missedRun : List CacheEvent :=
  [.read 7 0, .fetched 7 3 (.error (.registryTransport "connection refused")), .read 7 4,
    .read 7 20000000, .fetched 7 20000003 (.error (.registryTransport "connection refused")),
    .read 7 20000004, .seedWriterSchema 7 "\"string\"" []]

/-- **Reads follow the history.**  In every run the answer to a read, and whether the read spawns
a fetch, is what the schema kept last under the id and the fetches of the id say. -/
theorem reads_follow_history {events : List CacheEvent} (h : runCache policy events = some r)
    (id : UInt32) (now : Instant) :
    ((r.cache.writerSchemaWithReferences id now).answer,
      (r.cache.writerSchemaWithReferences id now).spawned) =
        expected policy id now (lastInstalled events id) (r.fetchesOf id) :=
  read_expected (tracks_run h id) now

/-- Before the seed a read waits for the delay and then begins the third fetch; after the seed it
finds the schema. -/
theorem missedRun_read : ∃ r r', runCache defaultPolicy (missedRun.take 6) = some r ∧
    runCache defaultPolicy missedRun = some r' ∧
    (r.cache.writerSchemaWithReferences 7 20000005).spawned = false ∧
    (r.cache.writerSchemaWithReferences 7 900000000).spawned = true ∧
    (r'.cache.writerSchemaWithReferences 7 900000000).answer = .ok ⟨"\"string\"", ∅, []⟩ := by
  obtain ⟨r, hr⟩ := Option.isSome_iff_exists.mp
    (by decide +kernel : (runCache defaultPolicy (missedRun.take 6)).isSome = true)
  obtain ⟨r', hr'⟩ := Option.isSome_iff_exists.mp
    (by decide +kernel : (runCache defaultPolicy missedRun).isSome = true)
  have hspawns : ((runCache defaultPolicy (missedRun.take 6)).map fun r =>
      [20000005, 900000000].map fun now => (expected defaultPolicy 7 now
        (lastInstalled (missedRun.take 6) 7) (r.fetchesOf 7)).2) = some [false, true] := by
    decide +kernel
  rw [hr, Option.map_some, List.map_cons, List.map_cons, ← reads_follow_history hr 7 20000005,
    ← reads_follow_history hr 7 900000000] at hspawns
  obtain ⟨hearly, hlate⟩ := List.cons.inj (Option.some.inj hspawns)
  refine ⟨r, r', hr, hr', hearly, (List.cons.inj hlate).1, ?_⟩
  exact congrArg Prod.fst (reads_follow_history hr' 7 900000000)

/-! ## How often an id is fetched -/

/-- A failed attempt began when its fetch did. -/
theorem began_of_failure? {f : Fetch} {a : Attempt} (h : failure? f = some a) :
    a.began = f.started := by
  unfold failure? at h
  split at h
  · split_ifs at h
    rw [← Option.some.inj h]
  · cases h

/-- The starts of the failed fetches. -/
theorem countP_started {fs : List Fetch} {as : List Attempt} (h : fs.map failure? = as.map some)
    (start : Instant) : fs.countP (start ≤ ·.started) = as.countP (start ≤ ·.began) := by
  induction fs generalizing as with
  | nil =>
    cases as with
    | nil => rfl
    | cons a as => cases h
  | cons f fs ih =>
    cases as with
    | nil => cases h
    | cons a as =>
      obtain ⟨hf, hfs⟩ := List.cons.inj h
      rw [List.countP_cons, List.countP_cons, ih hfs, began_of_failure? hf]

/-- No delay is shorter than the initial backoff. -/
theorem delays_ge (policy : SchemaFetchRetryPolicy) (id : UInt32) (n : ℕ) :
    policy.initialBackoff ≤ delays policy id n :=
  policy.initialBackoff_le_retryDelay id _

/-- All fetches but one keep the shortest delay apart. -/
theorem countP_retried {fs : List Fetch} (h : Retried (delays policy id) fs) {now : Instant}
    (hstarted : ∀ f ∈ fs, f.started ≤ now) (start : Instant) :
    (fs.countP (start ≤ ·.started) - 1) * policy.initialBackoff ≤ now - start := by
  cases fs with
  | nil => simp
  | cons f fs =>
    obtain ⟨as, has, hspaced, hready⟩ := h
    have hcount := countP_mul_le start hspaced hready (delays_ge policy id)
    have hnow := hstarted f List.mem_cons_self
    rw [List.countP_cons, countP_started has]
    calc (as.countP (start ≤ ·.began) + (if decide (start ≤ f.started) = true then 1 else 0) - 1) *
          policy.initialBackoff
        ≤ as.countP (start ≤ ·.began) * policy.initialBackoff := by
          apply Nat.mul_le_mul_right
          split_ifs <;> omega
      _ ≤ f.started - start := hcount
      _ ≤ now - start := Nat.sub_le_sub_right hnow start

/-- From the first fetch to the newest all the delays have passed. -/
theorem sum_delays_retried {fs : List Fetch} {f first : Fetch} {delay : ℕ → ℕ}
    (h : Retried delay fs) (hf : fs.head? = some f) (hfirst : fs.getLast? = some first) :
    first.started + ((List.range (fs.length - 1)).map fun n => delay (n + 1)).sum ≤ f.started := by
  obtain ⟨rest, rfl⟩ := List.head?_eq_some_iff.mp hf
  obtain ⟨as, has, hspaced, hready⟩ := h
  have hlength : as.length = rest.length := by
    rw [← List.length_map (f := some), ← has, List.length_map]
  rw [List.length_cons, Nat.add_sub_cancel, ← hlength]
  cases hlast : rest.getLast? with
  | none =>
    obtain rfl := List.getLast?_eq_none_iff.mp hlast
    obtain rfl := List.length_eq_zero_iff.mp hlength
    obtain rfl : f = first := by simpa using hfirst
    simp
  | some g =>
    obtain rfl : g = first := by
      rw [List.getLast?_cons, hlast] at hfirst
      exact Option.some.inj hfirst
    -- The first fetch is the first of those that failed.
    have hfailed : (as.map some).getLast? = some (failure? g) := by
      rw [← has, List.getLast?_map, hlast, Option.map_some]
    rw [List.getLast?_map] at hfailed
    obtain ⟨a, ha, hga⟩ := Option.map_eq_some_iff.mp hfailed
    have hsum := sum_delays_le hspaced hready ha
    rwa [began_of_failure? hga.symm] at hsum

/-- **Fetches are spaced.**  In every run an id has at most one fetch in flight, each fetch of it
follows a transient failure by the retry delay at least, and so no more than one begins in any
time as short as the initial backoff. -/
theorem fetches_spaced {events : List CacheEvent} (h : runCache policy events = some r)
    (id : UInt32) :
    Retried (delays policy id) (r.fetchesOf id) ∧
      (∀ f first, (r.fetchesOf id).head? = some f → (r.fetchesOf id).getLast? = some first →
        first.started + ((List.range ((r.fetchesOf id).length - 1)).map fun n =>
          delays policy id (n + 1)).sum ≤ f.started) ∧
      ∀ start, ((r.fetchesOf id).countP (start ≤ ·.started) - 1) * policy.initialBackoff ≤
        r.clock - start :=
  have htracks := tracks_run h id
  ⟨htracks.retried, fun _ _ => sum_delays_retried htracks.retried,
    countP_retried htracks.retried htracks.started⟩

/-- The two fetches are the first delay apart at least. -/
theorem missedRun_spaced : ∃ r, runCache defaultPolicy missedRun = some r ∧
    Retried (delays defaultPolicy 7) (r.fetchesOf 7) ∧ delays defaultPolicy 7 1 ≤ 20000000 ∧
    defaultPolicy.initialBackoff ≤ r.clock := by
  obtain ⟨r, hr⟩ := Option.isSome_iff_exists.mp
    (by decide +kernel : (runCache defaultPolicy missedRun).isSome = true)
  have hstarts : ((runCache defaultPolicy missedRun).map fun r =>
      (r.fetchesOf 7).map (·.started)) = some [20000000, 0] := by decide +kernel
  rw [hr, Option.map_some, Option.some.injEq] at hstarts
  obtain ⟨hretried, hsum, hcount⟩ := fetches_spaced hr 7
  refine ⟨r, hr, hretried, ?_⟩
  generalize r.fetchesOf 7 = fetches at hstarts hsum hcount
  obtain ⟨f, rest, rfl, hf, hrest⟩ := List.map_eq_cons_iff.mp hstarts
  obtain ⟨first, none, rfl, hfirst, hnone⟩ := List.map_eq_cons_iff.mp hrest
  obtain rfl := List.map_eq_nil_iff.mp hnone
  constructor
  · simpa [hf, hfirst] using hsum f first rfl rfl
  · simpa [hf, hfirst] using hcount 0

/-! ## Settled ids -/

/-- The registry has answered for good, or a schema is kept anyway. -/
def Settled (events : List CacheEvent) (id : UInt32) (fetches : List Fetch) : Prop :=
  (lastInstalled events id).isSome = true ∨
    ∃ f t e, fetches.head? = some f ∧ f.ended = some (t, .error e) ∧
      e.isTransientRegistryFailure = false

/-- A settled id is not fetched again, and no read of it has to wait. -/
theorem expected_settled {events : List CacheEvent} {fetches : List Fetch}
    (h : Settled events id fetches) (now : Instant) :
    (expected policy id now (lastInstalled events id) fetches).2 = false ∧
      (expected policy id now (lastInstalled events id) fetches).1 ≠
        .error (.writerSchemaPending id) := by
  rcases h with hkept | ⟨f, t, e, hf, hended, he⟩
  · obtain ⟨schema, hschema⟩ := Option.isSome_iff_exists.mp hkept
    rw [hschema]
    exact ⟨rfl, by simp [expected]⟩
  · obtain ⟨fs, rfl⟩ := List.head?_eq_some_iff.mp hf
    cases lastInstalled events id with
    | some schema => exact ⟨rfl, by simp [expected]⟩
    | none => simp [expected, hended, he]

/-- A finished fetch keeps the time it started. -/
@[simp] theorem finish_started {id' : UInt32} {now : Instant} {outcome : FetchOutcome} {f : Fetch} :
    (f.finish id' now outcome).started = f.started := by
  unfold Fetch.finish
  split_ifs <;> rfl

/-- What a step does to the fetches of an id. -/
theorem fetchesOf_step (id : UInt32) {e : CacheEvent} (hstep : r.step policy e = some r') :
    r'.fetchesOf id = r.fetchesOf id ∨
    (∃ now, (r.cache.writerSchemaWithReferences id now).spawned = true ∧
      r'.fetchesOf id = ⟨id, now, none⟩ :: r.fetchesOf id) ∨
    (∃ now outcome, (∃ f ∈ r.fetches, f.id = id ∧ f.ended.isNone) ∧
      r'.fetchesOf id = (r.fetchesOf id).map (Fetch.finish id now outcome)) := by
  cases e with
  -- Only a read that spawns adds a fetch, and only a fetch of the same id ends one.
  | read id' now =>
    rw [Running.step] at hstep
    split_ifs at hstep with hclock
    obtain rfl := Option.some.inj hstep
    cases hspawned : (r.cache.writerSchemaWithReferences id' now).spawned with
    | false => exact .inl rfl
    | true =>
      by_cases hid : id' = id
      · subst hid
        exact .inr (.inl ⟨now, hspawned, List.filter_cons_of_pos (by simp)⟩)
      · exact .inl (List.filter_cons_of_neg (by simpa using hid))
  | fetched id' now outcome =>
    rw [Running.step] at hstep
    split_ifs at hstep with hlegal
    obtain rfl := Option.some.inj hstep
    by_cases hid : id' = id
    · subst hid
      exact .inr (.inr ⟨now, outcome, hlegal.2, filter_finish _⟩)
    · exact .inl (fetchesOf_finish_of_ne hid)
  | _ =>
    obtain rfl := Option.some.inj hstep
    exact .inl rfl

/-- A schema once installed is never taken away, only replaced. -/
theorem isSome_lastInstalled_append {events : List CacheEvent} {e : CacheEvent}
    (h : (lastInstalled events id).isSome = true) :
    (lastInstalled (events ++ [e]) id).isSome = true := by
  rw [lastInstalled_append, Option.isSome_or, h, Bool.or_true]

/-- A step after an id is settled begins no fetch of it, and leaves it settled. -/
theorem settled_step {events : List CacheEvent} {e : CacheEvent}
    (h : runCache policy events = some r) (hstep : r.step policy e = some r')
    (hsettled : Settled events id (r.fetchesOf id)) :
    (r'.fetchesOf id).map (·.started) = (r.fetchesOf id).map (·.started) ∧
      Settled (events ++ [e]) id (r'.fetchesOf id) := by
  rcases fetchesOf_step id hstep with hsame | ⟨now, hspawned, _⟩ |
    ⟨now, outcome, hflight, hfinish⟩
  · rw [hsame]
    exact ⟨rfl, hsettled.imp_left isSome_lastInstalled_append⟩
  · have hread := congrArg Prod.snd (read_expected (tracks_run h id) now)
    rw [(expected_settled hsettled now).1] at hread
    exact absurd (hread.symm.trans hspawned) (by simp)
  · have hstarts : (r'.fetchesOf id).map (·.started) = (r.fetchesOf id).map (·.started) := by
      rw [hfinish, List.map_map]
      exact List.map_congr_left fun f _ => finish_started
    refine ⟨hstarts, ?_⟩
    rcases hsettled with hkept | ⟨f, t, e', hf, hended, _⟩
    · exact .inl (isSome_lastInstalled_append hkept)
    · -- What the registry has answered for good is not in flight.
      obtain ⟨g, gs, hgs, hnone⟩ := exists_inFlight (tracks_run h id).retried hflight
      rw [hgs] at hf
      obtain rfl := Option.some.inj hf
      rw [hnone] at hended
      cases hended

/-- It stays settled. -/
theorem settled_run {events more : List CacheEvent}
    (h : runCache policy events = some r) (h' : runCache policy (events ++ more) = some r')
    (hsettled : Settled events id (r.fetchesOf id)) :
    (r'.fetchesOf id).map (·.started) = (r.fetchesOf id).map (·.started) ∧
      Settled (events ++ more) id (r'.fetchesOf id) := by
  induction more using List.reverseRecOn generalizing r' with
  | nil =>
    rw [List.append_nil] at h' ⊢
    obtain rfl := Option.some.inj (h.symm.trans h')
    exact ⟨rfl, hsettled⟩
  | append_singleton more e ih =>
    rw [← List.append_assoc, runCache, List.foldlM_append] at h'
    obtain ⟨before, hbefore, hstep⟩ := Option.bind_eq_some_iff.mp h'
    rw [List.foldlM_cons] at hstep
    obtain ⟨after, hafter, hlast⟩ := Option.bind_eq_some_iff.mp hstep
    obtain rfl := Option.some.inj hlast
    obtain ⟨hstarts, hbefore'⟩ := ih hbefore
    obtain ⟨hlater, hafter'⟩ := settled_step hbefore hafter hbefore'
    rw [← List.append_assoc]
    exact ⟨hlater.trans hstarts, hafter'⟩

/-- **Settled ids are left alone.**  Once a schema is kept under an id, or the registry has
answered that there is none, no step of any run begins a fetch of it, and no read of it is told
to wait. -/
theorem settled_not_fetched {events more : List CacheEvent}
    (h : runCache policy events = some r) (h' : runCache policy (events ++ more) = some r')
    (hsettled : Settled events id (r.fetchesOf id)) :
    (r'.fetchesOf id).map (·.started) = (r.fetchesOf id).map (·.started) ∧
      ∀ now, (r'.cache.writerSchemaWithReferences id now).answer ≠
        .error (.writerSchemaPending id) := by
  obtain ⟨hstarts, hsettled'⟩ := settled_run h h' hsettled
  refine ⟨hstarts, fun now => ?_⟩
  have hread := congrArg Prod.fst (read_expected (tracks_run h' id) now)
  rw [show (r'.cache.writerSchemaWithReferences id now).answer = _ from hread]
  exact (expected_settled hsettled' now).2

/-- Once the schema of the id was seeded, a later read starts no further fetch. -/
theorem missedRun_settled : ∃ r r', runCache defaultPolicy missedRun = some r ∧
    runCache defaultPolicy (missedRun ++ [.read 7 900000000]) = some r' ∧
    (r'.fetchesOf 7).map (·.started) = (r.fetchesOf 7).map (·.started) := by
  obtain ⟨r, hr⟩ := Option.isSome_iff_exists.mp
    (by decide +kernel : (runCache defaultPolicy missedRun).isSome = true)
  obtain ⟨r', hr'⟩ := Option.isSome_iff_exists.mp
    (by decide +kernel : (runCache defaultPolicy (missedRun ++ [.read 7 900000000])).isSome = true)
  exact ⟨r, r', hr, hr', (settled_not_fetched hr hr' (.inl rfl)).1⟩

/-! ## Delays -/

/-- **Retry delays grow.**  For every policy and every id, the delay never shrinks from one attempt
to the next, lies between the two bounds of the policy, is the same from the eighth attempt on, and
its computation stays in the range of a duration. -/
theorem retry_delays (policy : SchemaFetchRetryPolicy) (id : UInt32) {a b : UInt32} (h : a ≤ b) :
    policy.initialBackoff ≤ policy.retryDelay id a ∧
      policy.retryDelay id a ≤ policy.retryDelay id b ∧
      policy.retryDelay id b ≤ policy.maxBackoff ∧
      (8 ≤ a.toNat → policy.retryDelay id a = policy.retryDelay id b) ∧
      mulSecs (policy.exponentialDelay a) (SchemaFetchRetryPolicy.jitterFactor id) <
        2 ^ 64 * nanosPerSec :=
  ⟨policy.initialBackoff_le_retryDelay id a, policy.retryDelay_mono id h,
    policy.retryDelay_le id b,
    fun ha => policy.retryDelay_eq_of_ge id ha (ha.trans (UInt32.le_iff_toNat_le.mp h)),
    policy.jitter_fits id a⟩

/-- The default policy at one id, early and after many attempts. -/
theorem defaultPolicy_delays :
    defaultPolicy.retryDelay 91 2 ≤ defaultPolicy.retryDelay 91 3 ∧
      defaultPolicy.retryDelay 91 8 = defaultPolicy.retryDelay 91 4294967295 :=
  ⟨(retry_delays defaultPolicy 91 (by decide : (2 : UInt32) ≤ 3)).2.1,
    (retry_delays defaultPolicy 91 (by decide : (8 : UInt32) ≤ 4294967295)).2.2.2.1 (by decide)⟩

end KrabkaRegistry.Guarantees
