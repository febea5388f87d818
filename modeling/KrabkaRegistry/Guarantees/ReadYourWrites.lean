import KrabkaRegistry.Reader.Runs

/-!
# Reading One's Writes

A writer appends a barrier behind its record and waits until the reader has seen it.  Then the
live store is the replay of what the reader fetched from the topic, up to a cursor behind the
barrier: everything but what compaction had removed.  `seen_reads_writes` says so for every
interleaving of the reader, the facade and the broker, and that a token is seen at most once,
and never after its wait has ended.

The store need not hold the write itself.  Compaction may remove it for a record of its key
that stands behind the cursor, so that the reader sees neither (`seen_without_write`).
-/

namespace KrabkaRegistry.Guarantees

open KrabkaRegistry.Format (Formats)
open KrabkaRegistry.Kafkastore
open KrabkaRegistry.Library (PartitionLog Trace perform)
open KrabkaRegistry.Library.PartitionLog
open KrabkaRegistry.Reader
open KrabkaRegistry.Store

variable {F : Formats} {d : Defaults}

/-- The live store is, up to its id counter, the replay of what was fetched from the topic of
the barrier at `b`, up to a cursor behind it, and every record below the cursor is covered by
that. -/
def AppliedPast (F : Formats) (d : Defaults) (s : System) (id b : ℕ) : Prop :=
  s.loop.topicId = id ∧ ∃ c offsets, b < c ∧ (s.topics id).Fetched c offsets ∧
    Ahead (replay F d.state ((s.topics id).read offsets)) s.loop.store ∧
    ∀ o r, o < c → (s.topics id).record? o = some r →
      Covered TopicRecord.key TopicRecord.isNull (s.topics id) c offsets o r

/-- In every state of every run: when `poll` returns `Seen`, the store is past the barrier, and
no step before has ended the wait for the token. -/
theorem seen_reads_writes {topicId : ℕ} (hid : topicId ≤ 1) {t : List (System × Action)}
    {s : System}
    (h : Trace (fun s action s' => next F d s action = some s') (System.start d topicId) t s)
    (hasks : ∀ p ∈ t, asksItsTopic p.1 p.2 = true) {token : Uuid}
    (hseen : (s.barriers.poll token).1 = .seen) :
    (∀ id b, (s.topics id).record? b = some (.barrier token true) → AppliedPast F d s id b) ∧
      ∀ p ∈ t, ¬ Ends p.1 token p.2 := by
  obtain ⟨hinv, hspent⟩ := run_inv hid h hasks
  have hmem := mem_seen_of_poll hseen
  have hpending := hinv.tokens.seen hmem
  constructor
  · intro id b hb
    obtain ⟨c, ⟨offsets, hfetched, hahead⟩, o, hlt, present, ho⟩ := hinv.seen token hmem
    -- The barrier that was seen is the only one there is.
    obtain rfl : present = true := by
      cases present with
      | true => rfl
      | false => exact absurd ho (hinv.tokens.kept token hpending _ o)
    obtain ⟨rfl, rfl⟩ := hinv.tokens.once token (hinv.tokens.pending hpending) _ o id b ho hb
    exact ⟨rfl, c, offsets, hlt, hfetched, hahead, fun o' r ho' hr =>
      hfetched.covered (hinv.justified _) ho' hr⟩
  · exact fun p hp hend => (hspent p hp token hend).2 hpending

/-! ### Runs with one write -/

/-- The record of a first version. -/
def firstVersion : TopicRecord := encodeSchemaWithMessageType "a" 1 1 .json "true" [] none

/-- The record of its soft delete, which has the same key. -/
def firstVersionDeleted : TopicRecord :=
  encodeSchemaDeletedWithMessageType "a" 1 1 .json "true" [] none ∅

/-- Append a record and a barrier behind it. -/
def writeActions (r : TopicRecord) (token : Uuid) : List Action :=
  [.append (some r), .reserve token, .order token]

/-- The barrier is seen, and then a reset has the reader begin again; the rebuild has not
reached the barrier. -/
def rebuildActions : List Action :=
  writeActions firstVersion 7 ++ [.stabilize 2, .connect, .fetch [0, 1] (some 2), .handle,
    .fetchError .resetToLogStart, .logStart 0, .logEnd, .beginRebuild, .fetch [0] (some 1), .handle]

/-- The run ends in a state in which `poll` returns `Seen`. -/
theorem seen_reads_writes_rebuild :
    ∃ s, perform (next Formats.sample {}) asksItsTopic (System.start {} 0) rebuildActions = some s ∧
      (s.barriers.poll 7).1 = .seen ∧ s.loop.rebuild.isSome ∧
      (∀ id b, (s.topics id).record? b = some (.barrier 7 true) →
        AppliedPast Formats.sample {} s id b) := by
  obtain ⟨s, hs, hstate⟩ := Option.map_eq_some_iff.mp
    (show (perform (next Formats.sample {}) asksItsTopic (System.start {} 0) rebuildActions).map
      (fun s => ((s.barriers.poll 7).1, s.loop.rebuild.isSome)) = some (.seen, true) by
        decide +kernel)
  obtain ⟨hseen, hrebuild⟩ := Prod.mk.inj hstate
  obtain ⟨t, ht, hasks⟩ := (Trace.nil (System.start {} 0)).perform (by simp) hs
  exact ⟨s, hs, hseen, hrebuild, (seen_reads_writes (by decide) ht hasks hseen).1⟩

/-- Compaction removes the write for its soft delete, which stands behind the cursor. -/
def compactedActions : List Action :=
  writeActions firstVersion 7 ++ [.append (some firstVersionDeleted), .stabilize 3, .compact 0,
    .connect, .fetch [1] (some 2), .handle]

/-- A reset asks for the log bounds just after the topic was recreated, and finds it empty. -/
def recreatedActions : List Action :=
  writeActions firstVersion 7 ++ [.stabilize 2, .connect, .fetch [0, 1] (some 2), .handle,
    .fetchError .resetToLogStart, .recreate, .logStart 0, .logEnd, .beginRebuild]

/-- The write was purged and its records have gone when a reset has the reader begin again. -/
def purgedActions : List Action :=
  [.append (some firstVersion), .append (some (encodeTombstone "a" 1)), .stabilize 2, .connect,
    .fetch [0, 1] (some 2), .handle, .compact 0, .compact 1, .reserve 7, .order 7, .stabilize 3,
    .fetchError .resetToLogStart, .logStart 2, .logEnd, .beginRebuild, .fetch [2] (some 3), .handle]

/-- What can be seen of a state: the answer to a poll of the token, the reader's topic, the
keys of the first topic, and the versions and the id counter of the live store. -/
structure Outcome where
  poll : BarrierPoll
  topicId : ℕ
  keys : List (Option TopicKey)
  versions : Option (List SchemaVersion)
  maxId : SchemaId
  deriving DecidableEq

def outcome (s : System) : Outcome where
  poll := (s.barriers.poll 7).1
  topicId := s.loop.topicId
  keys := (s.topics 1).slots.map (·.map TopicRecord.key)
  versions := s.loop.store.versions "a" true
  maxId := s.loop.store.maxId

/-- The outcome of a list of actions, with no condition on the steps. -/
def outcomeOf (actions : List Action) : Option Outcome :=
  (perform (next Formats.sample {}) (fun _ _ => true) (System.start {} 1) actions).map outcome

/-- The barrier behind a write is seen, and the live store has no version of its subject: after
a compaction, and after a recreation of the topic in the middle of a reset.  And a store that
was rebuilt from a barrier alone has an id counter that no record of the topic accounts for. -/
theorem seen_without_write :
    let write := some (TopicKey.schema ⟨"a", 1⟩)
    let barrier := some (TopicKey.barrier 7)
    outcomeOf compactedActions = some ⟨.seen, 1, [write, barrier, write], none, 0⟩ ∧
    outcomeOf recreatedActions = some ⟨.seen, 1, [write, barrier], none, 1⟩ ∧
    outcomeOf purgedActions = some ⟨.seen, 1, [write, write, barrier], none, 1⟩ := by
  decide +kernel

end KrabkaRegistry.Guarantees
