import KrabkaRegistry.Kafkastore.Run
import KrabkaRegistry.Library.PartitionLog

/-!
# The Store Reader and its Barriers

The background task of `kafkastore/reader.rs` that replays `_schemas` into the shared store,
the barrier tracker through which a writer waits for it, and the topic it reads.  The loop is
cut into its steps: a request and the handling of its answer are actions of their own, so that
appends, compaction, the recreation of the topic and the calls of the facade happen between
any two of them.

Topics are told apart by their ids.  The current one is what the topic's name stands for:
producers append to it, and `ListOffsets` asks for it by name, while a fetch asks for the id
that the reader knows and is answered only while that one is current.  The id zero is no
topic's and stands for an id that is not known yet.
-/

namespace KrabkaRegistry.Reader

open KrabkaRegistry.Format (Formats)
open KrabkaRegistry.Kafkastore
open KrabkaRegistry.Library (PartitionLog)
open KrabkaRegistry.Store

/-! ## The barrier tracker -/

structure BarrierTracker where
  pending : Finset Uuid := ∅
  seen : Finset Uuid := ∅
  invalidated : Finset Uuid := ∅

inductive BarrierPoll where
  | pending
  | seen
  | invalidated
  deriving DecidableEq, Repr

namespace BarrierTracker

variable (b : BarrierTracker) (token : Uuid)

/-- `reserve`, which draws the token at random. -/
def reserve : BarrierTracker := { b with pending := insert token b.pending }

def observe : BarrierTracker :=
  if token ∈ b.pending then { b with seen := insert token b.seen } else b

def poll : BarrierPoll × BarrierTracker :=
  if token ∈ b.invalidated then
    (.invalidated, { b with invalidated := b.invalidated.erase token })
  else if token ∉ b.seen then (.pending, b)
  else (.seen, { b with seen := b.seen.erase token, pending := b.pending.erase token })

def cancel : BarrierTracker :=
  ⟨b.pending.erase token, b.seen.erase token, b.invalidated.erase token⟩

def invalidateAll : BarrierTracker := ⟨∅, ∅, b.invalidated ∪ b.pending⟩

end BarrierTracker

/-! ## Rebuilds -/

structure Rebuild where
  store : StoreState
  endOffset : ℕ

/-- The state that a rebuild starts from. -/
def rebuildSnapshot (live defaults : StoreState) (previous : Option Rebuild)
    (preserveIdHighWater : Bool) : StoreState :=
  if preserveIdHighWater then
    let snapshot := defaults.preserveIdHighWater live
    match previous with
    | some previous => snapshot.preserveIdHighWater previous.store
    | none => snapshot
  else defaults

/-- `begin_rebuild`: the live store and the rebuild.  Nothing is left to read when the log is
empty. -/
def beginRebuild (live snapshot : StoreState) (startOffset endOffset : ℕ) :
    StoreState × Option Rebuild :=
  if endOffset ≤ startOffset then (snapshot, none) else (live, some ⟨snapshot, endOffset⟩)

/-- `complete_rebuild`: the live store and the rebuild. -/
def completeRebuild (live : StoreState) (rebuild : Option Rebuild) (next : ℕ) :
    StoreState × Option Rebuild :=
  match rebuild with
  | some snapshot => if snapshot.endOffset ≤ next then (snapshot.store, none) else (live, rebuild)
  | none => (live, none)

/-- The token of a barrier or of its cleanup. -/
def barrierToken : TopicRecord → Option Uuid
  | .barrier token _ => some token
  | _ => none

/-! ## The reader -/

inductive FetchErrorAction where
  | reconnect
  | retrySameConnection
  | resetToLogStart
  | refreshTopic
  deriving DecidableEq, Repr

/-- Where the loop is. -/
inductive Phase where
  | connecting
  /-- The topic was recreated; its bounds are asked for. -/
  | replacing (resolved : ℕ) (startOffset endOffset : Option ℕ)
  | reading
  /-- An answer to the fetch is on its way. -/
  | answered (records : List (ℕ × TopicRecord)) (nextOffset : Option ℕ)
  /-- The requested history has gone; the log bounds are asked for. -/
  | resetting (startOffset endOffset : Option ℕ)

/-- The variables of the loop, with the store it shares. -/
structure Loop where
  store : StoreState
  next : ℕ := 0
  topicId : ℕ
  rebuild : Option Rebuild := none
  observedBarriers : List Uuid := []
  phase : Phase := .connecting

variable (F : Formats)

/-- Apply a record to the rebuild if there is one, else to the live store. -/
def Loop.applyToStore (l : Loop) (r : TopicRecord) : Loop :=
  match l.rebuild with
  | some rebuild =>
    { l with rebuild := some { rebuild with store := applyTopicRecord F rebuild.store r } }
  | none => { l with store := applyTopicRecord F l.store r }

/-- One round of the loop over the fetched records. -/
def Loop.receive (l : Loop) (r : ℕ × TopicRecord) : Loop :=
  if r.1 < l.next then l
  else
    match barrierToken r.2 with
    | some token =>
      { l with observedBarriers := l.observedBarriers ++ [token] }.applyToStore F r.2
    | none => l.applyToStore F r.2

/-- What follows the records of an answer: move on, finish the rebuild, publish the barriers. -/
def Loop.publish (l : Loop) (b : BarrierTracker) (cursor : ℕ) : Loop × BarrierTracker :=
  let next := max l.next cursor
  let (store, rebuild) := completeRebuild l.store l.rebuild next
  let l := { l with next := next, store := store, rebuild := rebuild }
  if rebuild.isNone then
    ({ l with observedBarriers := [] }, l.observedBarriers.foldl BarrierTracker.observe b)
  else (l, b)

/-- Handle an answer. -/
def Loop.handle (l : Loop) (b : BarrierTracker) (records : List (ℕ × TopicRecord))
    (nextOffset : Option ℕ) : Loop × BarrierTracker :=
  let l := records.foldl (Loop.receive F) { l with phase := .reading }
  match nextOffset with
  | some cursor => l.publish b cursor
  | none => (l, b)

/-! ## The system -/

structure System where
  topics : ℕ → PartitionLog TopicRecord
  /-- The id of the topic that exists. -/
  current : ℕ
  loop : Loop
  barriers : BarrierTracker := {}
  /-- The tokens that were reserved here. -/
  reserved : Finset Uuid := ∅
  /-- Those of them whose barrier was produced. -/
  ordered : Finset Uuid := ∅

/-- An empty topic and a reader that may know its id already. -/
def System.start (d : Defaults) (topicId : ℕ) : System :=
  { topics := fun _ => {}, current := 1, loop := { store := d.state, topicId := topicId } }

inductive Action where
  /-- A record of a registry, or a slot that readers are not shown. -/
  | append (slot : Option TopicRecord)
  | stabilize (offset : ℕ)
  | compact (offset : ℕ)
  /-- The topic is deleted and created again. -/
  | recreate
  | reserve (token : Uuid)
  | order (token : Uuid)
  | clear (token : Uuid)
  | poll (token : Uuid)
  | cancel (token : Uuid)
  | connect
  | fetch (offsets : List ℕ) (nextOffset : Option ℕ)
  | handle
  | fetchError (action : FetchErrorAction)
  | logStart (offset : ℕ)
  | logEnd
  | beginRebuild
  | boundsFailed

namespace System

variable (s : System)

/-- The topic that exists. -/
def topic : PartitionLog TopicRecord := s.topics s.current

def setTopic (P : PartitionLog TopicRecord) : System :=
  { s with topics := Function.update s.topics s.current P }

@[simp] theorem setTopic_current (P : PartitionLog TopicRecord) :
    (s.setTopic P).topics s.current = P := Function.update_self ..

theorem setTopic_of_ne (P : PartitionLog TopicRecord) {id : ℕ} (h : id ≠ s.current) :
    (s.setTopic P).topics id = s.topics id := Function.update_of_ne h ..

/-- Some record of a topic carries the token. -/
def mentions (token : Uuid) : Bool :=
  (List.range (s.current + 1)).any fun id =>
    (s.topics id).slots.any fun slot => slot.bind barrierToken = some token

def setPhase (phase : Phase) : System := { s with loop := { s.loop with phase := phase } }

end System

/-- What an action does, if it is enabled. -/
def next (d : Defaults) (s : System) : Action → Option System
  | .append slot =>
    -- No one else uses the tokens reserved here.
    if ∃ token ∈ s.reserved, slot.bind barrierToken = some token then none
    else some (s.setTopic (s.topic.append slot))
  | .stabilize offset =>
    if s.topic.stable ≤ offset ∧ offset ≤ s.topic.slots.length then
      some (s.setTopic (s.topic.stabilize offset))
    else none
  | .compact offset =>
    if s.topic.MayRemove TopicRecord.key TopicRecord.isNull offset then
      some (s.setTopic (s.topic.remove offset))
    else none
  | .recreate =>
    some { s with
      current := s.current + 1
      topics := Function.update s.topics (s.current + 1) {} }
  | .reserve token =>
    if token ∈ s.reserved ∨ s.mentions token then none
    else some { s with
      reserved := insert token s.reserved
      barriers := s.barriers.reserve token }
  | .order token =>
    if token ∈ s.reserved ∧ token ∉ s.ordered then
      some { s.setTopic (s.topic.append (some (.barrier token true))) with
        ordered := insert token s.ordered }
    else none
  | .clear token =>
    -- A barrier is cleared after it was cancelled.
    if token ∈ s.reserved ∧ token ∉ s.barriers.pending then
      some (s.setTopic (s.topic.append (some (.barrier token false))))
    else none
  | .poll token => some { s with barriers := (s.barriers.poll token).2 }
  | .cancel token =>
    if token ∈ s.reserved then some { s with barriers := s.barriers.cancel token } else none
  | .connect =>
    match s.loop.phase with
    | .connecting =>
      if s.loop.topicId ≠ 0 ∧ s.current ≠ s.loop.topicId then
        some { s with
          loop := { s.loop with observedBarriers := [], phase := .replacing s.current none none }
          barriers := s.barriers.invalidateAll }
      else some { s with loop := { s.loop with topicId := s.current, phase := .reading } }
    | _ => none
  | .fetch offsets nextOffset =>
    match s.loop.phase with
    | .reading =>
      if s.loop.topicId = s.current ∧ s.topic.Answers s.loop.next offsets nextOffset then
        some (s.setPhase (.answered (s.topic.response offsets) nextOffset))
      else none
    | _ => none
  | .handle =>
    match s.loop.phase with
    | .answered records nextOffset =>
      let (loop, barriers) := s.loop.handle F s.barriers records nextOffset
      some { s with loop := loop, barriers := barriers }
    | _ => none
  | .fetchError action =>
    match s.loop.phase with
    | .reading =>
      match action with
      | .resetToLogStart => some (s.setPhase (.resetting none none))
      | .reconnect | .refreshTopic => some (s.setPhase .connecting)
      | .retrySameConnection => some s
    | _ => none
  | .logStart offset =>
    if s.topic.Cleared offset then
      match s.loop.phase with
      | .replacing resolved none none => some (s.setPhase (.replacing resolved (some offset) none))
      | .resetting none none => some (s.setPhase (.resetting (some offset) none))
      | _ => none
    else none
  | .logEnd =>
    match s.loop.phase with
    | .replacing resolved (some offset) none =>
      some (s.setPhase (.replacing resolved (some offset) (some s.topic.stable)))
    | .resetting (some offset) none =>
      some (s.setPhase (.resetting (some offset) (some s.topic.stable)))
    | _ => none
  | .beginRebuild =>
    match s.loop.phase with
    | .replacing resolved (some startOffset) (some endOffset) =>
      let snapshot := rebuildSnapshot s.loop.store d.state none false
      let (store, rebuild) := beginRebuild s.loop.store snapshot startOffset endOffset
      some { s with loop := { s.loop with
        store := store, rebuild := rebuild, next := startOffset, topicId := resolved
        phase := .reading } }
    | .resetting (some startOffset) (some endOffset) =>
      let snapshot := rebuildSnapshot s.loop.store d.state s.loop.rebuild true
      let (store, rebuild) := beginRebuild s.loop.store snapshot startOffset endOffset
      some { s with loop := { s.loop with
        store := store, rebuild := rebuild, next := startOffset, phase := .reading } }
    | _ => none
  | .boundsFailed =>
    match s.loop.phase with
    | .replacing _ _ none | .resetting _ none => some (s.setPhase .connecting)
    | _ => none

end KrabkaRegistry.Reader
