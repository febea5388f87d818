import KrabkaRegistry.Kafkastore.Ops

/-!
# Several Registry Nodes over One Broker

Every node runs `KafkaStore::register` as the steps of `prepare_write` and `produce_fenced`:
read the election state, fence once for each generation, append a barrier and wait for it,
read the election state again, decide on the local store, and produce in a transaction.  Each
step is an action of its own, so that steps of different nodes, election changes and the
broker's own actions interleave in every order, and any call may stop between two of its
steps.

The broker keeps one log, the transactions of the shared transactional id and its latest
producer epoch, and the current generation of the election group.  It commits a transaction
only on request, under the latest epoch and for a current member; it hands out a new epoch
only once every transaction has ended; and readers never pass an open transaction.
-/

namespace KrabkaRegistry.Cluster

open KrabkaRegistry.Format (Formats)
open KrabkaRegistry.Kafkastore
open KrabkaRegistry.Store

/-! ## The broker -/

/-- The part of the group metadata that a transaction carries and the broker checks. -/
structure ConsumerGroupMetadata where
  generationId : Int
  memberId : String
  deriving DecidableEq, Repr

inductive TxnStatus where
  | ongoing
  | committed
  | aborted
  deriving DecidableEq, Repr

structure Txn where
  /-- The producer epoch it was begun under. -/
  epoch : ℕ
  group : ConsumerGroupMetadata
  commitRequested : Bool := false
  status : TxnStatus := .ongoing
  deriving DecidableEq, Repr

/-- A record of the topic: a barrier, or a record of a transaction.  Barrier tokens are
fresh, so a barrier is told from others by its offset. -/
inductive Entry where
  | barrier
  | record (txn : ℕ) (r : TopicRecord)

structure Broker where
  log : List Entry := []
  /-- The transactions of the shared transactional id, numbered in the order they began. -/
  txns : List Txn := []
  /-- The latest producer epoch. -/
  epoch : ℕ := 0
  generationId : Int := 0
  members : List String := []

/-- The status of a transaction. -/
def Broker.status (b : Broker) (i : ℕ) : Option TxnStatus := (b.txns[i]?).map (·.status)

/-- The record of an entry, if its transaction is committed. -/
def Broker.committedRecord (b : Broker) : Entry → Option TopicRecord
  | .barrier => none
  | .record i r => if b.status i = some .committed then some r else none

/-- The committed records of the topic, in log order. -/
def Broker.committed (b : Broker) : List TopicRecord := b.log.filterMap b.committedRecord

/-- No transaction is open. -/
def Broker.quiet (b : Broker) : Bool := b.txns.all fun txn => txn.status ≠ .ongoing

/-- The broker may commit the transaction now. -/
def Broker.mayCommit (b : Broker) (txn : Txn) : Bool :=
  txn.status = .ongoing && txn.commitRequested && txn.epoch = b.epoch &&
    txn.group.generationId = b.generationId && b.members.contains txn.group.memberId

/-! ## The nodes -/

/-- `election::PrimaryState`, as this node sees it. -/
structure PrimaryState where
  isPrimary : Bool := false
  generationId : Option Int := none
  memberId : Option String := none
  deriving DecidableEq, Repr

/-- Where a call of `register` is. -/
inductive Phase where
  | idle
  /-- The election state was read. -/
  | elected (group : ConsumerGroupMetadata) (req : RegisterSchema)
  /-- The broker has handed out an epoch that has not arrived yet. -/
  | fencing (group : ConsumerGroupMetadata) (req : RegisterSchema) (epoch : ℕ)
  | fenced (group : ConsumerGroupMetadata) (req : RegisterSchema)
  /-- The barrier stands at `offset`. -/
  | ordered (group : ConsumerGroupMetadata) (req : RegisterSchema) (offset : ℕ)
  | synced (group : ConsumerGroupMetadata) (req : RegisterSchema)
  | checked (group : ConsumerGroupMetadata) (req : RegisterSchema)
  | decided (group : ConsumerGroupMetadata) (r : TopicRecord)
  | sent (txn : ℕ)
  | committing (txn : ℕ)

structure Node where
  primary : PrimaryState := {}
  store : StoreState
  /-- How many entries of the log the reader has applied. -/
  applied : ℕ := 0
  /-- The generation that `FencedState` remembers. -/
  fencedGeneration : Option Int := none
  /-- The epoch of the fenced producer. -/
  producerEpoch : Option ℕ := none
  phase : Phase := .idle

structure System (ι : Type) where
  broker : Broker
  nodes : ι → Node

inductive Action (ι : Type) where
  /-- The election group moves to a new generation. -/
  | elect (generationId : Int) (members : List String)
  /-- A node learns of an election. -/
  | observe (n : ι) (state : PrimaryState)
  /-- A call takes the write gate and reads the election state. -/
  | read (n : ι) (req : RegisterSchema)
  | fence (n : ι)
  | fenceDone (n : ι)
  /-- An initialisation arrives whose caller has gone. -/
  | strayInit
  | order (n : ι)
  | seen (n : ι)
  | recheck (n : ι)
  | decide (n : ι)
  | send (n : ι)
  | requestCommit (n : ι)
  | commit (txn : ℕ)
  | abort (txn : ℕ)
  /-- The reader of a node applies the next entry. -/
  | deliver (n : ι)
  /-- A call stops where it is and releases the gate. -/
  | abandon (n : ι)

variable {ι : Type} [DecidableEq ι] (F : Formats)

def System.setNode (s : System ι) (n : ι) (node : Node) : System ι :=
  { s with nodes := Function.update s.nodes n node }

/-- The group metadata that `prepare_write` captures from the election state. -/
def PrimaryState.group? (state : PrimaryState) : Option ConsumerGroupMetadata :=
  match state.generationId, state.memberId with
  | some generationId, some memberId =>
    if state.isPrimary then some ⟨generationId, memberId⟩ else none
  | _, _ => none

/-- Append a barrier. -/
def Broker.appendBarrier (b : Broker) : Broker := { b with log := b.log ++ [Entry.barrier] }

/-- Begin a transaction and append its record. -/
def Broker.begin (b : Broker) (epoch : ℕ) (group : ConsumerGroupMetadata) (r : TopicRecord) :
    Broker :=
  { b with
    txns := b.txns ++ [{ epoch := epoch, group := group }]
    log := b.log ++ [Entry.record b.txns.length r] }

/-- End the earlier transactions' epoch with a new one. -/
def Broker.bump (b : Broker) : Broker := { b with epoch := b.epoch + 1 }

/-- Note that the commit of a transaction was asked for. -/
def Broker.request (b : Broker) (i : ℕ) (txn : Txn) : Broker :=
  { b with txns := b.txns.set i { txn with commitRequested := true } }

/-- Set the status of an open transaction. -/
def Broker.finish (b : Broker) (i : ℕ) (txn : Txn) (status : TxnStatus) : Broker :=
  { b with txns := b.txns.set i { txn with status := status } }

/-- What an action does, if it is enabled. -/
def next (s : System ι) : Action ι → Option (System ι)
  | .elect generationId members =>
    some { s with broker := { s.broker with generationId := generationId, members := members } }
  | .observe n state => some (s.setNode n { s.nodes n with primary := state })
  | .read n req =>
    match (s.nodes n).phase, (s.nodes n).primary.group? with
    | .idle, some group => some (s.setNode n { s.nodes n with phase := .elected group req })
    | _, _ => none
  | .fence n =>
    match (s.nodes n).phase with
    | .elected group req =>
      if (s.nodes n).fencedGeneration = some group.generationId then
        some (s.setNode n { s.nodes n with phase := .fenced group req })
      else if s.broker.quiet then
        some ({ s with broker := s.broker.bump }.setNode n
          { s.nodes n with phase := .fencing group req s.broker.bump.epoch })
      else none
    | _ => none
  | .fenceDone n =>
    match (s.nodes n).phase with
    | .fencing group req epoch =>
      some (s.setNode n { s.nodes n with
        phase := .fenced group req
        fencedGeneration := some group.generationId
        producerEpoch := some epoch })
    | _ => none
  | .strayInit =>
    if s.broker.quiet then
      some { s with broker := s.broker.bump }
    else none
  | .order n =>
    match (s.nodes n).phase with
    | .fenced group req =>
      some ({ s with broker := s.broker.appendBarrier }.setNode n
        { s.nodes n with phase := .ordered group req s.broker.log.length })
    | _ => none
  | .seen n =>
    match (s.nodes n).phase with
    | .ordered group req offset =>
      if offset < (s.nodes n).applied then
        some (s.setNode n { s.nodes n with phase := .synced group req })
      else none
    | _ => none
  | .recheck n =>
    match (s.nodes n).phase with
    | .synced group req =>
      -- A changed election ends the call.
      let phase := if (s.nodes n).primary.group? = some group then .checked group req else .idle
      some (s.setNode n { s.nodes n with phase := phase })
    | _ => none
  | .decide n =>
    match (s.nodes n).phase with
    | .checked group req =>
      -- A known schema needs no record, and an error ends the call.
      let phase :=
        match Kafkastore.register F (s.nodes n).store req with
        | .ok ([r], _) => .decided group r
        | _ => .idle
      some (s.setNode n { s.nodes n with phase := phase })
    | _ => none
  | .send n =>
    match (s.nodes n).phase, (s.nodes n).producerEpoch with
    | .decided group r, some epoch =>
      some ({ s with broker := s.broker.begin epoch group r }.setNode n
        { s.nodes n with phase := .sent s.broker.txns.length })
    | _, _ => none
  | .requestCommit n =>
    match (s.nodes n).phase with
    | .sent i =>
      match s.broker.txns[i]? with
      | some txn =>
        some ({ s with broker := s.broker.request i txn }.setNode n
          { s.nodes n with phase := .committing i })
      | none => none
    | _ => none
  | .commit i =>
    match s.broker.txns[i]? with
    | some txn =>
      if s.broker.mayCommit txn then
        some { s with broker := s.broker.finish i txn .committed }
      else none
    | none => none
  | .abort i =>
    match s.broker.txns[i]? with
    | some txn =>
      if txn.status = .ongoing then some { s with broker := s.broker.finish i txn .aborted }
      else none
    | none => none
  | .deliver n =>
    match s.broker.log[(s.nodes n).applied]? with
    | some .barrier =>
      some (s.setNode n { s.nodes n with applied := (s.nodes n).applied + 1 })
    | some (.record i r) =>
      match s.broker.status i with
      | some .committed =>
        some (s.setNode n { s.nodes n with
          applied := (s.nodes n).applied + 1
          store := applyTopicRecord F (s.nodes n).store r })
      | some .aborted =>
        some (s.setNode n { s.nodes n with applied := (s.nodes n).applied + 1 })
      | _ => none
    | none => none
  | .abandon n => some (s.setNode n { s.nodes n with phase := .idle })

/-- A fencing from elsewhere takes a new epoch and touches no node. -/
theorem next_strayInit {s s' : System ι} (hs : next F s .strayInit = some s') :
    s' = { s with broker := s.broker.bump } := by
  simp only [next] at hs
  split at hs
  · exact (Option.some.inj hs).symm
  · cases hs

end KrabkaRegistry.Cluster
