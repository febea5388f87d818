import KrabkaRegistry.Kafkastore.Run
import KrabkaRegistry.Cluster.Model

/-!
# Transactions and What the Nodes Know of Them

A transaction is committed only under the latest epoch.  From the moment a node has seen its
barrier until its transaction ends, no other transaction of that epoch is open and none of an
older epoch can commit, so the node has decided on everything that is committed when its own
record is.  `Inv` states this for every phase of every node.  The lemmas of this module say
what each action of the broker does to the parts of the invariant.
-/

namespace KrabkaRegistry.Cluster

open KrabkaRegistry.Format (Formats)
open KrabkaRegistry.Kafkastore
open KrabkaRegistry.Store

variable {ι : Type} {F : Formats} {d : Defaults}

/-! ## Sequential decisions -/

/-- `r` is the record of a registration that is decided on the history `h`. -/
def Decided (F : Formats) (d : Defaults) (h : List TopicRecord) (r : TopicRecord) : Prop :=
  ∃ req reg, Kafkastore.register F (replay F d.state h) req = .ok ([r], reg)

/-- Every record is decided on the ones before it. -/
inductive Sequential (F : Formats) (d : Defaults) : List TopicRecord → Prop where
  | nil : Sequential F d []
  | snoc {h : List TopicRecord} {r : TopicRecord} :
      Sequential F d h → Decided F d h r → Sequential F d (h ++ [r])

/-! ## The broker -/

namespace Broker

variable (b : Broker)

/-- The epoch of a transaction. -/
def epochOf (i : ℕ) : Option ℕ := (b.txns[i]?).map (·.epoch)

/-- The commit of the transaction was asked for. -/
def Requested (i : ℕ) : Prop := (b.txns[i]?).map (·.commitRequested) = some true

/-- The record of transaction `i` stands at offset `q`. -/
def RecordAt (q i : ℕ) (r : TopicRecord) : Prop := b.log[q]? = some (.record i r)

/-- The committed records among the first `k` entries. -/
def committedIn (k : ℕ) : List TopicRecord := (b.log.take k).filterMap b.committedRecord

/-- The transaction may still be committed. -/
def Pending (i : ℕ) : Prop := b.status i = some .ongoing ∧ b.epochOf i = some b.epoch

/-- Entries from offset `k` on are not committed and never will be under this epoch. -/
def InertFrom (k : ℕ) : Prop :=
  ∀ q i r, k ≤ q → b.RecordAt q i r → b.status i ≠ some .committed ∧ ¬ b.Pending i

/-- Entries from offset `k` on are not committed. -/
def NoneCommittedFrom (k : ℕ) : Prop :=
  ∀ q i r, k ≤ q → b.RecordAt q i r → b.status i ≠ some .committed

/-- Each transaction has one record in the log, and its epoch is not above the latest one. -/
structure Linked : Prop where
  known : ∀ {q i r}, b.RecordAt q i r → b.status i ≠ none
  logged : ∀ {i}, b.status i ≠ none → ∃ q r, b.RecordAt q i r
  unique : ∀ {q q' i r r'}, b.RecordAt q i r → b.RecordAt q' i r' → q = q'
  epoch_le : ∀ {i e}, b.epochOf i = some e → e ≤ b.epoch

end Broker

/-- Transaction `i` was decided on all that is committed, its record follows that of every
committed transaction, and no other transaction may be committed. -/
structure Ready (F : Formats) (d : Defaults) (b : Broker) (i : ℕ) : Prop where
  decided : ∃ q r, b.RecordAt q i r ∧ Decided F d b.committed r ∧ b.NoneCommittedFrom q
  alone : ∀ j, b.Pending j → j = i

/-- A transaction that may still be committed is ready. -/
def Safe (F : Formats) (d : Defaults) (b : Broker) (i : ℕ) : Prop := b.Pending i → Ready F d b i

/-! ## The nodes -/

/-- The node has, or is about to get, the epoch. -/
def Holds (node : Node) (e : ℕ) : Prop :=
  node.producerEpoch = some e ∨ ∃ group req, node.phase = .fencing group req e

/-- The store is the replay of the entries applied so far, none of which is open. -/
structure Follows (F : Formats) (d : Defaults) (b : Broker) (node : Node) : Prop where
  applied_le : node.applied ≤ b.log.length
  store_eq : node.store = replay F d.state (b.committedIn node.applied)
  ended : ∀ {q i r}, q < node.applied → b.RecordAt q i r → b.status i ≠ some .ongoing

/-- What a phase guarantees.  All but the last concern a node whose epoch is the latest. -/
def PhaseInv (F : Formats) (d : Defaults) (b : Broker) (node : Node) : Prop :=
  match node.phase with
  | .ordered _ _ offset => node.producerEpoch = some b.epoch → b.InertFrom offset
  | .synced _ _ | .checked _ _ => node.producerEpoch = some b.epoch →
      (∀ i, ¬ b.Pending i) ∧ b.NoneCommittedFrom node.applied
  | .decided _ r => node.producerEpoch = some b.epoch →
      (∀ i, ¬ b.Pending i) ∧ Decided F d b.committed r
  | .sent i => Safe F d b i
  | .idle | .elected _ _ | .fencing _ _ _ | .fenced _ _ | .committing _ => True

structure Inv (F : Formats) (d : Defaults) (s : System ι) : Prop where
  linked : s.broker.Linked
  sequential : Sequential F d s.broker.committed
  follows : ∀ n, Follows F d s.broker (s.nodes n)
  held_le : ∀ {n e}, Holds (s.nodes n) e → e ≤ s.broker.epoch
  held_unique : ∀ {n m e}, Holds (s.nodes n) e → Holds (s.nodes m) e → n = m
  phase : ∀ n, PhaseInv F d s.broker (s.nodes n)
  requested : ∀ {i}, s.broker.Requested i → Safe F d s.broker i

/-! ## Committed records of a prefix -/

section Committed

variable {b b' : Broker}

/-- An entry of a log that grew by one is an old one or the new last one. -/
private theorem getElem?_snoc {α : Type} {l : List α} {e x : α} {q : ℕ} :
    (l ++ [e])[q]? = some x ↔ l[q]? = some x ∨ (q = l.length ∧ e = x) := by
  rcases lt_trichotomy q l.length with hq | rfl | hq
  · rw [List.getElem?_append_left hq]
    simp [hq.ne]
  · simp
  · have hlen : (l ++ [e]).length ≤ q := by
      rw [List.length_append, List.length_singleton]
      exact hq
    rw [List.getElem?_eq_none hlen, List.getElem?_eq_none hq.le]
    simp [hq.ne']

/-- Overwriting one transaction leaves the others readable as before. -/
private theorem getElem?_set_some {α : Type} {l : List α} {i : ℕ} {x y : α} (h : l[i]? = some y)
    (j : ℕ) : (l.set i x)[j]? = if j = i then some x else l[j]? := by
  have hi : i < l.length := (List.getElem?_eq_some_iff.mp h).1
  rw [List.getElem?_set]
  by_cases hij : i = j
  · subst hij
    simp [hi]
  · simp [hij, Ne.symm hij]

/-- The committed records are those among the first `k` entries followed by those after them. -/
private theorem committed_split (k : ℕ) :
    b.committed = b.committedIn k ++ (b.log.drop k).filterMap b.committedRecord := by
  unfold Broker.committed Broker.committedIn
  rw [← List.filterMap_append, List.take_append_drop]

/-- Nothing is committed after a prefix that holds all committed records. -/
theorem committedIn_eq {k : ℕ} (h : b.NoneCommittedFrom k) : b.committedIn k = b.committed := by
  rw [committed_split k]
  have hnil : (b.log.drop k).filterMap b.committedRecord = [] := by
    rw [List.filterMap_eq_nil_iff]
    intro e he
    obtain ⟨q, hq⟩ := List.mem_iff_getElem?.mp he
    cases e with
    | barrier => rfl
    | record i r =>
      rw [List.getElem?_drop] at hq
      simp [Broker.committedRecord, h (k + q) i r (Nat.le_add_right k q) hq]
  rw [hnil, List.append_nil]

/-- The committed records of a prefix depend on the status of its transactions only. -/
theorem filterMap_committed_congr {l : List Entry}
    (h : ∀ i r, Entry.record i r ∈ l →
      (b'.status i = some .committed ↔ b.status i = some .committed)) :
    l.filterMap b'.committedRecord = l.filterMap b.committedRecord := by
  refine List.filterMap_congr fun e he => ?_
  cases e with
  | barrier => rfl
  | record i r => simp only [Broker.committedRecord, h i r he]

end Committed

/-! ## Changes that leave the transactions alone -/

/-- `b'` has the same transactions, epochs and records, and maybe more barriers. -/
structure SameTxns (b b' : Broker) : Prop where
  status : ∀ i, b'.status i = b.status i
  epochOf : ∀ i, b'.epochOf i = b.epochOf i
  epoch : b'.epoch = b.epoch
  recordAt : ∀ q i r, b'.RecordAt q i r ↔ b.RecordAt q i r
  length_le : b.log.length ≤ b'.log.length
  committed : b'.committed = b.committed
  committedIn : ∀ k ≤ b.log.length, b'.committedIn k = b.committedIn k

namespace SameTxns

variable {b b' : Broker} (h : SameTxns b b')

include h

/-- The same transactions may still be committed. -/
theorem pending_iff (i : ℕ) : b'.Pending i ↔ b.Pending i := by
  unfold Broker.Pending
  rw [h.status, h.epochOf, h.epoch]

/-- What is inert stays inert. -/
theorem inertFrom {k : ℕ} (hk : b.InertFrom k) : b'.InertFrom k := by
  intro q i r hq hr
  rw [h.status, h.pending_iff]
  exact hk q i r hq ((h.recordAt q i r).mp hr)

/-- What is uncommitted stays uncommitted. -/
theorem noneCommittedFrom {k : ℕ} (hk : b.NoneCommittedFrom k) : b'.NoneCommittedFrom k := by
  intro q i r hq hr
  rw [h.status]
  exact hk q i r hq ((h.recordAt q i r).mp hr)

/-- The log and the transactions still fit together. -/
theorem linked (hb : b.Linked) : b'.Linked where
  known hr := by
    rw [h.status]
    exact hb.known ((h.recordAt _ _ _).mp hr)
  logged hi := by
    rw [h.status] at hi
    obtain ⟨q, r, hr⟩ := hb.logged hi
    exact ⟨q, r, (h.recordAt q _ r).mpr hr⟩
  unique hr hr' := hb.unique ((h.recordAt _ _ _).mp hr) ((h.recordAt _ _ _).mp hr')
  epoch_le he := by
    rw [h.epochOf] at he
    rw [h.epoch]
    exact hb.epoch_le he

/-- A transaction that was ready to commit still is. -/
theorem safe {i : ℕ} (hi : Safe F d b i) : Safe F d b' i := by
  intro hpending
  obtain ⟨⟨q, r, hr, hdec, hnone⟩, halone⟩ := hi ((h.pending_iff i).mp hpending)
  refine ⟨⟨q, r, (h.recordAt q i r).mpr hr, ?_, h.noneCommittedFrom hnone⟩, ?_⟩
  · rw [h.committed]
    exact hdec
  · exact fun j hj => halone j ((h.pending_iff j).mp hj)

/-- A node that followed the old log follows the new one, which is at least as long. -/
theorem follows {node : Node} (hn : Follows F d b node) : Follows F d b' node where
  applied_le := hn.applied_le.trans h.length_le
  store_eq := by rw [h.committedIn _ hn.applied_le, hn.store_eq]
  ended hq hr := by
    rw [h.status]
    exact hn.ended hq ((h.recordAt _ _ _).mp hr)

/-- Every guarantee of a phase speaks of the data that `SameTxns` keeps. -/
theorem phaseInv {node : Node} (hn : PhaseInv F d b node) : PhaseInv F d b' node := by
  unfold PhaseInv at hn ⊢
  rw [h.epoch, h.committed]
  simp only [h.pending_iff]
  split at hn
  · exact fun he => h.inertFrom (hn he)
  · exact fun he => ⟨(hn he).1, h.noneCommittedFrom (hn he).2⟩
  · exact fun he => ⟨(hn he).1, h.noneCommittedFrom (hn he).2⟩
  · exact hn
  · exact h.safe hn
  all_goals trivial

end SameTxns

/-! ## Assembling the invariant -/

/-- One node and the broker change; the other nodes stay. The changed node may hold its old epoch or
one that nobody had, which keeps the holders of an epoch unique. -/
theorem Inv.update [DecidableEq ι] {s : System ι} (h : Inv F d s) {b : Broker} {n : ι} {node : Node}
    (hlinked : b.Linked) (hseq : Sequential F d b.committed) (hepoch : s.broker.epoch ≤ b.epoch)
    (hfollows : ∀ m, Follows F d b (s.nodes m)) (hnode : Follows F d b node)
    (hheld : ∀ e, Holds node e → Holds (s.nodes n) e ∨
      (e ≤ b.epoch ∧ ∀ m, ¬ Holds (s.nodes m) e))
    (hphase : ∀ m, m ≠ n → PhaseInv F d b (s.nodes m)) (hphase' : PhaseInv F d b node)
    (hrequested : ∀ {i}, b.Requested i → Safe F d b i) :
    Inv F d ({ s with broker := b }.setNode n node) := by
  have hnodes : ∀ m, ({ s with broker := b }.setNode n node).nodes m =
      if m = n then node else s.nodes m := by
    intro m
    simp [System.setNode, Function.update_apply]
  -- An epoch of the changed node is one it had, or one that nobody had.
  have hold : ∀ m e, Holds (if m = n then node else s.nodes m) e →
      Holds (s.nodes m) e ∨ (m = n ∧ e ≤ b.epoch ∧ ∀ m', ¬ Holds (s.nodes m') e) := by
    intro m e he
    split at he
    · rename_i hm
      subst hm
      exact (hheld e he).imp id fun hfresh => ⟨rfl, hfresh⟩
    · exact .inl he
  -- Each clause is the old one for the other nodes and the given one for the changed node.
  refine ⟨hlinked, hseq, ?_, ?_, ?_, ?_, hrequested⟩
  · intro m
    rw [hnodes]
    split
    · exact hnode
    · exact hfollows m
  · intro m e he
    rw [hnodes] at he
    rcases hold m e he with he | ⟨_, hle, _⟩
    · exact (h.held_le he).trans hepoch
    · exact hle
  · intro m m' e he he'
    rw [hnodes] at he he'
    rcases hold m e he with he | ⟨hm, _, hfresh⟩
    · rcases hold m' e he' with he' | ⟨_, _, hfresh'⟩
      · exact h.held_unique he he'
      · exact absurd he (hfresh' m)
    · rcases hold m' e he' with he' | ⟨hm', _, _⟩
      · exact absurd he' (hfresh m')
      · rw [hm, hm']
  · intro m
    rw [hnodes]
    split
    · exact hphase'
    · rename_i hm
      exact hphase m hm

/-- Only one node changes. -/
theorem Inv.setNode [DecidableEq ι] {s : System ι} (h : Inv F d s) {n : ι} {node : Node}
    (hnode : Follows F d s.broker node) (hheld : ∀ e, Holds node e → Holds (s.nodes n) e)
    (hphase : PhaseInv F d s.broker node) : Inv F d (s.setNode n node) :=
  h.update (b := s.broker) h.linked h.sequential (le_refl _) h.follows hnode
    (fun e he => .inl (hheld e he)) (fun m _ => h.phase m) hphase h.requested

/-- Only the phase of a node changes, and not to a new epoch. -/
theorem Inv.setPhase [DecidableEq ι] {s : System ι} (h : Inv F d s) {n : ι} {phase : Phase}
    (hfencing : ∀ group req e, phase ≠ .fencing group req e)
    (hphase : PhaseInv F d s.broker { s.nodes n with phase := phase }) :
    Inv F d (s.setNode n { s.nodes n with phase := phase }) := by
  refine h.setNode ?_ ?_ hphase
  · exact ⟨(h.follows n).applied_le, (h.follows n).store_eq, (h.follows n).ended⟩
  · rintro e (he | ⟨group, req, he⟩)
    · exact .inl he
    · exact absurd he (hfencing group req e)

/-- The transactions stay, and no commit is asked for that was not. -/
theorem Inv.sameTxns {s : System ι} (h : Inv F d s) {b : Broker} (hsame : SameTxns s.broker b)
    (hrequested : ∀ i, b.Requested i → s.broker.Requested i) :
    Inv F d { s with broker := b } where
  linked := hsame.linked h.linked
  sequential := by
    rw [hsame.committed]
    exact h.sequential
  follows n := hsame.follows (h.follows n)
  held_le he := (h.held_le he).trans hsame.epoch.ge
  held_unique he he' := h.held_unique he he'
  phase n := hsame.phaseInv (h.phase n)
  requested hi := hsame.safe (h.requested (hrequested _ hi))

/-! ## The actions of the broker -/

section Actions

variable {b : Broker}

/-- An election changes the group, which no transaction reads. -/
theorem sameTxns_elect (generationId : Int) (members : List String) :
    SameTxns b { b with generationId := generationId, members := members } :=
  ⟨fun _ => rfl, fun _ => rfl, rfl, fun _ _ _ => Iff.rfl, le_refl _, rfl, fun _ _ => rfl⟩

/-- A barrier lengthens the log without a record. -/
theorem sameTxns_appendBarrier : SameTxns b b.appendBarrier where
  status _ := rfl
  epochOf _ := rfl
  epoch := rfl
  recordAt q i r := by
    unfold Broker.RecordAt Broker.appendBarrier
    rw [getElem?_snoc]
    simp
  length_le := by simp [Broker.appendBarrier]
  committed := by
    change (b.log ++ [Entry.barrier]).filterMap b.committedRecord = b.log.filterMap b.committedRecord
    rw [List.filterMap_append]
    simp [Broker.committedRecord]
  committedIn k hk := by
    change ((b.log ++ [Entry.barrier]).take k).filterMap b.committedRecord = b.committedIn k
    rw [List.take_append_of_le_length hk]
    rfl

/-- Asking for a commit does not decide it. -/
theorem status_request {i : ℕ} {txn : Txn} (htxn : b.txns[i]? = some txn) (j : ℕ) :
    (b.request i txn).status j = b.status j := by
  unfold Broker.status Broker.request
  rw [getElem?_set_some htxn]
  split
  · rename_i hj
    rw [hj, htxn]
    rfl
  · rfl

/-- Asking for a commit keeps the epoch of every transaction. -/
theorem epochOf_request {i : ℕ} {txn : Txn} (htxn : b.txns[i]? = some txn) (j : ℕ) :
    (b.request i txn).epochOf j = b.epochOf j := by
  unfold Broker.epochOf Broker.request
  rw [getElem?_set_some htxn]
  split
  · rename_i hj
    rw [hj, htxn]
    rfl
  · rfl

/-- Asking for a commit changes a mark that only `Requested` reads. -/
theorem sameTxns_request {i : ℕ} {txn : Txn} (htxn : b.txns[i]? = some txn) :
    SameTxns b (b.request i txn) where
  status := status_request htxn
  epochOf := epochOf_request htxn
  epoch := rfl
  recordAt _ _ _ := Iff.rfl
  length_le := le_refl _
  committed := filterMap_committed_congr fun j _ _ => by rw [status_request htxn]
  committedIn _ _ := filterMap_committed_congr fun j _ _ => by rw [status_request htxn]

/-- The request adds the one transaction it is about. -/
theorem requested_request {i j : ℕ} {txn : Txn} (htxn : b.txns[i]? = some txn)
    (h : (b.request i txn).Requested j) : j = i ∨ b.Requested j := by
  unfold Broker.Requested Broker.request at *
  rw [getElem?_set_some htxn] at h
  split at h
  · rename_i hj
    exact .inl hj
  · exact .inr h

/-! ### Ending a transaction -/

/-- Finishing a transaction sets its own status and no other. -/
theorem status_finish {i : ℕ} {txn : Txn} (htxn : b.txns[i]? = some txn) (status : TxnStatus)
    (j : ℕ) : (b.finish i txn status).status j = if j = i then some status else b.status j := by
  unfold Broker.status Broker.finish
  rw [getElem?_set_some htxn]
  split <;> rfl

/-- Finishing keeps the epochs, so fencing still finds the right ones. -/
theorem epochOf_finish {i : ℕ} {txn : Txn} (htxn : b.txns[i]? = some txn) (status : TxnStatus)
    (j : ℕ) : (b.finish i txn status).epochOf j = b.epochOf j := by
  unfold Broker.epochOf Broker.finish
  rw [getElem?_set_some htxn]
  split
  · rename_i hj
    rw [hj, htxn]
    rfl
  · rfl

/-- Finishing keeps the requests, a commit being asked for before it is decided. -/
theorem requested_finish {i : ℕ} {txn : Txn} (htxn : b.txns[i]? = some txn) (status : TxnStatus)
    (j : ℕ) : (b.finish i txn status).Requested j ↔ b.Requested j := by
  unfold Broker.Requested Broker.finish
  rw [getElem?_set_some htxn]
  split
  · rename_i hj
    rw [hj, htxn]
    rfl
  · rfl

/-- Ending one transaction leaves the others pending or not. -/
theorem pending_finish {i : ℕ} {txn : Txn} (htxn : b.txns[i]? = some txn) {status : TxnStatus}
    (hended : status ≠ .ongoing) {j : ℕ} (h : (b.finish i txn status).Pending j) :
    j ≠ i ∧ b.Pending j := by
  unfold Broker.Pending at h
  rw [status_finish htxn, epochOf_finish htxn] at h
  split at h
  · exact absurd (Option.some.inj h.1) hended
  · rename_i hj
    exact ⟨hj, h⟩

/-- The log is untouched and no transaction disappears, so every record keeps its transaction. -/
theorem linked_finish {i : ℕ} {txn : Txn} (htxn : b.txns[i]? = some txn) (status : TxnStatus)
    (h : b.Linked) : (b.finish i txn status).Linked where
  known {q j r} hr := by
    rw [status_finish htxn]
    split
    · simp
    · exact h.known hr
  logged {j} hj := by
    rw [status_finish htxn] at hj
    split at hj
    · rename_i hji
      subst hji
      exact h.logged (by simp [Broker.status, htxn])
    · exact h.logged hj
  unique hr hr' := h.unique hr hr'
  epoch_le he := by
    rw [epochOf_finish htxn] at he
    exact h.epoch_le he

/-- A reader has not come to an open transaction, so its end changes nothing applied. -/
theorem follows_finish {i : ℕ} {txn : Txn} (htxn : b.txns[i]? = some txn)
    (hongoing : txn.status = .ongoing) (status : TxnStatus) (hended : status ≠ .ongoing)
    {node : Node} (h : Follows F d b node) : Follows F d (b.finish i txn status) node where
  applied_le := h.applied_le
  store_eq := by
    rw [h.store_eq]
    refine congrArg (replay F d.state) (Eq.symm ?_)
    refine filterMap_committed_congr fun j r hmem => ?_
    rw [status_finish htxn]
    obtain ⟨q, hq⟩ := List.mem_iff_getElem?.mp hmem
    have hlt : q < node.applied := by
      have := (List.getElem?_eq_some_iff.mp hq).1
      rw [List.length_take] at this
      exact lt_of_lt_of_le this (min_le_left _ _)
    rw [List.getElem?_take_of_lt hlt] at hq
    -- An entry already applied has an ended transaction, while `i` is still open.
    have hne : j ≠ i := by
      rintro rfl
      exact h.ended hlt hq (by simp [Broker.status, htxn, hongoing])
    rw [if_neg hne]
  ended {q j r} hq hr := by
    rw [status_finish htxn]
    split
    · simpa using hended
    · exact h.ended hq hr

/-! ### Abort -/

/-- An abort commits nothing: its transaction was open before and is not committed afterwards. -/
theorem committed_iff_abort {i : ℕ} {txn : Txn} (htxn : b.txns[i]? = some txn)
    (hongoing : txn.status = .ongoing) (j : ℕ) :
    (b.finish i txn .aborted).status j = some .committed ↔ b.status j = some .committed := by
  rw [status_finish htxn]
  by_cases hj : j = i
  · subst hj
    simp [Broker.status, htxn, hongoing]
  · rw [if_neg hj]

/-- So the committed records are the same after an abort. -/
theorem committed_abort {i : ℕ} {txn : Txn} (htxn : b.txns[i]? = some txn)
    (hongoing : txn.status = .ongoing) : (b.finish i txn .aborted).committed = b.committed :=
  filterMap_committed_congr fun j _ _ => committed_iff_abort htxn hongoing j

/-- The same for the entries from an offset on. -/
theorem noneCommittedFrom_abort {i k : ℕ} {txn : Txn} (htxn : b.txns[i]? = some txn)
    (hongoing : txn.status = .ongoing) (h : b.NoneCommittedFrom k) :
    (b.finish i txn .aborted).NoneCommittedFrom k := by
  intro q j r hq hr hc
  exact h q j r hq hr ((committed_iff_abort htxn hongoing j).mp hc)

/-- An abort takes away a pending transaction, which makes the others no less alone. -/
theorem safe_abort {i j : ℕ} {txn : Txn} (htxn : b.txns[i]? = some txn)
    (hongoing : txn.status = .ongoing) (h : Safe F d b j) :
    Safe F d (b.finish i txn .aborted) j := by
  intro hpending
  obtain ⟨⟨q, r, hr, hdec, hnone⟩, halone⟩ := h (pending_finish htxn (by simp) hpending).2
  refine ⟨⟨q, r, hr, ?_, noneCommittedFrom_abort htxn hongoing hnone⟩, ?_⟩
  · rw [committed_abort htxn hongoing]
    exact hdec
  · exact fun k hk => halone k (pending_finish htxn (by simp) hk).2

/-- Every guarantee survives an abort, since each of them forbids pending or committed transactions.
-/
theorem phaseInv_abort {i : ℕ} {txn : Txn} (htxn : b.txns[i]? = some txn)
    (hongoing : txn.status = .ongoing) {node : Node} (h : PhaseInv F d b node) :
    PhaseInv F d (b.finish i txn .aborted) node := by
  have hpending : ∀ j, ¬ b.Pending j → ¬ (b.finish i txn .aborted).Pending j :=
    fun j hj hp => hj (pending_finish htxn (by simp) hp).2
  unfold PhaseInv at h ⊢
  rw [committed_abort htxn hongoing]
  split at h
  · intro he q j r hq hr
    obtain ⟨hc, hp⟩ := h he q j r hq hr
    exact ⟨fun hc' => hc ((committed_iff_abort htxn hongoing j).mp hc'), hpending j hp⟩
  · exact fun he => ⟨fun j => hpending j ((h he).1 j), noneCommittedFrom_abort htxn hongoing (h he).2⟩
  · exact fun he => ⟨fun j => hpending j ((h he).1 j), noneCommittedFrom_abort htxn hongoing (h he).2⟩
  · exact fun he => ⟨fun j => hpending j ((h he).1 j), (h he).2⟩
  · exact safe_abort htxn hongoing h
  all_goals trivial

/-! ### Commit -/

/-- The record of a ready transaction becomes the last committed one. -/
theorem committed_commit {i : ℕ} {txn : Txn} (htxn : b.txns[i]? = some txn) (hb : b.Linked)
    {q : ℕ} {r : TopicRecord} (hr : b.RecordAt q i r) (hnone : b.NoneCommittedFrom q) :
    (b.finish i txn .committed).committed = b.committed ++ [r] := by
  have hother : ∀ {q' j r'}, b.RecordAt q' j r' → q' ≠ q → j ≠ i := by
    rintro q' j r' hr' hq' rfl
    exact hq' (hb.unique hr' hr)
  have hafter : (b.finish i txn .committed).NoneCommittedFrom (q + 1) := by
    intro q' j r' hq' hr'
    rw [status_finish htxn, if_neg (hother hr' (Nat.lt_of_succ_le hq').ne')]
    exact hnone q' j r' (Nat.le_of_succ_le hq') hr'
  -- The log is cut right after the record of `i`: before it nothing changes, and after it nothing
  -- is committed.
  rw [← committedIn_eq hafter, ← committedIn_eq hnone]
  unfold Broker.committedIn
  change ((b.log.take (q + 1)).filterMap _) = _
  rw [List.take_add_one, show b.log[q]? = some (.record i r) from hr, List.filterMap_append]
  congr 1
  · refine filterMap_committed_congr fun j r' hmem => ?_
    obtain ⟨q', hq'⟩ := List.mem_iff_getElem?.mp hmem
    have hlt : q' < q := by
      have := (List.getElem?_eq_some_iff.mp hq').1
      rw [List.length_take] at this
      exact lt_of_lt_of_le this (min_le_left _ _)
    rw [List.getElem?_take_of_lt hlt] at hq'
    rw [status_finish htxn, if_neg (hother hq' hlt.ne)]
  · simp [Broker.committedRecord, status_finish htxn]

/-- After the commit no transaction is pending any more: the ready one was alone and it has ended.
-/
theorem safe_commit {i j : ℕ} {txn : Txn} (htxn : b.txns[i]? = some txn) (hready : Ready F d b i) :
    Safe F d (b.finish i txn .committed) j := by
  intro hpending
  obtain ⟨hne, hp⟩ := pending_finish htxn (by simp) hpending
  exact absurd (hready.alone j hp) hne

/-- A guarantee that forbids pending transactions contradicts the open one that commits, and a
barrier still waited for stands behind its record. -/
theorem phaseInv_commit {i : ℕ} {txn : Txn} (htxn : b.txns[i]? = some txn)
    (hpending : b.Pending i) (hready : Ready F d b i) {node : Node} (h : PhaseInv F d b node) :
    PhaseInv F d (b.finish i txn .committed) node := by
  unfold PhaseInv at h ⊢
  split at h
  -- A barrier that waits stands after the record that commits.
  · intro he q j r hq hr
    obtain ⟨hc, hp⟩ := h he q j r hq hr
    have hne : j ≠ i := by
      rintro rfl
      exact hp hpending
    rw [status_finish htxn, if_neg hne]
    exact ⟨hc, fun hp' => hp (pending_finish htxn (by simp) hp').2⟩
  · exact fun he => absurd hpending ((h he).1 i)
  · exact fun he => absurd hpending ((h he).1 i)
  · exact fun he => absurd hpending ((h he).1 i)
  · exact safe_commit htxn hready
  all_goals trivial

/-! ### Begin -/

section Begin

variable {epoch : ℕ} {group : ConsumerGroupMetadata} {r : TopicRecord}

/-- A new transaction is appended at the end of the table. -/
private theorem txns_begin (j : ℕ) : (b.begin epoch group r).txns[j]? =
    if j = b.txns.length then some { epoch := epoch, group := group } else b.txns[j]? := by
  unfold Broker.begin
  rcases lt_trichotomy j b.txns.length with hj | rfl | hj
  · rw [List.getElem?_append_left hj, if_neg hj.ne]
  · simp
  · have hlen : (b.txns ++ [({ epoch := epoch, group := group } : Txn)]).length ≤ j := by
      rw [List.length_append, List.length_singleton]
      exact hj
    rw [List.getElem?_eq_none hlen, if_neg hj.ne', List.getElem?_eq_none hj.le]

/-- It is open, and the others keep their status. -/
theorem status_begin (j : ℕ) : (b.begin epoch group r).status j =
    if j = b.txns.length then some .ongoing else b.status j := by
  unfold Broker.status
  rw [txns_begin]
  split <;> rfl

/-- It has the epoch of its producer, and the others keep theirs. -/
theorem epochOf_begin (j : ℕ) : (b.begin epoch group r).epochOf j =
    if j = b.txns.length then some epoch else b.epochOf j := by
  unfold Broker.epochOf
  rw [txns_begin]
  split <;> rfl

/-- Its record is the last entry of the log. -/
theorem recordAt_begin {q j : ℕ} {r' : TopicRecord} :
    (b.begin epoch group r).RecordAt q j r' ↔
      b.RecordAt q j r' ∨ (q = b.log.length ∧ j = b.txns.length ∧ r = r') := by
  unfold Broker.RecordAt Broker.begin
  rw [getElem?_snoc]
  simp [eq_comm]

/-- No commit is asked for yet. -/
theorem requested_begin {j : ℕ} (h : (b.begin epoch group r).Requested j) : b.Requested j := by
  unfold Broker.Requested at h ⊢
  rw [txns_begin] at h
  split at h
  · simp at h
  · exact h

/-- The next number is not in use. -/
theorem status_length : b.status b.txns.length = none := by
  simp [Broker.status]

/-- A transaction that has a record is not the new one. -/
private theorem Broker.Linked.ne_length (hb : b.Linked) {q j : ℕ} {r' : TopicRecord}
    (hr : b.RecordAt q j r') : j ≠ b.txns.length := by
  rintro rfl
  exact hb.known hr status_length

/-- The new transaction and its record are added together, so each still has the other. -/
theorem linked_begin (hb : b.Linked) (hle : epoch ≤ b.epoch) :
    (b.begin epoch group r).Linked where
  known {q j r'} hr := by
    rw [status_begin]
    split
    · simp
    · rename_i hj
      rcases recordAt_begin.mp hr with hr | ⟨_, hj', _⟩
      · exact hb.known hr
      · exact absurd hj' hj
  logged {j} hj := by
    rw [status_begin] at hj
    split at hj
    · rename_i hjl
      exact ⟨_, r, recordAt_begin.mpr (.inr ⟨rfl, hjl, rfl⟩)⟩
    · obtain ⟨q, r', hr⟩ := hb.logged hj
      exact ⟨q, r', recordAt_begin.mpr (.inl hr)⟩
  -- Two entries of one transaction are two old ones or twice the new one.
  unique {q q' j x x'} hr hr' := by
    rcases recordAt_begin.mp hr with hr | ⟨hq, hj, _⟩
    · rcases recordAt_begin.mp hr' with hr' | ⟨_, hj', _⟩
      · exact hb.unique hr hr'
      · exact absurd hj' (hb.ne_length hr)
    · rcases recordAt_begin.mp hr' with hr' | ⟨hq', _, _⟩
      · exact absurd hj (hb.ne_length hr')
      · rw [hq, hq']
  epoch_le {j e} he := by
    rw [epochOf_begin] at he
    split at he
    · exact (Option.some.inj he).ge.trans hle
    · exact hb.epoch_le he

/-- Whatever is in the log already has a transaction with a smaller number. -/
private theorem status_begin_old (hb : b.Linked) {q j : ℕ} {r' : TopicRecord}
    (hr : b.RecordAt q j r') : (b.begin epoch group r).status j = b.status j := by
  rw [status_begin, if_neg (hb.ne_length hr)]

/-- Hence the entries already there count as before. -/
private theorem committed_old (hb : b.Linked) {l : List Entry} (hl : ∀ e ∈ l, e ∈ b.log) :
    l.filterMap (b.begin epoch group r).committedRecord = l.filterMap b.committedRecord := by
  refine filterMap_committed_congr fun j r' hmem => ?_
  obtain ⟨q, hq⟩ := List.mem_iff_getElem?.mp (hl _ hmem)
  rw [status_begin_old hb hq]

/-- Starting a transaction commits nothing. -/
theorem committed_begin (hb : b.Linked) : (b.begin epoch group r).committed = b.committed := by
  unfold Broker.committed
  change (b.log ++ [Entry.record b.txns.length r]).filterMap _ = _
  rw [List.filterMap_append, committed_old hb fun _ he => he]
  simp [Broker.committedRecord, status_begin]

/-- Nor does it commit anything after an offset. -/
theorem noneCommittedFrom_begin (hb : b.Linked) {k : ℕ} (h : b.NoneCommittedFrom k) :
    (b.begin epoch group r).NoneCommittedFrom k := by
  intro q j r' hq hr
  rcases recordAt_begin.mp hr with hr | ⟨_, hj, _⟩
  · rw [status_begin_old hb hr]
    exact h q j r' hq hr
  · rw [status_begin, if_pos hj]
    simp

/-- A node that follows the log has applied only entries that were there. -/
theorem follows_begin (hb : b.Linked) {node : Node} (h : Follows F d b node) :
    Follows F d (b.begin epoch group r) node where
  applied_le := h.applied_le.trans (by simp [Broker.begin])
  store_eq := by
    rw [h.store_eq]
    unfold Broker.committedIn
    change _ = replay F d.state (((b.log ++ [Entry.record b.txns.length r]).take _).filterMap _)
    rw [List.take_append_of_le_length h.applied_le, committed_old hb fun _ he =>
      List.mem_of_mem_take he]
  ended {q j r'} hq hr := by
    rcases recordAt_begin.mp hr with hr | ⟨hlen, _, _⟩
    · rw [status_begin_old hb hr]
      exact h.ended hq hr
    · exact absurd hq (not_lt_of_ge (hlen ▸ h.applied_le))

/-- Only a transaction of the latest epoch joins the ones that may be committed. -/
theorem pending_begin {j : ℕ} (h : (b.begin epoch group r).Pending j) :
    b.Pending j ∨ (j = b.txns.length ∧ epoch = b.epoch) := by
  unfold Broker.Pending at h
  rw [status_begin, epochOf_begin] at h
  split at h
  · rename_i hj
    exact .inr ⟨hj, Option.some.inj h.2⟩
  · exact .inl h

/-- The new transaction is ready if it is begun under the latest epoch, and otherwise it is
not in the way of one that is. -/
theorem safe_begin (hb : b.Linked) {j : ℕ}
    (hnew : epoch = b.epoch → (∀ i, ¬ b.Pending i) ∧ Decided F d b.committed r)
    (h : Safe F d b j) : Safe F d (b.begin epoch group r) j := by
  intro hpending
  rcases pending_begin hpending with hp | ⟨rfl, hlatest⟩
  -- An old pending transaction: the new one is then of an older epoch.
  · have hstale : epoch ≠ b.epoch := fun he => (hnew he).1 j hp
    obtain ⟨⟨q, x, hr, hdec, hnone⟩, halone⟩ := h hp
    refine ⟨⟨q, x, recordAt_begin.mpr (.inl hr), ?_, noneCommittedFrom_begin hb hnone⟩, ?_⟩
    · rw [committed_begin hb]
      exact hdec
    · intro k hk
      rcases pending_begin hk with hk | ⟨_, he⟩
      · exact halone k hk
      · exact absurd he hstale
  · obtain ⟨hnone, hdec⟩ := hnew hlatest
    refine ⟨⟨b.log.length, r, recordAt_begin.mpr (.inr ⟨rfl, rfl, rfl⟩), ?_, ?_⟩, ?_⟩
    · rw [committed_begin hb]
      exact hdec
    -- The new record is the last entry, and it is open.
    · intro q k x hq hr
      rcases recordAt_begin.mp hr with hr | ⟨_, hk, _⟩
      · exact absurd (List.getElem?_eq_some_iff.mp hr).1 (not_lt_of_ge hq)
      · rw [status_begin, if_pos hk]
        simp
    · intro k hk
      rcases pending_begin hk with hk | ⟨hk, _⟩
      · exact absurd hk (hnone k)
      · exact hk

/-- The new transaction matters to another node only if both have the latest epoch, and `hother`
excludes that. -/
theorem phaseInv_begin (hb : b.Linked)
    (hnew : epoch = b.epoch → (∀ i, ¬ b.Pending i) ∧ Decided F d b.committed r) {node : Node}
    (hother : node.producerEpoch = some b.epoch → epoch ≠ b.epoch) (h : PhaseInv F d b node) :
    PhaseInv F d (b.begin epoch group r) node := by
  have hpending : node.producerEpoch = some b.epoch → (∀ i, ¬ b.Pending i) →
      ∀ i, ¬ (b.begin epoch group r).Pending i := by
    intro he hnone i hi
    rcases pending_begin hi with hi | ⟨_, hlatest⟩
    · exact hnone i hi
    · exact hother he hlatest
  unfold PhaseInv at h ⊢
  rw [committed_begin hb]
  split at h
  -- In the ordered phase the guarantee covers the entries from an offset on, the new one among
  -- them.
  · intro he q j x hq hr
    rcases recordAt_begin.mp hr with hr | ⟨_, hj, _⟩
    · obtain ⟨hc, hp⟩ := h he q j x hq hr
      rw [status_begin_old hb hr]
      refine ⟨hc, fun hp' => ?_⟩
      rcases pending_begin hp' with hp' | ⟨_, hlatest⟩
      · exact hp hp'
      · exact hother he hlatest
    · rw [status_begin, if_pos hj]
      refine ⟨by simp, fun hp' => ?_⟩
      rcases pending_begin hp' with hp' | ⟨_, hlatest⟩
      · rw [hj] at hp'
        simp [Broker.Pending, status_length] at hp'
      · exact hother he hlatest
  · exact fun he => ⟨hpending he (h he).1, noneCommittedFrom_begin hb (h he).2⟩
  · exact fun he => ⟨hpending he (h he).1, noneCommittedFrom_begin hb (h he).2⟩
  · exact fun he => ⟨hpending he (h he).1, (h he).2⟩
  · exact safe_begin hb hnew h
  all_goals trivial

end Begin

/-! ### A new epoch -/

/-- Raising the epoch fences every open transaction. -/
theorem not_pending_bump (hb : b.Linked) (i : ℕ) : ¬ b.bump.Pending i := by
  rintro ⟨_, he⟩
  exact absurd (hb.epoch_le he) (Nat.not_succ_le_self b.epoch)

/-- Under a new epoch that nobody has yet, no phase promises anything. -/
theorem phaseInv_bump (hb : b.Linked) {node : Node}
    (hheld : ∀ e, Holds node e → e ≤ b.epoch) : PhaseInv F d b.bump node := by
  have hepoch : node.producerEpoch ≠ some b.bump.epoch := fun he =>
    absurd (hheld _ (.inl he)) (Nat.not_succ_le_self b.epoch)
  unfold PhaseInv
  split
  · exact fun he => absurd he hepoch
  · exact fun he => absurd he hepoch
  · exact fun he => absurd he hepoch
  · exact fun he => absurd he hepoch
  · exact fun hp => absurd hp (not_pending_bump hb _)
  all_goals trivial

/-- The epoch only grows, so all others stay below it. -/
theorem linked_bump (hb : b.Linked) : b.bump.Linked :=
  ⟨hb.known, hb.logged, hb.unique, fun he => (hb.epoch_le he).trans (Nat.le_succ _)⟩

/-- What a node has applied does not depend on the epoch. -/
theorem follows_bump {node : Node} (h : Follows F d b node) : Follows F d b.bump node :=
  ⟨h.applied_le, h.store_eq, h.ended⟩

/-- After the epoch is raised nothing is pending and no node has the new epoch yet, so every
guarantee holds for want of a premise. -/
theorem Inv.bump {s : System ι} (h : Inv F d s) : Inv F d { s with broker := s.broker.bump } where
  linked := linked_bump h.linked
  sequential := h.sequential
  follows n := follows_bump (h.follows n)
  held_le he := (h.held_le he).trans (Nat.le_succ _)
  held_unique he he' := h.held_unique he he'
  phase _ := phaseInv_bump h.linked fun _ he => h.held_le he
  requested _ := fun hp => absurd hp (not_pending_bump h.linked _)

/-! ### Reading on -/

/-- Reading one entry further adds its record if it is committed. -/
theorem committedIn_succ {k : ℕ} {e : Entry} (he : b.log[k]? = some e) :
    b.committedIn (k + 1) = b.committedIn k ++ (b.committedRecord e).toList := by
  unfold Broker.committedIn
  rw [List.take_add_one, he, List.filterMap_append]
  cases hc : b.committedRecord e <;> simp [hc]

/-- A reader moves past an entry that is not open. -/
theorem follows_deliver {node : Node} (h : Follows F d b node) {e : Entry}
    (he : b.log[node.applied]? = some e)
    (hended : ∀ i r, e = .record i r → b.status i ≠ some .ongoing) {store : StoreState}
    (hstore : store = replay F node.store (b.committedRecord e).toList) :
    Follows F d b { node with applied := node.applied + 1, store := store } where
  applied_le := (List.getElem?_eq_some_iff.mp he).1
  store_eq := by
    change store = replay F d.state (b.committedIn (node.applied + 1))
    rw [hstore, committedIn_succ he, replay_append, ← h.store_eq]
  ended {q i r} hq hr := by
    rcases Nat.lt_succ_iff_lt_or_eq.mp hq with hq | rfl
    · exact h.ended hq hr
    · have heq : e = .record i r := by
        unfold Broker.RecordAt at hr
        rw [he] at hr
        exact Option.some.inj hr
      exact hended i r heq

/-- Applying an entry moves `applied` past it, which shortens the part of the log a guarantee has to
cover. -/
theorem phaseInv_deliver {node : Node} (h : PhaseInv F d b node) (store : StoreState) :
    PhaseInv F d b { node with applied := node.applied + 1, store := store } := by
  unfold PhaseInv at h ⊢
  split at h
  · rename_i hp
    simp only [hp]
    exact h
  · rename_i hp
    simp only [hp]
    exact fun he => ⟨(h he).1, fun q i r hq => (h he).2 q i r (Nat.le_of_succ_le hq)⟩
  · rename_i hp
    simp only [hp]
    exact fun he => ⟨(h he).1, fun q i r hq => (h he).2 q i r (Nat.le_of_succ_le hq)⟩
  · rename_i hp
    simp only [hp]
    exact h
  · rename_i hp
    simp only [hp]
    exact h
  all_goals
    rename_i hp
    simp only [hp]

/-- A node that has seen its barrier has applied everything, and nothing is pending. -/
theorem caughtUp_of_seen (hb : b.Linked) {node : Node} (h : Follows F d b node) {offset : ℕ}
    (hinert : b.InertFrom offset) (hseen : offset < node.applied) :
    (∀ i, ¬ b.Pending i) ∧ b.NoneCommittedFrom node.applied := by
  constructor
  · intro i hp
    obtain ⟨q, r, hr⟩ := hb.logged (i := i) (by simp [hp.1])
    rcases lt_or_ge q node.applied with hq | hq
    · exact h.ended hq hr hp.1
    · exact (hinert q i r (hseen.le.trans hq) hr).2 hp
  · exact fun q i r hq hr => (hinert q i r (hseen.le.trans hq) hr).1

end Actions

end KrabkaRegistry.Cluster
