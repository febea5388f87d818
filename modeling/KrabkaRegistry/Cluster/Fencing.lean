import KrabkaRegistry.Library.Trace
import KrabkaRegistry.Cluster.Transactions

/-!
# Fencing Makes Decisions Sequential

`next_inv` shows that no action of a node, of the broker or of the election breaks the
invariant, and `committed_sequential` draws the conclusion: the committed records are those of
one registry that takes the registrations one after the other.
-/

namespace KrabkaRegistry.Cluster

open KrabkaRegistry.Format (Formats)
open KrabkaRegistry.Kafkastore
open KrabkaRegistry.Library (Trace)
open KrabkaRegistry.Store

variable {ι : Type} {F : Formats} {d : Defaults}

/-! ## Every action keeps the invariant -/

section Step

variable [DecidableEq ι] {s s' : System ι}

private theorem inv_read (h : Inv F d s) {n : ι} {req : RegisterSchema}
    (hs : next F s (.read n req) = some s') : Inv F d s' := by
  simp only [next] at hs
  split at hs
  · obtain rfl : _ = s' := Option.some.inj hs
    exact h.setPhase (by simp) trivial
  · cases hs

private theorem inv_fence (h : Inv F d s) {n : ι} (hs : next F s (.fence n) = some s') :
    Inv F d s' := by
  simp only [next] at hs
  split at hs
  · split at hs
    · obtain rfl : _ = s' := Option.some.inj hs
      exact h.setPhase (by simp) trivial
    · split at hs
      · obtain rfl : _ = s' := Option.some.inj hs
        refine h.update (linked_bump h.linked) h.sequential (Nat.le_succ _)
          (fun m => follows_bump (h.follows m)) (follows_bump ?_) ?_
          (fun m _ => phaseInv_bump h.linked fun _ he => h.held_le he) trivial
          (fun _ hp => absurd hp (not_pending_bump h.linked _))
        · exact ⟨(h.follows n).applied_le, (h.follows n).store_eq, (h.follows n).ended⟩
        -- The new epoch is above all that are held.
        · rintro e (he | ⟨group, req, he⟩)
          · exact .inl (.inl he)
          · obtain ⟨_, _, rfl⟩ : _ = group ∧ _ = req ∧ s.broker.bump.epoch = e := by
              simpa using he
            refine .inr ⟨le_refl _, fun m hm => ?_⟩
            exact absurd (h.held_le hm) (Nat.not_succ_le_self _)
      · cases hs
  · cases hs

private theorem inv_fenceDone (h : Inv F d s) {n : ι} (hs : next F s (.fenceDone n) = some s') :
    Inv F d s' := by
  simp only [next] at hs
  split at hs
  · rename_i group req epoch hp
    obtain rfl : _ = s' := Option.some.inj hs
    refine h.setNode ?_ ?_ trivial
    · exact ⟨(h.follows n).applied_le, (h.follows n).store_eq, (h.follows n).ended⟩
    · rintro e (he | ⟨_, _, he⟩)
      · obtain rfl : epoch = e := by simpa using he
        exact .inr ⟨group, req, hp⟩
      · cases he
  · cases hs

private theorem inv_order (h : Inv F d s) {n : ι} (hs : next F s (.order n) = some s') :
    Inv F d s' := by
  simp only [next] at hs
  split at hs
  · obtain rfl : _ = s' := Option.some.inj hs
    have hsame := sameTxns_appendBarrier (b := s.broker)
    have hinv := h.sameTxns hsame fun _ hi => hi
    refine hinv.setPhase (s := { s with broker := s.broker.appendBarrier }) (by simp) ?_
    -- The barrier is the last entry.
    intro _ q i r hq hr
    have hlt := (List.getElem?_eq_some_iff.mp ((hsame.recordAt q i r).mp hr)).1
    exact absurd hlt (not_lt_of_ge hq)
  · cases hs

private theorem inv_seen (h : Inv F d s) {n : ι} (hs : next F s (.seen n) = some s') :
    Inv F d s' := by
  simp only [next] at hs
  split at hs
  · rename_i group req offset hp
    split at hs
    · rename_i hseen
      obtain rfl : _ = s' := Option.some.inj hs
      refine h.setPhase (by simp) fun he => ?_
      have hphase := h.phase n
      simp only [PhaseInv, hp] at hphase
      have hcaught := caughtUp_of_seen h.linked (h.follows n) (hphase he) hseen
      exact hcaught
    · cases hs
  · cases hs

private theorem inv_recheck (h : Inv F d s) {n : ι} (hs : next F s (.recheck n) = some s') :
    Inv F d s' := by
  simp only [next] at hs
  split at hs
  · rename_i group req hp
    obtain rfl : _ = s' := Option.some.inj hs
    have hphase := h.phase n
    simp only [PhaseInv, hp] at hphase
    split
    · exact h.setPhase (by simp) hphase
    · exact h.setPhase (by simp) trivial
  · cases hs

private theorem inv_decide (h : Inv F d s) {n : ι} (hs : next F s (.decide n) = some s') :
    Inv F d s' := by
  simp only [next] at hs
  split at hs
  · rename_i group req hp
    obtain rfl : _ = s' := Option.some.inj hs
    have hphase := h.phase n
    simp only [PhaseInv, hp] at hphase
    split
    · rename_i r reg hreg
      refine h.setPhase (by simp) fun he => ?_
      obtain ⟨hnone, hafter⟩ := hphase he
      refine ⟨hnone, req, reg, ?_⟩
      rw [← committedIn_eq hafter, ← (h.follows n).store_eq]
      exact hreg
    · exact h.setPhase (by simp) trivial
  · cases hs

private theorem inv_send (h : Inv F d s) {n : ι} (hs : next F s (.send n) = some s') :
    Inv F d s' := by
  simp only [next] at hs
  split at hs
  · rename_i group r epoch hp hepoch
    obtain rfl : _ = s' := Option.some.inj hs
    have hphase := h.phase n
    simp only [PhaseInv, hp] at hphase
    have hnew : epoch = s.broker.epoch →
        (∀ i, ¬ s.broker.Pending i) ∧ Decided F d s.broker.committed r := by
      rintro rfl
      exact hphase hepoch
    refine h.update (linked_begin h.linked (h.held_le (n := n) (.inl hepoch))) ?_ (le_refl _)
      (fun m => follows_begin h.linked (h.follows m)) (follows_begin h.linked ?_) ?_ ?_ ?_
      (fun hi => safe_begin h.linked hnew (h.requested (requested_begin hi)))
    · rw [committed_begin h.linked]
      exact h.sequential
    · exact ⟨(h.follows n).applied_le, (h.follows n).store_eq, (h.follows n).ended⟩
    · rintro e (he | ⟨_, _, he⟩)
      · exact .inl (.inl he)
      · cases he
    -- Another node with the latest epoch means that this one's is old.
    · intro m hm
      refine phaseInv_begin h.linked hnew (fun he hlatest => hm ?_) (h.phase m)
      exact h.held_unique (.inl he) (.inl (by rw [hepoch, hlatest]))
    · exact safe_begin h.linked hnew fun hp' => by simp [Broker.Pending, status_length] at hp'
  · cases hs

private theorem inv_requestCommit (h : Inv F d s) {n : ι}
    (hs : next F s (.requestCommit n) = some s') : Inv F d s' := by
  simp only [next] at hs
  split at hs
  · rename_i i hp
    split at hs
    · rename_i txn htxn
      obtain rfl : _ = s' := Option.some.inj hs
      have hphase := h.phase n
      simp only [PhaseInv, hp] at hphase
      have hsame := sameTxns_request htxn
      refine h.update (hsame.linked h.linked) ?_ (le_refl _) (fun m => hsame.follows (h.follows m))
        (hsame.follows ?_) ?_ (fun m _ => hsame.phaseInv (h.phase m)) trivial ?_
      · rw [hsame.committed]
        exact h.sequential
      · exact ⟨(h.follows n).applied_le, (h.follows n).store_eq, (h.follows n).ended⟩
      · rintro e (he | ⟨_, _, he⟩)
        · exact .inl (.inl he)
        · cases he
      · intro j hj
        rcases requested_request htxn hj with rfl | hj
        · exact hsame.safe hphase
        · exact hsame.safe (h.requested hj)
    · cases hs
  · cases hs

private theorem inv_commit (h : Inv F d s) {i : ℕ} (hs : next F s (.commit i) = some s') :
    Inv F d s' := by
  simp only [next] at hs
  split at hs
  · rename_i txn htxn
    split at hs
    · rename_i hmay
      obtain rfl : _ = s' := Option.some.inj hs
      simp only [Broker.mayCommit, Bool.and_eq_true, decide_eq_true_eq] at hmay
      obtain ⟨⟨⟨⟨hongoing, hrequested⟩, hepoch⟩, _⟩, _⟩ := hmay
      have hpending : s.broker.Pending i := by
        simp [Broker.Pending, Broker.status, Broker.epochOf, htxn, hongoing, hepoch]
      have hready : Ready F d s.broker i :=
        h.requested (by simp [Broker.Requested, htxn, hrequested]) hpending
      obtain ⟨q, r, hr, hdec, hnone⟩ := hready.decided
      refine ⟨linked_finish htxn _ h.linked, ?_, ?_, h.held_le, h.held_unique, ?_, ?_⟩
      · rw [committed_commit htxn h.linked hr hnone]
        exact .snoc h.sequential hdec
      · exact fun n => follows_finish htxn hongoing _ (by simp) (h.follows n)
      · exact fun n => phaseInv_commit htxn hpending hready (h.phase n)
      · exact fun _ => safe_commit htxn hready
    · cases hs
  · cases hs

private theorem inv_abort (h : Inv F d s) {i : ℕ} (hs : next F s (.abort i) = some s') :
    Inv F d s' := by
  simp only [next] at hs
  split at hs
  · rename_i txn htxn
    split at hs
    · rename_i hongoing
      obtain rfl : _ = s' := Option.some.inj hs
      refine ⟨linked_finish htxn _ h.linked, ?_, ?_, h.held_le, h.held_unique, ?_, ?_⟩
      · rw [committed_abort htxn hongoing]
        exact h.sequential
      · exact fun n => follows_finish htxn hongoing _ (by simp) (h.follows n)
      · exact fun n => phaseInv_abort htxn hongoing (h.phase n)
      · intro j hj
        exact safe_abort htxn hongoing (h.requested ((requested_finish htxn _ j).mp hj))
    · cases hs
  · cases hs

private theorem inv_deliver (h : Inv F d s) {n : ι} (hs : next F s (.deliver n) = some s') :
    Inv F d s' := by
  -- Whatever the entry is, the node has applied one more and its store has taken in what is
  -- committed of it.
  have hstep : ∀ {e : Entry} {store : StoreState}, s.broker.log[(s.nodes n).applied]? = some e →
      (∀ i r, e = .record i r → s.broker.status i ≠ some .ongoing) →
      store = replay F (s.nodes n).store (s.broker.committedRecord e).toList →
      Inv F d (s.setNode n
        { s.nodes n with applied := (s.nodes n).applied + 1, store := store }) :=
    fun he hended hstore => h.setNode (follows_deliver (h.follows n) he hended hstore)
      (fun _ hh => hh) (phaseInv_deliver (h.phase n) _)
  simp only [next] at hs
  split at hs
  · rename_i he
    obtain rfl : _ = s' := Option.some.inj hs
    exact hstep he (by simp) rfl
  -- A record is delivered once its transaction has ended; an open one holds the node back.
  · rename_i i r he
    split at hs
    · rename_i hstatus
      obtain rfl : _ = s' := Option.some.inj hs
      refine hstep he ?_ ?_
      · rintro j r' heq
        obtain ⟨rfl, rfl⟩ : i = j ∧ r = r' := by simpa using heq
        simp [hstatus]
      · simp [Broker.committedRecord, hstatus]
    · rename_i hstatus
      obtain rfl : _ = s' := Option.some.inj hs
      refine hstep he ?_ ?_
      · rintro j r' heq
        obtain ⟨rfl, rfl⟩ : i = j ∧ r = r' := by simpa using heq
        simp [hstatus]
      · simp [Broker.committedRecord, hstatus]
    · cases hs
  · cases hs

/-- No action breaks the invariant. -/
theorem next_inv (h : Inv F d s) {a : Action ι} (hs : next F s a = some s') : Inv F d s' := by
  cases a with
  | elect generationId members =>
    obtain rfl : _ = s' := Option.some.inj hs
    exact h.sameTxns (sameTxns_elect generationId members) fun _ hi => hi
  | observe n state =>
    obtain rfl : _ = s' := Option.some.inj hs
    refine h.setNode ?_ (fun _ hh => hh) (h.phase n)
    exact ⟨(h.follows n).applied_le, (h.follows n).store_eq, (h.follows n).ended⟩
  | read n req => exact inv_read h hs
  | fence n => exact inv_fence h hs
  | fenceDone n => exact inv_fenceDone h hs
  | strayInit =>
    obtain rfl := next_strayInit F hs
    exact h.bump
  | order n => exact inv_order h hs
  | seen n => exact inv_seen h hs
  | recheck n => exact inv_recheck h hs
  | decide n => exact inv_decide h hs
  | send n => exact inv_send h hs
  | requestCommit n => exact inv_requestCommit h hs
  | commit i => exact inv_commit h hs
  | abort i => exact inv_abort h hs
  | deliver n => exact inv_deliver h hs
  | abandon n =>
    obtain rfl : _ = s' := Option.some.inj hs
    exact h.setPhase (by simp) trivial

end Step

/-! ## Runs -/

/-- No node has started a call, and the topic is empty. -/
def System.start (ι : Type) (d : Defaults) : System ι := ⟨{}, fun _ => { store := d.state }⟩

private theorem start_inv : Inv F d (System.start ι d) where
  linked := ⟨by simp [Broker.RecordAt, System.start], by simp [Broker.status, System.start],
    by simp [Broker.RecordAt, System.start], by simp [Broker.epochOf, System.start]⟩
  sequential := .nil
  follows _ := ⟨le_refl _, rfl, by simp [System.start]⟩
  held_le := by simp [Holds, System.start]
  held_unique := by simp [Holds, System.start]
  phase _ := trivial
  requested := by simp [Broker.Requested, System.start]

/-- The committed records of every run are those of one registry that takes the registrations
one after the other. -/
theorem committed_sequential [DecidableEq ι] {t : List (System ι × Action ι)} {s : System ι}
    (h : Trace (fun s a s' => next F s a = some s') (System.start ι d) t s) :
    Sequential F d s.broker.committed :=
  (Trace.invariant (I := Inv F d) (C := fun _ _ => True) start_inv
    (fun _ _ _ _ hs hi => next_inv hi hs) h fun _ _ => trivial).sequential

end KrabkaRegistry.Cluster
