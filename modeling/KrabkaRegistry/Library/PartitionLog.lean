import Mathlib.Data.Finset.Basic
import Mathlib.Data.List.Basic
import Mathlib.Data.List.Pairwise
import Mathlib.Data.Nat.Basic

/-!
# An Append-Only Log under Compaction

A partition keeps a slot for every offset it ever gave out.  A slot holds a record, or nothing
that a reader is shown (a control marker, a record of an aborted transaction).  Records are
never changed: compaction only marks an offset as gone, and readers see no further than the
stable offset.

## Main results

- `Fetched.mono`: what a reader fetched below a cursor stays what it fetched, whatever happens
  to the log;
- `Fetched.advance`: an answer to a fetch extends what was fetched;
- `Fetched.covered`: a record below the cursor was fetched, or a later record of its key was,
  or compaction took it for a record that the cursor has not reached or that is null.
-/

namespace KrabkaRegistry.Library

variable {ε κ : Type*}

structure PartitionLog (ε : Type*) where
  slots : List (Option ε) := []
  /-- The offsets that compaction has removed. -/
  gone : Finset ℕ := ∅
  /-- Readers see the offsets below this one. -/
  stable : ℕ := 0

namespace PartitionLog

variable (P P' : PartitionLog ε)

/-- The record that was appended at an offset. -/
def record? (o : ℕ) : Option ε := (P.slots[o]?).join

/-- The records at some offsets, each with its offset. -/
def response (offsets : List ℕ) : List (ℕ × ε) :=
  offsets.filterMap fun o => (P.record? o).map fun r => (o, r)

/-- The records at some offsets. -/
def read (offsets : List ℕ) : List ε := offsets.filterMap P.record?

/-! ## Operations -/

def append (slot : Option ε) : PartitionLog ε := { P with slots := P.slots ++ [slot] }

def stabilize (o : ℕ) : PartitionLog ε := { P with stable := o }

def remove (o : ℕ) : PartitionLog ε := { P with gone := insert o P.gone }

/-- A stable record with the same key stands after `o`. -/
def Superseded (key : ε → κ) (o : ℕ) (r : ε) : Prop :=
  ∃ o' < P.stable, o < o' ∧ (P.record? o').map key = some (key r)

/-- The record at `o` is null and nothing that it deletes is left. -/
def Alone (key : ε → κ) (isNull : ε → Bool) (o : ℕ) (r : ε) : Prop :=
  isNull r = true ∧ ∀ o' < o, (P.record? o').map key = some (key r) → o' ∈ P.gone

/-- Compaction may remove the record at `o`. -/
def MayRemove (key : ε → κ) (isNull : ε → Bool) (o : ℕ) : Prop :=
  o < P.stable ∧ ∃ r ∈ P.record? o, P.Superseded key o r ∨ P.Alone key isNull o r

instance [DecidableEq κ] (key : ε → κ) (o : ℕ) (r : ε) : Decidable (P.Superseded key o r) :=
  inferInstanceAs (Decidable (∃ o' < P.stable, _))

instance [DecidableEq κ] (key : ε → κ) (isNull : ε → Bool) (o : ℕ) (r : ε) :
    Decidable (P.Alone key isNull o r) :=
  inferInstanceAs (Decidable (_ ∧ ∀ o' < o, _))

instance [DecidableEq κ] (key : ε → κ) (isNull : ε → Bool) (o : ℕ) :
    Decidable (P.MayRemove key isNull o) :=
  inferInstanceAs (Decidable (_ ∧ ∃ r ∈ P.record? o, _))

/-- Nothing is left below `o`, which may then be the start of the log. -/
def Cleared (o : ℕ) : Prop :=
  o ≤ P.stable ∧ ∀ o' < o, (P.record? o').isSome → o' ∈ P.gone

instance (o : ℕ) : Decidable (P.Cleared o) := inferInstanceAs (Decidable (_ ∧ ∀ o' < o, _))

/-- The offsets of an answer to a fetch from `next`.  The answer reaches to its cursor, in
offset order; it may begin before `next`, in the middle of a batch, and it may hold records
that compaction has removed in the meantime.  An answer without a cursor is empty. -/
def Answers (next : ℕ) (offsets : List ℕ) (cursor : Option ℕ) : Prop :=
  match cursor with
  | none => offsets = []
  | some c => c ≤ P.stable ∧ offsets.Pairwise (· < ·) ∧ (∀ o ∈ offsets, o < c) ∧
      ∀ o < c, next ≤ o ∧ (P.record? o).isSome ∧ o ∉ P.gone → o ∈ offsets

instance (next : ℕ) (offsets : List ℕ) (cursor : Option ℕ) :
    Decidable (P.Answers next offsets cursor) :=
  match cursor with
  | none => inferInstanceAs (Decidable (offsets = []))
  | some c => inferInstanceAs (Decidable (c ≤ P.stable ∧ offsets.Pairwise (· < ·) ∧
      (∀ o ∈ offsets, o < c) ∧ ∀ o < c, _))

/-! ## How a log can change -/

variable {P P'}

/-- What every later state of a log keeps of an earlier one. -/
structure Extends (P P' : PartitionLog ε) : Prop where
  slots : P.slots <+: P'.slots
  gone : P.gone ⊆ P'.gone
  stable : P.stable ≤ P'.stable

/-- A partition extends itself. -/
theorem Extends.refl (P : PartitionLog ε) : P.Extends P :=
  ⟨List.prefix_refl _, Finset.Subset.refl _, le_refl _⟩

/-- Appending extends a partition. -/
theorem extends_append (P : PartitionLog ε) (slot : Option ε) : P.Extends (P.append slot) :=
  ⟨List.prefix_append _ _, Finset.Subset.refl _, le_refl _⟩

/-- Moving the stable offset up extends a partition. -/
theorem extends_stabilize (P : PartitionLog ε) {o : ℕ} (h : P.stable ≤ o) :
    P.Extends (P.stabilize o) :=
  ⟨List.prefix_refl _, Finset.Subset.refl _, h⟩

/-- Removing a record extends a partition, since the slots stay in place. -/
theorem extends_remove (P : PartitionLog ε) (o : ℕ) : P.Extends (P.remove o) :=
  ⟨List.prefix_refl _, Finset.subset_insert _ _, le_refl _⟩

/-- Only slots that exist hold records. -/
theorem record?_lt {o : ℕ} {r : ε} (h : P.record? o = some r) : o < P.slots.length := by
  by_contra hge
  rw [record?, List.getElem?_eq_none (not_lt.mp hge)] at h
  cases h

/-- An old slot holds what it held. -/
theorem Extends.record?_eq (h : P.Extends P') {o : ℕ} (ho : o < P.slots.length) :
    P'.record? o = P.record? o := by
  obtain ⟨rest, hrest⟩ := h.slots
  rw [record?, record?, ← hrest, List.getElem?_append_left ho]

/-- In particular a record once written stays readable under its offset, removed or not. -/
theorem Extends.record? (h : P.Extends P') {o : ℕ} {r : ε} (hr : P.record? o = some r) :
    P'.record? o = some r := by
  rw [h.record?_eq (record?_lt hr), hr]

/-- After an append the records are the old ones and the new one at the end. -/
theorem record?_append {slot : Option ε} {o : ℕ} {r : ε} (h : (P.append slot).record? o = some r) :
    P.record? o = some r ∨ o = P.slots.length ∧ slot = some r := by
  rcases lt_trichotomy o P.slots.length with ho | rfl | ho
  · exact .inl (by rw [← (extends_append P slot).record?_eq ho, h])
  · refine .inr ⟨rfl, ?_⟩
    simpa [PartitionLog.record?, append] using h
  · have hlt := record?_lt h
    simp only [append, List.length_append, List.length_singleton] at hlt
    omega

/-- What was cleared stays cleared. -/
theorem Cleared.mono {o : ℕ} (h : P.Cleared o) (hP : P.stable ≤ P.slots.length)
    (hext : P.Extends P') : P'.Cleared o := by
  refine ⟨le_trans h.1 hext.stable, ?_⟩
  intro o' ho' hr
  rw [hext.record?_eq (lt_of_lt_of_le ho' (le_trans h.1 hP))] at hr
  exact hext.gone (h.2 o' ho' hr)

/-- An answer stays one when the partition grows. -/
theorem Answers.mono {next : ℕ} {offsets : List ℕ} {cursor : Option ℕ}
    (h : P.Answers next offsets cursor) (hP : P.stable ≤ P.slots.length) (hext : P.Extends P') :
    P'.Answers next offsets cursor := by
  cases cursor with
  | none => exact h
  | some c =>
    obtain ⟨hle, hsorted, hbelow, hall⟩ := h
    refine ⟨le_trans hle hext.stable, hsorted, hbelow, ?_⟩
    rintro o ho ⟨hnext, hr, hgone⟩
    rw [hext.record?_eq (lt_of_lt_of_le ho (le_trans hle hP))] at hr
    exact hall o ho ⟨hnext, hr, fun hg => hgone (hext.gone hg)⟩

/-- And it carries the same records. -/
theorem Answers.response_mono {next : ℕ} {offsets : List ℕ} {cursor : Option ℕ}
    (h : P.Answers next offsets cursor) (hP : P.stable ≤ P.slots.length) (hext : P.Extends P') :
    P'.response offsets = P.response offsets := by
  refine List.filterMap_congr fun o ho => ?_
  cases cursor with
  | none =>
    obtain rfl : offsets = [] := h
    simp at ho
  | some c => rw [hext.record?_eq (lt_of_lt_of_le (h.2.2.1 o ho) (le_trans h.1 hP))]

/-! ## What a reader has fetched -/

/-- The offsets a reader has fetched, in order, when its cursor stands at `c`: all that were
there when it passed them. -/
structure Fetched (P : PartitionLog ε) (c : ℕ) (offsets : List ℕ) : Prop where
  le : c ≤ P.stable
  sorted : offsets.Pairwise (· < ·)
  below : ∀ o ∈ offsets, o < c
  complete : ∀ o < c, (P.record? o).isSome → o ∉ P.gone → o ∈ offsets

/-- What was fetched is a fetch of the larger partition. -/
theorem Fetched.mono {c : ℕ} {offsets : List ℕ} (h : P.Fetched c offsets)
    (hP : P.stable ≤ P.slots.length) (hext : P.Extends P') : P'.Fetched c offsets := by
  refine ⟨le_trans h.le hext.stable, h.sorted, h.below, ?_⟩
  intro o ho hr hgone
  rw [hext.record?_eq (lt_of_lt_of_le ho (le_trans h.le hP))] at hr
  exact h.complete o ho hr fun hg => hgone (hext.gone hg)

/-- A fetch reads the same records from the larger partition. -/
theorem Fetched.read_mono {c : ℕ} {offsets : List ℕ} (h : P.Fetched c offsets)
    (hP : P.stable ≤ P.slots.length) (hext : P.Extends P') :
    P'.read offsets = P.read offsets := by
  refine List.filterMap_congr fun o ho => ?_
  exact hext.record?_eq (lt_of_lt_of_le (h.below o ho) (le_trans h.le hP))

/-- A reader that begins where the log does has missed nothing. -/
theorem Cleared.fetched {o : ℕ} (h : P.Cleared o) : P.Fetched o [] :=
  ⟨h.1, List.Pairwise.nil, by simp, fun o' ho' hr hg => absurd (h.2 o' ho' hr) hg⟩

/-- The part of an answer from `next` on extends what was fetched below `next`. -/
theorem Fetched.advance {next c : ℕ} {offsets answer : List ℕ} (h : P.Fetched next offsets)
    (ha : P.Answers next answer (some c)) :
    P.Fetched (max next c) (offsets ++ answer.filter fun o => next ≤ o) := by
  obtain ⟨hle, hsorted, hbelow, hall⟩ := ha
  refine ⟨max_le h.le hle, ?_, ?_, ?_⟩
  · refine List.pairwise_append.mpr ⟨h.sorted, hsorted.filter _, ?_⟩
    -- Everything fetched before stands below `next`, and the new offsets do not.
    intro o ho o' ho'
    have hnext : next ≤ o' := by simpa using (List.mem_filter.mp ho').2
    exact lt_of_lt_of_le (h.below o ho) hnext
  · intro o ho
    rcases List.mem_append.mp ho with ho | ho
    · exact lt_max_of_lt_left (h.below o ho)
    · exact lt_max_of_lt_right (hbelow o (List.mem_filter.mp ho).1)
  · intro o ho hr hgone
    rw [List.mem_append, List.mem_filter]
    rcases Nat.lt_or_ge o next with hlt | hge
    · exact .inl (h.complete o hlt hr hgone)
    · refine .inr ⟨hall o ?_ ⟨hge, hr, hgone⟩, by simpa using hge⟩
      exact (lt_max_iff.mp ho).resolve_left (not_lt.mpr hge)

/-- The records of the part of an answer from `next` on. -/
theorem response_filter (next : ℕ) (offsets : List ℕ) :
    ((P.response offsets).filter fun p => next ≤ p.1).map Prod.snd =
      P.read (offsets.filter fun o => next ≤ o) := by
  induction offsets with
  | nil => rfl
  | cons o offsets ih =>
    cases hr : P.record? o with
    | none =>
      by_cases ho : next ≤ o <;> simpa [response, read, hr, ho] using ih
    | some r =>
      by_cases ho : next ≤ o <;> simpa [response, read, hr, ho] using ih

/-! ## What compaction can have taken -/

section Compaction

variable {key : ε → κ} {isNull : ε → Bool}

/-- Every offset that has gone was superseded, or its record is null. -/
structure Justified (key : ε → κ) (isNull : ε → Bool) (P : PartitionLog ε) : Prop where
  stable_le : P.stable ≤ P.slots.length
  gone : ∀ o ∈ P.gone, ∀ r, P.record? o = some r →
    isNull r = true ∨ ∃ o' r', o < o' ∧ P.record? o' = some r' ∧ key r' = key r
  removed : ∀ o ∈ P.gone, o < P.slots.length

/-- Nothing was removed from an empty partition. -/
theorem justified_empty : Justified key isNull ({} : PartitionLog ε) :=
  ⟨le_refl _, by simp, by simp⟩

/-- Growth that removes nothing keeps every removal justified. -/
private theorem Justified.extend (h : Justified key isNull P) (hext : P.Extends P')
    (hgone : P'.gone = P.gone) (hstable : P'.stable ≤ P'.slots.length) :
    Justified key isNull P' := by
  refine ⟨hstable, ?_, ?_⟩
  · intro o ho r hr
    rw [hgone] at ho
    rw [hext.record?_eq (h.removed o ho)] at hr
    rcases h.gone o ho r hr with hnull | ⟨o', r', hlt, hr', hk⟩
    · exact .inl hnull
    · exact .inr ⟨o', r', hlt, hext.record? hr', hk⟩
  · intro o ho
    rw [hgone] at ho
    exact lt_of_lt_of_le (h.removed o ho) hext.slots.length_le

/-- Appending removes nothing. -/
theorem Justified.append (h : Justified key isNull P) (slot : Option ε) :
    Justified key isNull (P.append slot) := by
  refine h.extend (extends_append P slot) rfl ?_
  have hlen : (P.append slot).slots.length = P.slots.length + 1 := by simp [PartitionLog.append]
  rw [hlen]
  exact le_trans h.stable_le (Nat.le_succ _)

/-- Moving the stable offset removes nothing. -/
theorem Justified.stabilize (h : Justified key isNull P) {o : ℕ} (ho : P.stable ≤ o)
    (hle : o ≤ P.slots.length) : Justified key isNull (P.stabilize o) :=
  h.extend (extends_stabilize P ho) rfl hle

/-- A removal that compaction allows is justified, and justifies nothing less that was removed
before. -/
theorem Justified.remove (h : Justified key isNull P) {o : ℕ} (ho : P.MayRemove key isNull o) :
    Justified key isNull (P.remove o) := by
  obtain ⟨hstable, r, hr, hwhy⟩ := ho
  refine ⟨h.stable_le, ?_, ?_⟩
  · intro x hx r' hr'
    rcases Finset.mem_insert.mp hx with rfl | hx
    · obtain rfl : r = r' := Option.some.inj (hr.symm.trans hr')
      -- The record that compaction has just removed.
      rcases hwhy with ⟨o', _, hlt, hkey⟩ | ⟨hnull, _⟩
      · obtain ⟨r'', hr'', hk⟩ := Option.map_eq_some_iff.mp hkey
        exact .inr ⟨o', r'', hlt, hr'', hk⟩
      · exact .inl hnull
    · exact h.gone x hx r' hr'
  · intro x hx
    rcases Finset.mem_insert.mp hx with rfl | hx
    · exact lt_of_lt_of_le hstable h.stable_le
    · exact h.removed x hx

/-- Where the record `r` of an offset `o` below a cursor is found: what was fetched holds it
or a later record of its key; or compaction has taken it, for a record of its key that the
cursor has not reached or that is null and has gone too. -/
def Covered (key : ε → κ) (isNull : ε → Bool) (P : PartitionLog ε) (c : ℕ) (offsets : List ℕ)
    (o : ℕ) (r : ε) : Prop :=
  (∃ o' ∈ offsets, o ≤ o' ∧ ∃ r', P.record? o' = some r' ∧ key r' = key r) ∨
  o ∈ P.gone ∧ ∃ o' r', o ≤ o' ∧ P.record? o' = some r' ∧ key r' = key r ∧
    (c ≤ o' ∨ o' ∈ P.gone ∧ isNull r' = true)

/-- A record below the cursor was read, or a later record of its key was, or it is a tombstone that
compaction dropped. -/
theorem Fetched.covered {c : ℕ} {offsets : List ℕ} (hP : Justified key isNull P)
    (h : P.Fetched c offsets) {o : ℕ} {r : ε} (ho : o < c) (hr : P.record? o = some r) :
    Covered key isNull P c offsets o r := by
  by_cases hgone : o ∉ P.gone
  · exact .inl ⟨o, h.complete o ho (by simp [hr]) hgone, le_refl o, r, hr, rfl⟩
  -- Follow the records that superseded each other, until one is left or the cursor is passed.
  have hgone : o ∈ P.gone := not_not.mp hgone
  -- The record has gone because it is null, or because a later one has its key.
  rcases hP.gone o hgone r hr with hnull | ⟨o₁, r₁, hlt, hr₁, hk₁⟩
  · exact .inr ⟨hgone, o, r, le_refl o, hr, rfl, .inr ⟨hgone, hnull⟩⟩
  · rcases Nat.lt_or_ge o₁ c with hc | hc
    · rcases h.covered hP hc hr₁ with ⟨o', ho', hle, r', hr', hk⟩ | ⟨_, o', r', hle, hr', hk, hwhy⟩
      · exact .inl ⟨o', ho', le_trans (le_of_lt hlt) hle, r', hr', hk.trans hk₁⟩
      · exact .inr ⟨hgone, o', r', le_trans (le_of_lt hlt) hle, hr', hk.trans hk₁, hwhy⟩
    · exact .inr ⟨hgone, o₁, r₁, le_of_lt hlt, hr₁, hk₁, .inl hc⟩
termination_by c - o

end Compaction

end PartitionLog

end KrabkaRegistry.Library
