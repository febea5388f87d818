import Mathlib.Data.List.Basic
import Mathlib.Data.List.Pairwise

/-!
# Compaction of a Keyed Log

A compaction of a log keeps the order of its records and may lose two kinds of
them: records that have a later record with the same key, and records that are
the last of their key and that a rule `mayDrop` releases.  The rule sees the
records kept so far, so it can say, for instance, that a deletion marker goes
only after everything it deletes has gone.

## Main results

- `Compacts.foldl_eq`: a fold whose step forgets superseded records, and ignores
  released ones, gives the same value on the log and on its compaction;
- `Compacts.exists_survivor`: every record is kept, or followed by the last
  record of its key, which is kept or was released;
- `Compacts.of_admits`: whether a given choice of records is a compaction can be
  computed.
-/

namespace KrabkaRegistry.Library.Compaction

variable {ε κ α : Type*}

/-- `Compacts key mayDrop kept log log'`: `log'` is a compaction of `log`, when the
records `kept` were kept before it. -/
inductive Compacts (key : ε → κ) (mayDrop : List ε → ε → Prop) :
    List ε → List ε → List ε → Prop where
  | nil (kept : List ε) : Compacts key mayDrop kept [] []
  | keep {kept log log' : List ε} {r : ε} :
      Compacts key mayDrop (kept ++ [r]) log log' →
      Compacts key mayDrop kept (r :: log) (r :: log')
  /-- A later record with the same key makes `r` droppable. -/
  | superseded {kept log log' : List ε} {r : ε} :
      (∃ r' ∈ log, key r' = key r) →
      Compacts key mayDrop kept log log' →
      Compacts key mayDrop kept (r :: log) log'
  /-- The last record of its key goes when the rule releases it. -/
  | released {kept log log' : List ε} {r : ε} :
      mayDrop kept r → (∀ r' ∈ log, key r' ≠ key r) →
      Compacts key mayDrop kept log log' →
      Compacts key mayDrop kept (r :: log) log'

variable {key : ε → κ} {mayDrop : List ε → ε → Prop} {kept log log' : List ε}

/-! ## What a compaction keeps -/

theorem Compacts.refl (log : List ε) : ∀ kept, Compacts key mayDrop kept log log := by
  induction log with
  | nil => exact fun kept => .nil kept
  | cons r log ih => exact fun kept => .keep (ih (kept ++ [r]))

theorem Compacts.sublist (h : Compacts key mayDrop kept log log') : log'.Sublist log := by
  induction h with
  | nil => exact List.Sublist.refl []
  | keep _ ih => exact ih.cons_cons _
  | superseded _ _ ih => exact ih.cons _
  | released _ _ _ ih => exact ih.cons _

theorem Compacts.subset (h : Compacts key mayDrop kept log log') {r : ε} (hr : r ∈ log') :
    r ∈ log :=
  h.sublist.subset hr

/-- A more generous rule allows every compaction a stricter one allows. -/
theorem Compacts.mono {mayDrop' : List ε → ε → Prop}
    (hle : ∀ kept r, mayDrop kept r → mayDrop' kept r)
    (h : Compacts key mayDrop kept log log') : Compacts key mayDrop' kept log log' := by
  induction h with
  | nil kept => exact .nil kept
  | keep _ ih => exact .keep ih
  | superseded hr _ ih => exact .superseded hr ih
  | released hd hr _ ih => exact .released (hle _ _ hd) hr ih

/-- Every record of the log leads to the last record of its key, which is kept
unless the rule released it. -/
theorem Compacts.exists_survivor (h : Compacts key mayDrop kept log log') {r : ε} (hr : r ∈ log) :
    ∃ pre r' post, log = pre ++ r' :: post ∧ key r' = key r ∧ r ∈ pre ++ [r'] ∧
      (r' ∈ log' ∨ ∃ kept', mayDrop kept' r') := by
  induction h generalizing r with
  | nil => simp at hr
  | @keep kept log log' x _ ih =>
    rcases List.mem_cons.mp hr with rfl | hr
    · exact ⟨[], r, log, rfl, rfl, by simp, .inl List.mem_cons_self⟩
    · obtain ⟨pre, r', post, rfl, hk, hin, hs⟩ := ih hr
      exact ⟨x :: pre, r', post, rfl, hk, List.mem_cons_of_mem _ hin,
        hs.imp_left (List.mem_cons_of_mem _)⟩
  | @superseded kept log log' x hx _ ih =>
    rcases List.mem_cons.mp hr with rfl | hr
    -- The record itself was superseded: continue from the later record.
    · obtain ⟨x, hxl, hxk⟩ := hx
      obtain ⟨pre, r', post, rfl, hk, _, hs⟩ := ih hxl
      exact ⟨r :: pre, r', post, rfl, hk.trans hxk, by simp, hs⟩
    · obtain ⟨pre, r', post, rfl, hk, hin, hs⟩ := ih hr
      exact ⟨x :: pre, r', post, rfl, hk, List.mem_cons_of_mem _ hin, hs⟩
  | @released kept log log' x hd _ _ ih =>
    rcases List.mem_cons.mp hr with rfl | hr
    · exact ⟨[], r, log, rfl, rfl, by simp, .inr ⟨kept, hd⟩⟩
    · obtain ⟨pre, r', post, rfl, hk, hin, hs⟩ := ih hr
      exact ⟨x :: pre, r', post, rfl, hk, List.mem_cons_of_mem _ hin, hs⟩

/-! ## Compactions that are computed -/

/-- The records of a log that a mask keeps. -/
def select : List Bool → List ε → List ε
  | true :: mask, r :: log => r :: select mask log
  | false :: mask, _ :: log => select mask log
  | _, _ => []

/-- Whether a mask, which has an entry for each record, drops only what it may. -/
def admits [DecidableEq κ] (key : ε → κ) (mayDrop : List ε → ε → Bool) :
    List ε → List Bool → List ε → Bool
  | _, [], [] => true
  | kept, true :: mask, r :: log => admits key mayDrop (kept ++ [r]) mask log
  | kept, false :: mask, r :: log =>
    (decide (∃ r' ∈ log, key r' = key r) || mayDrop kept r) && admits key mayDrop kept mask log
  | _, _, _ => false

theorem Compacts.of_admits [DecidableEq κ] (mayDropB : List ε → ε → Bool)
    (hle : ∀ kept r, mayDropB kept r = true → mayDrop kept r) :
    ∀ (log : List ε) (mask : List Bool) (kept : List ε), admits key mayDropB kept mask log = true →
      Compacts key mayDrop kept log (select mask log) := by
  intro log
  induction log with
  | nil =>
    intro mask kept h
    cases mask with
    | nil => exact .nil kept
    | cons b mask => simp [admits] at h
  | cons r log ih =>
    intro mask kept h
    match mask with
    | [] => simp [admits] at h
    | true :: mask => exact .keep (ih mask _ h)
    | false :: mask =>
      simp only [admits, Bool.and_eq_true, Bool.or_eq_true, decide_eq_true_eq] at h
      obtain ⟨hdrop, hrest⟩ := h
      by_cases hsup : ∃ r' ∈ log, key r' = key r
      · exact .superseded hsup (ih mask kept hrest)
      -- Nothing supersedes the record, so it is the rule that lets it go.
      · refine .released (hle kept r (hdrop.resolve_left hsup)) ?_ (ih mask kept hrest)
        intro r' hr' hk
        exact hsup ⟨r', hr', hk⟩

/-! ## Folds that do not notice a compaction -/

/-- Replaying a compaction gives the value of the full log, for a fold whose step
is overwritten by a later record of the same key and idle on released records.
`W` restricts both laws to the records a log can hold. -/
theorem Compacts.foldl_eq {W : ε → Prop} {f : α → ε → α} {a₀ : α}
    (hsup : ∀ (a : α) (r : ε) (l : List ε), W r → (∀ x ∈ l, W x) → (∃ r' ∈ l, key r' = key r) →
      l.foldl f (f a r) = l.foldl f a)
    (hrel : ∀ (kept : List ε) (r : ε), (∀ x ∈ kept, W x) → W r → mayDrop kept r →
      f (kept.foldl f a₀) r = kept.foldl f a₀)
    (h : Compacts key mayDrop kept log log')
    (hkept : ∀ x ∈ kept, W x) (hlog : ∀ x ∈ log, W x) :
    log.foldl f (kept.foldl f a₀) = log'.foldl f (kept.foldl f a₀) := by
  -- Along the derivation of the compaction: `kept` is what was kept so far, and both folds start
  -- behind it.
  induction h with
  | nil => rfl
  | @keep kept log log' r _ ih =>
    have hr : W r := hlog r List.mem_cons_self
    have hkept' : ∀ x ∈ kept ++ [r], W x := by
      intro x hx
      rcases List.mem_append.mp hx with hx | hx
      · exact hkept x hx
      · rwa [List.mem_singleton.mp hx]
    simpa using ih hkept' fun x hx => hlog x (List.mem_cons_of_mem _ hx)
  | @superseded kept log log' r hr _ ih =>
    have htail : ∀ x ∈ log, W x := fun x hx => hlog x (List.mem_cons_of_mem _ hx)
    rw [List.foldl_cons, hsup _ r log (hlog r List.mem_cons_self) htail hr]
    exact ih hkept htail
  | @released kept log log' r hd _ _ ih =>
    rw [List.foldl_cons, hrel kept r hkept (hlog r List.mem_cons_self) hd]
    exact ih hkept fun x hx => hlog x (List.mem_cons_of_mem _ hx)

/-- The common case: only the records of one key `k` matter to the fold, each overwrites what
was there, and a released one finds the initial value. -/
theorem Compacts.foldl_register {W : ε → Prop} {f : α → ε → α} {a₀ : α} {k : κ}
    (hself : ∀ x, W x → key x = k → ∀ a b, f a x = f b x)
    (hother : ∀ x, W x → key x ≠ k → ∀ a, f a x = a)
    (hrel : ∀ kept x, W x → mayDrop kept x → key x = k →
      f a₀ x = a₀ ∧ ∀ r ∈ kept, key r ≠ k)
    (h : Compacts key mayDrop [] log log') (hlog : ∀ x ∈ log, W x) :
    log.foldl f a₀ = log'.foldl f a₀ := by
  -- Once a record of the key has come, what was there before is forgotten.
  have hforget : ∀ l : List ε, (∀ x ∈ l, W x) → (∃ x ∈ l, key x = k) →
      ∀ a b, l.foldl f a = l.foldl f b := by
    intro l
    induction l with
    | nil => simp
    | cons x l ih =>
      intro hW hex a b
      have hx : W x := hW x List.mem_cons_self
      rw [List.foldl_cons, List.foldl_cons]
      by_cases hk : key x = k
      · rw [hself x hx hk a b]
      · obtain ⟨y, hy, hyk⟩ := hex
        rcases List.mem_cons.mp hy with rfl | hy
        · exact absurd hyk hk
        · exact ih (fun z hz => hW z (List.mem_cons_of_mem _ hz)) ⟨y, hy, hyk⟩ _ _
  -- Without a record of the key, nothing happens.
  have hidle : ∀ l : List ε, (∀ x ∈ l, W x) → (∀ x ∈ l, key x ≠ k) → l.foldl f a₀ = a₀ := by
    intro l
    induction l with
    | nil => simp
    | cons x l ih =>
      intro hW hne
      rw [List.foldl_cons, hother x (hW x List.mem_cons_self) (hne x List.mem_cons_self)]
      exact ih (fun z hz => hW z (List.mem_cons_of_mem _ hz))
        fun z hz => hne z (List.mem_cons_of_mem _ hz)
  -- Both laws of the general case follow from these two.
  refine Compacts.foldl_eq (W := W) ?_ ?_ h (by simp) hlog
  · intro a r l hr hl hex
    by_cases hk : key r = k
    · exact hforget l hl (by rwa [hk] at hex) _ _
    · rw [hother r hr hk]
  · intro kept r hkept hr hdrop
    by_cases hk : key r = k
    · obtain ⟨hfix, hne⟩ := hrel kept r hr hdrop hk
      rw [hidle kept hkept hne, hfix]
    · exact hother r hr hk _

end KrabkaRegistry.Library.Compaction
