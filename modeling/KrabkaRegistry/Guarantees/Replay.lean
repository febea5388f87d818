import KrabkaRegistry.Kafkastore.Run

/-!
# Replaying a Compacted Log

Compaction drops records, and some of what they said survives only in other records: a
`DELETE_SUBJECT` marker acts on entries of other keys, and the version counter of a purged
subject lives on in its marker.  `replay_compacted` shows that for every log the operations
write, a compaction replays to the same subjects, levels, modes and version counters.

Each part of the state is a fold (`Store.Views`), and the general facts about folds and
compactions apply to all of them but the counters.  For these the argument is about the
largest bid: markers never decrease along the log, and every tombstone is written after a
marker that lies above it.
-/

namespace KrabkaRegistry.Guarantees

open KrabkaRegistry.Format (Formats)
open KrabkaRegistry.Kafkastore
open KrabkaRegistry.Library (Trace)
open KrabkaRegistry.Library.Compaction
open KrabkaRegistry.Store

variable {F : Formats} {d : Defaults} {log log' : List TopicRecord}

/-! ## The structure of a state -/

/-- The same subjects, versions, ids and flags, the same levels and modes, and the same next
version for every subject. -/
structure SameStructure (st st' : StoreState) : Prop where
  subjects : st.subjects = st'.subjects
  globalCompat : st.globalCompat = st'.globalCompat
  subjectCompat : st.subjectCompat = st'.subjectCompat
  globalMode : st.globalMode = st'.globalMode
  subjectMode : st.subjectMode = st'.subjectMode
  nextVersion : ∀ s, st.nextVersion s = st'.nextVersion s

/-! ## Logs that operations write -/

/-- A record that the registry may write: keys agree with values, and only version, level and
mode records have null values. -/
def WellKeyed : TopicRecord → Prop
  | .schema k (some value) => k = ⟨value.subject, value.version⟩
  | .config none level => level ≠ none
  | .deleteSubject _ value => value ≠ none
  | .versionHighWater _ next => next ≠ none
  | _ => True

/-- The markers of one subject do not decrease. -/
def MarkersRise (r r' : TopicRecord) : Prop :=
  ∀ s n n', r = encodeVersionHighWater s n → r' = encodeVersionHighWater s n' → n ≤ n'

structure WrittenLog (log : List TopicRecord) : Prop where
  wellKeyed : ∀ r ∈ log, WellKeyed r
  rising : log.Pairwise MarkersRise
  covered : ∀ s v, encodeTombstone s v ∈ log →
    ∃ n, encodeVersionHighWater s n ∈ log ∧ saturatingSucc v ≤ n

/-! ## Entries -/

section Entries

variable {s : String} {v : SchemaVersion}

/-- The soft-delete of an entry. -/
private def flag (acc : Option VersionEntry) : Option VersionEntry :=
  acc.map fun e => { e with deleted := true }

/-- A record sets the entry, flags it, or leaves it, and its key says which. That the key decides is
what lets compaction look at keys alone. -/
private theorem entryStep_cases {r : TopicRecord} (hr : WellKeyed r) :
    (r.key = .schema ⟨s, v⟩ ∧ ∀ a b, entryStep s v a r = entryStep s v b r) ∨
    (r.key = .deleteSubject s ∧ r.isNull = false ∧ ∀ a, entryStep s v a r = flag a) ∨
    (r.key ≠ .schema ⟨s, v⟩ ∧ r.key ≠ .deleteSubject s ∧ ∀ a, entryStep s v a r = a) := by
  cases r with
  | schema k value =>
    -- A record of this key overwrites the binding, whatever it was; the records of other keys are
    -- identities.
    by_cases hk : k = ⟨s, v⟩
    · refine .inl ⟨by simp [TopicRecord.key, hk], fun a b => ?_⟩
      cases value with
      | none => simp [entryStep, hk]
      | some value =>
        have hval : value.subject = s ∧ value.version = v := by
          have hkv : k = ⟨value.subject, value.version⟩ := hr
          rw [hk] at hkv
          simpa [eq_comm] using hkv
        simp [entryStep, hval]
    · refine .inr (.inr ⟨by simp [TopicRecord.key, hk], by simp [TopicRecord.key], fun a => ?_⟩)
      cases value with
      | none => simp [entryStep, hk]
      | some value =>
        have hval : ¬ (value.subject = s ∧ value.version = v) := by
          rintro ⟨rfl, rfl⟩
          exact hk hr
        simp [entryStep, hval]
  | deleteSubject s' value =>
    cases value with
    | none => exact absurd rfl hr
    | some value =>
      by_cases hs : s' = s
      · exact .inr (.inl ⟨by simp [TopicRecord.key, hs], rfl, fun a => by
          simp [entryStep, hs, flag]⟩)
      · exact .inr (.inr ⟨by simp [TopicRecord.key], by simp [TopicRecord.key, hs], fun a => by
          simp [entryStep, hs]⟩)
  | config s' level => exact .inr (.inr ⟨by simp [TopicRecord.key], by simp [TopicRecord.key], fun _ => rfl⟩)
  | mode s' m => exact .inr (.inr ⟨by simp [TopicRecord.key], by simp [TopicRecord.key], fun _ => rfl⟩)
  | versionHighWater s' next =>
    exact .inr (.inr ⟨by simp [TopicRecord.key], by simp [TopicRecord.key], fun _ => rfl⟩)
  | barrier token present =>
    exact .inr (.inr ⟨by simp [TopicRecord.key], by simp [TopicRecord.key], fun _ => rfl⟩)

/-- A later record of the version hides what was there before. -/
private theorem foldl_entry_forget : ∀ l : List TopicRecord, (∀ x ∈ l, WellKeyed x) →
    (∃ x ∈ l, x.key = .schema ⟨s, v⟩) →
    ∀ a b, l.foldl (entryStep s v) a = l.foldl (entryStep s v) b := by
  intro l
  induction l with
  | nil => simp
  | cons x l ih =>
    intro hW hex a b
    rw [List.foldl_cons, List.foldl_cons]
    rcases entryStep_cases (s := s) (v := v) (hW x List.mem_cons_self) with
      ⟨_, hconst⟩ | ⟨hk, _, _⟩ | ⟨hk, _, _⟩
    · rw [hconst a b]
    all_goals
      obtain ⟨y, hy, hyk⟩ := hex
      rcases List.mem_cons.mp hy with rfl | hy
      · simp [hk] at hyk
      · exact ih (fun z hz => hW z (List.mem_cons_of_mem _ hz)) ⟨y, hy, hyk⟩ _ _

/-- A later `DELETE_SUBJECT` flags what an earlier one would have flagged. -/
private theorem foldl_entry_flag : ∀ l : List TopicRecord, (∀ x ∈ l, WellKeyed x) →
    (∃ x ∈ l, x.key = .deleteSubject s) →
    ∀ a, l.foldl (entryStep s v) (flag a) = l.foldl (entryStep s v) a := by
  intro l
  induction l with
  | nil => simp
  | cons x l ih =>
    intro hW hex a
    rw [List.foldl_cons, List.foldl_cons]
    rcases entryStep_cases (s := s) (v := v) (hW x List.mem_cons_self) with
      ⟨_, hconst⟩ | ⟨_, _, hflag⟩ | ⟨_, hk, hidle⟩
    · rw [hconst (flag a) a]
    · have hidem : flag (flag a) = flag a := by cases a <;> rfl
      rw [hflag, hflag, hidem]
    · obtain ⟨y, hy, hyk⟩ := hex
      rcases List.mem_cons.mp hy with rfl | hy
      · exact absurd hyk hk
      · rw [hidle, hidle]
        exact ih (fun z hz => hW z (List.mem_cons_of_mem _ hz)) ⟨y, hy, hyk⟩ a

/-- Without a record of the version there is no entry. -/
private theorem foldl_entry_none : ∀ l : List TopicRecord, (∀ x ∈ l, WellKeyed x) →
    (∀ x ∈ l, x.key ≠ .schema ⟨s, v⟩) → l.foldl (entryStep s v) none = none := by
  intro l
  induction l with
  | nil => simp
  | cons x l ih =>
    intro hW hne
    have hrest := ih (fun z hz => hW z (List.mem_cons_of_mem _ hz))
      fun z hz => hne z (List.mem_cons_of_mem _ hz)
    rw [List.foldl_cons]
    rcases entryStep_cases (s := s) (v := v) (hW x List.mem_cons_self) with
      ⟨hk, _⟩ | ⟨_, _, hflag⟩ | ⟨_, _, hidle⟩
    · exact absurd hk (hne x List.mem_cons_self)
    · rw [hflag]
      exact hrest
    · rw [hidle]
      exact hrest

/-- The binding of a version is decided by the last record of its key and the deletes after it, and
a compaction keeps those that matter. -/
theorem entryOf_compacted (hlog : WrittenLog log) (hc : CompactsTo mayDropNullAlone log log') :
    entryOf (replay F d.state log) s v = entryOf (replay F d.state log') s v := by
  have hwf : WellFormed d.state := (d.state_consistent F).wellFormed
  have hnone : entryOf d.state s v = none := entryOf_withDefaults _ _ s v
  rw [entryOf_replay hwf, entryOf_replay hwf, hnone]
  refine Compacts.foldl_eq (W := WellKeyed) ?_ ?_ hc (by simp) hlog.wellKeyed
  -- A superseded record of this version, or a superseded marker of this subject.
  · intro a r l hr hl hex
    rcases entryStep_cases (s := s) (v := v) hr with ⟨hk, _⟩ | ⟨hk, _, hflag⟩ | ⟨_, _, hidle⟩
    · exact foldl_entry_forget l hl (by rwa [hk] at hex) _ _
    · rw [hflag]
      exact foldl_entry_flag l hl (by rwa [hk] at hex) a
    · rw [hidle]
  -- A released tombstone finds no entry, since no record of its version was kept.
  · rintro kept r hkept hr ⟨hnull, halone⟩
    rcases entryStep_cases (s := s) (v := v) hr with ⟨hk, _⟩ | ⟨_, hvalue, _⟩ | ⟨_, _, hidle⟩
    · rw [hk] at halone
      rw [foldl_entry_none kept hkept halone]
      cases r with
      | schema k value =>
        have hvalue : value = none := by simpa [TopicRecord.isNull] using hnull
        have hkey : k = ⟨s, v⟩ := by simpa [TopicRecord.key] using hk
        simp [hvalue, hkey, entryStep]
      | _ => simp [TopicRecord.key] at hk
    · simp [hvalue] at hnull
    · exact hidle _

end Entries

/-! ## Levels and modes -/

section Levels

/-- A view that one key of the topic decides, through records of the key that replace it. -/
private theorem view_compacted (view : StoreState → Option String)
    (step : Option String → TopicRecord → Option String) (k : TopicKey)
    (hstep : ∀ st r, view (applyTopicRecord F st r) = step (view st) r)
    (hself : ∀ r, WellKeyed r → r.key = k → ∀ a b, step a r = step b r)
    (hother : ∀ r, r.key ≠ k → ∀ a, step a r = a)
    (hnull : ∀ r, WellKeyed r → r.isNull = true → r.key = k → step none r = none)
    (hstart : view d.state = none) (hlog : WrittenLog log)
    (hc : CompactsTo mayDropNullAlone log log') :
    view (replay F d.state log) = view (replay F d.state log') := by
  have hwf : WellFormed d.state := (d.state_consistent F).wellFormed
  have hfold : ∀ l, view (replay F d.state l) = l.foldl step none := by
    intro l
    rw [replay_view view step (fun st r _ => hstep st r) hwf l, hstart]
  rw [hfold, hfold]
  refine Compacts.foldl_register (W := WellKeyed) hself (fun r _ => hother r) ?_ hc hlog.wellKeyed
  rintro kept r hr ⟨hn, halone⟩ hk
  exact ⟨hnull r hr hn hk, by rwa [hk] at halone⟩

variable (hlog : WrittenLog log) (hc : CompactsTo mayDropNullAlone log log')

include hlog hc

/-- The level of a subject is that of the last record of its key, which survives unless it is a
tombstone, and then there is no level anyway. -/
theorem subjectCompat_compacted (s : String) :
    (replay F d.state log).subjectCompat[s]? = (replay F d.state log').subjectCompat[s]? := by
  refine view_compacted (fun st => st.subjectCompat[s]?) (subjectCompatStep s) (.config (some s))
    (fun st r => subjectCompat_applyTopicRecord st r s) ?_ ?_ ?_ ?_ hlog hc
  -- A record of the key sets the level, other keys leave it alone, and a tombstone unsets it.
  · intro r _ hk a b
    cases r with
    | config s' level =>
      obtain rfl : s' = some s := by simpa [TopicRecord.key] using hk
      simp [subjectCompatStep]
    | _ => simp [TopicRecord.key] at hk
  · intro r hk a
    cases r with
    | config s' level =>
      cases s' with
      | none => rfl
      | some s' =>
        have hne : s' ≠ s := by simpa [TopicRecord.key] using hk
        simp [subjectCompatStep, hne]
    | _ => rfl
  · intro r _ hnull hk
    cases r with
    | config s' level =>
      obtain rfl : s' = some s := by simpa [TopicRecord.key] using hk
      obtain rfl : level = none := by simpa [TopicRecord.isNull] using hnull
      simp [subjectCompatStep]
    | _ => simp [TopicRecord.key] at hk
  · simp [Defaults.state, StoreState.withDefaults]

/-- The same for the mode of a subject. -/
theorem subjectMode_compacted (s : String) :
    (replay F d.state log).subjectMode[s]? = (replay F d.state log').subjectMode[s]? := by
  refine view_compacted (fun st => st.subjectMode[s]?) (subjectModeStep s) (.mode (some s))
    (fun st r => subjectMode_applyTopicRecord st r s) ?_ ?_ ?_ ?_ hlog hc
  -- A record of the key sets the mode, other keys leave it alone, and a tombstone unsets it.
  · intro r _ hk a b
    cases r with
    | mode s' m =>
      obtain rfl : s' = some s := by simpa [TopicRecord.key] using hk
      simp [subjectModeStep]
    | _ => simp [TopicRecord.key] at hk
  · intro r hk a
    cases r with
    | mode s' m =>
      cases s' with
      | none => rfl
      | some s' =>
        have hne : s' ≠ s := by simpa [TopicRecord.key] using hk
        simp [subjectModeStep, hne]
    | _ => rfl
  · intro r _ hnull hk
    cases r with
    | mode s' m =>
      obtain rfl : s' = some s := by simpa [TopicRecord.key] using hk
      obtain rfl : m = none := by simpa [TopicRecord.isNull] using hnull
      simp [subjectModeStep]
    | _ => simp [TopicRecord.key] at hk
  · simp [Defaults.state, StoreState.withDefaults]

/-- The same for the global level. -/
theorem globalCompat_compacted :
    (replay F d.state log).globalCompat = (replay F d.state log').globalCompat := by
  refine view_compacted (·.globalCompat) globalCompatStep (.config none)
    (fun st r => globalCompat_applyTopicRecord st r) ?_ ?_ ?_ rfl hlog hc
  · intro r hr hk a b
    cases r with
    | config s' level =>
      obtain rfl : s' = none := by simpa [TopicRecord.key] using hk
      cases level with
      | none => exact absurd rfl hr
      | some level => rfl
    | _ => simp [TopicRecord.key] at hk
  · intro r hk a
    cases r with
    | config s' level =>
      cases s' with
      | none => simp [TopicRecord.key] at hk
      | some s' => rfl
    | _ => rfl
  · intro r hr hnull hk
    cases r with
    | config s' level =>
      obtain rfl : s' = none := by simpa [TopicRecord.key] using hk
      obtain rfl : level = none := by simpa [TopicRecord.isNull] using hnull
      rfl
    | _ => simp [TopicRecord.key] at hk

/-- The same for the global mode. -/
theorem globalMode_compacted :
    (replay F d.state log).globalMode = (replay F d.state log').globalMode := by
  refine view_compacted (·.globalMode) globalModeStep (.mode none)
    (fun st r => globalMode_applyTopicRecord st r) ?_ ?_ ?_ rfl hlog hc
  · intro r _ hk a b
    cases r with
    | mode s' m =>
      obtain rfl : s' = none := by simpa [TopicRecord.key] using hk
      rfl
    | _ => simp [TopicRecord.key] at hk
  · intro r hk a
    cases r with
    | mode s' m =>
      cases s' with
      | none => simp [TopicRecord.key] at hk
      | some s' => rfl
    | _ => rfl
  · intro r _ hnull hk
    cases r with
    | mode s' m =>
      obtain rfl : s' = none := by simpa [TopicRecord.key] using hk
      have hm : m = none := by simpa [TopicRecord.isNull] using hnull
      simp [globalModeStep, hm]
    | _ => simp [TopicRecord.key] at hk

end Levels

/-! ## Version counters -/

section Counters

variable {s : String}

/-- The counter after some bids is at least each of them. -/
theorem le_foldl_raise {r : TopicRecord} {x : SchemaVersion} (hx : bid s r = some x) :
    ∀ (l : List TopicRecord) (acc : Option SchemaVersion), r ∈ l →
      ∃ m, l.foldl (fun acc r => raise acc (bid s r)) acc = some m ∧ x ≤ m := by
  -- Later records never lower the mark.
  have hmono : ∀ (l : List TopicRecord) (n : SchemaVersion),
      ∃ m, l.foldl (fun acc r => raise acc (bid s r)) (some n) = some m ∧ n ≤ m := by
    intro l
    induction l with
    | nil => exact fun n => ⟨n, rfl, le_refl n⟩
    | cons y l ih =>
      intro n
      cases hy : bid s y with
      | none => simpa [hy, raise] using ih n
      | some k =>
        obtain ⟨m, hm, hle⟩ := ih (max n k)
        exact ⟨m, by simpa [hy, raise] using hm, (le_max_left n k).trans hle⟩
  intro l
  induction l with
  | nil => simp
  | cons y l ih =>
    intro acc hr
    rw [List.foldl_cons]
    rcases List.mem_cons.mp hr with rfl | hr
    · rw [hx]
      cases acc with
      | none => exact hmono l x
      | some n =>
        obtain ⟨m, hm, hle⟩ := hmono l (max n x)
        exact ⟨m, hm, (le_max_right n x).trans hle⟩
    · exact ih _ hr

/-- A counter that starts absent ends at one of the bids. -/
theorem foldl_raise_mem (l : List TopicRecord) {m : SchemaVersion}
    (h : l.foldl (fun acc r => raise acc (bid s r)) none = some m) :
    ∃ r ∈ l, bid s r = some m := by
  induction l using List.reverseRecOn generalizing m with
  | nil => simp at h
  | append_singleton l y ih =>
    rw [List.foldl_append, List.foldl_cons, List.foldl_nil] at h
    -- A bid of the shorter log is one of the longer.
    have hlift : ∀ {k}, l.foldl (fun acc r => raise acc (bid s r)) none = some k →
        ∃ r ∈ l ++ [y], bid s r = some k := by
      intro k hk
      obtain ⟨r, hr, hb⟩ := ih hk
      exact ⟨r, List.mem_append_left _ hr, hb⟩
    cases hy : bid s y with
    | none => exact hlift (by simpa [hy, raise] using h)
    | some k =>
      rw [hy] at h
      cases hacc : l.foldl (fun acc r => raise acc (bid s r)) none with
      | none =>
        rw [hacc] at h
        obtain rfl : k = m := by simpa [raise] using h
        exact ⟨y, by simp, hy⟩
      | some n =>
        rw [hacc] at h
        have hmax : max n k = m := by simpa [raise] using h
        rcases max_choice n k with hn | hk
        · exact hlift (by rw [hacc, ← hmax, hn])
        · exact ⟨y, by simp, by rw [hy, ← hmax, hk]⟩

/-- Lists whose bids dominate each other give the same counter. -/
private theorem foldl_raise_eq {l l' : List TopicRecord}
    (hle : ∀ r ∈ l, ∀ x, bid s r = some x → ∃ r' ∈ l', ∃ y, bid s r' = some y ∧ x ≤ y)
    (hge : ∀ r ∈ l', r ∈ l) :
    l.foldl (fun acc r => raise acc (bid s r)) none =
      l'.foldl (fun acc r => raise acc (bid s r)) none := by
  cases h : l.foldl (fun acc r => raise acc (bid s r)) none with
  | none =>
    cases h' : l'.foldl (fun acc r => raise acc (bid s r)) none with
    | none => rfl
    | some m' =>
      obtain ⟨r, hr, hb⟩ := foldl_raise_mem l' h'
      obtain ⟨m, hm, _⟩ := le_foldl_raise hb l none (hge r hr)
      simp [h] at hm
  | some m =>
    obtain ⟨r, hr, hb⟩ := foldl_raise_mem l h
    obtain ⟨r', hr', y, hy, hmy⟩ := hle r hr m hb
    obtain ⟨m', hm', hym'⟩ := le_foldl_raise hy l' none hr'
    obtain ⟨x, hx, hbx⟩ := foldl_raise_mem l' hm'
    obtain ⟨m₂, hm₂, hle₂⟩ := le_foldl_raise hbx l none (hge x hx)
    obtain rfl : m = m₂ := by simpa [h] using hm₂
    rw [hm', le_antisymm (hmy.trans hym') hle₂]

/-- A marker of the log is kept, or a later and larger one is. -/
private theorem marker_survives (hlog : WrittenLog log)
    (hc : CompactsTo mayDropNullAlone log log') {n : SchemaVersion}
    (hn : encodeVersionHighWater s n ∈ log) :
    ∃ r' ∈ log', ∃ y, bid s r' = some y ∧ n ≤ y := by
  obtain ⟨pre, r', post, hsplit, hkey, hmem, hkept⟩ := hc.exists_survivor hn
  have hr' : r' ∈ log := by rw [hsplit]; simp
  -- The last record of the key is a marker with a value.
  obtain ⟨n', rfl⟩ : ∃ n', r' = encodeVersionHighWater s n' := by
    have hwk := hlog.wellKeyed r' hr'
    cases r' with
    | versionHighWater s' next =>
      obtain rfl : s' = s := by simpa [TopicRecord.key, encodeVersionHighWater] using hkey
      cases next with
      | none => exact absurd rfl hwk
      | some n' => exact ⟨n', rfl⟩
    | _ => simp [TopicRecord.key, encodeVersionHighWater] at hkey
  have hle : n ≤ n' := by
    rcases List.mem_append.mp hmem with hpre | heq
    · have hpair := hlog.rising
      rw [hsplit, List.pairwise_append] at hpair
      exact hpair.2.2 _ hpre _ List.mem_cons_self s n n' rfl rfl
    · have : n = n' := by simpa [encodeVersionHighWater] using List.mem_singleton.mp heq
      exact this.le
  rcases hkept with hin | ⟨kept', hnull, _⟩
  · exact ⟨_, hin, n', by simp [bid, encodeVersionHighWater], hle⟩
  · simp [TopicRecord.isNull, encodeVersionHighWater] at hnull

/-- Every bid of the log is matched by one that compaction keeps. The last record of the key bids as
much; where that is a tombstone that was dropped, the marker written before it does. -/
private theorem bid_survives (hlog : WrittenLog log) (hc : CompactsTo mayDropNullAlone log log')
    {r : TopicRecord} (hr : r ∈ log) {x : SchemaVersion} (hx : bid s r = some x) :
    ∃ r' ∈ log', ∃ y, bid s r' = some y ∧ x ≤ y := by
  cases r with
  | schema k value =>
    have hbid : ∀ value', WellKeyed (.schema k value') →
        bid s (.schema k value') = if k.subject = s then some (saturatingSucc k.version) else none := by
      intro value' hwk
      cases value' with
      | none => rfl
      | some value' =>
        have hk : k = ⟨value'.subject, value'.version⟩ := hwk
        simp [bid, hk]
    rw [hbid value (hlog.wellKeyed _ hr)] at hx
    obtain ⟨rfl, rfl⟩ : k.subject = s ∧ saturatingSucc k.version = x := by
      split at hx
      · exact ⟨by assumption, by simpa using hx⟩
      · cases hx
    -- The last record of the key is left, or it was a tombstone and its marker speaks for it.
    obtain ⟨pre, r', post, hsplit, hkey, _, hkept⟩ := hc.exists_survivor hr
    have hr' : r' ∈ log := by rw [hsplit]; simp
    obtain ⟨value', rfl⟩ : ∃ value', r' = .schema k value' := by
      cases r' with
      | schema k' value' =>
        obtain rfl : k' = k := by simpa [TopicRecord.key] using hkey
        exact ⟨value', rfl⟩
      | _ => simp [TopicRecord.key] at hkey
    rcases hkept with hin | ⟨kept', hnull, _⟩
    · exact ⟨_, hin, _, by rw [hbid value' (hlog.wellKeyed _ hr'), if_pos rfl], le_refl _⟩
    -- The last record was a tombstone that went, so a marker above it speaks for it.
    · obtain rfl : value' = none := by simpa [TopicRecord.isNull] using hnull
      obtain ⟨n, hn, hle⟩ := hlog.covered k.subject k.version hr'
      obtain ⟨r'', hr'', y, hy, hny⟩ := marker_survives hlog hc hn
      exact ⟨r'', hr'', y, hy, hle.trans hny⟩
  | versionHighWater s' next =>
    cases next with
    | none => simp [bid] at hx
    | some n =>
      obtain ⟨rfl, rfl⟩ : s' = s ∧ n = x := by
        simp only [bid] at hx
        split at hx
        · exact ⟨by assumption, by simpa using hx⟩
        · cases hx
      exact marker_survives hlog hc hr
  | deleteSubject s' value => simp [bid] at hx
  | config s' level => simp [bid] at hx
  | mode s' m => simp [bid] at hx
  | barrier token present => simp [bid] at hx

/-- The mark of a subject is a maximum of bids, and for each bid one at least as high survives. -/
theorem nextVersions_compacted (hlog : WrittenLog log)
    (hc : CompactsTo mayDropNullAlone log log') (s : String) :
    (replay F d.state log).nextVersions[s]? = (replay F d.state log').nextVersions[s]? := by
  have hwf : WellFormed d.state := (d.state_consistent F).wellFormed
  have hstart : d.state.nextVersions[s]? = none := by
    simp [Defaults.state, StoreState.withDefaults]
  rw [nextVersions_replay hwf, nextVersions_replay hwf, hstart]
  exact foldl_raise_eq (fun r hr x hx => bid_survives hlog hc hr hx) fun r hr => hc.subset hr

end Counters

/-! ## Runs write such logs -/

/-- Every part of the structure, for a log that operations wrote. -/
theorem sameStructure_compacted (hlog : WrittenLog log)
    (hc : CompactsTo mayDropNullAlone log log') :
    SameStructure (replay F d.state log) (replay F d.state log') where
  subjects := subjects_ext (replay_wellFormed (d.state_consistent F).wellFormed log)
    (replay_wellFormed (d.state_consistent F).wellFormed log')
    fun _ _ => entryOf_compacted hlog hc
  globalCompat := globalCompat_compacted hlog hc
  subjectCompat := Std.ExtTreeMap.ext_getElem? fun s => subjectCompat_compacted hlog hc s
  globalMode := globalMode_compacted hlog hc
  subjectMode := Std.ExtTreeMap.ext_getElem? fun s => subjectMode_compacted hlog hc s
  nextVersion := fun s => by
    simp only [StoreState.nextVersion, nextVersions_compacted hlog hc s]

/-- The log is one that operations write, and the live counters are those of its replay. -/
private structure Counted (F : Formats) (d : Defaults) (w : World) : Prop where
  log : WrittenLog w.log
  counters : ∀ s : String,
    w.state.nextVersions[s]? = (replay F d.state w.log).nextVersions[s]?

/-- Whatever an operation writes carries the key of its value. -/
private theorem emits_wellKeyed {w : World} {r : TopicRecord} (he : Emits F true w r) :
    WellKeyed r := by
  cases he with
  | registered _ _ _ _ _ => rfl
  | imported _ _ _ => rfl
  | softDeleted _ _ => rfl
  | subjectDeleted s m => simp [encodeDeleteSubject, WellKeyed]
  | marked s => simp [encodeVersionHighWater, WellKeyed]
  | purged _ _ _ => trivial
  | leveled s level h =>
    cases s with
    | none => exact h rfl
    | some s => trivial
  | moded s m => trivial
  | barrier token present => trivial

/-- One record keeps the log as operations write it (its marks rise, and every version taken away
has one above it) and the live marks those of its replay. -/
private theorem counted_emits {w : World} {r : TopicRecord} (he : Emits F true w r)
    (h : Counted F d w) : Counted F d (w.append F [r]) := by
  refine ⟨⟨?_, ?_, ?_⟩, ?_⟩
  · intro x hx
    rcases List.mem_append.mp hx with hx | hx
    · exact h.log.wellKeyed x hx
    · rw [List.mem_singleton.mp hx]
      exact emits_wellKeyed he
  -- A new marker is the live counter, which is above every marker of the log.
  · refine List.pairwise_append.mpr ⟨h.log.rising, by simp, ?_⟩
    intro x hx y hy s n n' hxn hyn
    rw [List.mem_singleton.mp hy] at hyn
    have hn' : n' = w.state.nextVersion s := by
      cases he with
      | marked s' =>
        obtain ⟨rfl, rfl⟩ : s' = s ∧ w.state.nextVersion s' = n' := by
          simpa [encodeVersionHighWater] using hyn
        rfl
      | _ => cases hyn
    have hbid : bid s x = some n := by simp [hxn, bid, encodeVersionHighWater]
    have hwf : WellFormed d.state := (d.state_consistent F).wellFormed
    obtain ⟨m, hm, hle⟩ := le_foldl_raise hbid w.log d.state.nextVersions[s]? hx
    have hcounter : w.state.nextVersions[s]? = some m := by
      rw [h.counters, nextVersions_replay hwf, hm]
    rw [hn', StoreState.nextVersion, hcounter]
    exact hle
  · intro s v hin
    rcases List.mem_append.mp hin with hin | hin
    · obtain ⟨n, hn, hle⟩ := h.log.covered s v hin
      exact ⟨n, List.mem_append_left _ hn, hle⟩
    · have hr : encodeTombstone s v = r := List.mem_singleton.mp hin
      cases he with
      | @purged s' v' n e _ hmark hle =>
        obtain ⟨rfl, rfl⟩ : s = s' ∧ v = v' := by simpa [encodeTombstone] using hr
        exact ⟨n, List.mem_append_left _ hmark, hle⟩
      | _ => cases hr
  · intro s
    change (applyTopicRecord F w.state r).nextVersions[s]? =
      (replay F d.state (w.log ++ [r])).nextVersions[s]?
    rw [replay_append, replay_cons, replay_nil, nextVersions_applyTopicRecord,
      nextVersions_applyTopicRecord, h.counters]

/-- So does every step of the service, restarts from a compacted log included. -/
private theorem counted_step {w w' : World} {l : Event} (hs : Step F d mayDropNullAlone w l w')
    (h : Consistent F w.state ∧ Counted F d w) : Consistent F w'.state ∧ Counted F d w' := by
  refine ⟨hs.consistent h.1, ?_⟩
  rcases hs.cases true h.1 (.inl rfl) with ⟨c, _, hc, rfl⟩ | ⟨_, recs, hw, rfl⟩
  · exact ⟨h.2.log, fun s => (nextVersions_compacted h.2.log hc s).symm⟩
  · exact hw.invariant (fun _ _ he hi => counted_emits he hi) h.2

/-- Hence every run has such a log, by induction on the run. -/
private theorem Run.counted {t : List (World × Event)} {w : World}
    (h : Run F d mayDropNullAlone t w) : Counted F d w := by
  have hstart : Consistent F (World.start d).state ∧ Counted F d (World.start d) :=
    ⟨d.state_consistent F, ⟨by simp [World.start], by simp [World.start], by simp [World.start]⟩,
      fun _ => rfl⟩
  have hrun := Trace.invariant (I := fun w => Consistent F w.state ∧ Counted F d w)
    (C := fun _ _ => True) hstart (fun _ _ _ _ hs hi => counted_step hs hi) h fun _ _ => trivial
  exact hrun.2

/-- The part of it that speaks of the log alone. -/
theorem Run.writtenLog {t : List (World × Event)} {w : World}
    (h : Run F d mayDropNullAlone t w) : WrittenLog w.log :=
  (Run.counted h).log

/-- The live counters are made of the bids of the whole log, whatever restarts replayed. -/
theorem Run.nextVersions_eq {t : List (World × Event)} {w : World}
    (h : Run F d mayDropNullAlone t w) (s : String) :
    w.state.nextVersions[s]? = w.log.foldl (fun acc r => raise acc (bid s r)) none := by
  have hstart : d.state.nextVersions[s]? = none := by
    simp [Defaults.state, StoreState.withDefaults]
  rw [(Run.counted h).counters s, nextVersions_replay (d.state_consistent F).wellFormed, hstart]

/-! ## Restarts -/

/-- The same versions, ids and flags, and the same levels and modes. -/
structure SameViews (st st' : StoreState) : Prop where
  entry : ∀ s v, entryOf st' s v = entryOf st s v
  subjectCompat : ∀ s : String, st'.subjectCompat[s]? = st.subjectCompat[s]?
  subjectMode : ∀ s : String, st'.subjectMode[s]? = st.subjectMode[s]?
  globalMode : st'.globalMode = st.globalMode
  defaultMode : st'.defaultMode = st.defaultMode

/-- States with the same views have the same modes in force. -/
theorem SameViews.effectiveMode {st st' : StoreState} (h : SameViews st st') (s : String) :
    st'.effectiveMode s = st.effectiveMode s := by
  simp only [StoreState.effectiveMode, StoreState.globalModeName, h.subjectMode, h.globalMode,
    h.defaultMode]

/-- Views that agree twice agree. -/
theorem SameViews.trans {st₁ st₂ st₃ : StoreState} (h : SameViews st₁ st₂)
    (h' : SameViews st₂ st₃) : SameViews st₁ st₃ where
  entry s v := (h'.entry s v).trans (h.entry s v)
  subjectCompat s := (h'.subjectCompat s).trans (h.subjectCompat s)
  subjectMode s := (h'.subjectMode s).trans (h.subjectMode s)
  globalMode := h'.globalMode.trans h.globalMode
  defaultMode := h'.defaultMode.trans h.defaultMode

/-- And they agree the other way round. -/
theorem SameViews.symm {st st' : StoreState} (h : SameViews st st') : SameViews st' st where
  entry s v := (h.entry s v).symm
  subjectCompat s := (h.subjectCompat s).symm
  subjectMode s := (h.subjectMode s).symm
  globalMode := h.globalMode.symm
  defaultMode := h.defaultMode.symm

/-- Each view of a record's effect depends on that view alone. -/
theorem SameViews.applyTopicRecord {st st' : StoreState} (h : SameViews st st')
    (hwf : WellFormed st) (hwf' : WellFormed st') (r : TopicRecord) :
    SameViews (Store.applyTopicRecord F st r) (Store.applyTopicRecord F st' r) where
  entry s v := by rw [entryOf_applyTopicRecord hwf', entryOf_applyTopicRecord hwf, h.entry]
  subjectCompat s := by
    rw [subjectCompat_applyTopicRecord, subjectCompat_applyTopicRecord, h.subjectCompat]
  subjectMode s := by
    rw [subjectMode_applyTopicRecord, subjectMode_applyTopicRecord, h.subjectMode]
  globalMode := by rw [globalMode_applyTopicRecord, globalMode_applyTopicRecord, h.globalMode]
  defaultMode := by rw [defaultMode_applyTopicRecord, defaultMode_applyTopicRecord, h.defaultMode]

/-- No log changes the default mode. -/
theorem defaultMode_replay (st : StoreState) (log : List TopicRecord) :
    (replay F st log).defaultMode = st.defaultMode := by
  induction log generalizing st with
  | nil => rfl
  | cons r log ih => rw [replay_cons, ih, defaultMode_applyTopicRecord]

/-- Replay of a compacted log leads to the same views. -/
theorem sameViews_compacted (hlog : WrittenLog log) (hc : CompactsTo mayDropNullAlone log log') :
    SameViews (replay F d.state log) (replay F d.state log') where
  entry _ _ := (entryOf_compacted hlog hc).symm
  subjectCompat s := (subjectCompat_compacted hlog hc s).symm
  subjectMode s := (subjectMode_compacted hlog hc s).symm
  globalMode := (globalMode_compacted hlog hc).symm
  defaultMode := by rw [defaultMode_replay, defaultMode_replay]

/-- The live state has the views of a replay of the whole log. -/
private def Mirrored (F : Formats) (d : Defaults) (w : World) : Prop :=
  WellFormed w.state ∧ SameViews (replay F d.state w.log) w.state

/-- The live state follows the log record by record. -/
private theorem mirrored_append {w : World} (h : Mirrored F d w) (r : TopicRecord) :
    Mirrored F d (w.append F [r]) := by
  refine ⟨replay_wellFormed h.1 _, ?_⟩
  have hreplayed := replay_wellFormed (F := F) (d.state_consistent F).wellFormed w.log
  show SameViews (replay F d.state (w.log ++ [r])) (applyTopicRecord F w.state r)
  rw [replay_append, replay_cons, replay_nil]
  exact h.2.applyTopicRecord hreplayed h.1 r

/-- Hence the live state of a run has the views of the replay of its log. -/
private theorem Run.mirrored {t : List (World × Event)} {w : World}
    (h : Run F d mayDropNullAlone t w) : Mirrored F d w := by
  induction h with
  | nil => exact ⟨(d.state_consistent F).wellFormed, by constructor <;> intros <;> rfl⟩
  | @snoc w₁ w₂ t l ht hs ih =>
    have hrun : Run F d mayDropNullAlone t w₁ := ht
    have hlog : WrittenLog w₁.log := Run.writtenLog hrun
    rcases hs.cases true hrun.consistent (.inl rfl) with ⟨c, _, hc, rfl⟩ | ⟨_, recs, hw, rfl⟩
    · exact ⟨replay_wellFormed (d.state_consistent F).wellFormed _,
        sameViews_compacted hlog hc⟩
    · exact hw.invariant (I := Mirrored F d) (fun _ r _ hi => mirrored_append hi r) ih

/-- A restart finds the versions, levels and modes of the live state again. -/
theorem Run.restarted_sameViews {t : List (World × Event)} {w : World}
    (h : Run F d mayDropNullAlone t w) {replayed : List TopicRecord}
    (hc : CompactsTo mayDropNullAlone w.log replayed) :
    SameViews w.state (replay F d.state replayed) :=
  (Run.mirrored h).2.symm.trans (sameViews_compacted (Run.writtenLog h) hc)

/-- For every log that a run writes, in any modes and with calls that stop after any prefix of
their appends, every compaction replays to the same structure as the log itself. -/
theorem replay_compacted {t : List (World × Event)} {w : World}
    (h : Run F d mayDropNullAlone t w) {compacted : List TopicRecord}
    (hc : CompactsTo mayDropNullAlone w.log compacted) :
    SameStructure (replay F d.state w.log) (replay F d.state compacted) :=
  sameStructure_compacted (Run.writtenLog h) hc

/-- A purged subject, of which compaction leaves the version marker alone. -/
theorem replay_compacted_purge :
    let ops : List Op := [.register { subject := "a", ty := .json, schema := "true" },
      .softDeleteVersion "a" 1, .permanentDeleteVersion "a" 1]
    let w := (World.start {}).afterAll Formats.sample ops
    let compacted := select [false, false, true, false] w.log
    compacted.length = 1 ∧
      SameStructure (replay Formats.sample ({} : Defaults).state w.log)
        (replay Formats.sample ({} : Defaults).state compacted) := by
  intro ops w compacted
  have hrun : Run Formats.sample {} mayDropNullAlone _ w :=
    Run.steps (Trace.nil (World.start {})) ops (by decide +kernel)
  have hc : CompactsTo mayDropNullAlone w.log compacted := by
    refine Compacts.of_admits (fun kept r => r.isNull && kept.all (·.key ≠ r.key)) ?_ w.log
      _ [] (by decide +kernel)
    simp [mayDropNullAlone]
  exact ⟨by decide +kernel, replay_compacted hrun hc⟩

end KrabkaRegistry.Guarantees
