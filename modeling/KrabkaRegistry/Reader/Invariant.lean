import KrabkaRegistry.Reader.Model
import KrabkaRegistry.Store.Closure

/-!
# What the Reader Keeps

`Inv` is what the reader and the barrier tracker keep on every run.  Its core says of the
store that is being filled, live or rebuild, that it is the replay of what was fetched below
the cursor (`Target`), and of the live store the same for every token that was seen (`seen`):
the two differ while a rebuild is under way, and the live store then stays at the state the
tokens were seen in.

This module shows it for the steps that are not the reader's own: those of the topic, which
only grows, and those of the facade, which only reserves and gives up tokens.
-/

namespace KrabkaRegistry.Reader

open KrabkaRegistry.Format (Formats)
open KrabkaRegistry.Kafkastore
open KrabkaRegistry.Library
open KrabkaRegistry.Library.PartitionLog
open KrabkaRegistry.Store

variable {F : Formats} {d : Defaults}

/-! ## Replays up to the id counter -/

/-- `st'` is `st` with an id counter that may be ahead. -/
def Ahead (st st' : StoreState) : Prop :=
  ∃ m, st.maxId ≤ m ∧ st' = { st with maxId := m }

/-- A state is ahead of itself. -/
theorem Ahead.refl (st : StoreState) : Ahead st st := ⟨st.maxId, le_refl _, rfl⟩

/-- Indexing does not look at the largest id. -/
private theorem indexKey_maxId (st : StoreState) (m : SchemaId) (value : SchemaValue) :
    ({ st with maxId := m } : StoreState).indexKey F value = st.indexKey F value := by
  have hclosure : StoreState.resolveClosure { st with maxId := m } value.references =
      st.resolveClosure value.references := resolveClosure_congr fun _ _ => rfl
  unfold StoreState.indexKey StoreState.identityKey
  rw [hclosure]

/-- Preparing a record takes the maximum with the largest id and looks at it in no other way. -/
private theorem prepareSchema_maxId (st : StoreState) (m : SchemaId) (value : SchemaValue) :
    ({ st with maxId := m } : StoreState).prepareSchema value =
      { st.prepareSchema value with maxId := max m value.id } := by
  rw [prepareSchema_eq, prepareSchema_eq]
  unfold StoreState.unindex
  cases st.canonicalById[value.id]? <;> rfl

/-- A schema record keeps a lead in the largest id, or catches up with it. -/
private theorem applySchema_ahead (st : StoreState) (m : SchemaId) (k : SchemaKey)
    (value : SchemaValue) :
    ({ st with maxId := m } : StoreState).applySchema F k value =
      { st.applySchema F k value with maxId := max m value.id } := by
  have hindex :
      StoreState.indexValue F (StoreState.prepareSchema { st with maxId := m } value) value =
        { (st.prepareSchema value).indexValue F value with maxId := max m value.id } := by
    rw [prepareSchema_maxId]
    unfold StoreState.indexValue
    rw [indexKey_maxId]
    cases (st.prepareSchema value).indexKey F value <;> rfl
  unfold StoreState.applySchema
  rw [hindex]

/-- A permanent delete passes the largest id through. -/
private theorem permanentDeleteVersion_maxId (st : StoreState) (m : SchemaId) (s : String)
    (v : SchemaVersion) :
    ({ st with maxId := m } : StoreState).permanentDeleteVersion s v =
      { st.permanentDeleteVersion s v with maxId := m } := by
  unfold StoreState.permanentDeleteVersion
  simp only [StoreState.observeVersion, StoreState.observeNextVersion]
  cases st.subjects[s]? with
  | none => rfl
  | some l =>
    simp only
    split_ifs <;> rfl

/-- A soft delete passes the largest id through. -/
private theorem softDeleteSubject_maxId (st : StoreState) (m : SchemaId) (s : String) :
    ({ st with maxId := m } : StoreState).softDeleteSubject s =
      { st.softDeleteSubject s with maxId := m } := by
  unfold StoreState.softDeleteSubject
  cases st.subjects[s]? with
  | none => rfl
  | some l =>
    simp only
    split_ifs <;> rfl

/-- So does every record that carries no schema. -/
private theorem applyTopicRecord_maxId (st : StoreState) (m : SchemaId) {r : TopicRecord}
    (h : schemaValue? r = none) :
    applyTopicRecord F { st with maxId := m } r = { applyTopicRecord F st r with maxId := m } := by
  cases r with
  | schema k value =>
    obtain rfl : value = none := h
    exact permanentDeleteVersion_maxId st m k.subject k.version
  | deleteSubject s value =>
    cases value with
    | none => rfl
    | some value => exact softDeleteSubject_maxId st m s
  | versionHighWater s next => cases next <;> rfl
  | config s level => cases s <;> cases level <;> rfl
  | mode s m => cases s <;> cases m <;> rfl
  | barrier token present => rfl

/-- One record keeps the lead. -/
theorem Ahead.apply {st st' : StoreState} (h : Ahead st st') (r : TopicRecord) :
    Ahead (applyTopicRecord F st r) (applyTopicRecord F st' r) := by
  obtain ⟨m, hle, rfl⟩ := h
  cases hv : schemaValue? r with
  | none =>
    refine ⟨m, ?_, applyTopicRecord_maxId st m hv⟩
    rw [(contents_applyTopicRecord st hv).2.1]
    exact hle
  | some value =>
    cases r with
    | schema k v =>
      obtain rfl : v = some value := hv
      refine ⟨max m value.id, ?_, applySchema_ahead st m k value⟩
      change (st.applySchema F k value).maxId ≤ _
      rw [applySchema_maxId]
      exact max_le_max hle (le_refl _)
    | config | mode | deleteSubject | versionHighWater | barrier => cases hv

/-- A whole log keeps it, by induction. -/
theorem Ahead.replay {st st' : StoreState} (h : Ahead st st') (log : List TopicRecord) :
    Ahead (replay F st log) (replay F st' log) := by
  induction log generalizing st st' with
  | nil => exact h
  | cons r log ih => exact ih (h.apply r)

/-- A snapshot taken over from a rebuild differs from it in the largest id at most, where the live
state had got further. -/
theorem ahead_snapshot (st live : StoreState) (previous : Option Rebuild) (preserve : Bool) :
    Ahead st (rebuildSnapshot live st previous preserve) := by
  cases preserve with
  | false => exact .refl st
  | true =>
    cases previous with
    | none => exact ⟨max st.maxId live.maxId, le_max_left _ _, rfl⟩
    | some previous =>
      exact ⟨max (max st.maxId live.maxId) previous.store.maxId,
        le_trans (le_max_left _ _) (le_max_left _ _), rfl⟩

/-! ## The invariant -/

/-- The store is the replay of what was fetched below the cursor `c`. -/
def Holds (F : Formats) (d : Defaults) (P : PartitionLog TopicRecord) (c : ℕ) (st : StoreState) :
    Prop :=
  ∃ offsets, P.Fetched c offsets ∧ Ahead (replay F d.state (P.read offsets)) st

/-- A record below `c` carries the token. -/
def Below (P : PartitionLog TopicRecord) (c : ℕ) (token : Uuid) : Prop :=
  ∃ o < c, ∃ present, P.record? o = some (.barrier token present)

/-- The store that the next records go to. -/
def Loop.target (l : Loop) : StoreState :=
  match l.rebuild with
  | some rebuild => rebuild.store
  | none => l.store

/-- The offset at which the barriers that were met are published. -/
def Loop.bound (l : Loop) : ℕ :=
  match l.rebuild with
  | some rebuild => max l.next rebuild.endOffset
  | none => l.next

/-- What holds of a loop that follows the topic `P`, with the tokens that were seen. -/
structure Target (F : Formats) (d : Defaults) (P : PartitionLog TopicRecord) (l : Loop)
    (seen : Finset Uuid) : Prop where
  holds : Holds F d P l.next l.target
  endOffset : ∀ rebuild ∈ l.rebuild, rebuild.endOffset ≤ P.stable
  observed : ∀ t ∈ l.observedBarriers, Below P l.bound t
  seen : ∀ t ∈ seen, Below P l.bound t

/-- Bounds that a rebuild of `P` may use: nothing is left before the start, and the barriers
that were met stand before the end. -/
structure Bounds (P : PartitionLog TopicRecord) (startOffset endOffset : ℕ)
    (tokens : Uuid → Prop) : Prop where
  cleared : P.Cleared startOffset
  le_stable : endOffset ≤ P.stable
  below : ∀ t, tokens t → Below P endOffset t

/-- The tokens that the reader has met and that are still of use. -/
def System.Met (s : System) (t : Uuid) : Prop :=
  t ∈ s.loop.observedBarriers ∨ t ∈ s.barriers.seen

/-- The topic of the reader. -/
def System.followed (s : System) : PartitionLog TopicRecord := s.topics s.loop.topicId

/-- What the answers that the loop holds are worth.  Bounds are those of the reader's topic if
that one is still current; those of a reset also if they are empty. -/
def PhaseOk (s : System) : Phase → Prop
  | .connecting | .reading => True
  | .answered records nextOffset => ∃ offsets, records = s.followed.response offsets ∧
      s.followed.Answers s.loop.next offsets nextOffset
  | .replacing resolved startOffset endOffset =>
    0 < resolved ∧ resolved ≤ s.current ∧ (∀ t, ¬ s.Met t) ∧
      (resolved = s.current → (∀ a ∈ startOffset, (s.topics resolved).Cleared a) ∧
        ∀ e ∈ endOffset, e ≤ (s.topics resolved).stable)
  | .resetting startOffset endOffset =>
    (s.loop.topicId = s.current → ∀ a ∈ startOffset, s.followed.Cleared a) ∧
      ∀ a ∈ startOffset, ∀ e ∈ endOffset, s.loop.topicId = s.current ∨ e ≤ a →
        Bounds s.followed a e s.Met

/-- The reader's position is one in its topic. -/
def System.Tracks (s : System) : Prop :=
  s.loop.topicId = s.current ∨ s.loop.topicId = 0 ∨
    ∃ records nextOffset, s.loop.phase = .answered records nextOffset

/-- What holds of the tokens: a barrier stands in one place, and is not cleared while its
token is pending. -/
structure TokensOk (s : System) : Prop where
  seen : s.barriers.seen ⊆ s.barriers.pending
  pending : s.barriers.pending ⊆ s.reserved
  kept : ∀ t ∈ s.barriers.pending, ∀ id o, (s.topics id).record? o ≠ some (.barrier t false)
  ordered : ∀ t ∈ s.reserved, ∀ id o, (s.topics id).record? o = some (.barrier t true) →
    t ∈ s.ordered
  once : ∀ t ∈ s.reserved, ∀ id o id' o', (s.topics id).record? o = some (.barrier t true) →
    (s.topics id').record? o' = some (.barrier t true) → id = id' ∧ o = o'

structure Inv (F : Formats) (d : Defaults) (s : System) : Prop where
  current : 0 < s.current
  empty : ∀ id, id = 0 ∨ s.current < id → s.topics id = {}
  topicId : s.loop.topicId ≤ s.current
  unknown : s.loop.topicId = 0 → s.loop.phase = .connecting
  justified : ∀ id, Justified TopicRecord.key TopicRecord.isNull (s.topics id)
  tokens : TokensOk s
  seen : ∀ t ∈ s.barriers.seen, ∃ c, Holds F d s.followed c s.loop.store ∧ Below s.followed c t
  target : s.Tracks → Target F d s.followed s.loop s.barriers.seen
  phase : PhaseOk s s.loop.phase

/-! ### What a growing log keeps -/

section Grow

variable {P P' : PartitionLog TopicRecord} {c : ℕ}

/-- What a reader holds stays true when the partition grows, since the records it has applied are
stable. -/
theorem Holds.mono {st : StoreState} (h : Holds F d P c st) (hP : P.stable ≤ P.slots.length)
    (hext : P.Extends P') : Holds F d P' c st := by
  obtain ⟨offsets, hf, ha⟩ := h
  refine ⟨offsets, hf.mono hP hext, ?_⟩
  rw [hf.read_mono hP hext]
  exact ha

/-- A reader has applied stable records only. -/
theorem Holds.le {st : StoreState} (h : Holds F d P c st) : c ≤ P.stable := by
  obtain ⟨_, hf, _⟩ := h
  exact hf.le

/-- A barrier below an offset stays there when the partition grows. -/
theorem Below.extends {t : Uuid} (h : Below P c t) (hext : P.Extends P') : Below P' c t := by
  obtain ⟨o, ho, present, hr⟩ := h
  exact ⟨o, ho, present, hext.record? hr⟩

/-- It is below every later offset too. -/
theorem Below.mono {t : Uuid} {c' : ℕ} (h : Below P c t) (hle : c ≤ c') : Below P c' t := by
  obtain ⟨o, ho, hr⟩ := h
  exact ⟨o, lt_of_lt_of_le ho hle, hr⟩

/-- The target of a rebuild lies in the stable part, which growth does not change. -/
theorem Target.mono {l : Loop} {seen : Finset Uuid} (h : Target F d P l seen)
    (hP : P.stable ≤ P.slots.length) (hext : P.Extends P') : Target F d P' l seen :=
  ⟨h.holds.mono hP hext, fun rb hrb => le_trans (h.endOffset rb hrb) hext.stable,
    fun t ht => (h.observed t ht).extends hext, fun t ht => (h.seen t ht).extends hext⟩

/-- So do the bounds of a replacement. -/
theorem Bounds.mono {a e : ℕ} {tokens : Uuid → Prop} (h : Bounds P a e tokens)
    (hP : P.stable ≤ P.slots.length) (hext : P.Extends P') : Bounds P' a e tokens :=
  ⟨h.cleared.mono hP hext, le_trans h.le_stable hext.stable,
    fun t ht => (h.below t ht).extends hext⟩

/-- A rebuild never waits for an offset that is not stable. -/
theorem Target.bound_le {l : Loop} {seen : Finset Uuid} (h : Target F d P l seen) :
    l.bound ≤ P.stable := by
  unfold Loop.bound
  cases hrb : l.rebuild with
  | none => exact h.holds.le
  | some rebuild => exact max_le h.holds.le (h.endOffset rebuild hrb)

/-- A store at its defaults is where a reader of an empty log is, and of any log at its
start. -/
theorem Cleared.holds {st : StoreState} (h : P.Cleared c) (hst : Ahead d.state st) :
    Holds F d P c st :=
  ⟨[], h.fetched, hst⟩

end Grow

/-! ### Steps of the topic -/

/-- A token that the topics keep the barrier of, when a slot is appended. -/
theorem TokensOk.append {s : System} (h : TokensOk s) {slot : Option TopicRecord}
    {ordered : Finset Uuid} (hle : s.ordered ⊆ ordered)
    (hkept : ∀ t ∈ s.barriers.pending, slot ≠ some (.barrier t false))
    (hnew : ∀ t ∈ s.reserved, slot = some (.barrier t true) → t ∉ s.ordered ∧ t ∈ ordered) :
    TokensOk { s.setTopic (s.topic.append slot) with ordered := ordered } := by
  -- A record of the new state is an old one, or the one just appended to the current topic.
  have hcases : ∀ {id o r}, ((s.setTopic (s.topic.append slot)).topics id).record? o = some r →
      (s.topics id).record? o = some r ∨
        id = s.current ∧ o = s.topic.slots.length ∧ slot = some r := by
    intro id o r hr
    by_cases hid : id = s.current
    · subst hid
      rw [System.setTopic_current] at hr
      rcases record?_append hr with hr | ⟨ho, hr⟩
      · exact .inl hr
      · exact .inr ⟨rfl, ho, hr⟩
    · rw [System.setTopic_of_ne _ _ hid] at hr
      exact .inl hr
  refine ⟨h.seen, h.pending, ?_, ?_, ?_⟩
  · intro t ht id o hr
    rcases hcases hr with hr | ⟨_, _, hslot⟩
    · exact h.kept t ht id o hr
    · exact hkept t ht hslot
  · intro t ht id o hr
    rcases hcases hr with hr | ⟨_, _, hslot⟩
    · exact hle (h.ordered t ht id o hr)
    · exact (hnew t ht hslot).2
  -- A token is written once: were one of two records new, the other would contradict `hnew`.
  · intro t ht id o id' o' hr hr'
    rcases hcases hr with hr | ⟨rfl, rfl, hslot⟩ <;> rcases hcases hr' with hr' | ⟨rfl, rfl, hslot'⟩
    · exact h.once t ht id o id' o' hr hr'
    · exact absurd (h.ordered t ht id o hr) (hnew t ht hslot').1
    · exact absurd (h.ordered t ht id' o' hr') (hnew t ht hslot).1
    · exact ⟨rfl, rfl⟩

/-- The condition on tokens reads the records, the tracker, the reservations and the order; what
changes nothing of these keeps it. -/
theorem TokensOk.congr {s s' : System} (h : TokensOk s)
    (htopics : ∀ id o, (s'.topics id).record? o = (s.topics id).record? o)
    (hbarriers : s'.barriers = s.barriers) (hreserved : s'.reserved = s.reserved)
    (hordered : s'.ordered = s.ordered) : TokensOk s' := by
  refine ⟨?_, ?_, ?_, ?_, ?_⟩
  · rw [hbarriers]
    exact h.seen
  · rw [hbarriers, hreserved]
    exact h.pending
  · rw [hbarriers]
    simp only [htopics]
    exact h.kept
  · rw [hreserved, hordered]
    simp only [htopics]
    exact h.ordered
  · rw [hreserved]
    simp only [htopics]
    exact h.once

/-- A step that lets the topics grow keeps the invariant, if it keeps what is said of the topics
alone. -/
theorem Inv.grow {s s' : System} (h : Inv F d s) (hloop : s'.loop = s.loop)
    (hbarriers : s'.barriers = s.barriers) (hcurrent : s.current ≤ s'.current)
    (hempty : ∀ id, id = 0 ∨ s'.current < id → s'.topics id = {})
    (hext : ∀ id, (s.topics id).Extends (s'.topics id))
    (hjust : ∀ id, Justified TopicRecord.key TopicRecord.isNull (s'.topics id))
    (htokens : TokensOk s') : Inv F d s' := by
  have hlen := fun id => (h.justified id).stable_le
  have hfollowed : s.followed.Extends s'.followed := by
    unfold System.followed
    rw [hloop]
    exact hext _
  -- The loop and the tracker are the old ones, so the same tokens are met.
  have hmet : ∀ t, s'.Met t ↔ s.Met t := by
    intro t
    rw [System.Met, System.Met, hloop, hbarriers]
  -- A topic that is current now was current before.
  have hcur : ∀ {id}, id ≤ s.current → id = s'.current → id = s.current := fun hle heq =>
    le_antisymm hle (heq ▸ hcurrent)
  refine ⟨lt_of_lt_of_le h.current hcurrent, hempty, ?_, ?_, hjust, htokens, ?_, ?_, ?_⟩
  · rw [hloop]
    exact le_trans h.topicId hcurrent
  · rw [hloop]
    exact h.unknown
  · rw [hloop, hbarriers]
    intro t ht
    obtain ⟨c, hholds, hbelow⟩ := h.seen t ht
    exact ⟨c, hholds.mono (hlen _) hfollowed, hbelow.extends hfollowed⟩
  · intro htracks
    rw [hloop, hbarriers]
    refine (h.target ?_).mono (hlen _) hfollowed
    rw [System.Tracks, hloop] at htracks
    exact htracks.imp_left (hcur h.topicId)
  · rw [hloop]
    have hphase := h.phase
    cases hp : s.loop.phase with
    | connecting => trivial
    | reading => trivial
    | answered records nextOffset =>
      rw [hp] at hphase
      obtain ⟨offsets, hrecords, hanswers⟩ := hphase
      refine ⟨offsets, ?_, ?_⟩
      · rw [hanswers.response_mono (hlen _) hfollowed, hrecords]
      · rw [hloop]
        exact hanswers.mono (hlen _) hfollowed
    -- A replacement knows the topic it resolved, which may be current no longer.
    | replacing resolved startOffset endOffset =>
      rw [hp] at hphase
      obtain ⟨hpos, hle, hnone, hbounds⟩ := hphase
      refine ⟨hpos, le_trans hle hcurrent, fun t ht => hnone t ((hmet t).mp ht), fun heq => ?_⟩
      obtain ⟨hcleared, hend⟩ := hbounds (hcur hle heq)
      exact ⟨fun a ha => (hcleared a ha).mono (hlen _) (hext _),
        fun e he => le_trans (hend e he) (hext _).stable⟩
    | resetting startOffset endOffset =>
      rw [hp] at hphase
      obtain ⟨hcleared, hbounds⟩ := hphase
      refine ⟨fun heq a ha => ?_, fun a ha e he heq => ?_⟩
      · rw [hloop] at heq
        exact (hcleared (hcur h.topicId heq) a ha).mono (hlen _) hfollowed
      · rw [hloop] at heq
        have hb := hbounds a ha e he (heq.imp_left (hcur h.topicId))
        obtain ⟨hstart, hend, hbelow⟩ := hb.mono (hlen _) hfollowed
        exact ⟨hstart, hend, fun t ht => hbelow t ((hmet t).mp ht)⟩

/-- Steps of the current topic. -/
theorem Inv.setTopic {s : System} (h : Inv F d s) {P : PartitionLog TopicRecord}
    (ordered : Finset Uuid) (hext : s.topic.Extends P)
    (hjust : Justified TopicRecord.key TopicRecord.isNull P)
    (htokens : TokensOk { s.setTopic P with ordered := ordered }) :
    Inv F d { s.setTopic P with ordered := ordered } := by
  -- Only the current topic changes; the others extend themselves.
  refine h.grow rfl rfl (le_refl _) ?_ ?_ ?_ htokens
  · intro id hid
    have hne : id ≠ s.current := by
      rcases hid with rfl | hid
      · exact (Nat.ne_of_lt h.current)
      · exact (Nat.ne_of_gt hid)
    change (s.setTopic P).topics id = {}
    rw [System.setTopic_of_ne _ _ hne]
    exact h.empty id hid
  · intro id
    change (s.topics id).Extends ((s.setTopic P).topics id)
    by_cases hid : id = s.current
    · subst hid
      rw [System.setTopic_current]
      exact hext
    · rw [System.setTopic_of_ne _ _ hid]
      exact Extends.refl _
  · intro id
    change Justified _ _ ((s.setTopic P).topics id)
    by_cases hid : id = s.current
    · subst hid
      rw [System.setTopic_current]
      exact hjust
    · rw [System.setTopic_of_ne _ _ hid]
      exact h.justified id

/-- Appending to the current topic keeps the invariant, provided no waiting token is among the
dropped barriers and a reserved token is written once. -/
theorem Inv.append {s : System} (h : Inv F d s) {slot : Option TopicRecord}
    {ordered : Finset Uuid} (hle : s.ordered ⊆ ordered)
    (hkept : ∀ t ∈ s.barriers.pending, slot ≠ some (.barrier t false))
    (hnew : ∀ t ∈ s.reserved, slot = some (.barrier t true) → t ∉ s.ordered ∧ t ∈ ordered) :
    Inv F d { s.setTopic (s.topic.append slot) with ordered := ordered } :=
  h.setTopic ordered (extends_append _ _) ((h.justified _).append slot) (h.tokens.append hle hkept hnew)

/-- Steps that keep every record. -/
theorem Inv.setTopic_slots {s : System} (h : Inv F d s) {P : PartitionLog TopicRecord}
    (hext : s.topic.Extends P) (hslots : P.slots = s.topic.slots)
    (hjust : Justified TopicRecord.key TopicRecord.isNull P) : Inv F d (s.setTopic P) := by
  refine h.setTopic s.ordered hext hjust (h.tokens.congr ?_ rfl rfl rfl)
  intro id o
  by_cases hid : id = s.current
  · subst hid
    change ((s.setTopic P).topics s.current).record? o = _
    rw [System.setTopic_current]
    unfold PartitionLog.record?
    rw [hslots]
    rfl
  · change ((s.setTopic P).topics id).record? o = _
    rw [System.setTopic_of_ne _ _ hid]

/-- So does recreating the topic: the new one is empty and no loop follows it yet. -/
theorem Inv.recreate {s : System} (h : Inv F d s) :
    Inv F d { s with
      current := s.current + 1
      topics := Function.update s.topics (s.current + 1) {} } := by
  -- The new topic was empty before.
  have hsame : Function.update s.topics (s.current + 1) {} = s.topics := by
    rw [← h.empty (s.current + 1) (.inr (Nat.lt_succ_self _))]
    exact Function.update_eq_self _ _
  rw [hsame]
  refine h.grow rfl rfl (Nat.le_succ _) ?_ (fun id => Extends.refl _) h.justified
    (h.tokens.congr (fun _ _ => rfl) rfl rfl rfl)
  intro id hid
  exact h.empty id (hid.imp_right fun hlt => lt_trans (Nat.lt_succ_self _) hlt)

/-! ### Steps of the facade -/

/-- Fewer tokens seen ask for less. -/
theorem Target.subset {P : PartitionLog TopicRecord} {l : Loop} {seen seen' : Finset Uuid}
    (h : Target F d P l seen) (hle : seen' ⊆ seen) : Target F d P l seen' :=
  ⟨h.holds, h.endOffset, h.observed, fun t ht => h.seen t (hle ht)⟩

/-- The tracker may forget tokens it has seen: every clause about them only gets weaker. -/
theorem Inv.setBarriers {s : System} (h : Inv F d s) {b : BarrierTracker} {reserved : Finset Uuid}
    (hseen : b.seen ⊆ s.barriers.seen)
    (htokens : TokensOk { s with barriers := b, reserved := reserved }) :
    Inv F d { s with barriers := b, reserved := reserved } := by
  have hmet : ∀ t, System.Met { s with barriers := b, reserved := reserved } t → s.Met t :=
    fun t ht => ht.imp_right fun hmem => hseen hmem
  refine ⟨h.current, h.empty, h.topicId, h.unknown, h.justified, htokens,
    fun t ht => h.seen t (hseen ht), fun htracks => (h.target htracks).subset hseen, ?_⟩
  -- The phases mention tokens only as ones that were met, and fewer are.
  have hphase := h.phase
  change PhaseOk _ s.loop.phase
  cases hp : s.loop.phase with
  | connecting => trivial
  | reading => trivial
  | answered records nextOffset =>
    rw [hp] at hphase
    exact hphase
  | replacing resolved startOffset endOffset =>
    rw [hp] at hphase
    exact ⟨hphase.1, hphase.2.1, fun t ht => hphase.2.2.1 t (hmet t ht), hphase.2.2.2⟩
  | resetting startOffset endOffset =>
    rw [hp] at hphase
    refine ⟨hphase.1, fun a ha e he heq => ?_⟩
    obtain ⟨hstart, hend, hbelow⟩ := hphase.2 a ha e he heq
    exact ⟨hstart, hend, fun t ht => hbelow t (hmet t ht)⟩

/-- The same for the tokens themselves. -/
theorem TokensOk.shrink {s : System} (h : TokensOk s) {b : BarrierTracker}
    (hpending : b.pending ⊆ s.barriers.pending) (hseen : b.seen ⊆ b.pending) :
    TokensOk { s with barriers := b } :=
  ⟨hseen, Finset.Subset.trans hpending h.pending, fun t ht => h.kept t (hpending ht), h.ordered,
    h.once⟩

/-- Polling takes a barrier out of the tracker once it was seen. -/
theorem Inv.poll {s : System} (h : Inv F d s) (token : Uuid) :
    Inv F d { s with barriers := (s.barriers.poll token).2 } := by
  have hkeeps : (s.barriers.poll token).2.seen ⊆ s.barriers.seen ∧
      (s.barriers.poll token).2.pending ⊆ s.barriers.pending ∧
      (s.barriers.poll token).2.seen ⊆ (s.barriers.poll token).2.pending := by
    unfold BarrierTracker.poll
    split_ifs with hinv hseen
    · exact ⟨Finset.Subset.refl _, Finset.Subset.refl _, h.tokens.seen⟩
    · exact ⟨Finset.erase_subset _ _, Finset.erase_subset _ _,
        Finset.erase_subset_erase _ h.tokens.seen⟩
    · exact ⟨Finset.Subset.refl _, Finset.Subset.refl _, h.tokens.seen⟩
  exact h.setBarriers hkeeps.1 (h.tokens.shrink hkeeps.2.1 hkeeps.2.2)

/-- So does cancelling it. -/
theorem Inv.cancel {s : System} (h : Inv F d s) (token : Uuid) :
    Inv F d { s with barriers := s.barriers.cancel token } :=
  h.setBarriers (Finset.erase_subset _ _)
    (h.tokens.shrink (Finset.erase_subset _ _) (Finset.erase_subset_erase _ h.tokens.seen))

/-- A token mentioned nowhere is in no partition. -/
private theorem not_mentioned {s : System} (h : Inv F d s) {token : Uuid}
    (hm : s.mentions token = false) (id o : ℕ) (present : Bool) :
    (s.topics id).record? o ≠ some (.barrier token present) := by
  intro hr
  rcases Nat.lt_or_ge s.current id with hid | hid
  · rw [h.empty id (.inr hid)] at hr
    simp [PartitionLog.record?] at hr
  · have hslot : some (TopicRecord.barrier token present) ∈ (s.topics id).slots :=
      List.mem_of_getElem? (Option.join_eq_some_iff.mp hr)
    have htrue : s.mentions token = true := by
      refine List.any_eq_true.mpr ⟨id, List.mem_range.mpr (Nat.lt_succ_of_le hid), ?_⟩
      exact List.any_eq_true.mpr ⟨_, hslot, by simp [barrierToken]⟩
    rw [hm] at htrue
    cases htrue

/-- Such a token may be reserved and waited for: no clause has met it before. -/
theorem Inv.reserve {s : System} (h : Inv F d s) {token : Uuid} (hm : s.mentions token = false) :
    Inv F d { s with
      reserved := insert token s.reserved
      barriers := s.barriers.reserve token } := by
  refine h.setBarriers (Finset.Subset.refl _) ⟨?_, ?_, ?_, ?_, ?_⟩
  · exact Finset.Subset.trans h.tokens.seen (Finset.subset_insert _ _)
  · exact Finset.insert_subset_insert _ h.tokens.pending
  · intro t ht id o hr
    rcases Finset.mem_insert.mp ht with rfl | ht
    · exact not_mentioned h hm id o false hr
    · exact h.tokens.kept t ht id o hr
  · intro t ht id o hr
    rcases Finset.mem_insert.mp ht with rfl | ht
    · exact absurd hr (not_mentioned h hm id o true)
    · exact h.tokens.ordered t ht id o hr
  · intro t ht id o id' o' hr hr'
    rcases Finset.mem_insert.mp ht with rfl | ht
    · exact absurd hr (not_mentioned h hm id o true)
    · exact h.tokens.once t ht id o id' o' hr hr'

end KrabkaRegistry.Reader
