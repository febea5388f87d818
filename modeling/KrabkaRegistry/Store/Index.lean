import KrabkaRegistry.Store.Views

/-!
# The Identity Index

`by_canonical` sends a dedup key to an id and `canonical_by_id` sends the id back.  Applying
a `SCHEMA` record re-derives the key of its id at that point of the replay, and only if the
record's references resolve there.  `byCanonical_applySchema` says exactly what the index
holds afterwards.

`Consistent` collects what every replayed state satisfies: the two maps are inverse to each
other, every listed entry and every indexed id has stored content, the stored content has
the key it is indexed under, and no id or version lies above its counter.
-/

namespace KrabkaRegistry.Store

open KrabkaRegistry.Format (Formats)
open KrabkaRegistry.Kafkastore (SchemaKey SchemaValue SchemaRecord TopicRecord)
open StoreState (contentOf dedupKey)

variable {F : Formats} {st : StoreState}

/-! ## The key of a content -/

/-- `KeyOf F reg K`: the content parses, under some references, to a text with key `K`. -/
def KeyOf (F : Formats) (reg : RegisteredSchema) (K : String) : Prop :=
  ∃ refs c, F.parse reg.ty reg.schema refs = .ok c ∧ K = dedupKey c reg.references reg.messageType

/-- A content has one key at most: references do not enter the canonical form. -/
theorem KeyOf.unique {reg : RegisteredSchema} {K K' : String} (h : KeyOf F reg K)
    (h' : KeyOf F reg K') : K = K' := by
  obtain ⟨refs, c, hc, rfl⟩ := h
  obtain ⟨refs', c', hc', rfl⟩ := h'
  rw [F.parse_congr hc hc']

/-- What a computed identity key comes from. -/
theorem identityKey_ok {ty : SchemaType} {schema : String} {references : List SchemaReference}
    {messageType : Option String} {K : String}
    (h : st.identityKey F ty schema references messageType = .ok K) :
    ∃ resolved c, st.resolveClosure references = .ok resolved ∧
      F.parse ty schema resolved = .ok c ∧ K = dedupKey c references messageType := by
  unfold StoreState.identityKey at h
  cases hr : st.resolveClosure references with
  | error e => simp [hr, bind, Except.bind] at h
  | ok resolved =>
    cases hp : F.parse ty schema resolved with
    | error e => simp [hr, hp, bind, Except.bind] at h
    | ok c =>
      have hK : dedupKey c references messageType = K := by
        simpa [hr, hp, bind, Except.bind, pure, Except.pure] using h
      exact ⟨resolved, c, rfl, hp, hK.symm⟩

/-- References that resolve and a text that parses have an identity key. -/
theorem identityKey_of_parse {ty : SchemaType} {schema : String}
    {references : List SchemaReference} {messageType : Option String}
    {resolved : List ResolvedReference} {c : String}
    (hres : st.resolveClosure references = .ok resolved)
    (hparse : F.parse ty schema resolved = .ok c) :
    st.identityKey F ty schema references messageType =
      .ok (dedupKey c references messageType) := by
  simp [StoreState.identityKey, hres, hparse, bind, Except.bind, pure, Except.pure]

theorem KeyOf.of_identityKey {reg : RegisteredSchema} {K : String}
    (h : st.identityKey F reg.ty reg.schema reg.references reg.messageType = .ok K) :
    KeyOf F reg K := by
  obtain ⟨resolved, c, _, hp, hK⟩ := identityKey_ok h
  exact ⟨resolved, c, hp, hK⟩

theorem KeyOf.of_indexKey {value : SchemaValue} {K : String}
    (h : st.indexKey F value = some K) : KeyOf F (contentOf value) K := by
  unfold StoreState.indexKey at h
  cases hk : st.identityKey F (SchemaType.fromWire value.schemaType) value.schema value.references
    value.messageType with
  | error e => simp [hk, Except.toOption] at h
  | ok K' =>
    obtain rfl : K' = K := by simpa [hk, Except.toOption] using h
    exact KeyOf.of_identityKey hk

/-! ## The two maps -/

/-- `by_canonical` and `canonical_by_id` are inverse to each other. -/
def Inverse (st : StoreState) : Prop :=
  ∀ (K : String) (n : SchemaId), st.byCanonical[K]? = some n ↔ st.canonicalById[n]? = some K

private theorem unindex_byCanonical (h : Inverse st) (id : SchemaId) (K : String) (n : SchemaId) :
    (st.unindex id).byCanonical[K]? = some n ↔ n ≠ id ∧ st.byCanonical[K]? = some n := by
  unfold StoreState.unindex
  cases hc : st.canonicalById[id]? with
  | none =>
    -- An id without a key is not the value of any key.
    constructor
    · intro hK
      refine ⟨?_, hK⟩
      rintro rfl
      rw [(h K n).mp hK] at hc
      cases hc
    · exact fun hK => hK.2
  -- The old key leads to the id and is erased; no other key does.
  | some oldKey =>
    have hold : st.byCanonical[oldKey]? = some id := (h oldKey id).mpr hc
    simp only [hold, if_true, BTreeMap.getElem?_erase]
    by_cases hK : K = oldKey
    · subst hK
      simp [hold, eq_comm]
    · simp only [hK, if_false]
      constructor
      · intro hn
        refine ⟨?_, hn⟩
        rintro rfl
        rw [(h K n).mp hn] at hc
        exact hK (by simpa using hc)
      · exact fun hn => hn.2

private theorem unindex_canonicalById (id : SchemaId) (n : SchemaId) :
    (st.unindex id).canonicalById[n]? = if n = id then none else st.canonicalById[n]? := by
  unfold StoreState.unindex
  cases hc : st.canonicalById[id]? with
  | none =>
    by_cases hn : n = id
    · simp [hn, hc]
    · simp [hn]
  | some oldKey => exact BTreeMap.getElem?_erase _ id n

private theorem unindex_inverse (h : Inverse st) (id : SchemaId) : Inverse (st.unindex id) := by
  intro K n
  rw [unindex_byCanonical h, unindex_canonicalById, h K n]
  by_cases hn : n = id
  · simp [hn]
  · simp [hn]

private theorem index_byCanonical (key : String) (id : SchemaId) (K : String) :
    (st.index key id).byCanonical[K]? = if K = key then some id else st.byCanonical[K]? :=
  BTreeMap.getElem?_insert st.byCanonical key K id

private theorem index_canonicalById (h : Inverse st) (key : String) (id n : SchemaId) :
    (st.index key id).canonicalById[n]? =
      if n = id then some key
      else if st.byCanonical[key]? = some n then none else st.canonicalById[n]? := by
  unfold StoreState.index
  simp only [BTreeMap.getElem?_insert]
  by_cases hn : n = id
  · simp [hn]
  · rw [if_neg hn, if_neg hn]
    cases hb : st.byCanonical[key]? with
    | none => simp
    -- The id that had the key loses it, unless it is the id that gets it.
    | some oldId =>
      have hold : st.canonicalById[oldId]? = some key := (h key oldId).mp hb
      by_cases ho : oldId = id
      · simp [ho, Ne.symm hn]
      · by_cases hno : oldId = n
        · subst hno
          simp [ho, hold]
        · simp [ho, hold, BTreeMap.getElem?_erase, Ne.symm hno, hno]

private theorem index_inverse (h : Inverse st) {key : String} {id : SchemaId}
    (hfree : st.canonicalById[id]? = none) : Inverse (st.index key id) := by
  intro K n
  rw [index_byCanonical, index_canonicalById h]
  by_cases hn : n = id
  · subst hn
    rw [if_pos rfl]
    by_cases hK : K = key
    · simp [hK]
    -- The id had no key before, so no other key leads to it.
    · have hnot : st.byCanonical[K]? ≠ some n := by
        intro hb
        rw [(h K n).mp hb] at hfree
        cases hfree
      simp [hK, hnot, Ne.symm hK]
  · rw [if_neg hn]
    by_cases hK : K = key
    · subst hK
      have hcanon : st.byCanonical[K]? ≠ some n → st.canonicalById[n]? ≠ some K := fun hb hc =>
        hb ((h K n).mpr hc)
      by_cases hb : st.byCanonical[K]? = some n
      · simp [hb, Ne.symm hn]
      · simp [hb, Ne.symm hn, hcanon hb]
    · rw [if_neg hK]
      by_cases hb : st.byCanonical[key]? = some n
      -- The id that loses `key` has no other key.
      · have hnot : st.byCanonical[K]? ≠ some n := by
          intro hKn
          have hkey := (h key n).mp hb
          rw [(h K n).mp hKn] at hkey
          exact hK (by simpa using hkey)
        simp [hb, hnot]
      · simp only [hb, if_false]
        exact h K n

/-! ## Applying a record -/

/-- The key a value is indexed under when it is applied to `st`. -/
def placeKey (F : Formats) (st : StoreState) (value : SchemaValue) : Option String :=
  (st.prepareSchema value).indexKey F value

private theorem prepareSchema_inverse (h : Inverse st) (value : SchemaValue) :
    Inverse (st.prepareSchema value) := by
  rw [prepareSchema_eq]
  exact unindex_inverse h value.id

private theorem applySchema_index (F : Formats) (st : StoreState) (k : SchemaKey)
    (value : SchemaValue) :
    (st.applySchema F k value).byCanonical =
        ((st.prepareSchema value).indexValue F value).byCanonical ∧
      (st.applySchema F k value).canonicalById =
        ((st.prepareSchema value).indexValue F value).canonicalById :=
  ⟨rfl, rfl⟩

/-- The index after a record: the record's id holds the key it has at this place, every
other id keeps its key unless the record took it. -/
theorem byCanonical_applySchema (h : Inverse st) (k : SchemaKey) (value : SchemaValue)
    (K : String) (n : SchemaId) :
    (st.applySchema F k value).byCanonical[K]? = some n ↔
      (value.id = n ∧ placeKey F st value = some K) ∨
      (value.id ≠ n ∧ placeKey F st value ≠ some K ∧ st.byCanonical[K]? = some n) := by
  rw [(applySchema_index F st k value).1]
  have hprep : ∀ K : String, (st.prepareSchema value).byCanonical[K]? = some n ↔
      n ≠ value.id ∧ st.byCanonical[K]? = some n := by
    intro K
    rw [prepareSchema_eq]
    exact unindex_byCanonical h value.id K n
  unfold StoreState.indexValue placeKey
  cases (st.prepareSchema value).indexKey F value with
  | none => simp [hprep K, eq_comm]
  | some key =>
    simp only [index_byCanonical]
    by_cases hK : K = key
    · subst hK
      simp
    · have hkey : key ≠ K := Ne.symm hK
      simp only [hK, if_false, hprep K, Option.some.injEq, ne_eq, hkey, not_false_eq_true,
        true_and, and_false, false_or]
      exact and_congr_left fun _ => ⟨Ne.symm, Ne.symm⟩

theorem applySchema_inverse (h : Inverse st) (k : SchemaKey) (value : SchemaValue) :
    Inverse (st.applySchema F k value) := by
  intro K n
  rw [(applySchema_index F st k value).1, (applySchema_index F st k value).2]
  have hprep := prepareSchema_inverse h value
  unfold StoreState.indexValue
  cases (st.prepareSchema value).indexKey F value with
  | none => exact hprep K n
  | some key =>
    refine index_inverse hprep ?_ K n
    rw [prepareSchema_eq]
    simp [unindex_canonicalById]

/-! ## Consistent states -/

/-- What every replayed state satisfies. -/
structure Consistent (F : Formats) (st : StoreState) : Prop where
  wellFormed : WellFormed st
  inverse : Inverse st
  entry_stored : ∀ {s v e}, entryOf st s v = some e → ∃ reg, st.byId[e.id]? = some reg
  indexed_stored : ∀ {K : String} {n : SchemaId}, st.byCanonical[K]? = some n →
    ∃ reg, st.byId[n]? = some reg ∧ KeyOf F reg K
  id_le_maxId : ∀ {n : SchemaId} {reg}, st.byId[n]? = some reg → n ≤ st.maxId
  entry_counted : ∀ {s v e}, entryOf st s v = some e →
    ∃ n, st.nextVersions[s]? = some n ∧ saturatingSucc v ≤ n

theorem withDefaults_consistent (F : Formats) (compatibility mode : String) :
    Consistent F (StoreState.withDefaults compatibility mode) where
  wellFormed := withDefaults_wellFormed compatibility mode
  inverse := by simp [Inverse, StoreState.withDefaults]
  entry_stored := by simp
  indexed_stored := by simp [StoreState.withDefaults]
  id_le_maxId := by simp [StoreState.withDefaults]
  entry_counted := by simp

/-- A counter that was high enough stays so, and a record's own bid is met. -/
private theorem counted_raise {acc b : Option SchemaVersion} {x : SchemaVersion}
    (h : (∃ n, acc = some n ∧ x ≤ n) ∨ b = some x) : ∃ n, raise acc b = some n ∧ x ≤ n := by
  rcases h with ⟨n, rfl, hn⟩ | rfl
  · cases b with
    | none => exact ⟨n, rfl, hn⟩
    | some m => exact ⟨max n m, rfl, hn.trans (le_max_left n m)⟩
  · cases acc with
    | none => exact ⟨x, rfl, le_refl x⟩
    | some n => exact ⟨max n x, rfl, le_max_right n x⟩

theorem applySchema_consistent (h : Consistent F st) (k : SchemaKey) (value : SchemaValue) :
    Consistent F (st.applySchema F k value) where
  wellFormed := applySchema_wellFormed h.wellFormed k value
  inverse := applySchema_inverse h.inverse k value
  entry_stored := by
    intro s v e he
    rw [entryOf_applySchema h.wellFormed] at he
    rw [applySchema_byId, BTreeMap.getElem?_insert]
    -- The entry that was just written, or an older one whose content may have been replaced.
    split at he
    · obtain rfl : _ = e := by simpa using he
      exact ⟨_, if_pos rfl⟩
    · obtain ⟨reg, hreg⟩ := h.entry_stored he
      by_cases hn : e.id = value.id
      · exact ⟨_, if_pos hn⟩
      · exact ⟨reg, by rw [if_neg hn, hreg]⟩
  indexed_stored := by
    intro K n hK
    rw [byCanonical_applySchema h.inverse] at hK
    rw [applySchema_byId, BTreeMap.getElem?_insert]
    -- The key of the value itself, or a key that it has not taken.
    rcases hK with ⟨rfl, hkey⟩ | ⟨hne, _, hold⟩
    · exact ⟨_, if_pos rfl, KeyOf.of_indexKey hkey⟩
    · obtain ⟨reg, hreg, hkey⟩ := h.indexed_stored hold
      exact ⟨reg, by rw [if_neg (Ne.symm hne), hreg], hkey⟩
  id_le_maxId := by
    intro n reg hreg
    rw [applySchema_byId, BTreeMap.getElem?_insert] at hreg
    rw [applySchema_maxId]
    split at hreg
    · rename_i hn
      rw [hn]
      exact le_max_right _ _
    · exact (h.id_le_maxId hreg).trans (le_max_left _ _)
  entry_counted := by
    intro s v e he
    rw [entryOf_applySchema h.wellFormed] at he
    rw [applySchema_nextVersions]
    refine (nextVersions_observeNextVersion st value.subject s _).symm ▸ counted_raise ?_
    split at he
    · rename_i hsv
      obtain ⟨rfl, rfl⟩ := hsv
      exact .inr (by simp)
    · exact .inl (h.entry_counted he)

/-- An entry that is there after a record without a schema value was there before, under the same
id. -/
theorem entryStep_of_no_value {r : TopicRecord} (h : schemaValue? r = none) {s : String}
    {v : SchemaVersion} {acc : Option VersionEntry} {e : VersionEntry}
    (he : entryStep s v acc r = some e) : ∃ e₀, acc = some e₀ ∧ e₀.id = e.id := by
  cases r with
  | schema k value =>
    obtain rfl : value = none := h
    simp only [entryStep] at he
    split at he
    · cases he
    · exact ⟨e, he, rfl⟩
  -- A soft delete only flags the entry, so its id is the old one.
  | deleteSubject s' value =>
    cases value with
    | none => exact ⟨e, he, rfl⟩
    | some value =>
      simp only [entryStep] at he
      split at he
      · cases acc with
        | none => cases he
        | some e₀ =>
          obtain rfl : _ = e := by simpa using he
          exact ⟨e₀, rfl, rfl⟩
      · exact ⟨e, he, rfl⟩
  | versionHighWater s' next => exact ⟨e, he, rfl⟩
  | config s' level => exact ⟨e, he, rfl⟩
  | mode s' m => exact ⟨e, he, rfl⟩
  | barrier token present => exact ⟨e, he, rfl⟩

theorem applyTopicRecord_consistent (h : Consistent F st) (r : TopicRecord) :
    Consistent F (applyTopicRecord F st r) := by
  cases hr : schemaValue? r with
  | some value =>
    obtain ⟨k, hk⟩ := applyTopicRecord_schema (F := F) st hr
    rw [hk]
    exact applySchema_consistent h k value
  | none =>
    -- Only entries and counters can have changed.
    obtain ⟨hById, hMax, hCan, hInv⟩ := contents_applyTopicRecord (F := F) st hr
    refine ⟨applyTopicRecord_wellFormed h.wellFormed r, ?_, ?_, ?_, ?_, ?_⟩
    · intro K n
      rw [hCan, hInv]
      exact h.inverse K n
    · intro s v e he
      rw [entryOf_applyTopicRecord h.wellFormed] at he
      obtain ⟨e₀, he₀, hid⟩ := entryStep_of_no_value hr he
      rw [hById, ← hid]
      exact h.entry_stored he₀
    · intro K n hK
      rw [hCan] at hK
      rw [hById]
      exact h.indexed_stored hK
    · intro n reg hreg
      rw [hById] at hreg
      rw [hMax]
      exact h.id_le_maxId hreg
    · intro s v e he
      rw [entryOf_applyTopicRecord h.wellFormed] at he
      obtain ⟨e₀, he₀, _⟩ := entryStep_of_no_value hr he
      rw [nextVersions_applyTopicRecord]
      exact counted_raise (.inl (h.entry_counted he₀))

theorem replay_consistent (h : Consistent F st) (log : List TopicRecord) :
    Consistent F (replay F st log) :=
  replay_induction (P := Consistent F) (fun _ r h => applyTopicRecord_consistent h r) h log

/-! ## Contents and ids come from the log -/

theorem byId_replay {compatibility mode : String} {log : List TopicRecord} {n : SchemaId}
    {reg : RegisteredSchema}
    (h : (replay F (StoreState.withDefaults compatibility mode) log).byId[n]? = some reg) :
    ∃ r ∈ log, ∃ value, schemaValue? r = some value ∧ value.id = n ∧ contentOf value = reg := by
  induction log using List.reverseRecOn with
  | nil => simp [StoreState.withDefaults] at h
  | append_singleton log r ih =>
    rw [replay_append, replay_cons, replay_nil, byId_applyTopicRecord] at h
    cases hr : schemaValue? r with
    | none =>
      simp only [hr] at h
      obtain ⟨r', hr', hrest⟩ := ih h
      exact ⟨r', List.mem_append_left _ hr', hrest⟩
    | some value =>
      simp only [hr] at h
      -- The last record that carries the id is the one that counts.
      split at h
      · rename_i hn
        exact ⟨r, by simp, value, hr, hn.symm, by simpa using h⟩
      · obtain ⟨r', hr', hrest⟩ := ih h
        exact ⟨r', List.mem_append_left _ hr', hrest⟩

/-- The counter of a replay is at least every id in the log. -/
theorem id_le_maxId_replay {log : List TopicRecord} {r : TopicRecord} (hr : r ∈ log)
    {value : SchemaValue} (hv : schemaValue? r = some value) :
    value.id ≤ (replay F st log).maxId := by
  induction log using List.reverseRecOn with
  | nil => simp at hr
  | append_singleton log x ih =>
    rw [replay_append, replay_cons, replay_nil]
    rcases List.mem_append.mp hr with hr | hr
    · refine (ih hr).trans ?_
      rw [maxId_applyTopicRecord]
      cases schemaValue? x with
      | none => exact le_refl _
      | some value => exact le_max_left _ _
    · obtain rfl := List.mem_singleton.mp hr
      rw [maxId_applyTopicRecord]
      simp only [hv]
      exact le_max_right _ _

end KrabkaRegistry.Store
