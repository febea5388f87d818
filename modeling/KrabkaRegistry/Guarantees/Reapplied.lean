import KrabkaRegistry.Store.Closure

/-!
# Replaying a Record Twice

`apply_schema` takes the key of the id out of the index and puts it back, and binds the version
after the references were resolved.  Nothing else of what it reads is what it writes, so that a
second application undoes and redoes the first one.

- `applySchema_twice`: a `SCHEMA` value whose references do not lead to its own version may be
  applied twice.
-/

namespace KrabkaRegistry.Guarantees

open KrabkaRegistry.Format (Formats)
open KrabkaRegistry.Kafkastore (SchemaKey SchemaValue)
open KrabkaRegistry.Library.DepthFirst
open KrabkaRegistry.Store
open StoreState (contentOf setEntry)

variable {F : Formats} {st : StoreState} {k : SchemaKey} {value : SchemaValue}

/-! ## The index -/

/-- An id that was taken out of the index has no key. -/
theorem canonicalById_unindex (st : StoreState) (id : SchemaId) :
    (st.unindex id).canonicalById[id]? = none := by
  unfold StoreState.unindex
  cases h : st.canonicalById[id]? with
  | none => exact h
  | some oldKey => simp

/-- An id without a key has nothing to be taken out. -/
theorem unindex_of_none {id : SchemaId} (h : st.canonicalById[id]? = none) :
    st.unindex id = st := by
  unfold StoreState.unindex
  rw [h]

/-- Taking an id out of the index and putting it back under its key changes nothing. -/
theorem index_unindex_index (st : StoreState) (K : String) (id : SchemaId) :
    ((st.index K id).unindex id).index K id = st.index K id := by
  have hkey : (st.index K id).canonicalById[id]? = some K := by simp [StoreState.index]
  have hid : (st.index K id).byCanonical[K]? = some id := by simp [StoreState.index]
  have hout : (st.index K id).unindex id = { st.index K id with
      canonicalById := (st.index K id).canonicalById.erase id
      byCanonical := (st.index K id).byCanonical.erase K } := by
    unfold StoreState.unindex
    rw [hkey]
    simp only [hid, if_true]
  -- No other id has the key now, so none loses it.
  have hback : ((st.index K id).unindex id).index K id = { st.index K id with
      canonicalById := ((st.index K id).canonicalById.erase id).insert id K
      byCanonical := ((st.index K id).byCanonical.erase K).insert K id } := by
    rw [hout, StoreState.index]
    simp
  have hcanonical : ((st.index K id).canonicalById.erase id).insert id K =
      (st.index K id).canonicalById := by
    refine Std.ExtTreeMap.ext_getElem? fun n => ?_
    rw [BTreeMap.getElem?_insert, BTreeMap.getElem?_erase]
    by_cases hn : n = id
    · rw [if_pos hn, hn, hkey]
    · rw [if_neg hn, if_neg hn]
  have hkeys : ((st.index K id).byCanonical.erase K).insert K id =
      (st.index K id).byCanonical := by
    refine Std.ExtTreeMap.ext_getElem? fun K' => ?_
    rw [BTreeMap.getElem?_insert, BTreeMap.getElem?_erase]
    by_cases hK : K' = K
    · rw [if_pos hK, hK, hid]
    · rw [if_neg hK, if_neg hK]
  rw [hback, hcanonical, hkeys]

/-- Two states with the same index. -/
def SameIndex (st st' : StoreState) : Prop :=
  st.byCanonical = st'.byCanonical ∧ st.canonicalById = st'.canonicalById

theorem unindex_sameIndex {st st' : StoreState} (h : SameIndex st st') (id : SchemaId) :
    SameIndex (st.unindex id) (st'.unindex id) := by
  obtain ⟨hkeys, hids⟩ := h
  unfold StoreState.unindex
  rw [hids]
  cases st'.canonicalById[id]? with
  | none => exact ⟨hkeys, hids⟩
  | some oldKey => simp [SameIndex, hkeys]

theorem index_sameIndex {st st' : StoreState} (h : SameIndex st st') (K : String)
    (id : SchemaId) : SameIndex (st.index K id) (st'.index K id) := by
  obtain ⟨hkeys, hids⟩ := h
  simp [SameIndex, StoreState.index, hkeys, hids]

/-! ## The references -/

/-- Once the content of the id is written, the references of the value still lead nowhere else:
wherever the id is bound, they start again. -/
theorem reach_prepareSchema {u : String × SchemaVersion}
    (h : Reach (graph (st.prepareSchema value)) value.references u) :
    Reach (graph st) value.references u := by
  induction h with
  | direct he => exact .direct he
  | @step v es e hv hn he ih =>
    simp only [graph, Option.map_eq_some_iff] at hn
    obtain ⟨content, hcontent, rfl⟩ := hn
    rw [contentAt_prepareSchema] at hcontent
    split_ifs at hcontent with hid
    · cases hcontent
      exact .direct he
    · exact .step ih (by simp [graph, hcontent]) he

/-- The second application finds every content the first one found, but that of its version. -/
theorem contentAt_reprepared (hwf : WellFormed st) {u : String × SchemaVersion}
    (hu : u ≠ (value.subject, value.version)) :
    contentAt ((st.applySchema F k value).prepareSchema value) u =
      contentAt (st.prepareSchema value) u := by
  have hentry : entryOf (st.applySchema F k value) u.1 u.2 = entryOf st u.1 u.2 := by
    rw [entryOf_applySchema hwf, if_neg]
    rintro ⟨hs, hv⟩
    exact hu (Prod.ext hs.symm hv.symm)
  rw [contentAt_prepareSchema, contentAt_prepareSchema, hentry]
  by_cases hid : (entryOf st u.1 u.2).map (·.id) = some value.id
  · rw [if_pos hid, if_pos hid]
  · rw [if_neg hid, if_neg hid]
    obtain ⟨s, v⟩ := u
    rw [contentAt_eq, contentAt_eq, hentry]
    cases he : entryOf st s v with
    | none => rfl
    | some e =>
      have hne : e.id ≠ value.id := by simpa [he] using hid
      simp [applySchema_byId, BTreeMap.getElem?_insert, hne]

/-- Both applications compute the same key. -/
theorem placeKey_again (hwf : WellFormed st)
    (hout : ¬ Reach (graph st) value.references (value.subject, value.version)) :
    placeKey F (st.applySchema F k value) value = placeKey F st value := by
  have hclosure : ((st.applySchema F k value).prepareSchema value).resolveClosure
      value.references = (st.prepareSchema value).resolveClosure value.references := by
    apply resolveClosure_congr
    intro u hu
    apply contentAt_reprepared hwf
    rintro rfl
    exact hout (reach_prepareSchema hu)
  simp only [placeKey, StoreState.indexKey, StoreState.identityKey, hclosure]

/-! ## Both applications -/

theorem subjects_again (hwf : WellFormed st) :
    ((st.applySchema F k value).applySchema F k value).subjects =
      (st.applySchema F k value).subjects := by
  have hwf' : WellFormed (st.applySchema F k value) := applySchema_wellFormed hwf k value
  apply subjects_ext (applySchema_wellFormed hwf' k value) hwf'
  intro s v
  rw [entryOf_applySchema hwf']
  split_ifs with h
  · rw [entryOf_applySchema hwf, if_pos h]
  · rfl

theorem nextVersions_again :
    ((st.applySchema F k value).applySchema F k value).nextVersions =
      (st.applySchema F k value).nextVersions := by
  refine Std.ExtTreeMap.ext_getElem? fun s => ?_
  simp only [applySchema_nextVersions, StoreState.observeVersion,
    nextVersions_observeNextVersion]
  cases st.nextVersions[s]? <;> split_ifs <;> simp [raise]

theorem index_again (hwf : WellFormed st)
    (hout : ¬ Reach (graph st) value.references (value.subject, value.version)) :
    ((st.applySchema F k value).applySchema F k value).byCanonical =
        (st.applySchema F k value).byCanonical ∧
      ((st.applySchema F k value).applySchema F k value).canonicalById =
        (st.applySchema F k value).canonicalById := by
  have hkey : ((st.applySchema F k value).prepareSchema value).indexKey F value =
      (st.prepareSchema value).indexKey F value := placeKey_again hwf hout
  have hnone : (st.prepareSchema value).canonicalById[value.id]? = none := by
    rw [prepareSchema_eq]
    exact canonicalById_unindex st value.id
  -- What the first application made of the index, and the second one starts from.
  let first := (st.prepareSchema value).indexValue F value
  have hprepared : SameIndex ((st.applySchema F k value).prepareSchema value)
      (first.unindex value.id) := by
    have hfirst : SameIndex (st.applySchema F k value) first := ⟨rfl, rfl⟩
    rw [prepareSchema_eq]
    exact unindex_sameIndex hfirst value.id
  have hagain : SameIndex
      (((st.applySchema F k value).prepareSchema value).indexValue F value) first := by
    cases hK : (st.prepareSchema value).indexKey F value with
    | none =>
      have hfirst : first = st.prepareSchema value := by simp only [first, StoreState.indexValue, hK]
      rw [StoreState.indexValue, hkey, hK]
      rw [hfirst, unindex_of_none hnone] at hprepared
      rw [hfirst]
      exact hprepared
    | some K =>
      have hfirst : first = (st.prepareSchema value).index K value.id := by
        simp only [first, StoreState.indexValue, hK]
      rw [StoreState.indexValue, hkey, hK]
      have hindexed := index_sameIndex hprepared K value.id
      rw [hfirst, index_unindex_index] at hindexed
      rw [hfirst]
      exact hindexed
  exact hagain

/-- A `SCHEMA` value whose references do not lead to its own version may be applied twice. -/
theorem applySchema_twice (hwf : WellFormed st)
    (hout : ¬ Reach (graph st) value.references (value.subject, value.version)) :
    (st.applySchema F k value).applySchema F k value = st.applySchema F k value := by
  obtain ⟨hkeys, hids⟩ := index_again (F := F) (k := k) hwf hout
  have hmax : max (st.applySchema F k value).maxId value.id = (st.applySchema F k value).maxId := by
    rw [applySchema_maxId, max_assoc, max_self]
  have hbyId : (st.applySchema F k value).byId.insert value.id (contentOf value) =
      (st.applySchema F k value).byId := by
    refine Std.ExtTreeMap.ext_getElem? fun n => ?_
    rw [applySchema_byId, BTreeMap.getElem?_insert, BTreeMap.getElem?_insert]
    split_ifs with hn
    · rfl
    · rfl
  have hnext : ((st.applySchema F k value).applySchema F k value).nextVersions =
      (st.applySchema F k value).nextVersions := nextVersions_again
  have hsubjects : ((st.applySchema F k value).applySchema F k value).subjects =
      (st.applySchema F k value).subjects := subjects_again hwf
  rw [applySchema_nextVersions] at hnext
  rw [applySchema_subjects] at hsubjects
  rw [applySchema_eq F (st.applySchema F k value), hmax, hbyId, hnext, hsubjects, hkeys, hids]

/-- A record, and one that refers to it. -/
def baseValue : SchemaValue := ⟨"base", 1, 1, none, none, [], "\"string\"", false, ∅⟩

def userValue : SchemaValue :=
  ⟨"user", 1, 2, none, none, [⟨"base", "base", 1⟩], "\"string\"", false, ∅⟩

/-- The state after the first record. -/
def baseState : StoreState :=
  (StoreState.withDefaults "BACKWARD" "READWRITE").applySchema Formats.sample ⟨"base", 1⟩ baseValue

theorem applySchema_twice_user :
    (baseState.applySchema Formats.sample ⟨"user", 1⟩ userValue).applySchema Formats.sample
        ⟨"user", 1⟩ userValue =
      baseState.applySchema Formats.sample ⟨"user", 1⟩ userValue := by
  refine applySchema_twice (applySchema_wellFormed (withDefaults_wellFormed _ _) _ _) ?_
  intro h
  -- The references lead to the first record, which has none.
  have hbase : ("user", (1 : SchemaVersion)) = ("base", 1) := by
    refine h.closed (P := fun u => u = ("base", (1 : SchemaVersion))) ?_ ?_
    · simp [userValue, graph]
    · rintro v es e rfl hn he
      have hcontent : contentAt baseState ("base", 1) = some (contentOf baseValue) := by
        rw [contentAt_eq, baseState, entryOf_applySchema (withDefaults_wellFormed _ _)]
        simp [baseValue, applySchema_byId]
      simp only [graph, hcontent, Option.map_some, Option.some.injEq] at hn
      rw [← hn] at he
      simp [contentOf, baseValue] at he
  simp at hbase

end KrabkaRegistry.Guarantees
