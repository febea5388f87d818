import KrabkaRegistry.Kafkastore.Effects

/-!
# The Representation of the Store and Its Read Views

Whatever records are folded into a fresh store, its maps fit together (`Consistent`), and each
read of `store/mod.rs`, though it filters the maps in its own way, shows the same set of
`(subject, version, id)` triples.

## Main results

- `ViewsAgree`: every read view is a view of `Qualifies`
- `replayed_store_represents`: the invariant and the agreement of the views, for all records
-/

namespace KrabkaRegistry.Guarantees

open KrabkaRegistry.Format (Formats)
open KrabkaRegistry.Kafkastore
open KrabkaRegistry.Store

variable {F : Formats} {st : StoreState}

/-! ## What the reads should show -/

/-- The triples that a read sees: all of them, or those of live versions. -/
def Qualifies (st : StoreState) (includeDeleted : Bool) (s : String) (v : SchemaVersion)
    (n : SchemaId) : Prop :=
  ∃ e ∈ entries st s, e.version = v ∧ e.id = n ∧ (includeDeleted || !e.deleted) = true

/-- The content that is stored under an id. -/
def ContentOf (st : StoreState) (n : SchemaId) (ty : SchemaType) (schema : String)
    (references : List SchemaReference) (messageType : Option String) : Prop :=
  ∃ extra, st.byId[n]? = some ⟨ty, schema, references, messageType, extra⟩

/-- The order of `GET /schemas`. -/
def ListedBefore (x y : ListedSchema) : Prop :=
  x.subject < y.subject ∨ (x.subject = y.subject ∧ x.version < y.version)

/-- Every read view shows the qualifying triples, with the content of their ids. -/
structure ViewsAgree (st : StoreState) (d : Bool) : Prop where
  subjects : ∀ s, s ∈ st.subjectNames d ↔ ∃ v n, Qualifies st d s v n
  versions_none : ∀ s, st.versions s d = none ↔ ∀ v n, ¬ Qualifies st d s v n
  versions_some : ∀ s vs, st.versions s d = some vs →
    vs.Pairwise (· < ·) ∧ ∀ v, v ∈ vs ↔ ∃ n, Qualifies st d s v n
  version : ∀ s v x, st.version s (some v) d = some x ↔
    x.version = v ∧ Qualifies st d s v x.id ∧
      st.byId[x.id]? = some ⟨x.ty, x.schema, x.references, x.messageType, x.extra⟩
  latest : ∀ s x, st.version s none d = some x ↔
    Qualifies st d s x.version x.id ∧ (∀ v n, Qualifies st d s v n → v ≤ x.version) ∧
      st.byId[x.id]? = some ⟨x.ty, x.schema, x.references, x.messageType, x.extra⟩
  schemaById : ∀ n ty schema references messageType,
    st.schemaById n d = some (ty, schema, references, messageType) ↔
      (∃ s v, Qualifies st d s v n) ∧ ContentOf st n ty schema references messageType
  idVersions : ∀ n, (st.schemaIdSubjectVersions n d).Nodup ∧
    ∀ s v, (s, v) ∈ st.schemaIdSubjectVersions n d ↔ Qualifies st d s v n
  all : (st.allSchemas d).Pairwise ListedBefore ∧
    ∀ x, x ∈ st.allSchemas d ↔ Qualifies st d x.subject x.version x.id ∧
      ContentOf st x.id x.ty x.schema x.references x.messageType

/-- The representation invariant of a store, and what its reads show. -/
structure Represents (st : StoreState) : Prop where
  increasing : ∀ (s : String) (l : List VersionEntry), st.subjects[s]? = some l →
    l ≠ [] ∧ l.Pairwise fun a b => a.version < b.version
  stored : ∀ s, ∀ e ∈ entries st s, ∃ reg, st.byId[e.id]? = some reg
  id_le_maxId : ∀ s, ∀ e ∈ entries st s, e.id ≤ st.maxId
  stored_le_maxId : ∀ n reg, st.byId[n]? = some reg → n ≤ st.maxId
  lt_nextVersion : ∀ s, ∀ e ∈ entries st s, e.version < i32Max → e.version < st.nextVersion s
  inverse : ∀ (K : String) (n : SchemaId),
    st.byCanonical[K]? = some n ↔ st.canonicalById[n]? = some K
  views : ∀ d, ViewsAgree st d

/-! ## The triples of a well-formed store -/

/-- The subjects listed are those of the map. -/
private theorem mem_toList_subjects {s : String} {l : List VersionEntry} :
    (s, l) ∈ st.subjects.toList ↔ st.subjects[s]? = some l :=
  Std.ExtTreeMap.mem_toList_iff_getElem?_eq_some

/-- Something about the listed entries is something about the entries of some subject. -/
private theorem exists_mem_toList {P : String → VersionEntry → Prop} :
    (∃ p ∈ st.subjects.toList, ∃ e ∈ p.2, P p.1 e) ↔ ∃ s, ∃ e ∈ entries st s, P s e := by
  constructor
  · rintro ⟨⟨s, l⟩, hp, e, he, hP⟩
    have hs := mem_toList_subjects.mp hp
    exact ⟨s, e, by simpa [entries, hs] using he, hP⟩
  · rintro ⟨s, e, he, hP⟩
    unfold entries at he
    cases hs : st.subjects[s]? with
    | none => simp [hs] at he
    | some l => exact ⟨(s, l), mem_toList_subjects.mpr hs, e, by simpa [hs] using he, hP⟩

/-- With increasing versions an entry is the binding of its version. -/
theorem mem_entries_iff (hwf : WellFormed st) {s : String} {v : SchemaVersion} {e : VersionEntry} :
    entryOf st s v = some e ↔ e ∈ entries st s ∧ e.version = v := by
  constructor
  · intro h
    exact findVersion_some h
  · rintro ⟨he, rfl⟩
    exact (hwf.increasing s).findVersion_eq he

/-! ## Listings of the whole store -/

section Rows

variable {β : Type} {f : String → VersionEntry → Option β}

/-- The rows that a read collects, subject by subject and version by version. -/
private def rows (st : StoreState) (f : String → VersionEntry → Option β) : List β :=
  st.subjects.toList.flatMap fun p => p.2.filterMap (f p.1)

/-- A row of the walk over all subjects comes from an entry of one of them. -/
private theorem mem_rows {b : β} :
    b ∈ rows st f ↔ ∃ s, ∃ e ∈ entries st s, f s e = some b := by
  unfold rows
  simp only [List.mem_flatMap, List.mem_filterMap]
  exact exists_mem_toList (P := fun s e => f s e = some b)

/-- Rows stand in the order of their subjects and versions. -/
private theorem pairwise_rows (hwf : WellFormed st) {R : β → β → Prop}
    (hR : ∀ {s s' e e' b b'}, f s e = some b → f s' e' = some b' →
      (s < s' ∨ (s = s' ∧ e.version < e'.version)) → R b b') : (rows st f).Pairwise R := by
  unfold rows
  rw [List.pairwise_flatMap]
  constructor
  · rintro ⟨s, l⟩ hp
    have hl := (hwf s l (mem_toList_subjects.mp hp)).2
    rw [List.pairwise_filterMap]
    refine List.Pairwise.imp ?_ hl
    intro e e' hlt b hb b' hb'
    exact hR hb hb' (.inr ⟨rfl, hlt⟩)
  · refine List.Pairwise.imp ?_ Std.ExtTreeMap.ordered_keys_toList
    intro p p' hlt b hb b' hb'
    obtain ⟨e, _, he⟩ := List.mem_filterMap.mp hb
    obtain ⟨e', _, he'⟩ := List.mem_filterMap.mp hb'
    exact hR he he' (.inl (compare_lt_iff_lt.mp hlt))

end Rows

/-! ## The views one by one -/

section Views

variable {d : Bool}

/-- A subject is listed when one of its versions qualifies. -/
private theorem subjectNames_iff {s : String} :
    s ∈ st.subjectNames d ↔ ∃ v n, Qualifies st d s v n := by
  unfold StoreState.subjectNames Qualifies
  simp only [List.mem_map, List.mem_filter, List.any_eq_true]
  constructor
  · rintro ⟨⟨s', l⟩, ⟨hp, e, he, hq⟩, rfl⟩
    have hs := mem_toList_subjects.mp hp
    exact ⟨e.version, e.id, e, by simpa [entries, hs] using he, rfl, rfl, hq⟩
  · rintro ⟨_, _, e, he, _, _, hq⟩
    unfold entries at he
    cases hs : st.subjects[s]? with
    | none => simp [hs] at he
    | some l => exact ⟨(s, l), ⟨mem_toList_subjects.mpr hs, e, by simpa [hs] using he, hq⟩, rfl⟩

/-- The versions of a subject are those of its entries, or no answer when there are none. -/
theorem versions_eq (s : String) :
    st.versions s d =
      let out := ((entries st s).filter fun v => d || !v.deleted).map (·.version)
      if out.isEmpty then none else some out := by
  unfold StoreState.versions entries
  cases st.subjects[s]? with
  | none => rfl
  | some l => rfl

/-- A version is listed when it qualifies. -/
private theorem mem_versions {s : String} {v : SchemaVersion} :
    v ∈ ((entries st s).filter fun e => d || !e.deleted).map (·.version) ↔
      ∃ n, Qualifies st d s v n := by
  simp only [List.mem_map, List.mem_filter, Qualifies]
  constructor
  · rintro ⟨e, ⟨he, hq⟩, hv⟩
    exact ⟨e.id, e, he, hv, rfl, hq⟩
  · rintro ⟨_, e, he, hv, _, hq⟩
    exact ⟨e, ⟨he, hq⟩, hv⟩

/-- There is no answer exactly when no version qualifies. -/
private theorem versions_none_iff {s : String} :
    st.versions s d = none ↔ ∀ v n, ¬ Qualifies st d s v n := by
  rw [versions_eq]
  simp only [ite_eq_left_iff, reduceCtorEq, imp_false, not_not, List.isEmpty_iff]
  rw [List.eq_nil_iff_forall_not_mem]
  simp only [mem_versions, not_exists]

/-- The versions are listed in increasing order, each once. -/
private theorem versions_sorted (hwf : WellFormed st) {s : String} {vs : List SchemaVersion}
    (h : st.versions s d = some vs) :
    vs.Pairwise (· < ·) ∧ ∀ v, v ∈ vs ↔ ∃ n, Qualifies st d s v n := by
  rw [versions_some h]
  refine ⟨?_, fun v => mem_versions⟩
  rw [List.pairwise_map]
  exact (hwf.increasing s).filter _

/-- A version is answered with its content exactly when it qualifies and its id has content. -/
private theorem version_iff (hwf : WellFormed st) {s : String} {v : SchemaVersion}
    {x : VersionedSchema} : st.version s (some v) d = some x ↔
      x.version = v ∧ Qualifies st d s v x.id ∧
        st.byId[x.id]? = some ⟨x.ty, x.schema, x.references, x.messageType, x.extra⟩ := by
  rw [version_some hwf, Option.bind_eq_some_iff]
  simp only [Option.filter_eq_some_iff, mem_entries_iff hwf, Option.map_eq_some_iff]
  constructor
  · rintro ⟨e, ⟨⟨he, hv⟩, hq⟩, reg, hreg, rfl⟩
    exact ⟨hv, ⟨e, he, hv, rfl, hq⟩, hreg⟩
  · rintro ⟨rfl, ⟨e, he, hv, hid, hq⟩, hreg⟩
    refine ⟨e, ⟨⟨he, hv⟩, hq⟩, _, by rw [hid]; exact hreg, ?_⟩
    rw [hid, hv]

/-- In a list that increases, the last match is the greatest one. -/
private theorem find?_reverse_iff {l : List VersionEntry} (hl : Increasing l)
    {q : VersionEntry → Bool} {e : VersionEntry} :
    l.reverse.find? q = some e ↔
      e ∈ l ∧ q e = true ∧ ∀ e' ∈ l, q e' = true → e'.version ≤ e.version := by
  have hlast : ∀ {x}, l.reverse.find? q = some x →
      x ∈ l ∧ q x = true ∧ ∀ e' ∈ l, q e' = true → e'.version ≤ x.version := by
    intro x hx
    obtain ⟨hq, before, after, hsplit, hnone⟩ := List.find?_eq_some_iff_append.mp hx
    have hdec : l.reverse.Pairwise fun a b => b.version < a.version := List.pairwise_reverse.mpr hl
    rw [hsplit, List.pairwise_append, List.pairwise_cons] at hdec
    have hmem : ∀ y, y ∈ l ↔ y ∈ before ++ x :: after := by
      intro y
      rw [← hsplit, List.mem_reverse]
    refine ⟨(hmem x).mpr (by simp), hq, fun e' he' hq' => ?_⟩
    rcases List.mem_append.mp ((hmem e').mp he') with hb | ha
    · have hfalse := hnone e' hb
      simp [hq'] at hfalse
    · rcases List.mem_cons.mp ha with rfl | ha
      · exact le_refl _
      · exact (hdec.2.1.1 e' ha).le
  constructor
  · exact hlast
  · rintro ⟨he, hq, hmax⟩
    -- Some entry is found, and the greatest one is the only greatest one.
    cases hfind : l.reverse.find? q with
    | none => exact absurd hq (by simpa using List.find?_eq_none.mp hfind e (List.mem_reverse.mpr he))
    | some x =>
      obtain ⟨hx, hqx, hxmax⟩ := hlast hfind
      have hv : x.version = e.version := le_antisymm (hmax x hx hqx) (hxmax e he hq)
      have h := hl.findVersion_eq hx
      rw [hv, hl.findVersion_eq he] at h
      exact h.symm

/-- The latest version is the last entry that qualifies. -/
theorem version_latest_eq (s : String) :
    st.version s none d =
      ((entries st s).reverse.find? fun e => d || !e.deleted).bind fun e =>
        (st.byId[e.id]?).map fun reg =>
          ⟨e.id, e.version, reg.ty, reg.schema, reg.references, reg.messageType, reg.extra⟩ := by
  unfold StoreState.version entries
  cases st.subjects[s]? with
  | none => rfl
  | some l =>
    simp only [Option.getD_some]
    cases l.reverse.find? fun e => d || !e.deleted <;> rfl

/-- It is the greatest version that does, the entries being in order. -/
private theorem latest_iff (hwf : WellFormed st) {s : String} {x : VersionedSchema} :
    st.version s none d = some x ↔
      Qualifies st d s x.version x.id ∧ (∀ v n, Qualifies st d s v n → v ≤ x.version) ∧
        st.byId[x.id]? = some ⟨x.ty, x.schema, x.references, x.messageType, x.extra⟩ := by
  rw [version_latest_eq, Option.bind_eq_some_iff]
  simp only [find?_reverse_iff (hwf.increasing s), Option.map_eq_some_iff]
  constructor
  · rintro ⟨e, ⟨he, hq, hmax⟩, reg, hreg, rfl⟩
    refine ⟨⟨e, he, rfl, rfl, hq⟩, ?_, hreg⟩
    rintro v n ⟨e', he', rfl, _, hq'⟩
    exact hmax e' he' hq'
  · rintro ⟨⟨e, he, hv, hid, hq⟩, hmax, hreg⟩
    refine ⟨e, ⟨he, hq, fun e' he' hq' => ?_⟩, _, by rw [hid]; exact hreg, by rw [hid, hv]⟩
    rw [hv]
    exact hmax _ _ ⟨e', he', rfl, rfl, hq'⟩

/-- A schema is answered by id when some version that qualifies has that id. -/
private theorem schemaById_iff {n : SchemaId} {ty : SchemaType} {schema : String}
    {references : List SchemaReference} {messageType : Option String} :
    st.schemaById n d = some (ty, schema, references, messageType) ↔
      (∃ s v, Qualifies st d s v n) ∧ ContentOf st n ty schema references messageType := by
  -- The source looks for any version of the id over all subjects.
  have hany : (st.subjects.toList.any fun p => p.2.any fun v => v.id = n && (d || !v.deleted)) = true ↔
      ∃ s v, Qualifies st d s v n := by
    simp only [List.any_eq_true]
    rw [exists_mem_toList (P := fun _ e => (decide (e.id = n) && (d || !e.deleted)) = true)]
    constructor
    · rintro ⟨s, e, he, hq⟩
      obtain ⟨hid, hq⟩ := Bool.and_eq_true_iff.mp hq
      exact ⟨s, e.version, e, he, rfl, by simpa using hid, hq⟩
    · rintro ⟨s, _, e, he, _, hid, hq⟩
      exact ⟨s, e, he, by simp [hid, hq]⟩
  unfold StoreState.schemaById ContentOf
  cases hreg : st.byId[n]? with
  | none => simp
  | some reg =>
    obtain ⟨ty', schema', references', messageType', extra'⟩ := reg
    simp only
    constructor
    · intro h
      split at h
      · rename_i hex
        obtain ⟨rfl, rfl, rfl, rfl⟩ : ty' = ty ∧ schema' = schema ∧ references' = references ∧
            messageType' = messageType := by simpa using h
        exact ⟨hany.mp hex, extra', rfl⟩
      · cases h
    · rintro ⟨hex, extra, heq⟩
      obtain ⟨rfl, rfl, rfl, rfl, rfl⟩ : ty' = ty ∧ schema' = schema ∧ references' = references ∧
          messageType' = messageType ∧ extra' = extra := by simpa using heq
      rw [if_pos (hany.mpr hex)]

/-- The versions of an id are listed once each, and they are those that qualify. -/
private theorem idVersions_iff (hwf : WellFormed st) {n : SchemaId} :
    (st.schemaIdSubjectVersions n d).Nodup ∧
      ∀ s v, (s, v) ∈ st.schemaIdSubjectVersions n d ↔ Qualifies st d s v n := by
  have hrows : st.schemaIdSubjectVersions n d = rows st fun s e =>
      if e.id = n && (d || !e.deleted) then some (s, e.version) else none := rfl
  rw [hrows]
  constructor
  -- Two rows differ in their subject or in their version.
  · refine pairwise_rows hwf ?_
    intro s s' e e' b b' hb hb' hlt heq
    split at hb
    · split at hb'
      · obtain rfl : (s, e.version) = b := Option.some.inj hb
        obtain rfl : (s', e'.version) = b' := Option.some.inj hb'
        obtain ⟨rfl, hv⟩ : s = s' ∧ e.version = e'.version := by simpa using heq
        rcases hlt with hlt | ⟨_, hlt⟩
        · exact lt_irrefl s hlt
        · exact hlt.ne hv
      · cases hb'
    · cases hb
  · intro s v
    rw [mem_rows]
    constructor
    · rintro ⟨s', e, he, hb⟩
      split at hb
      · rename_i hq
        obtain ⟨rfl, rfl⟩ : s' = s ∧ e.version = v := by simpa using hb
        obtain ⟨hid, hq⟩ := Bool.and_eq_true_iff.mp hq
        exact ⟨e, he, rfl, by simpa using hid, hq⟩
      · cases hb
    · rintro ⟨e, he, rfl, rfl, hq⟩
      exact ⟨s, e, he, by simp [hq]⟩

/-- One row of `GET /schemas`, if the entry qualifies. -/
private def listedRow (st : StoreState) (d : Bool) (s : String) (e : VersionEntry) :
    Option ListedSchema :=
  if d || !e.deleted then
    (st.byId[e.id]?).map fun reg =>
      ⟨s, e.version, e.id, reg.ty, reg.schema, reg.references, reg.messageType⟩
  else none

/-- A row of the list of schemas is an entry that qualifies, with the content of its id. -/
private theorem listedRow_iff {s : String} {e : VersionEntry} {x : ListedSchema} :
    listedRow st d s e = some x ↔
      (d || !e.deleted) = true ∧ x.subject = s ∧ x.version = e.version ∧ x.id = e.id ∧
        ContentOf st x.id x.ty x.schema x.references x.messageType := by
  unfold listedRow ContentOf
  constructor
  · intro h
    split at h
    · rename_i hq
      obtain ⟨reg, hreg, rfl⟩ := Option.map_eq_some_iff.mp h
      exact ⟨hq, rfl, rfl, rfl, reg.extra, hreg⟩
    · cases h
  · rintro ⟨hq, rfl, hv, hid, extra, hreg⟩
    rw [if_pos hq, ← hid, hreg, ← hv]
    rfl

/-- The list of schemas has those rows, in the order of subjects and versions. -/
private theorem allSchemas_iff (hwf : WellFormed st) :
    (st.allSchemas d).Pairwise ListedBefore ∧
      ∀ x, x ∈ st.allSchemas d ↔ Qualifies st d x.subject x.version x.id ∧
        ContentOf st x.id x.ty x.schema x.references x.messageType := by
  -- The rows are collected in order, so that sorting them changes nothing.
  have hsorted : (rows st (listedRow st d)).Pairwise ListedBefore := by
    refine pairwise_rows hwf ?_
    intro s s' e e' x x' hx hx' hlt
    obtain ⟨_, rfl, hv, _⟩ := listedRow_iff.mp hx
    obtain ⟨_, rfl, hv', _⟩ := listedRow_iff.mp hx'
    rw [ListedBefore, hv, hv']
    exact hlt
  have hall : st.allSchemas d = rows st (listedRow st d) := by
    refine List.Pairwise.insertionSort_eq (hsorted.imp ?_)
    rintro x y (hlt | ⟨heq, hlt⟩)
    · exact .inl hlt
    · exact .inr ⟨heq, hlt.le⟩
  rw [hall]
  refine ⟨hsorted, fun x => ?_⟩
  rw [mem_rows]
  constructor
  · rintro ⟨s, e, he, hx⟩
    obtain ⟨hq, rfl, hv, hid, hreg⟩ := listedRow_iff.mp hx
    exact ⟨⟨e, he, hv.symm, hid.symm, hq⟩, hreg⟩
  · rintro ⟨⟨e, he, hv, hid, hq⟩, hreg⟩
    exact ⟨x.subject, e, he, listedRow_iff.mpr ⟨hq, rfl, hv.symm, hid.symm, hreg⟩⟩

end Views

/-! ## Every replayed store -/

/-- A decoded record is one that the topic can hold, or it changes nothing. -/
private theorem applyRecord_consistent (h : Consistent F st) (r : SchemaRecord) :
    Consistent F (applyRecord F st r) := by
  cases r with
  | schema k v => exact applyTopicRecord_consistent h (.schema k (some v))
  | config s level => exact applyTopicRecord_consistent h (.config s level)
  | mode s m => exact applyTopicRecord_consistent h (.mode s m)
  | deleteSubject s v => exact applyTopicRecord_consistent h (.deleteSubject s (some v))
  | versionHighWater s n => exact applyTopicRecord_consistent h (.versionHighWater s (some n))
  | tombstone k => exact applyTopicRecord_consistent h (.schema k none)
  | noop | unknown _ | undecodable _ => exact h

/-- Every sequence of records keeps the state consistent, by induction. -/
private theorem foldl_consistent (h : Consistent F st) (records : List SchemaRecord) :
    Consistent F (records.foldl (applyRecord F) st) := by
  induction records generalizing st with
  | nil => exact h
  | cons r records ih => exact ih (applyRecord_consistent h r)

/-- A consistent state represents what the views answer. -/
theorem represents_of_consistent (h : Consistent F st) : Represents st where
  increasing s l hl := h.wellFormed s l hl
  stored s e he := h.entry_stored ((mem_entries_iff h.wellFormed).mpr ⟨he, rfl⟩)
  id_le_maxId s e he := by
    obtain ⟨reg, hreg⟩ := h.entry_stored ((mem_entries_iff h.wellFormed).mpr ⟨he, rfl⟩)
    exact h.id_le_maxId hreg
  stored_le_maxId n reg hreg := h.id_le_maxId hreg
  lt_nextVersion s e he hlt := by
    obtain ⟨n, hn, hle⟩ := h.entry_counted ((mem_entries_iff h.wellFormed).mpr ⟨he, rfl⟩)
    rw [StoreState.nextVersion, hn, Option.getD_some]
    exact lt_of_lt_of_le (lt_min (Int.lt_succ e.version) hlt) hle
  inverse := h.inverse
  views d :=
    { subjects := fun _ => subjectNames_iff
      versions_none := fun _ => versions_none_iff
      versions_some := fun _ _ hvs => versions_sorted h.wellFormed hvs
      version := fun _ _ _ => version_iff h.wellFormed
      latest := fun _ _ => latest_iff h.wellFormed
      schemaById := fun _ _ _ _ _ => schemaById_iff
      idVersions := fun _ => idVersions_iff h.wellFormed
      all := allSchemas_iff h.wellFormed }

/-- Whatever records are applied to a fresh store, its maps fit together and all of its reads
show the same versions. -/
theorem replayed_store_represents (F : Formats) (compatibility mode : String)
    (records : List SchemaRecord) :
    Represents (records.foldl (applyRecord F) (StoreState.withDefaults compatibility mode)) :=
  represents_of_consistent (foldl_consistent (withDefaults_consistent F compatibility mode) records)

end KrabkaRegistry.Guarantees
