import KrabkaRegistry.Store.State

/-!
# What Replay Does to Each Part of the State

A record changes only a small part of the state, and what it makes of that part does not
depend on the rest, except for the identity index.  For every other part this file gives
the part as a function of the state (a view), the effect of a record on it (a step), and
the theorem that replay computes the view by folding the step.

The entry lists of the subjects stay non-empty and strictly increasing in the version
number; the views of entries rest on that (`WellFormed`).
-/

namespace KrabkaRegistry.Store

open KrabkaRegistry.Format (Formats)
open KrabkaRegistry.Kafkastore (SchemaKey SchemaValue SchemaRecord TopicRecord)
open StoreState (setEntry rebind contentOf)

/-! ## Lists of version entries -/

/-- Strictly increasing version numbers. -/
def Increasing (entries : List VersionEntry) : Prop :=
  entries.Pairwise fun a b => a.version < b.version

/-- The entry of a version in a list of entries. -/
def findVersion (v : SchemaVersion) (entries : List VersionEntry) : Option VersionEntry :=
  entries.find? fun e => e.version = v

@[simp] theorem findVersion_nil (v : SchemaVersion) : findVersion v [] = none := rfl

/-- One unfolding of the search: the head answers or the tail does. -/
theorem findVersion_cons (v : SchemaVersion) (e : VersionEntry) (entries : List VersionEntry) :
    findVersion v (e :: entries) = if e.version = v then some e else findVersion v entries := by
  simp only [findVersion, List.find?_cons]
  by_cases h : e.version = v <;> simp [h]

/-- What the search returns is an entry of the list and carries the version asked for. -/
theorem findVersion_some {v : SchemaVersion} {entries : List VersionEntry} {e : VersionEntry}
    (h : findVersion v entries = some e) : e ∈ entries ∧ e.version = v :=
  ⟨List.mem_of_find?_eq_some h, by simpa using List.find?_some h⟩

/-- The search fails exactly when no entry carries the version. -/
theorem findVersion_none {v : SchemaVersion} {entries : List VersionEntry} :
    findVersion v entries = none ↔ ∀ e ∈ entries, e.version ≠ v := by
  simp [findVersion]

/-- In an increasing list an entry is found under its own version. -/
theorem Increasing.findVersion_eq {entries : List VersionEntry} (h : Increasing entries)
    {e : VersionEntry} (he : e ∈ entries) : findVersion e.version entries = some e := by
  induction entries with
  | nil => simp at he
  | cons x entries ih =>
    obtain ⟨hx, hrest⟩ := List.pairwise_cons.mp h
    rw [findVersion_cons]
    rcases List.mem_cons.mp he with rfl | he
    · simp
    · have hne : x.version ≠ e.version := (hx e he).ne
      simp [hne, ih hrest he]

/-- Increasing lists with the same entry for each version are equal. -/
theorem Increasing.ext {l l' : List VersionEntry} (h : Increasing l) (h' : Increasing l')
    (heq : ∀ v, findVersion v l = findVersion v l') : l = l' := by
  -- Being found is being a member, so the two lists have the same members;
  have hmem : ∀ {a b : List VersionEntry}, Increasing a → (∀ v, findVersion v a = findVersion v b) →
      ∀ e ∈ a, e ∈ b := by
    intro a b ha hab e he
    have hfind := ha.findVersion_eq he
    rw [hab] at hfind
    exact (findVersion_some hfind).1
  -- and being increasing, they have no duplicates and one order.
  have hnodup : ∀ {a : List VersionEntry}, Increasing a → a.Nodup := by
    intro a ha
    exact List.Pairwise.imp (fun hlt heq => by simp [heq] at hlt) ha
  have hpair : l.Pairwise fun a b => a.version < b.version := h
  refine List.Perm.eq_of_pairwise ?_ hpair h' ?_
  · intro a b _ _ hab hba
    exact absurd hab (not_lt_of_gt hba)
  · rw [List.perm_ext_iff_of_nodup (hnodup h) (hnodup h')]
    exact fun e => ⟨hmem h heq e, hmem h' (fun v => (heq v).symm) e⟩

/-! ### Setting an entry -/

/-- Rebinding an entry in place leaves the list of versions, hence its order, untouched. -/
private theorem rebind_version {e : VersionEntry} {entries : List VersionEntry} :
    (rebind e entries).map (·.version) = entries.map (·.version) := by
  induction entries with
  | nil => rfl
  | cons x entries ih =>
    rw [rebind]
    by_cases hx : x.version = e.version
    · simp [hx]
    · simp [hx, ih]

/-- After a rebind the version rebound is found with its new entry and every other version as
before; the version has to be there already, since `rebind` never adds one. -/
private theorem findVersion_rebind {e : VersionEntry} {v : SchemaVersion} :
    ∀ {entries : List VersionEntry}, (∃ x ∈ entries, x.version = e.version) →
      findVersion v (rebind e entries) = if v = e.version then some e else findVersion v entries := by
  intro entries
  induction entries with
  | nil => simp
  | cons x entries ih =>
    intro hex
    rw [rebind]
    -- `rebind` replaces the first entry of the version and stops there.
    by_cases hx : x.version = e.version
    · rw [if_pos hx, findVersion_cons, findVersion_cons, hx]
      by_cases hv : v = e.version
      · simp [hv]
      · simp [hv, Ne.symm hv]
    · have hrest : ∃ y ∈ entries, y.version = e.version := by
        obtain ⟨y, hy, hye⟩ := hex
        rcases List.mem_cons.mp hy with rfl | hy
        · exact absurd hye hx
        · exact ⟨y, hy, hye⟩
      rw [if_neg hx, findVersion_cons, findVersion_cons, ih hrest]
      by_cases hv : v = e.version
      · subst hv
        simp [hx]
      · simp [hv]

/-- `Increasing` speaks of the versions only, so a map that keeps the versions keeps the order. -/
private theorem increasing_iff_map {entries : List VersionEntry} :
    Increasing entries ↔ (entries.map (·.version)).Pairwise (· < ·) := by
  rw [List.pairwise_map]
  rfl

/-- The list that `setEntry` sorts when the version is new. -/
private theorem increasing_insertionSort {e : VersionEntry} {entries : List VersionEntry}
    (h : Increasing entries) (hnew : ∀ x ∈ entries, x.version ≠ e.version) :
    Increasing ((entries ++ [e]).insertionSort fun a b => a.version ≤ b.version) := by
  have hperm := List.perm_insertionSort (fun a b : VersionEntry => a.version ≤ b.version)
    (entries ++ [e])
  have hsorted := List.pairwise_insertionSort (fun a b : VersionEntry => a.version ≤ b.version)
    (entries ++ [e])
  -- The sort gives `≤`; that the version is new makes it strict.
  have hdistinct : (entries ++ [e]).Pairwise fun a b => a.version ≠ b.version := by
    rw [List.pairwise_append]
    refine ⟨List.Pairwise.imp (fun hlt => hlt.ne) h, by simp, ?_⟩
    intro a ha b hb
    rw [List.mem_singleton.mp hb]
    exact hnew a ha
  have hdistinct' := hperm.symm.pairwise hdistinct fun hab => hab.symm
  exact (hsorted.and hdistinct').imp fun hab => lt_of_le_of_ne hab.1 hab.2

/-- Both branches of `setEntry` keep the order: a rebind does not touch the versions, an insertion
is followed by the sort. -/
theorem setEntry_increasing {e : VersionEntry} {entries : List VersionEntry}
    (h : Increasing entries) : Increasing (setEntry e entries) := by
  unfold setEntry
  split
  · rw [increasing_iff_map, rebind_version, ← increasing_iff_map]
    exact h
  · rename_i hany
    refine increasing_insertionSort h fun x hx hxe => hany ?_
    exact List.any_eq_true.mpr ⟨x, hx, by simpa using hxe⟩

/-- A subject that was written to has an entry, so the map never holds an empty list after a schema
record. -/
theorem setEntry_ne_nil (e : VersionEntry) (entries : List VersionEntry) :
    setEntry e entries ≠ [] := by
  unfold setEntry
  split
  · rename_i hany
    intro hnil
    have hmap : (rebind e entries).map (·.version) = entries.map (·.version) := rebind_version
    rw [hnil] at hmap
    obtain ⟨x, hx, _⟩ := List.any_eq_true.mp hany
    have : entries = [] := by simpa using hmap.symm
    simp [this] at hx
  · intro hnil
    have hlen := (List.perm_insertionSort (fun a b : VersionEntry => a.version ≤ b.version)
      (entries ++ [e])).length_eq
    simp [hnil] at hlen

/-- Setting an entry changes the binding of its own version and no other, whether the version was
there (`rebind`) or not (insertion and sort). -/
theorem findVersion_setEntry {e : VersionEntry} {entries : List VersionEntry}
    (h : Increasing entries) (v : SchemaVersion) :
    findVersion v (setEntry e entries) =
      if v = e.version then some e else findVersion v entries := by
  by_cases hany : entries.any fun x => x.version = e.version
  · rw [setEntry, if_pos hany]
    obtain ⟨x, hx, hxe⟩ := List.any_eq_true.mp hany
    exact findVersion_rebind ⟨x, hx, by simpa using hxe⟩
  -- A version that is not there is appended and the list is sorted again.
  · have hnew : ∀ x ∈ entries, x.version ≠ e.version := fun x hx hxe =>
      hany (List.any_eq_true.mpr ⟨x, hx, by simpa using hxe⟩)
    have hinc := increasing_insertionSort h hnew
    have hperm := List.perm_insertionSort (fun a b : VersionEntry => a.version ≤ b.version)
      (entries ++ [e])
    rw [setEntry, if_neg hany]
    -- The sorted list is increasing, so membership decides what is found in it.
    by_cases hv : v = e.version
    · subst hv
      rw [if_pos rfl]
      exact hinc.findVersion_eq (hperm.mem_iff.mpr (by simp))
    · rw [if_neg hv]
      cases hf : findVersion v entries with
      | some x =>
        obtain ⟨hx, rfl⟩ := findVersion_some hf
        exact hinc.findVersion_eq (hperm.mem_iff.mpr (List.mem_append_left _ hx))
      | none =>
        rw [findVersion_none] at hf ⊢
        intro x hx
        rcases List.mem_append.mp (hperm.mem_iff.mp hx) with hx | hx
        · exact hf x hx
        · rw [List.mem_singleton.mp hx]
          exact Ne.symm hv

/-! ## Well-formed states -/

/-- Every listed subject has entries, and they are in strictly increasing order. -/
def WellFormed (st : StoreState) : Prop :=
  ∀ (s : String) (entries : List VersionEntry), st.subjects[s]? = some entries → entries ≠ [] ∧ Increasing entries

/-- The entries of a subject, none for a subject that is not listed. -/
def entries (st : StoreState) (s : String) : List VersionEntry := (st.subjects[s]?).getD []

/-- The entry of a subject's version. -/
def entryOf (st : StoreState) (s : String) (v : SchemaVersion) : Option VersionEntry :=
  findVersion v (entries st s)

/-- The entries of every subject are increasing, an absent subject having none. -/
theorem WellFormed.increasing {st : StoreState} (h : WellFormed st) (s : String) :
    Increasing (entries st s) := by
  unfold entries
  cases hs : st.subjects[s]? with
  | none => simp [Increasing]
  | some l => exact (h s l hs).2

/-- The entries depend on the subject map alone, so a record that does not touch the map keeps them.
-/
theorem entries_congr {st st' : StoreState} (h : st'.subjects = st.subjects) (s : String) :
    entries st' s = entries st s := by
  simp [entries, h]

/-- The same for a single binding. -/
theorem entryOf_congr {st st' : StoreState} (h : st'.subjects = st.subjects) (s : String)
    (v : SchemaVersion) : entryOf st' s v = entryOf st s v := by
  simp [entryOf, entries_congr h]

/-- The store's own lookup of an id reads the binding. -/
theorem idOf_eq (st : StoreState) (s : String) (v : SchemaVersion) :
    st.idOf s v = (entryOf st s v).map (·.id) := by
  unfold StoreState.idOf entryOf entries findVersion
  cases st.subjects[s]? with
  | none => simp
  | some l => rfl

/-- A binding carries the version it is bound to. -/
theorem entryOf_version {st : StoreState} {s : String} {v : SchemaVersion} {e : VersionEntry}
    (h : entryOf st s v = some e) : e.version = v :=
  (findVersion_some h).2

/-- Two well-formed states with the same entries of a subject list it alike. -/
theorem subject_ext {st st' : StoreState} (h : WellFormed st) (h' : WellFormed st') {s : String}
    (heq : ∀ v, entryOf st s v = entryOf st' s v) : st.subjects[s]? = st'.subjects[s]? := by
  have hlist : entries st s = entries st' s := (h.increasing s).ext (h'.increasing s) heq
  cases hs : st.subjects[s]? with
  -- A subject without entries is not listed at all, on either side.
  | none =>
    cases hs' : st'.subjects[s]? with
    | none => rfl
    | some l' =>
      have : l' = [] := by simpa [entries, hs, hs'] using hlist.symm
      exact absurd this (h' s l' hs').1
  | some l =>
    cases hs' : st'.subjects[s]? with
    | none =>
      have : l = [] := by simpa [entries, hs, hs'] using hlist
      exact absurd this (h s l hs).1
    | some l' =>
      have : l = l' := by simpa [entries, hs, hs'] using hlist
      rw [this]

/-- A well-formed subject map is determined by its bindings: the entries of a subject are the
increasing list of what `entryOf` answers, and a subject with no binding is not in the map. -/
theorem subjects_ext {st st' : StoreState} (h : WellFormed st) (h' : WellFormed st')
    (heq : ∀ s v, entryOf st s v = entryOf st' s v) : st.subjects = st'.subjects :=
  Std.ExtTreeMap.ext_getElem? fun s => subject_ext h h' (heq s)

/-! ## What `applySchema` changes -/

section ApplySchema

variable (F : Formats) (st : StoreState) (k : SchemaKey) (value : SchemaValue)

/-- What preparing a schema record changes: the largest id, the next version of its subject, the
content of its id and, through `unindex`, the two canonical maps. -/
theorem prepareSchema_eq :
    st.prepareSchema value = { st with
      maxId := max st.maxId value.id
      nextVersions := (st.observeVersion value.subject value.version).nextVersions
      byId := st.byId.insert value.id (contentOf value)
      byCanonical := (st.unindex value.id).byCanonical
      canonicalById := (st.unindex value.id).canonicalById } := by
  unfold StoreState.prepareSchema StoreState.unindex
  simp only [StoreState.observeVersion, StoreState.observeNextVersion]
  -- `unindex` has a branch for an id without a key.
  cases st.canonicalById[value.id]? with
  | none => rfl
  | some oldKey => rfl

/-- Indexing a value touches the two canonical maps and nothing else. -/
private theorem indexValue_eq :
    st.indexValue F value = { st with
      byCanonical := (st.indexValue F value).byCanonical
      canonicalById := (st.indexValue F value).canonicalById } := by
  unfold StoreState.indexValue
  cases st.indexKey F value with
  | none => rfl
  | some key => rfl

/-- Everything but the identity index, in terms of the state before. -/
theorem applySchema_eq :
    st.applySchema F k value = { st with
      maxId := max st.maxId value.id
      nextVersions := (st.observeVersion value.subject value.version).nextVersions
      byId := st.byId.insert value.id (contentOf value)
      subjects := st.subjects.insert value.subject
        (setEntry ⟨value.version, value.id, value.deleted⟩ (entries st value.subject))
      byCanonical := (st.applySchema F k value).byCanonical
      canonicalById := (st.applySchema F k value).canonicalById } := by
  unfold StoreState.applySchema
  -- Indexing writes two fields only, so the other fields are those of `prepareSchema`.
  rw [indexValue_eq, prepareSchema_eq]
  rfl

/-- A schema record sets one entry of its own subject and leaves every other subject alone. -/
theorem applySchema_subjects :
    (st.applySchema F k value).subjects = st.subjects.insert value.subject
      (setEntry ⟨value.version, value.id, value.deleted⟩ (entries st value.subject)) := by
  rw [applySchema_eq]

/-- A schema record writes the content of its id, whatever stood there before. -/
theorem applySchema_byId :
    (st.applySchema F k value).byId = st.byId.insert value.id (contentOf value) := by
  rw [applySchema_eq]

/-- The largest id grows to the record's id when that is larger, and never shrinks. -/
theorem applySchema_maxId : (st.applySchema F k value).maxId = max st.maxId value.id := by
  rw [applySchema_eq]

/-- A schema record observes its own version, so the next version of its subject lies above it. -/
theorem applySchema_nextVersions :
    (st.applySchema F k value).nextVersions =
      (st.observeVersion value.subject value.version).nextVersions := by
  rw [applySchema_eq]

/-- Schema records carry no compatibility level of a subject. -/
theorem applySchema_subjectCompat :
    (st.applySchema F k value).subjectCompat = st.subjectCompat := by
  rw [applySchema_eq]

/-- Schema records carry no global compatibility level. -/
theorem applySchema_globalCompat :
    (st.applySchema F k value).globalCompat = st.globalCompat := by
  rw [applySchema_eq]

/-- Schema records carry no mode of a subject. -/
theorem applySchema_subjectMode : (st.applySchema F k value).subjectMode = st.subjectMode := by
  rw [applySchema_eq]

/-- Schema records carry no global mode. -/
theorem applySchema_globalMode : (st.applySchema F k value).globalMode = st.globalMode := by
  rw [applySchema_eq]

/-- The default mode is configuration, which no schema record changes. -/
theorem applySchema_defaultMode : (st.applySchema F k value).defaultMode = st.defaultMode := by
  rw [applySchema_eq]

end ApplySchema

/-! ## Entries -/

/-- What a record makes of the entry of version `v` of subject `s`. -/
def entryStep (s : String) (v : SchemaVersion) (acc : Option VersionEntry) :
    TopicRecord → Option VersionEntry
  | .schema _ (some value) =>
    if value.subject = s ∧ value.version = v then some ⟨value.version, value.id, value.deleted⟩
    else acc
  | .schema k none => if k = ⟨s, v⟩ then none else acc
  | .deleteSubject s' (some _) =>
    if s' = s then acc.map fun e => { e with deleted := true } else acc
  | _ => acc

section Entries

variable {F : Formats} {st : StoreState}

/-- Inserting the entries of one subject is read back there and nowhere else. -/
theorem entries_insert (s s' : String) (l : List VersionEntry) {st' : StoreState}
    (h : st'.subjects = st.subjects.insert s l) :
    entries st' s' = if s' = s then l else entries st s' := by
  unfold entries
  rw [h, BTreeMap.getElem?_insert]
  split <;> rfl

/-- A nonempty increasing list may be inserted under any subject without breaking the invariant. -/
theorem wellFormed_insert {st' : StoreState} (h : WellFormed st) {s : String}
    {l : List VersionEntry} (hl : l ≠ []) (hinc : Increasing l)
    (h' : st'.subjects = st.subjects.insert s l) : WellFormed st' := by
  intro s' l' hs'
  rw [h', BTreeMap.getElem?_insert] at hs'
  split at hs'
  · obtain rfl : l = l' := by simpa using hs'
    exact ⟨hl, hinc⟩
  · exact h s' l' hs'

/-- Dropping a whole subject keeps the invariant. -/
theorem wellFormed_erase {st' : StoreState} (h : WellFormed st) {s : String}
    (h' : st'.subjects = st.subjects.erase s) : WellFormed st' := by
  intro s' l' hs'
  rw [h', BTreeMap.getElem?_erase] at hs'
  split at hs'
  · cases hs'
  · exact h s' l' hs'

/-- The invariant speaks of the subject map only. -/
theorem wellFormed_congr {st' : StoreState} (h : WellFormed st)
    (h' : st'.subjects = st.subjects) : WellFormed st' := by
  intro s l hs
  exact h s l (by rwa [h'] at hs)

/-! ### Soft delete of a subject -/

/-- Flagging every entry as deleted keeps the versions, hence the order. -/
private theorem flag_increasing {l : List VersionEntry} (h : Increasing l) :
    Increasing (l.map fun v => { v with deleted := true }) := by
  rw [Increasing, List.pairwise_map]
  exact h

/-- A flagged list answers with the flagged entry. -/
theorem findVersion_flag (v : SchemaVersion) (l : List VersionEntry) :
    findVersion v (l.map fun e => { e with deleted := true }) =
      (findVersion v l).map fun e => { e with deleted := true } := by
  induction l with
  | nil => rfl
  | cons e l ih =>
    rw [List.map_cons, findVersion_cons, findVersion_cons, ih]
    by_cases h : e.version = v <;> simp [h]

/-- A soft delete of a subject keeps the invariant. -/
theorem softDeleteSubject_wellFormed (h : WellFormed st) (s : String) :
    WellFormed (st.softDeleteSubject s) := by
  unfold StoreState.softDeleteSubject
  cases hs : st.subjects[s]? with
  | none => exact h
  | some l =>
    -- A listed subject has entries, so the flags are written.
    obtain ⟨hne, hinc⟩ := h s l hs
    have hempty : l.isEmpty = false := by simpa using hne
    simp only [hempty, Bool.false_eq_true, ↓reduceIte]
    exact wellFormed_insert h (by simpa using hne) (flag_increasing hinc) rfl

/-- A soft delete flags every binding of its subject and no other binding. -/
theorem entryOf_softDeleteSubject (st : StoreState) (s' s : String) (v : SchemaVersion) :
    entryOf (st.softDeleteSubject s') s v =
      if s' = s then (entryOf st s v).map fun e => { e with deleted := true }
      else entryOf st s v := by
  unfold StoreState.softDeleteSubject
  -- The source returns early when the subject is absent or has no entries.
  cases hs : st.subjects[s']? with
  | none =>
    by_cases h : s' = s
    · subst h
      simp [entryOf, entries, hs]
    · simp [h]
  | some l =>
    cases l with
    -- An empty list cannot be told from no list.
    | nil =>
      by_cases h : s' = s
      · subst h
        simp [entryOf, entries, hs]
      · simp [h]
    | cons x l =>
      simp only [List.isEmpty_cons, Bool.false_eq_true, ↓reduceIte]
      unfold entryOf
      rw [entries_insert s' s _ rfl]
      by_cases h : s' = s
      · subst h
        have hl : entries st s' = x :: l := by simp [entries, hs]
        rw [if_pos rfl, if_pos rfl, hl, findVersion_flag]
      · rw [if_neg (Ne.symm h), if_neg h]

/-! ### Permanent delete of a version -/

/-- Filtering a version out removes that binding and keeps the rest. -/
private theorem findVersion_filter (v version : SchemaVersion) (l : List VersionEntry) :
    findVersion v (l.filter fun e => e.version ≠ version) =
      if v = version then none else findVersion v l := by
  induction l with
  | nil => simp
  | cons e l ih =>
    by_cases he : e.version = version
    · rw [List.filter_cons_of_neg (by simp [he]), ih, findVersion_cons]
      by_cases hv : v = version
      · simp [hv]
      · have : e.version ≠ v := by rw [he]; exact Ne.symm hv
        simp [hv, this]
    · rw [List.filter_cons_of_pos (by simpa using he), findVersion_cons, findVersion_cons, ih]
      by_cases hv : v = version
      · subst hv
        simp [he]
      · simp [hv]

/-- A permanent delete keeps the invariant: what is left of an increasing list is increasing, and a
subject whose last entry goes is dropped from the map. -/
theorem permanentDeleteVersion_wellFormed (h : WellFormed st) (s : String) (v : SchemaVersion) :
    WellFormed (st.permanentDeleteVersion s v) := by
  have h' : WellFormed (st.observeVersion s v) := wellFormed_congr h rfl
  unfold StoreState.permanentDeleteVersion
  simp only
  cases hs : (st.observeVersion s v).subjects[s]? with
  | none => exact h'
  | some l =>
    simp only
    -- Nothing removed, the last entry removed, or some left.
    split_ifs with hlen hempty
    · exact h'
    · exact wellFormed_erase h' rfl
    · exact wellFormed_insert h' (by simpa using hempty)
        (List.Pairwise.filter _ (h' s l hs).2) rfl

/-- A permanent delete filters the entries of its own subject. A subject that lost its last entry
has none, whether or not it is still a key of the map. -/
theorem entries_permanentDeleteVersion (st : StoreState) (s' : String) (version : SchemaVersion)
    (s : String) :
    entries (st.permanentDeleteVersion s' version) s =
      if s = s' then (entries st s).filter fun e => e.version ≠ version else entries st s := by
  have hobs : (st.observeVersion s' version).subjects = st.subjects := rfl
  unfold StoreState.permanentDeleteVersion
  simp only [hobs]
  cases hs : st.subjects[s']? with
  | none =>
    have hnil : entries st s' = [] := by simp [entries, hs]
    simp only
    rw [entries_congr hobs]
    split
    · rename_i h
      simp [h, hnil]
    · rfl
  | some l =>
    have hl : entries st s' = l := by simp [entries, hs]
    simp only
    -- Only the list of the subject itself can differ.
    by_cases hss : s = s'
    · subst hss
      rw [if_pos rfl, hl]
      split_ifs with hlen hempty
      -- Nothing was removed, so the filter keeps the whole list.
      · rw [entries_congr hobs, hl]
        exact (List.filter_eq_self.mpr (List.length_filter_eq_length_iff.mp hlen)).symm
      -- The last entry has gone, and the subject with it.
      · have hnil : l.filter (fun e => e.version ≠ version) = [] := List.isEmpty_iff.mp hempty
        rw [hnil]
        simp [entries]
      · simp [entries]
    · rw [if_neg hss]
      split_ifs
      · exact entries_congr hobs s
      · simp [entries, BTreeMap.getElem?_erase, hss]
      · simp [entries, BTreeMap.getElem?_insert, hss]

/-- A permanent delete unbinds one version of one subject. -/
theorem entryOf_permanentDeleteVersion (st : StoreState) (s' : String) (version : SchemaVersion)
    (s : String) (v : SchemaVersion) :
    entryOf (st.permanentDeleteVersion s' version) s v =
      if s = s' ∧ v = version then none else entryOf st s v := by
  unfold entryOf
  rw [entries_permanentDeleteVersion]
  by_cases hs : s = s'
  · rw [if_pos hs, findVersion_filter]
    simp [hs]
  · simp [hs]

/-! ### Every record -/

/-- A schema record keeps the invariant. -/
theorem applySchema_wellFormed (h : WellFormed st) (k : SchemaKey) (value : SchemaValue) :
    WellFormed (st.applySchema F k value) :=
  wellFormed_insert h (setEntry_ne_nil _ _) (setEntry_increasing (h.increasing value.subject))
    (applySchema_subjects F st k value)

/-- A schema record binds its own version under its own subject to its id and its deleted flag. -/
theorem entryOf_applySchema (h : WellFormed st) (k : SchemaKey) (value : SchemaValue) (s : String)
    (v : SchemaVersion) :
    entryOf (st.applySchema F k value) s v =
      if value.subject = s ∧ value.version = v then
        some ⟨value.version, value.id, value.deleted⟩
      else entryOf st s v := by
  unfold entryOf
  rw [entries_insert value.subject s _ (applySchema_subjects F st k value)]
  by_cases hs : value.subject = s
  · subst hs
    rw [if_pos rfl, findVersion_setEntry (h.increasing value.subject)]
    simp [eq_comm]
  · simp [hs, Ne.symm hs]

/-- Every record of the topic keeps the invariant. -/
theorem applyTopicRecord_wellFormed (h : WellFormed st) (r : TopicRecord) :
    WellFormed (applyTopicRecord F st r) := by
  cases r with
  | schema k value =>
    cases value with
    | none => exact permanentDeleteVersion_wellFormed h k.subject k.version
    | some value => exact applySchema_wellFormed h k value
  | deleteSubject s value =>
    cases value with
    | none => exact h
    | some value => exact softDeleteSubject_wellFormed h s
  | versionHighWater s next => cases next <;> exact wellFormed_congr h rfl
  | config s level => cases s <;> cases level <;> exact wellFormed_congr h rfl
  | mode s m => cases s <;> cases m <;> exact wellFormed_congr h rfl
  | barrier token present => exact h

/-- One record moves the binding of a version as `entryStep` says. The right side mentions no state
but the binding itself, which is what makes replay a fold over the log, one binding at a time. -/
theorem entryOf_applyTopicRecord (h : WellFormed st) (r : TopicRecord) (s : String)
    (v : SchemaVersion) :
    entryOf (applyTopicRecord F st r) s v = entryStep s v (entryOf st s v) r := by
  cases r with
  | schema k value =>
    cases value with
    | none =>
      refine (entryOf_permanentDeleteVersion st k.subject k.version s v).trans ?_
      -- The fields of the key appear in the state only through the two the store reads.
      cases k
      simp [entryStep, eq_comm]
    | some value => exact entryOf_applySchema h k value s v
  | deleteSubject s' value =>
    cases value with
    | none => rfl
    | some value => exact entryOf_softDeleteSubject st s' s v
  | versionHighWater s' next => cases next <;> exact entryOf_congr rfl s v
  | config s' level => cases s' <;> cases level <;> exact entryOf_congr rfl s v
  | mode s' m => cases s' <;> cases m <;> exact entryOf_congr rfl s v
  | barrier token present => rfl

end Entries

/-! ## Replay folds each view -/

section Replay

variable {F : Formats} {st : StoreState}

@[simp] theorem replay_nil (st : StoreState) : replay F st [] = st := rfl

@[simp] theorem replay_cons (st : StoreState) (r : TopicRecord) (log : List TopicRecord) :
    replay F st (r :: log) = replay F (applyTopicRecord F st r) log := rfl

/-- Replay of a longer log continues the replay of its beginning. -/
theorem replay_append (st : StoreState) (log log' : List TopicRecord) :
    replay F st (log ++ log') = replay F (replay F st log) log' := by
  simp [replay, List.foldl_append]

/-- What a step keeps, replay keeps. -/
theorem replay_induction {P : StoreState → Prop}
    (hstep : ∀ st r, P st → P (applyTopicRecord F st r)) (h : P st) (log : List TopicRecord) :
    P (replay F st log) := by
  induction log generalizing st with
  | nil => exact h
  | cons r log ih => exact ih (hstep st r h)

/-- Every replayed state is well formed. -/
theorem replay_wellFormed (h : WellFormed st) (log : List TopicRecord) :
    WellFormed (replay F st log) :=
  replay_induction (P := WellFormed) (fun _ r h => applyTopicRecord_wellFormed h r) h log

/-- A view that each record updates by `step` is a fold of `step`. -/
theorem replay_view {α : Type} (view : StoreState → α) (step : α → TopicRecord → α)
    (hstep : ∀ st r, WellFormed st → view (applyTopicRecord F st r) = step (view st) r)
    (h : WellFormed st) (log : List TopicRecord) :
    view (replay F st log) = log.foldl step (view st) := by
  induction log generalizing st with
  | nil => rfl
  | cons r log ih =>
    rw [replay_cons, ih (applyTopicRecord_wellFormed h r), hstep st r h, List.foldl_cons]

/-- The binding of a version after a whole log, by induction on the log. -/
theorem entryOf_replay (h : WellFormed st) (log : List TopicRecord) (s : String)
    (v : SchemaVersion) :
    entryOf (replay F st log) s v = log.foldl (entryStep s v) (entryOf st s v) :=
  replay_view (entryOf · s v) (entryStep s v) (fun _ r h => entryOf_applyTopicRecord h r s v) h log

/-- The state a node starts from is well formed. -/
theorem withDefaults_wellFormed (compatibility mode : String) :
    WellFormed (StoreState.withDefaults compatibility mode) := by
  intro s l hs
  simp [StoreState.withDefaults] at hs

@[simp] theorem entryOf_withDefaults (compatibility mode : String) (s : String)
    (v : SchemaVersion) : entryOf (StoreState.withDefaults compatibility mode) s v = none := by
  simp [entryOf, entries, StoreState.withDefaults]

/-! ### Version counters -/

/-- Raise a counter to a bid, where either may be absent. -/
def raise : Option SchemaVersion → Option SchemaVersion → Option SchemaVersion
  | acc, none => acc
  | none, some n => some n
  | some c, some n => some (max c n)

/-- The next version that a record asks for in subject `s`. -/
def bid (s : String) : TopicRecord → Option SchemaVersion
  | .schema _ (some value) => if value.subject = s then some (saturatingSucc value.version) else none
  | .schema k none => if k.subject = s then some (saturatingSucc k.version) else none
  | .versionHighWater s' (some n) => if s' = s then some n else none
  | _ => none

/-- Observing a next version raises the mark of its subject to at least that version and leaves
every other mark alone. -/
theorem nextVersions_observeNextVersion (st : StoreState) (s' s : String) (n : SchemaVersion) :
    (st.observeNextVersion s' n).nextVersions[s]? =
      raise st.nextVersions[s]? (if s' = s then some n else none) := by
  simp only [StoreState.observeNextVersion, BTreeMap.getElem?_insert]
  by_cases h : s' = s
  · subst h
    cases st.nextVersions[s']? <;> simp [raise]
  · simp [h, Ne.symm h, raise]

/-- A permanent delete observes the version it removes, so that the version is not handed out again.
-/
theorem permanentDeleteVersion_nextVersions (st : StoreState) (s : String) (v : SchemaVersion) :
    (st.permanentDeleteVersion s v).nextVersions = (st.observeVersion s v).nextVersions := by
  unfold StoreState.permanentDeleteVersion
  simp only
  cases (st.observeVersion s v).subjects[s]? with
  | none => rfl
  | some l =>
    simp only
    split_ifs <;> rfl

/-- A soft delete touches the subject map only. -/
theorem softDeleteSubject_eq (st : StoreState) (s : String) :
    st.softDeleteSubject s = { st with subjects := (st.softDeleteSubject s).subjects } := by
  unfold StoreState.softDeleteSubject
  cases st.subjects[s]? with
  | none => rfl
  | some l =>
    simp only
    split_ifs <;> rfl

/-- A permanent delete touches the subject map and the next versions only. -/
theorem permanentDeleteVersion_eq (st : StoreState) (s : String) (v : SchemaVersion) :
    st.permanentDeleteVersion s v = { st with
      subjects := (st.permanentDeleteVersion s v).subjects
      nextVersions := (st.observeVersion s v).nextVersions } := by
  unfold StoreState.permanentDeleteVersion
  simp only
  cases (st.observeVersion s v).subjects[s]? with
  | none => rfl
  | some l =>
    simp only
    split_ifs <;> rfl

/-- One record raises the mark of a subject by its `bid`, and no record lowers it. -/
theorem nextVersions_applyTopicRecord (st : StoreState) (r : TopicRecord) (s : String) :
    (applyTopicRecord F st r).nextVersions[s]? = raise st.nextVersions[s]? (bid s r) := by
  cases r with
  | schema k value =>
    cases value with
    -- A tombstone observes the version of its key, a value the version it carries itself.
    | none =>
      have h : (applyTopicRecord F st (.schema k none)).nextVersions =
          (st.observeVersion k.subject k.version).nextVersions :=
        permanentDeleteVersion_nextVersions st k.subject k.version
      rw [h]
      exact nextVersions_observeNextVersion st k.subject s _
    | some value =>
      have h : (applyTopicRecord F st (.schema k (some value))).nextVersions =
          (st.observeVersion value.subject value.version).nextVersions :=
        applySchema_nextVersions F st k value
      rw [h]
      exact nextVersions_observeNextVersion st value.subject s _
  | deleteSubject s' value =>
    cases value with
    | none => rfl
    | some value =>
      have h : (applyTopicRecord F st (.deleteSubject s' (some value))).nextVersions =
          st.nextVersions := by
        change (st.softDeleteSubject s').nextVersions = st.nextVersions
        rw [softDeleteSubject_eq]
      rw [h]
      rfl
  | versionHighWater s' next =>
    cases next with
    | none => rfl
    | some n => exact nextVersions_observeNextVersion st s' s n
  | config s' level => cases s' <;> cases level <;> rfl
  | mode s' m => cases s' <;> cases m <;> rfl
  | barrier token present => rfl

/-- The mark of a subject after a whole log, by induction on the log. -/
theorem nextVersions_replay (h : WellFormed st) (log : List TopicRecord) (s : String) :
    (replay F st log).nextVersions[s]? =
      log.foldl (fun acc r => raise acc (bid s r)) st.nextVersions[s]? :=
  replay_view (fun st => st.nextVersions[s]?) (fun acc r => raise acc (bid s r))
    (fun st r _ => nextVersions_applyTopicRecord st r s) h log

/-! ### Compatibility levels and modes -/

def subjectCompatStep (s : String) (acc : Option String) : TopicRecord → Option String
  | .config (some s') level => if s' = s then level else acc
  | _ => acc

def globalCompatStep (acc : Option String) : TopicRecord → Option String
  | .config none (some level) => some level
  | _ => acc

def subjectModeStep (s : String) (acc : Option String) : TopicRecord → Option String
  | .mode (some s') m => if s' = s then m else acc
  | _ => acc

def globalModeStep (acc : Option String) : TopicRecord → Option String
  | .mode none m => m
  | _ => acc

/-- Records that carry no level or mode leave the levels and modes alone. -/
theorem levels_applyTopicRecord (st : StoreState) {r : TopicRecord}
    (hc : ∀ s level, r ≠ .config s level) (hm : ∀ s m, r ≠ .mode s m) :
    (applyTopicRecord F st r).subjectCompat = st.subjectCompat ∧
    (applyTopicRecord F st r).globalCompat = st.globalCompat ∧
    (applyTopicRecord F st r).subjectMode = st.subjectMode ∧
    (applyTopicRecord F st r).globalMode = st.globalMode := by
  cases r with
  | schema k value =>
    cases value with
    | none =>
      change (st.permanentDeleteVersion k.subject k.version).subjectCompat = _ ∧
        (st.permanentDeleteVersion k.subject k.version).globalCompat = _ ∧
        (st.permanentDeleteVersion k.subject k.version).subjectMode = _ ∧
        (st.permanentDeleteVersion k.subject k.version).globalMode = _
      rw [permanentDeleteVersion_eq]
      exact ⟨rfl, rfl, rfl, rfl⟩
    | some value =>
      exact ⟨applySchema_subjectCompat F st k value, applySchema_globalCompat F st k value,
        applySchema_subjectMode F st k value, applySchema_globalMode F st k value⟩
  | deleteSubject s value =>
    cases value with
    | none => exact ⟨rfl, rfl, rfl, rfl⟩
    | some value =>
      change (st.softDeleteSubject s).subjectCompat = _ ∧ (st.softDeleteSubject s).globalCompat = _ ∧
        (st.softDeleteSubject s).subjectMode = _ ∧ (st.softDeleteSubject s).globalMode = _
      rw [softDeleteSubject_eq]
      exact ⟨rfl, rfl, rfl, rfl⟩
  | versionHighWater s next => cases next <;> exact ⟨rfl, rfl, rfl, rfl⟩
  -- The two kinds that do carry a level are excluded by hypothesis.
  | config s level => exact absurd rfl (hc s level)
  | mode s m => exact absurd rfl (hm s m)
  | barrier token present => exact ⟨rfl, rfl, rfl, rfl⟩

/-- The level of a subject follows the config records of that subject alone. -/
theorem subjectCompat_applyTopicRecord (st : StoreState) (r : TopicRecord) (s : String) :
    (applyTopicRecord F st r).subjectCompat[s]? = subjectCompatStep s st.subjectCompat[s]? r := by
  cases r with
  | config s' level =>
    cases s' with
    | none => cases level <;> rfl
    | some s' =>
      cases level with
      | none =>
        refine (BTreeMap.getElem?_erase st.subjectCompat s' s).trans ?_
        simp [subjectCompatStep, eq_comm]
      | some level =>
        refine (BTreeMap.getElem?_insert st.subjectCompat s' s level).trans ?_
        simp [subjectCompatStep, eq_comm]
  | mode s' m => cases s' <;> cases m <;> rfl
  | _ => rw [(levels_applyTopicRecord st (by simp) (by simp)).1]; rfl

/-- The global level follows the config records without a subject. -/
theorem globalCompat_applyTopicRecord (st : StoreState) (r : TopicRecord) :
    (applyTopicRecord F st r).globalCompat = globalCompatStep st.globalCompat r := by
  cases r with
  | config s' level => cases s' <;> cases level <;> rfl
  | mode s' m => cases s' <;> cases m <;> rfl
  | _ => rw [(levels_applyTopicRecord st (by simp) (by simp)).2.1]; rfl

/-- The mode of a subject follows the mode records of that subject alone. -/
theorem subjectMode_applyTopicRecord (st : StoreState) (r : TopicRecord) (s : String) :
    (applyTopicRecord F st r).subjectMode[s]? = subjectModeStep s st.subjectMode[s]? r := by
  cases r with
  | mode s' m =>
    cases s' with
    | none => cases m <;> rfl
    | some s' =>
      cases m with
      | none =>
        refine (BTreeMap.getElem?_erase st.subjectMode s' s).trans ?_
        simp [subjectModeStep, eq_comm]
      | some m =>
        refine (BTreeMap.getElem?_insert st.subjectMode s' s m).trans ?_
        simp [subjectModeStep, eq_comm]
  | config s' level => cases s' <;> cases level <;> rfl
  | _ => rw [(levels_applyTopicRecord st (by simp) (by simp)).2.2.1]; rfl

/-- The global mode follows the mode records without a subject. -/
theorem globalMode_applyTopicRecord (st : StoreState) (r : TopicRecord) :
    (applyTopicRecord F st r).globalMode = globalModeStep st.globalMode r := by
  cases r with
  | mode s' m => cases s' <;> cases m <;> rfl
  | config s' level => cases s' <;> cases level <;> rfl
  | _ => rw [(levels_applyTopicRecord st (by simp) (by simp)).2.2.2]; rfl

/-- No record changes the default mode, which comes from the configuration of the node. -/
theorem defaultMode_applyTopicRecord (st : StoreState) (r : TopicRecord) :
    (applyTopicRecord F st r).defaultMode = st.defaultMode := by
  cases r with
  | schema k value =>
    cases value with
    | none =>
      change (st.permanentDeleteVersion k.subject k.version).defaultMode = _
      rw [permanentDeleteVersion_eq]
    | some value => exact applySchema_defaultMode F st k value
  | deleteSubject s value =>
    cases value with
    | none => rfl
    | some value =>
      change (st.softDeleteSubject s).defaultMode = _
      rw [softDeleteSubject_eq]
  | versionHighWater s next => cases next <;> rfl
  | config s level => cases s <;> cases level <;> rfl
  | mode s m => cases s <;> cases m <;> rfl
  | barrier token present => rfl

/-! ### Ids and contents -/

/-- The value of a `SCHEMA` record that is not a tombstone. -/
def schemaValue? : TopicRecord → Option SchemaValue
  | .schema _ value => value
  | _ => none

@[simp] theorem schemaValue?_schema (k : SchemaKey) (value : Option SchemaValue) :
    schemaValue? (.schema k value) = value := rfl

/-- A record without a `SCHEMA` value leaves contents, ids and the identity index alone. -/
theorem contents_applyTopicRecord (st : StoreState) {r : TopicRecord}
    (h : schemaValue? r = none) :
    (applyTopicRecord F st r).byId = st.byId ∧
    (applyTopicRecord F st r).maxId = st.maxId ∧
    (applyTopicRecord F st r).byCanonical = st.byCanonical ∧
    (applyTopicRecord F st r).canonicalById = st.canonicalById := by
  cases r with
  | schema k value =>
    -- A schema record without a value is a tombstone, which removes a binding but no content.
    obtain rfl : value = none := h
    change (st.permanentDeleteVersion k.subject k.version).byId = _ ∧
      (st.permanentDeleteVersion k.subject k.version).maxId = _ ∧
      (st.permanentDeleteVersion k.subject k.version).byCanonical = _ ∧
      (st.permanentDeleteVersion k.subject k.version).canonicalById = _
    rw [permanentDeleteVersion_eq]
    exact ⟨rfl, rfl, rfl, rfl⟩
  | deleteSubject s value =>
    cases value with
    | none => exact ⟨rfl, rfl, rfl, rfl⟩
    | some value =>
      change (st.softDeleteSubject s).byId = _ ∧ (st.softDeleteSubject s).maxId = _ ∧
        (st.softDeleteSubject s).byCanonical = _ ∧ (st.softDeleteSubject s).canonicalById = _
      rw [softDeleteSubject_eq]
      exact ⟨rfl, rfl, rfl, rfl⟩
  | versionHighWater s next => cases next <;> exact ⟨rfl, rfl, rfl, rfl⟩
  | config s level => cases s <;> cases level <;> exact ⟨rfl, rfl, rfl, rfl⟩
  | mode s m => cases s <;> cases m <;> exact ⟨rfl, rfl, rfl, rfl⟩
  | barrier token present => exact ⟨rfl, rfl, rfl, rfl⟩

/-- A record with a `SCHEMA` value applies it. -/
theorem applyTopicRecord_schema (st : StoreState) {r : TopicRecord} {value : SchemaValue}
    (h : schemaValue? r = some value) :
    ∃ k, applyTopicRecord F st r = st.applySchema F k value := by
  cases r with
  | schema k v =>
    obtain rfl : v = some value := h
    exact ⟨k, rfl⟩
  | deleteSubject s value => cases h
  | versionHighWater s next => cases h
  | config s level => cases h
  | mode s m => cases h
  | barrier token present => cases h

/-- The content of an id is written by the schema records of that id; deletes do not remove it. -/
theorem byId_applyTopicRecord (st : StoreState) (r : TopicRecord) (n : SchemaId) :
    (applyTopicRecord F st r).byId[n]? =
      match schemaValue? r with
      | some value => if n = value.id then some (contentOf value) else st.byId[n]?
      | none => st.byId[n]? := by
  cases h : schemaValue? r with
  | none => simp only [(contents_applyTopicRecord st h).1]
  | some value =>
    obtain ⟨k, hk⟩ := applyTopicRecord_schema (F := F) st h
    rw [hk, applySchema_byId, BTreeMap.getElem?_insert]

/-- The largest id follows the schema records that carry a value. -/
theorem maxId_applyTopicRecord (st : StoreState) (r : TopicRecord) :
    (applyTopicRecord F st r).maxId =
      match schemaValue? r with
      | some value => max st.maxId value.id
      | none => st.maxId := by
  cases h : schemaValue? r with
  | none => simp only [(contents_applyTopicRecord st h).2.1]
  | some value =>
    obtain ⟨k, hk⟩ := applyTopicRecord_schema (F := F) st h
    rw [hk, applySchema_maxId]

end Replay

end KrabkaRegistry.Store
