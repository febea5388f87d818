import KrabkaRegistry.Library.FinishOrder
import KrabkaRegistry.Store.Index

/-!
# Reference Closures

`resolve_into` is a depth-first walk over the graph whose nodes are the stored
`(subject, version)` pairs and whose edges are references.  `resolveInto_eq_walk` says so,
and the general facts about such walks then give:

- `resolves_iff`: a reference list resolves exactly when every version it reaches is stored;
- `resolveClosure_congr`: the closure depends on the state only through the contents of the
  versions it reaches.
-/

namespace KrabkaRegistry.Store

open KrabkaRegistry.Library.DepthFirst
open Kafkastore (SchemaValue TopicRecord)
open StoreState (Resolution contentOf referenceLabel)

/-- The content stored for a version. -/
def contentAt (st : StoreState) (v : String × SchemaVersion) : Option RegisteredSchema :=
  (st.idOf v.1 v.2).bind (st.byId[·]?)

/-- References as edges between versions. -/
def graph (st : StoreState) : Library.DepthFirst.Graph SchemaReference (String × SchemaVersion) where
  target r := (r.subject, r.version)
  next v := (contentAt st v).map (·.references)

/-- The resolved references so far and the names they were given under. -/
abbrev Emitted := List ResolvedReference × Finset String

/-- Emit a reference under its name, unless the name is taken. -/
def emit (st : StoreState) (r : SchemaReference) (σ : Emitted) : Emitted :=
  match contentAt st (r.subject, r.version) with
  | none => σ
  | some reg =>
    if r.name ∈ σ.2 then σ else (σ.1 ++ [⟨r.name, reg.ty, reg.schema⟩], insert r.name σ.2)

/-! ## The recursion is a walk -/

private def toResolution (w : Progress (String × SchemaVersion) Emitted) : Resolution :=
  ⟨w.out.1, w.out.2, w.visited⟩

private def toFailure : Fault SchemaReference → Failure
  | .missing r => .error (.referenceNotFound (referenceLabel r))
  | .fuel => .fuel

/-- The outcome of a walk as an outcome of `resolve_into`. -/
private def toResult :
    Except (Fault SchemaReference) (Progress (String × SchemaVersion) Emitted) → Result Resolution
  | .ok w => .ok (toResolution w)
  | .error f => .error (toFailure f)

variable {st st' : StoreState}

private theorem resolveRef_eq_follow
    {below : List SchemaReference → Resolution → Result Resolution}
    {below' : List SchemaReference → Progress (String × SchemaVersion) Emitted →
      Except (Fault SchemaReference) (Progress (String × SchemaVersion) Emitted)}
    (hbelow : ∀ refs w, below refs (toResolution w) = toResult (below' refs w))
    (w : Progress (String × SchemaVersion) Emitted) (r : SchemaReference) :
    st.resolveRef below (toResolution w) r =
      toResult (follow (graph st) (emit st) below' w r) := by
  unfold StoreState.resolveRef follow
  -- The same three cases on both sides: visited, missing, or followed.
  by_cases hv : (r.subject, r.version) ∈ w.visited
  · simp [toResolution, graph, hv, toResult]
  · have hcontent : (st.idOf r.subject r.version).bind (st.byId[·]?) =
        contentAt st (r.subject, r.version) := rfl
    simp only [toResolution, graph, hv, if_false, hcontent]
    cases hc : contentAt st (r.subject, r.version) with
    | none => simp [toResult, toFailure]
    | some reg =>
      have hb := hbelow reg.references ⟨insert (r.subject, r.version) w.visited, w.out⟩
      simp only [toResolution] at hb
      simp only [Option.map_some, hb]
      cases below' reg.references ⟨insert (r.subject, r.version) w.visited, w.out⟩ with
      | error f => simp [toResult, bind, Except.bind]
      | ok w₁ =>
        simp only [toResult, toResolution, emit, hc, bind, Except.bind, pure, Except.pure]
        split <;> rfl

private theorem resolve_foldlM
    {below : List SchemaReference → Resolution → Result Resolution}
    {below' : List SchemaReference → Progress (String × SchemaVersion) Emitted →
      Except (Fault SchemaReference) (Progress (String × SchemaVersion) Emitted)}
    (hbelow : ∀ refs w, below refs (toResolution w) = toResult (below' refs w)) :
    ∀ (refs : List SchemaReference) (w : Progress (String × SchemaVersion) Emitted),
      refs.foldlM (st.resolveRef below) (toResolution w) =
        toResult (refs.foldlM (follow (graph st) (emit st) below') w) := by
  intro refs
  induction refs with
  | nil => intro w; rfl
  | cons r refs ih =>
    intro w
    rw [List.foldlM_cons, List.foldlM_cons, resolveRef_eq_follow hbelow]
    cases follow (graph st) (emit st) below' w r with
    | error f => rfl
    | ok w₁ => exact ih w₁

private theorem resolveInto_eq_walk (st : StoreState) (fuel : ℕ) :
    ∀ (refs : List SchemaReference) (w : Progress (String × SchemaVersion) Emitted),
      st.resolveInto fuel refs (toResolution w) =
        toResult (walk (graph st) (emit st) fuel refs w) := by
  induction fuel with
  | zero => intro refs w; rfl
  | succ n ih => exact resolve_foldlM ih

theorem contentAt_eq (st : StoreState) (s : String) (v : SchemaVersion) :
    contentAt st (s, v) = (entryOf st s v).bind fun e => st.byId[e.id]? := by
  unfold contentAt
  rw [idOf_eq]
  cases entryOf st s v <;> rfl

/-! ## Contents after a record -/

section Records

variable {F : Format.Formats} {st : StoreState}

/-- A `SCHEMA` record writes its content to its version and wherever its id is bound. -/
theorem contentAt_schema (hwf : WellFormed st) {r : TopicRecord} {value : SchemaValue}
    (hr : schemaValue? r = some value) (u : String × SchemaVersion) :
    contentAt (applyTopicRecord F st r) u =
      if u = (value.subject, value.version) ∨ (entryOf st u.1 u.2).map (·.id) = some value.id then
        some (contentOf value)
      else contentAt st u := by
  obtain ⟨t, v⟩ := u
  obtain ⟨k, hk⟩ := applyTopicRecord_schema (F := F) st hr
  rw [contentAt_eq, contentAt_eq, hk, entryOf_applySchema hwf]
  simp only [applySchema_byId, BTreeMap.getElem?_insert]
  by_cases hu : value.subject = t ∧ value.version = v
  · obtain ⟨rfl, rfl⟩ := hu
    simp
  · have hne : ¬ (t, v) = (value.subject, value.version) := by
      intro heq
      obtain ⟨rfl, rfl⟩ := Prod.mk.inj heq
      exact hu ⟨rfl, rfl⟩
    rw [if_neg hu]
    cases he : entryOf st t v with
    | none => simp [hne]
    | some e =>
      by_cases hid : e.id = value.id
      · simp [hid]
      · simp [hid, hne]

/-- Where a record is indexed its content is written and its version is not bound yet. -/
theorem contentAt_prepareSchema (value : SchemaValue) (u : String × SchemaVersion) :
    contentAt (st.prepareSchema value) u =
      if (entryOf st u.1 u.2).map (·.id) = some value.id then some (contentOf value)
      else contentAt st u := by
  obtain ⟨t, v⟩ := u
  have hsubjects : (st.prepareSchema value).subjects = st.subjects := by rw [prepareSchema_eq]
  have hbyId : ∀ n : SchemaId, (st.prepareSchema value).byId[n]? =
      if n = value.id then some (contentOf value) else st.byId[n]? := by
    intro n
    rw [prepareSchema_eq]
    exact BTreeMap.getElem?_insert st.byId value.id n (contentOf value)
  rw [contentAt_eq, contentAt_eq, entryOf_congr hsubjects]
  simp only [hbyId]
  cases he : entryOf st t v with
  | none => simp
  | some e =>
    by_cases hid : e.id = value.id
    · simp [hid]
    · simp [hid]

end Records

/-! ## The fuel is enough -/

private theorem mem_boundVersions {v : String × SchemaVersion} (h : contentAt st v ≠ none) :
    v ∈ st.boundVersions.toFinset := by
  obtain ⟨s, v⟩ := v
  rw [contentAt_eq] at h
  cases he : entryOf st s v with
  | none => simp [he] at h
  | some e =>
    cases hs : st.subjects[s]? with
    | none => simp [entryOf, entries, hs] at he
    | some l =>
      have hfind : findVersion v l = some e := by simpa [entryOf, entries, hs] using he
      obtain ⟨hmem, hver⟩ := findVersion_some hfind
      simp only [StoreState.boundVersions, List.mem_toFinset, List.mem_flatMap, List.mem_map]
      exact ⟨(s, l), Std.ExtTreeMap.mem_toList_iff_getElem?_eq_some.mpr hs, e, hmem, by rw [hver]⟩

/-- The walk that `resolve_closure` makes. -/
private def closureWalk (st : StoreState) (refs : List SchemaReference) :
    Except (Fault SchemaReference) (Progress (String × SchemaVersion) Emitted) :=
  walk (graph st) (emit st) (st.boundVersions.length + 1) refs ⟨∅, ([], ∅)⟩

private theorem resolveClosure_eq (st : StoreState) (refs : List SchemaReference) :
    st.resolveClosure refs = (·.out) <$> toResult (closureWalk st refs) := by
  unfold StoreState.resolveClosure closureWalk
  rw [← resolveInto_eq_walk]
  rfl

private theorem next_bound (st : StoreState) :
    ∀ v, (graph st).next v ≠ none → v ∈ st.boundVersions.toFinset := by
  intro v hv
  exact mem_boundVersions fun hc => hv (by simp [graph, hc])

private theorem boundVersions_card (st : StoreState) :
    st.boundVersions.toFinset.card < st.boundVersions.length + 1 :=
  Nat.lt_succ_of_le (List.toFinset_card_le _)

private theorem closureWalk_ne_fuel (st : StoreState) (refs : List SchemaReference) :
    closureWalk st refs ≠ .error .fuel :=
  walk_ne_fuel (next_bound st) _ refs _ (by simpa using boundVersions_card st)

/-- Any amount of fuel that is enough finds the closure. -/
theorem resolveClosure_of_resolveInto {fuel : ℕ} {refs : List SchemaReference} {acc : Resolution}
    (h : st.resolveInto fuel refs {} = .ok acc) : st.resolveClosure refs = .ok acc.out := by
  have hwalk : toResult (walk (graph st) (emit st) fuel refs ⟨∅, ([], ∅)⟩) = .ok acc := by
    rw [← resolveInto_eq_walk]
    exact h
  have hne : walk (graph st) (emit st) fuel refs ⟨∅, ([], ∅)⟩ ≠ .error .fuel := by
    intro hf
    simp [hf, toResult] at hwalk
  -- Both walks end before their fuel does, so they agree at the larger amount.
  have heq : walk (graph st) (emit st) fuel refs ⟨∅, ([], ∅)⟩ = closureWalk st refs := by
    rw [closureWalk, ← walk_mono (le_max_left fuel (st.boundVersions.length + 1)) refs _ hne]
    exact walk_mono (le_max_right _ _) refs _ (closureWalk_ne_fuel st refs)
  rw [resolveClosure_eq, ← heq, hwalk]
  rfl

/-- More fuel than there are stored versions changes nothing. -/
theorem resolveInto_enough {fuel : ℕ} (hfuel : st.boundVersions.length < fuel)
    (refs : List SchemaReference) :
    (·.out) <$> st.resolveInto fuel refs {} = st.resolveClosure refs := by
  have hwalk : walk (graph st) (emit st) fuel refs ⟨∅, ([], ∅)⟩ = closureWalk st refs :=
    walk_mono hfuel refs _ (closureWalk_ne_fuel st refs)
  rw [resolveClosure_eq, ← hwalk, ← resolveInto_eq_walk]
  rfl

/-- A list without a closure leads to a version without content, which the error names. -/
theorem resolveClosure_error {refs : List SchemaReference} {e : Failure}
    (h : st.resolveClosure refs = .error e) :
    ∃ r : SchemaReference, Reach (graph st) refs (r.subject, r.version) ∧
      contentAt st (r.subject, r.version) = none ∧
      e = .error (.referenceNotFound (referenceLabel r)) := by
  rw [resolveClosure_eq] at h
  cases hw : closureWalk st refs with
  | ok w => simp [hw, toResult, Functor.map, Except.map] at h
  | error f =>
    cases f with
    | fuel => exact absurd hw (closureWalk_ne_fuel st refs)
    | missing r =>
      obtain ⟨hr, hn⟩ := walk_missing _ refs _ r hw
      refine ⟨r, hr, by simpa [graph] using hn, ?_⟩
      simpa [hw, toResult, toFailure, Functor.map, Except.map, eq_comm] using h

/-! ## When a reference list resolves -/

/-- The reference list has a closure. -/
def Resolves (st : StoreState) (refs : List SchemaReference) : Prop :=
  ∃ out, st.resolveClosure refs = .ok out

/-- A reference list resolves exactly when every version it reaches has content. -/
theorem resolves_iff (st : StoreState) (refs : List SchemaReference) :
    Resolves st refs ↔ ∀ v, Reach (graph st) refs v → contentAt st v ≠ none := by
  -- A version is a node of the graph when it has content.
  have hnext : ∀ v, (graph st).next v ≠ none ↔ contentAt st v ≠ none := by
    intro v
    simp [graph]
  have hwalk : (∃ w', closureWalk st refs = .ok w') ↔ ∀ v, Reach (graph st) refs v →
      (graph st).next v ≠ none :=
    walk_ok_iff (next_bound st) (boundVersions_card st) refs (([], ∅) : Emitted)
  simp only [hnext] at hwalk
  rw [← hwalk, Resolves, resolveClosure_eq]
  cases closureWalk st refs with
  | error f => simp [toResult, Functor.map, Except.map]
  | ok w => simp [toResult, Functor.map, Except.map]

/-- A closure is emitted along the finishing order of a walk. -/
theorem resolveClosure_finished {refs : List SchemaReference} {out : List ResolvedReference}
    (h : st.resolveClosure refs = .ok out) :
    ∃ l w', Finished (graph st) (emit st) refs ⟨∅, ([], ∅)⟩ w' l ∧ w'.out.1 = out ∧
      ∀ v, Reach (graph st) refs v → v ∈ l.map (graph st).target := by
  rw [resolveClosure_eq] at h
  cases hw : closureWalk st refs with
  | error f => simp [hw, toResult, Functor.map, Except.map] at h
  | ok w' =>
    obtain ⟨l, hl⟩ := walk_finished _ refs _ w' hw
    refine ⟨l, w', hl, by simpa [hw, toResult, toResolution, Functor.map, Except.map] using h, ?_⟩
    intro v hv
    have hvisited := (hl.visited v).mp (hv.visited rfl (walk_closes _ refs _ w' hw))
    simpa using hvisited

/-! ## What the closure depends on -/

/-- States that store the same content for every version a list reaches give it the same
closure. -/
theorem resolveClosure_congr {refs : List SchemaReference}
    (h : ∀ v, Reach (graph st) refs v → contentAt st' v = contentAt st v) :
    st'.resolveClosure refs = st.resolveClosure refs := by
  -- The two graphs agree on every reference that can be met.
  have hagree : AgreeOn (graph st) (graph st') (emit st) (emit st')
      fun r => Reach (graph st) refs (r.subject, r.version) := by
    refine ⟨fun _ _ => rfl, ?_, ?_, ?_⟩
    · intro r hr
      simp only [graph] at hr ⊢
      rw [h _ hr]
    · intro r hr
      funext σ
      simp only [emit, h _ hr]
    · intro r es r' hr hn hr'
      exact Reach.step (G := graph st) hr hn hr'
  have hstart : ∀ r ∈ refs, Reach (graph st) refs (r.subject, r.version) := fun r hr =>
    Reach.direct (G := graph st) hr
  -- Both walks end before their fuel does, so they may be compared at the larger amount.
  let f := st.boundVersions.length + 1
  let f' := st'.boundVersions.length + 1
  have hleft : walk (graph st') (emit st') (max f f') refs ⟨∅, ([], ∅)⟩ = closureWalk st' refs :=
    walk_mono (le_max_right f f') refs _ (closureWalk_ne_fuel st' refs)
  have hright : walk (graph st) (emit st) (max f f') refs ⟨∅, ([], ∅)⟩ = closureWalk st refs :=
    walk_mono (le_max_left f f') refs _ (closureWalk_ne_fuel st refs)
  rw [resolveClosure_eq, resolveClosure_eq, ← hleft, ← hright,
    walk_congr hagree (max f f') refs _ hstart]

/-- A list that resolves keeps resolving, with the same closure, while the contents it
reaches stay. -/
theorem Resolves.congr {refs : List SchemaReference} (hr : Resolves st refs)
    (h : ∀ v reg, Reach (graph st) refs v → contentAt st v = some reg →
      contentAt st' v = some reg) :
    st'.resolveClosure refs = st.resolveClosure refs := by
  refine resolveClosure_congr fun v hv => ?_
  cases hc : contentAt st v with
  | none => exact absurd hc ((resolves_iff st refs).mp hr v hv)
  | some reg => exact h v reg hv hc

end KrabkaRegistry.Store
