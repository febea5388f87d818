import KrabkaRegistry.Serde.Registry
import KrabkaRegistry.Store.Closure

/-!
# The Client Resolves the Store's Closure

The store walks references depth first and skips a `(subject, version)` it has visited.  The
client walks them too, but skips a reference whose name it already has, refuses a version it is
in the middle of, and stops at `MAX_REFERENCE_DEPTH`.

`referenceSources_eq_closure` says that the two walks find the same names in the same order,
with the same texts, wherever names and versions correspond one to one and no chain of
references is too long for the client.  The two walks are compared state by state: `Agrees`
is what holds between them before and after every reference.
-/

namespace KrabkaRegistry.Guarantees

open KrabkaRegistry.Library.DepthFirst
open KrabkaRegistry.Serde (RegistryClient RegistryError SubjectVersionResponse)
open KrabkaRegistry.Serde.RegistryClient (Sources maxReferenceDepth)
open KrabkaRegistry.Store
open StoreState (Resolution)

variable {st : StoreState} {client : RegistryClient}

/-! ## Fetches answered by the store -/

/-- Every fetch of a version is answered from the store, soft-deleted versions included. -/
def AnsweredBy (client : RegistryClient) (st : StoreState) : Prop :=
  ∀ subject version found, st.version subject (some version) true = some found →
    ∃ resp, client.subjectVersion subject version = .ok resp ∧
      resp.schema = found.schema ∧ resp.references = found.references

/-- With deleted versions included, a version is found exactly when it has content. -/
theorem version_of_contentAt {subject : String} {version : SchemaVersion} {reg : RegisteredSchema}
    (h : contentAt st (subject, version) = some reg) :
    ∃ found, st.version subject (some version) true = some found ∧
      found.schema = reg.schema ∧ found.references = reg.references := by
  unfold contentAt StoreState.idOf at h
  unfold StoreState.version
  cases hs : st.subjects[subject]? with
  | none => simp [hs] at h
  | some entries =>
    simp only [hs] at h
    cases he : entries.find? fun v => v.version = version with
    | none => simp [he] at h
    | some e =>
      have hreg : st.byId[e.id]? = some reg := by simpa [he] using h
      refine ⟨⟨e.id, e.version, reg.ty, reg.schema, reg.references, reg.messageType, reg.extra⟩,
        ?_, rfl, rfl⟩
      simp [he, hreg]

theorem version_isSome_iff {subject : String} {version : SchemaVersion} :
    (st.version subject (some version) true).isSome ↔ contentAt st (subject, version) ≠ none := by
  unfold contentAt StoreState.idOf StoreState.version
  cases hs : st.subjects[subject]? with
  | none => simp
  | some entries =>
    cases he : entries.find? fun v => v.version = version with
    | none => simp [he]
    | some e => simp [he]

theorem AnsweredBy.fetch (h : AnsweredBy client st) {subject : String} {version : SchemaVersion}
    {reg : RegisteredSchema} (hc : contentAt st (subject, version) = some reg) :
    ∃ fetched, client.schemaBySubjectVersion subject version = .ok fetched ∧
      fetched.schema = reg.schema ∧ fetched.references = reg.references := by
  obtain ⟨found, hfound, hschema, hrefs⟩ := version_of_contentAt hc
  obtain ⟨resp, hresp, hs, hr⟩ := h _ _ _ hfound
  refine ⟨⟨resp.schema, .fromWireName resp.schemaType, resp.messageType, resp.references⟩, ?_,
    hs.trans hschema, hr.trans hrefs⟩
  rw [RegistryClient.schemaBySubjectVersion, hresp]
  rfl

/-! ## The two walks side by side -/

/-- Within a closure, names and versions name each other. -/
def OneToOne (st : StoreState) (refs : List SchemaReference) : Prop :=
  ∀ r r', Met (graph st) refs r → Met (graph st) refs r' →
    (r.name = r'.name ↔ (r.subject, r.version) = (r'.subject, r'.version))

/-- What the client has found and what the store has found, in the middle of their walks over
one closure. -/
structure Agrees (st : StoreState) (root : List SchemaReference) (w : Sources) (acc : Resolution) :
    Prop where
  order : w.order = acc.out.map (·.name)
  texts : ∀ r ∈ acc.out, w.sources[r.name]? = some r.schema
  names : ∀ name, w.sources.contains name = true ↔ name ∈ acc.out.map (·.name)
  seen : ∀ name, name ∈ acc.seenNames ↔ name ∈ acc.out.map (·.name)
  -- A version the store has visited is one the client has found or is in the middle of.
  visited : ∀ r, Met (graph st) root r → ((r.subject, r.version) ∈ acc.visited ↔
    w.sources.contains r.name = true ∨ (r.subject, r.version) ∈ w.resolving)
  pending : ∀ r, Met (graph st) root r → (r.subject, r.version) ∈ w.resolving →
    w.sources.contains r.name = false

variable {root : List SchemaReference}

theorem Agrees.start : Agrees st root ⟨∅, [], []⟩ {} where
  order := rfl
  texts := by simp
  names := by simp
  seen := by simp
  visited := by simp
  pending := by simp

/-- Both walks enter a version that neither has met. -/
theorem Agrees.enter {w : Sources} {acc : Resolution} (h : Agrees st root w acc)
    (hone : OneToOne st root) {r : SchemaReference} (hr : Met (graph st) root r)
    (hname : w.sources.contains r.name = false) :
    Agrees st root { w with resolving := (r.subject, r.version) :: w.resolving }
      { acc with visited := insert (r.subject, r.version) acc.visited } where
  order := h.order
  texts := h.texts
  names := h.names
  seen := h.seen
  visited := by
    intro r' hr'
    simp only [Finset.mem_insert, List.mem_cons, h.visited r' hr']
    tauto
  pending := by
    intro r' hr' hmem
    rcases List.mem_cons.mp hmem with heq | hmem
    · rw [(hone r' r hr' hr).mpr heq]
      exact hname
    · exact h.pending r' hr' hmem

/-- Both walks leave a version and record it under the name of its reference. With one name for each
version, the client's mark on the version and the store's mark on the name mean the same. -/
theorem Agrees.leave {found : Sources} {acc : Resolution} {resolving : List (String × SchemaVersion)}
    (h : Agrees st root found acc) (hone : OneToOne st root) {r : SchemaReference}
    (hr : Met (graph st) root r) (hresolving : found.resolving = (r.subject, r.version) :: resolving)
    (hout : (r.subject, r.version) ∉ resolving) (ty : SchemaType) (schema : String) :
    Agrees st root
      ⟨found.sources.insert r.name schema, found.order ++ [r.name],
        found.resolving.erase (r.subject, r.version)⟩
      { acc with
        out := acc.out ++ [⟨r.name, ty, schema⟩]
        seenNames := insert r.name acc.seenNames } := by
  have herase : found.resolving.erase (r.subject, r.version) = resolving := by
    rw [hresolving, List.erase_cons_head]
  -- The name is emitted for the first time: while the version is being resolved its name is
  -- pending.
  have hfresh : r.name ∉ acc.out.map (·.name) := by
    rw [← h.names]
    simp [h.pending r hr (by rw [hresolving]; exact List.mem_cons_self)]
  constructor
  · simp [h.order]
  · intro r' hr'
    rw [BTreeMap.getElem?_insert]
    rcases List.mem_append.mp hr' with hold | hnew
    · -- An older name is a different one, so its text is still there.
      have hne : r'.name ≠ r.name := by
        intro heq
        exact hfresh (heq ▸ List.mem_map_of_mem hold)
      rw [if_neg hne]
      exact h.texts r' hold
    · obtain rfl := List.mem_singleton.mp hnew
      simp
  · intro name
    rw [BTreeMap.contains_insert_iff, h.names, List.map_append, List.mem_append,
      List.map_singleton, List.mem_singleton, or_comm]
  · intro name
    simp only [Finset.mem_insert, h.seen, List.map_append, List.mem_append]
    simp [or_comm]
  · intro r' hr'
    -- One name a version, so marking the version and knowing the name are the same.
    have hsame := hone r' r hr' hr
    show (r'.subject, r'.version) ∈ acc.visited ↔ _
    rw [herase, h.visited r' hr', hresolving, List.mem_cons, ← hsame,
      BTreeMap.contains_insert_iff]
    tauto
  · intro r' hr' hmem
    rw [herase] at hmem
    have hne : r.name ≠ r'.name := by
      intro heq
      exact hout ((hone r r' hr hr').mp heq ▸ hmem)
    have hold := h.pending r' hr' (by rw [hresolving]; exact List.mem_cons_of_mem _ hmem)
    rw [← Bool.not_eq_true, BTreeMap.contains_insert_iff, hold]
    simp [Ne.symm hne]

/-! ## One reference, and a list of them -/

/-- Where a walk over `refs` stands: what is in the middle of being resolved lies above `refs`,
and its chains are bounded. -/
structure Position (st : StoreState) (root refs : List SchemaReference) (w : Sources) : Prop where
  met : ∀ r ∈ refs, Met (graph st) root r
  above : ∀ v ∈ w.resolving, Within (graph st) v refs
  bounded : ∀ v ∈ w.resolving, ∃ n, Shallow (graph st) n (((graph st).next v).getD [])

/-- The two walks agree after `refs`, and the client is in the middle of the same versions as
before them. -/
def Together (st : StoreState) (root : List SchemaReference) (w : Sources)
    (left : Except RegistryError Sources) (right : Result Resolution) : Prop :=
  ∃ w' acc', left = .ok w' ∧ right = .ok acc' ∧ Agrees st root w' acc' ∧
    w'.resolving = w.resolving

section Step

variable (hanswers : AnsweredBy client st)
  (hexists : ∀ v, Reach (graph st) root v → contentAt st v ≠ none) (hone : OneToOne st root)
include hanswers hexists hone

private theorem together_ref {n : ℕ} {refs : List SchemaReference} {w : Sources}
    {acc : Resolution} {belowC : List SchemaReference → Sources → Except RegistryError Sources}
    {belowS : List SchemaReference → Resolution → Result Resolution}
    (hbelow : ∀ refs w acc, Shallow (graph st) n refs → Position st root refs w →
      Agrees st root w acc → Together st root w (belowC refs w) (belowS refs acc))
    (hdepth : Shallow (graph st) (n + 1) refs) (hpos : Position st root refs w)
    (h : Agrees st root w acc) {r : SchemaReference} (hr : r ∈ refs) :
    Together st root w (client.referenceStep belowC w r) (st.resolveRef belowS acc r) := by
  have hmet := hpos.met r hr
  -- The client never meets a version it is in the middle of: that would be a way back.
  have hacyclic : (r.subject, r.version) ∉ w.resolving := by
    intro hmem
    obtain ⟨n, hn⟩ := hpos.bounded _ hmem
    exact (hpos.above _ hmem).target_ne hn hr rfl
  have hvisited := h.visited r hmet
  by_cases hname : w.sources.contains r.name = true
  · -- Both walks have this reference behind them.
    refine ⟨w, acc, ?_, ?_, h, rfl⟩
    · rw [RegistryClient.referenceStep, if_pos hname]
    · rw [StoreState.resolveRef, if_pos (hvisited.mpr (.inl hname))]
  · have hnew : (r.subject, r.version) ∉ acc.visited := by
      rw [hvisited]
      simp [hname, hacyclic]
    have hreach : Reach (graph st) root (r.subject, r.version) := hmet.reach
    obtain ⟨reg, hreg⟩ := Option.ne_none_iff_exists'.mp (hexists _ hreach)
    have hnext : (graph st).next (r.subject, r.version) = some reg.references := by
      simp [graph, hreg]
    obtain ⟨fetched, hfetched, hschema, hrefs⟩ := hanswers.fetch hreg
    -- One level down, with this version on the stack of both.
    have hpos' : Position st root reg.references
        { w with resolving := (r.subject, r.version) :: w.resolving } := by
      have hshallow := hdepth.next hr hnext
      refine ⟨fun r' hr' => hmet.next hnext hr', ?_, ?_⟩
      · intro v hv
        rcases List.mem_cons.mp hv with rfl | hv
        · exact Within.self hnext
        · exact (hpos.above v hv).next hr hnext
      · intro v hv
        rcases List.mem_cons.mp hv with rfl | hv
        · exact ⟨n, by rw [hnext]; exact hshallow⟩
        · exact hpos.bounded v hv
    obtain ⟨found, acc₁, hfound, hacc₁, hagree, hresolving⟩ :=
      hbelow _ _ _ (hdepth.next hr hnext) hpos' (h.enter hone hmet (Bool.eq_false_of_not_eq_true hname))
    have hfresh : r.name ∉ acc₁.seenNames := by
      rw [hagree.seen, ← hagree.names,
        hagree.pending r hmet (by rw [hresolving]; exact List.mem_cons_self)]
      simp
    refine ⟨_, _, ?_, ?_, hagree.leave hone hmet hresolving hacyclic reg.ty reg.schema, ?_⟩
    · simp only [RegistryClient.referenceStep, hname, hacyclic, if_false, hfetched, hrefs, hschema, hfound, bind,
        Except.bind, pure, Except.pure, Bool.false_eq_true]
    · have hcontent : (st.idOf r.subject r.version).bind (st.byId[·]?) = some reg := hreg
      simp only [StoreState.resolveRef, hnew, if_false, hcontent, hacc₁, bind, Except.bind, hfresh,
        pure, Except.pure]
    · simp [hresolving]

private theorem together_foldlM {n : ℕ}
    {belowC : List SchemaReference → Sources → Except RegistryError Sources}
    {belowS : List SchemaReference → Resolution → Result Resolution}
    (hbelow : ∀ refs w acc, Shallow (graph st) n refs → Position st root refs w →
      Agrees st root w acc → Together st root w (belowC refs w) (belowS refs acc))
    {refs : List SchemaReference} (hdepth : Shallow (graph st) (n + 1) refs) :
    ∀ (rest : List SchemaReference) (w : Sources) (acc : Resolution), (∀ r ∈ rest, r ∈ refs) →
      Position st root refs w → Agrees st root w acc →
      Together st root w (rest.foldlM (client.referenceStep belowC) w)
        (rest.foldlM (st.resolveRef belowS) acc) := by
  intro rest
  induction rest with
  | nil =>
    intro w acc _ _ h
    exact ⟨w, acc, rfl, rfl, h, rfl⟩
  | cons r rest ih =>
    intro w acc hsub hpos h
    obtain ⟨w₁, acc₁, hw₁, hacc₁, h₁, hres₁⟩ :=
      together_ref hanswers hexists hone hbelow hdepth hpos h (hsub r List.mem_cons_self)
    -- The stack is the same again, so the position is.
    have hpos₁ : Position st root refs w₁ :=
      ⟨hpos.met, by rw [hres₁]; exact hpos.above, by rw [hres₁]; exact hpos.bounded⟩
    obtain ⟨w₂, acc₂, hw₂, hacc₂, h₂, hres₂⟩ :=
      ih w₁ acc₁ (fun r' hr' => hsub r' (List.mem_cons_of_mem _ hr')) hpos₁ h₁
    refine ⟨w₂, acc₂, ?_, ?_, h₂, hres₂.trans hres₁⟩
    · rw [List.foldlM_cons, hw₁]
      exact hw₂
    · rw [List.foldlM_cons, hacc₁]
      exact hacc₂

/-- Over a list of references that the client has levels left for, the two walks stay
together. -/
theorem together_walk (n : ℕ) :
    ∀ (refs : List SchemaReference) (w : Sources) (acc : Resolution), Shallow (graph st) n refs →
      Position st root refs w → Agrees st root w acc →
      Together st root w (client.resolveReferenceSources (n + 1) refs w)
        (st.resolveInto (n + 1) refs acc) := by
  induction n with
  | zero =>
    intro refs w acc hdepth hpos h
    cases refs with
    | nil => exact ⟨w, acc, rfl, rfl, h, rfl⟩
    | cons r refs => exact absurd (hdepth.pos List.mem_cons_self) (lt_irrefl 0)
  | succ n ih =>
    intro refs w acc hdepth hpos h
    rw [RegistryClient.resolveReferenceSources_succ, StoreState.resolveInto]
    exact together_foldlM hanswers hexists hone ih hdepth refs w acc (fun r hr => hr) hpos h

end Step

/-- **The client resolves the store's closure.**  Where every reachable version is stored, names
and versions correspond one to one, and no chain of references has more than 63 links (so that
the graph has no cycle), the client's sources are the store's closure: the same names, in the
same order, with the same texts. -/
theorem referenceSources_eq_closure (st : StoreState) (client : RegistryClient)
    (refs : List SchemaReference) (hanswers : AnsweredBy client st)
    (hexists : ∀ subject version, Reach (graph st) refs (subject, version) →
      (st.version subject (some version) true).isSome)
    (hone : OneToOne st refs) (hchains : Shallow (graph st) 63 refs) :
    ∃ sources order out, client.referenceSourcesOrdered refs = .ok (sources, order) ∧
      st.resolveClosure refs = .ok out ∧ order = out.map (·.name) ∧
      (∀ r ∈ out, sources[r.name]? = some r.schema) ∧
      ∀ name, sources.contains name = true ↔ name ∈ out.map (·.name) := by
  have hcontent : ∀ v, Reach (graph st) refs v → contentAt st v ≠ none := by
    rintro ⟨subject, version⟩ hv hnone
    have hsome := hexists subject version hv
    rw [version_isSome_iff] at hsome
    exact hsome hnone
  have hpos : Position st refs refs ⟨∅, [], []⟩ :=
    ⟨fun r hr => .inl hr, by simp, by simp⟩
  obtain ⟨w, acc, hw, hacc, h, -⟩ :=
    together_walk hanswers hcontent hone 63 refs _ _ hchains hpos .start
  refine ⟨w.sources, w.order, acc.out, ?_, resolveClosure_of_resolveInto hacc, h.order, h.texts,
    h.names⟩
  have hwalk : client.resolveReferenceSources maxReferenceDepth refs ⟨∅, [], []⟩ = .ok w := hw
  rw [RegistryClient.referenceSourcesOrdered, hwalk]
  rfl

/-! ### A store with one dependency -/

/-- A client whose fetches the store answers, and whose other calls are refused. -/
def clientOf (st : StoreState) : RegistryClient where
  register _ _ := .error (.registryTransport "refused")
  lookup _ _ := .error (.registryTransport "refused")
  latest _ := .error (.registryTransport "refused")
  subjectVersion subject version :=
    match st.version subject (some version) true with
    | some found => .ok ⟨found.id.toNat.toUInt32, found.version, found.schema, found.ty.wireName,
        found.messageType, found.references⟩
    | none => .error (.registryStatus 404 40402 "Version not found.")

theorem clientOf_answeredBy (st : StoreState) : AnsweredBy (clientOf st) st := by
  intro subject version found hfound
  refine ⟨⟨found.id.toNat.toUInt32, found.version, found.schema, found.ty.wireName,
    found.messageType, found.references⟩, ?_, rfl, rfl⟩
  simp only [clientOf, hfound]

private def refA : SchemaReference := ⟨"a.json", "a", 1⟩

private def refB : SchemaReference := ⟨"b.json", "b", 1⟩

/-- `b` refers to `a`, which is soft-deleted. -/
def dependentState : StoreState where
  subjects := .ofList [("a", [⟨1, 1, true⟩]), ("b", [⟨1, 2, false⟩])] compare
  byId := .ofList [(1, ⟨.json, "true", [], none, ∅⟩), (2, ⟨.json, "false", [refA], none, ∅⟩)] compare
  defaultCompatibility := "BACKWARD"
  defaultMode := "READWRITE"

private theorem next_b : (graph dependentState).next ("b", 1) = some [refA] := by decide +kernel

private theorem next_a : (graph dependentState).next ("a", 1) = some [] := by decide +kernel

private theorem dependent_met {r : SchemaReference} (h : Met (graph dependentState) [refB] r) :
    r = refB ∨ r = refA := by
  refine h.closed (P := fun r => r = refB ∨ r = refA)
    (fun e he => .inl (List.mem_singleton.mp he)) fun e es e' he hn he' => ?_
  rcases he with rfl | rfl
  · obtain rfl := Option.some.inj (next_b.symm.trans hn)
    exact .inr (List.mem_singleton.mp he')
  · obtain rfl := Option.some.inj (next_a.symm.trans hn)
    cases he'

private theorem dependent_shallow : Shallow (graph dependentState) 63 [refB] := by
  have hb : Shallow (graph dependentState) 1 [refA] := by
    refine .succ fun e he => ?_
    obtain rfl := List.mem_singleton.mp he
    exact ⟨[], next_a, .nil _⟩
  have hroot : Shallow (graph dependentState) 2 [refB] := by
    refine .succ fun e he => ?_
    obtain rfl := List.mem_singleton.mp he
    exact ⟨_, next_b, hb⟩
  exact fun chain hchain => (hroot chain hchain).trans (by decide)

/-- The client finds `a` before `b`, as the store does. -/
theorem referenceSources_dependent :
    ∃ sources order out,
      (clientOf dependentState).referenceSourcesOrdered [⟨"b.json", "b", 1⟩] =
        .ok (sources, order) ∧
      dependentState.resolveClosure [⟨"b.json", "b", 1⟩] = .ok out ∧
      order = out.map (·.name) ∧ (∀ r ∈ out, sources[r.name]? = some r.schema) ∧
      ∀ name, sources.contains name = true ↔ name ∈ out.map (·.name) := by
  refine referenceSources_eq_closure dependentState (clientOf dependentState) [refB]
    (clientOf_answeredBy _) ?_ ?_ dependent_shallow
  · intro subject version hreach
    obtain ⟨e, he, htarget⟩ := hreach.met
    have hall : ∀ e ∈ [refB, refA],
        (dependentState.version e.subject (some e.version) true).isSome := by decide +kernel
    obtain ⟨rfl, rfl⟩ := Prod.mk.inj htarget
    exact hall e (by simpa using dependent_met he)
  · intro r r' hr hr'
    rcases dependent_met hr with rfl | rfl <;> rcases dependent_met hr' with rfl | rfl <;> decide

end KrabkaRegistry.Guarantees
