import KrabkaRegistry.Store.Closure
import KrabkaRegistry.Guarantees.Ids

/-!
# Reference Closures

- `resolution_ends_exactly`: in every replayed state `resolve_closure` ends, whatever the
  references are, and fails exactly when they lead to a version that is not bound.
- `closure_supplies_names_iff`: if no name is used for two versions, a closure holds every name
  once and in order exactly when no version is met under two names.
- `alias_not_supplied` is a version that is referred to under two names.
-/

namespace KrabkaRegistry.Guarantees

open KrabkaRegistry.Format (Formats)
open KrabkaRegistry.Kafkastore
open KrabkaRegistry.Library.DepthFirst
open KrabkaRegistry.Store

variable {F : Formats} {d : Defaults} {st : StoreState}

/-! ## Termination and failures -/

/-- A version has content exactly when it is bound. -/
theorem contentAt_eq_none_iff (hst : Consistent F st) (u : String × SchemaVersion) :
    contentAt st u = none ↔ entryOf st u.1 u.2 = none := by
  obtain ⟨s, v⟩ := u
  rw [contentAt_eq]
  cases he : entryOf st s v with
  | none => simp
  | some e =>
    obtain ⟨reg, hreg⟩ := hst.entry_stored he
    simp [hreg]

/-- Resolution ends in every replayed state, and fails exactly on a list that leads to a
version without an entry. -/
theorem resolution_ends_exactly (log : List TopicRecord) (refs : List SchemaReference) :
    let st := replay F d.state log
    (∀ fuel, st.boundVersions.length < fuel →
      (·.out) <$> st.resolveInto fuel refs {} = st.resolveClosure refs) ∧
    st.resolveClosure refs ≠ .error .fuel ∧
    ((∃ label, st.resolveClosure refs = .error (.error (.referenceNotFound label))) ↔
      ∃ u, Reach (graph st) refs u ∧ entryOf st u.1 u.2 = none) := by
  intro st
  have hst : Consistent F st := replay_consistent (d.state_consistent F) log
  refine ⟨fun fuel hfuel => resolveInto_enough hfuel refs, ?_, ?_⟩
  · intro h
    obtain ⟨r, _, _, hr⟩ := resolveClosure_error h
    cases hr
  -- With fuel left, the only error names a version that has no content, which is one without an
  -- entry.
  · constructor
    · rintro ⟨label, h⟩
      obtain ⟨r, hr, hnone, _⟩ := resolveClosure_error h
      exact ⟨_, hr, (contentAt_eq_none_iff hst _).mp hnone⟩
    · rintro ⟨u, hu, hnone⟩
      cases hres : st.resolveClosure refs with
      | ok out =>
        have hall := (resolves_iff st refs).mp ⟨out, hres⟩ u hu
        exact absurd ((contentAt_eq_none_iff hst u).mpr hnone) hall
      | error e =>
        obtain ⟨r, _, _, rfl⟩ := resolveClosure_error hres
        exact ⟨_, rfl⟩

/-! ## Names and order -/

/-- The version that a reference names. -/
def refTarget (r : SchemaReference) : String × SchemaVersion := (r.subject, r.version)

/-- Every name that is met occurs once, with the type and the text of its target. -/
def SuppliesNames (st : StoreState) (refs : List SchemaReference)
    (out : List ResolvedReference) : Prop :=
  ∀ r, Met (graph st) refs r → ∃ reg, contentAt st (refTarget r) = some reg ∧
    (out.filter fun x => x.name = r.name) = [⟨r.name, reg.ty, reg.schema⟩]

/-- Every schema that is met comes after the schemas it refers to. -/
def DependenciesFirst (st : StoreState) (refs : List SchemaReference)
    (out : List ResolvedReference) : Prop :=
  ∀ r r' reg, Met (graph st) refs r → contentAt st (refTarget r) = some reg →
    r' ∈ reg.references → ∃ l₁ x l₂, out = l₁ ++ x :: l₂ ∧ x.name = r.name ∧
      ∃ y ∈ l₁, y.name = r'.name

/-- A reference with the content of its target. -/
def resolved (st : StoreState) (r : SchemaReference) : Option ResolvedReference :=
  (contentAt st (refTarget r)).map fun reg => ⟨r.name, reg.ty, reg.schema⟩

/-- Emitting references with distinct new names whose targets have content. -/
private theorem foldl_emit (l : List SchemaReference) :
    ∀ σ : Emitted, (∀ r ∈ l, contentAt st (refTarget r) ≠ none) →
      (l.map (·.name)).Nodup → (∀ r ∈ l, r.name ∉ σ.2) →
      (l.foldl (fun σ r => emit st r σ) σ).1 = σ.1 ++ l.filterMap (resolved st) := by
  induction l with
  | nil => simp
  | cons r l ih =>
    intro σ hcontent hnodup hnew
    obtain ⟨reg, hreg⟩ := Option.ne_none_iff_exists'.mp (hcontent r List.mem_cons_self)
    obtain ⟨hr, hnodup'⟩ := List.nodup_cons.mp hnodup
    -- A name that is new is emitted with the content of its version.
    have hstep : emit st r σ =
        (σ.1 ++ [⟨r.name, reg.ty, reg.schema⟩], insert r.name σ.2) := by
      unfold emit
      rw [show contentAt st (r.subject, r.version) = some reg from hreg]
      simp only
      rw [if_neg (hnew r List.mem_cons_self)]
    have hsome : resolved st r = some ⟨r.name, reg.ty, reg.schema⟩ := by
      rw [resolved, hreg]
      rfl
    rw [List.foldl_cons, hstep, ih _ (fun x hx => hcontent x (List.mem_cons_of_mem _ hx)) hnodup',
      List.filterMap_cons_some hsome, List.append_assoc, List.singleton_append]
    intro x hx
    rw [Finset.mem_insert, not_or]
    refine ⟨fun hname => hr ?_, hnew x (List.mem_cons_of_mem _ hx)⟩
    exact List.mem_map.mpr ⟨x, hx, hname⟩

section Names

variable {refs : List SchemaReference} {out : List ResolvedReference}

/-- The finishing order of a closure in which no name is used for two versions. -/
private structure Emission (st : StoreState) (refs : List SchemaReference)
    (out : List ResolvedReference) (l : List SchemaReference) : Prop where
  out : out = l.filterMap (resolved st)
  met : ∀ r ∈ l, Met (graph st) refs r
  targets : (l.map refTarget).Nodup
  names : (l.map (·.name)).Nodup
  complete : ∀ r, Met (graph st) refs r → ∃ x ∈ l, refTarget x = refTarget r
  ordered : Acyclic (graph st) refs → Ordered (graph st) ∅ l

private theorem emission (h : st.resolveClosure refs = .ok out)
    (hnames : ∀ r r', Met (graph st) refs r → Met (graph st) refs r' → r.name = r'.name →
      refTarget r = refTarget r') : ∃ l, Emission st refs out l := by
  obtain ⟨l, w', hl, hout, hall⟩ := resolveClosure_finished h
  have hreached : ∀ v, Reach (graph st) refs v → contentAt st v ≠ none :=
    (resolves_iff st refs).mp ⟨out, h⟩
  have htargets : (l.map refTarget).Nodup := hl.nodup
  have hnodup : (l.map (·.name)).Nodup := by
    refine List.Nodup.map_on ?_ htargets.of_map
    intro x hx y hy hxy
    exact List.inj_on_of_nodup_map htargets hx hy (hnames x y (hl.met x hx) (hl.met y hy) hxy)
  refine ⟨l, ?_, hl.met, htargets, hnodup, ?_, ?_⟩
  · rw [← hout, hl.out, foldl_emit l _ (fun r hr => hreached _ (hl.met r hr).reach) hnodup
      (by simp)]
    rfl
  · intro r hr
    exact List.mem_map.mp (hall _ hr.reach)
  · intro hacyclic
    exact (hl.ordered hacyclic).mono (by simp)

/-- A reference of the finishing order is the only one of its name there, and it is emitted with the
content of its version. -/
private theorem Emission.filter_name {l : List SchemaReference} (h : Emission st refs out l)
    {x : SchemaReference} (hx : x ∈ l) {reg : RegisteredSchema}
    (hreg : contentAt st (refTarget x) = some reg) :
    (out.filter fun y => y.name = x.name) = [⟨x.name, reg.ty, reg.schema⟩] := by
  have hname : ∀ r y, resolved st r = some y → y.name = r.name := by
    intro r y hy
    obtain ⟨content, _, rfl⟩ := Option.map_eq_some_iff.mp hy
    rfl
  -- Names are distinct, so the list splits at the one entry of the name.
  have hsplit : ∀ m : List SchemaReference, (m.map (·.name)).Nodup → x ∈ m →
      ((m.filterMap (resolved st)).filter fun y => y.name = x.name) =
        [⟨x.name, reg.ty, reg.schema⟩] := by
    intro m hnodup hmem
    obtain ⟨m₁, m₂, rfl⟩ := List.append_of_mem hmem
    rw [List.map_append, List.map_cons, List.nodup_middle, List.nodup_cons] at hnodup
    obtain ⟨hnot, _⟩ := hnodup
    have hnone : ∀ m' : List SchemaReference, (∀ r ∈ m', r.name ≠ x.name) →
        ((m'.filterMap (resolved st)).filter fun y => y.name = x.name) = [] := by
      intro m' hm'
      rw [List.filter_eq_nil_iff]
      intro y hy
      obtain ⟨r, hr, hry⟩ := List.mem_filterMap.mp hy
      simpa [hname r y hry] using hm' r hr
    have hsome : resolved st x = some ⟨x.name, reg.ty, reg.schema⟩ := by
      rw [resolved, hreg]
      rfl
    rw [List.filterMap_append, List.filterMap_cons_some hsome, List.filter_append, List.filter_cons,
      hnone m₁, hnone m₂]
    · simp
    · intro r hr heq
      exact hnot (List.mem_append_right _ (List.mem_map.mpr ⟨r, hr, heq⟩))
    · intro r hr heq
      exact hnot (List.mem_append_left _ (List.mem_map.mpr ⟨r, hr, heq⟩))
  rw [h.out]
  exact hsplit l h.names hx

/-- An emitted name is the name of a reference of the finishing order. -/
private theorem Emission.of_mem {l : List SchemaReference} (h : Emission st refs out l)
    {y : ResolvedReference} (hy : y ∈ out) : ∃ x ∈ l, x.name = y.name := by
  rw [h.out] at hy
  obtain ⟨x, hx, hxy⟩ := List.mem_filterMap.mp hy
  obtain ⟨content, _, rfl⟩ := Option.map_eq_some_iff.mp hxy
  exact ⟨x, hx, rfl⟩

private theorem dependenciesFirst (h : st.resolveClosure refs = .ok out)
    {l : List SchemaReference} (he : Emission st refs out l)
    (halias : ∀ r r', Met (graph st) refs r → Met (graph st) refs r' →
      refTarget r = refTarget r' → r.name = r'.name)
    (hacyclic : Acyclic (graph st) refs) : DependenciesFirst st refs out := by
  have hreached : ∀ v, Reach (graph st) refs v → contentAt st v ≠ none :=
    (resolves_iff st refs).mp ⟨out, h⟩
  intro r r' reg hr hreg hr'
  -- `x` is the reference under which the version of `r` was emitted, and `y` that of `r'`; the
  -- order puts `y` before `x`.
  obtain ⟨x, hx, hxr⟩ := he.complete r hr
  obtain ⟨l₁, l₂, hl⟩ := List.append_of_mem hx
  have hnext : (graph st).next ((graph st).target x) = some reg.references := by
    show (contentAt st (refTarget x)).map _ = _
    rw [hxr, hreg]
    rfl
  obtain ⟨y, hy, hyr⟩ := ((he.ordered hacyclic).before hl hnext hr').resolve_left (by simp)
  have hymem : y ∈ l := by
    rw [hl]
    exact List.mem_append_left _ hy
  have hmet' : Met (graph st) refs r' := by
    refine hr.next ?_ hr'
    show (contentAt st (refTarget r)).map _ = _
    rw [hreg]
    rfl
  obtain ⟨content, hcontent⟩ := Option.ne_none_iff_exists'.mp (hreached _ (he.met y hymem).reach)
  have hresolved : ∀ z content, contentAt st (refTarget z) = some content →
      resolved st z = some ⟨z.name, content.ty, content.schema⟩ := by
    intro z content hz
    rw [resolved, hz]
    rfl
  -- Their names are those of `r` and `r'`, one version having one name.
  refine ⟨l₁.filterMap (resolved st), ⟨x.name, reg.ty, reg.schema⟩,
    l₂.filterMap (resolved st), ?_, halias x r (he.met x hx) hr hxr, ?_⟩
  · rw [he.out, hl, List.filterMap_append,
      List.filterMap_cons_some (hresolved x reg (by rw [hxr, hreg]))]
  · exact ⟨_, List.mem_filterMap.mpr ⟨y, hy, hresolved y content hcontent⟩,
      halias y r' (he.met y hymem) hmet' hyr⟩

/-- If no name is used for two versions, a closure supplies every name once, after everything
its schema refers to if there is no cycle, exactly when no version is met under two names. -/
theorem closure_supplies_names_iff (h : st.resolveClosure refs = .ok out)
    (hnames : ∀ r r', Met (graph st) refs r → Met (graph st) refs r' → r.name = r'.name →
      refTarget r = refTarget r') :
    (SuppliesNames st refs out ∧ (Acyclic (graph st) refs → DependenciesFirst st refs out)) ↔
      ∀ r r', Met (graph st) refs r → Met (graph st) refs r' → refTarget r = refTarget r' →
        r.name = r'.name := by
  obtain ⟨l, he⟩ := emission h hnames
  have hreached : ∀ v, Reach (graph st) refs v → contentAt st v ≠ none :=
    (resolves_iff st refs).mp ⟨out, h⟩
  constructor
  · rintro ⟨hsupplies, _⟩ r r' hr hr' htarget
    -- The one edge to the version that was finished carries both names.
    have hfinished : ∀ a, Met (graph st) refs a → ∃ x ∈ l, x.name = a.name ∧
        refTarget x = refTarget a := by
      intro a ha
      obtain ⟨reg, _, hfilter⟩ := hsupplies a ha
      have hmem : (⟨a.name, reg.ty, reg.schema⟩ : ResolvedReference) ∈ out := by
        have hin : (⟨a.name, reg.ty, reg.schema⟩ : ResolvedReference) ∈
            out.filter fun x => x.name = a.name := by
          rw [hfilter]
          exact List.mem_singleton_self _
        exact (List.mem_filter.mp hin).1
      obtain ⟨x, hx, hxa⟩ := he.of_mem hmem
      exact ⟨x, hx, hxa, hnames x a (he.met x hx) ha hxa⟩
    obtain ⟨x, hx, hxr, hxt⟩ := hfinished r hr
    obtain ⟨x', hx', hxr', hxt'⟩ := hfinished r' hr'
    obtain rfl : x = x' := List.inj_on_of_nodup_map he.targets hx hx' (by rw [hxt, hxt', htarget])
    rw [← hxr, hxr']
  · intro halias
    refine ⟨?_, dependenciesFirst h he halias⟩
    intro r hr
    obtain ⟨x, hx, hxr⟩ := he.complete r hr
    obtain ⟨reg, hreg⟩ := Option.ne_none_iff_exists'.mp (hreached _ hr.reach)
    have hname := halias x r (he.met x hx) hr hxr
    refine ⟨reg, hreg, ?_⟩
    rw [← hname]
    exact he.filter_name hx (by rw [hxr]; exact hreg)

end Names

/-! ### A shared version -/

/-- Two schemas refer to the version 1 of `a`, and a fourth one refers to both. -/
def diamondOps : List Op :=
  [.register { subject := "a", ty := .json, schema := "true" },
    .register { subject := "b", ty := .json, schema := "false", references := [⟨"a.json", "a", 1⟩] },
    .register { subject := "c", ty := .json, schema := "\x7b\x7d", references := [⟨"a.json", "a", 1⟩] },
    .register { subject := "d", ty := .json, schema := "\x7b\"type\":\"string\"\x7d", references :=
      [⟨"b.json", "b", 1⟩, ⟨"c.json", "c", 1⟩] }]

/-- The store after all four are registered. -/
def diamondStore : StoreState := ((World.start {}).afterAll Formats.sample diamondOps).state

/-- The references of `d`. -/
def diamondRoot : List SchemaReference := [⟨"b.json", "b", 1⟩, ⟨"c.json", "c", 1⟩]

/-- The references below `d`. -/
def diamondRefs : List SchemaReference := ⟨"a.json", "a", 1⟩ :: diamondRoot

theorem diamond_next : (graph diamondStore).next ("a", 1) = some [] ∧
    (graph diamondStore).next ("b", 1) = some [⟨"a.json", "a", 1⟩] ∧
    (graph diamondStore).next ("c", 1) = some [⟨"a.json", "a", 1⟩] := by decide +kernel

/-- Nothing else is met from `d`. -/
theorem diamond_met {r : SchemaReference} (h : Met (graph diamondStore) diamondRoot r) :
    r ∈ diamondRefs := by
  obtain ⟨ha, hb, hc⟩ := diamond_next
  refine h.closed (fun e he => List.mem_cons_of_mem _ he) fun e es e' he hn he' => ?_
  simp only [diamondRoot, List.mem_cons, List.not_mem_nil, or_false] at he
  rcases he with rfl | rfl | rfl
  · obtain rfl := Option.some.inj (ha.symm.trans hn)
    cases he'
  · obtain rfl := Option.some.inj (hb.symm.trans hn)
    obtain rfl := List.mem_singleton.mp he'
    decide
  · obtain rfl := Option.some.inj (hc.symm.trans hn)
    obtain rfl := List.mem_singleton.mp he'
    decide

/-- Each of the references has one name and names one version. -/
theorem diamond_names : ∀ r ∈ diamondRefs, ∀ r' ∈ diamondRefs,
    r.name = r'.name ↔ refTarget r = refTarget r' := by decide

/-- The version 1 of `a` under two names. -/
def aliases : List SchemaReference := [⟨"x.json", "a", 1⟩, ⟨"y.json", "a", 1⟩]

theorem aliases_met {r : SchemaReference} (h : Met (graph diamondStore) aliases r) :
    r ∈ aliases := by
  refine h.closed (fun _ hr => hr) fun e es e' he hn he' => ?_
  have htarget : ∀ r ∈ aliases, (graph diamondStore).target r = ("a", 1) := by decide
  rw [htarget e he, diamond_next.1] at hn
  obtain rfl := Option.some.inj hn
  cases he'

theorem aliases_closure :
    diamondStore.resolveClosure aliases = .ok [⟨"x.json", .json, "true"⟩] := by decide +kernel

/-- The second name is in no closure. -/
theorem alias_not_supplied :
    ∃ out, diamondStore.resolveClosure aliases = .ok out ∧
      (∀ r r', Met (graph diamondStore) aliases r → Met (graph diamondStore) aliases r' →
        r.name = r'.name → refTarget r = refTarget r') ∧
      ¬ SuppliesNames diamondStore aliases out := by
  refine ⟨_, aliases_closure, ?_, ?_⟩
  · intro r r' hr hr' _
    have hsame : ∀ r ∈ aliases, refTarget r = ("a", 1) := by decide
    rw [hsame r (aliases_met hr), hsame r' (aliases_met hr')]
  · intro hsupplies
    obtain ⟨reg, _, hfilter⟩ := hsupplies ⟨"y.json", "a", 1⟩ (.inl (by decide))
    cases hfilter

/-- `a` is supplied once and before the two schemas that refer to it; a version that has two names
is not supplied under both. -/
theorem closure_supplies_names_iff_diamond :
    ((SuppliesNames diamondStore diamondRoot
        [⟨"a.json", .json, "true"⟩, ⟨"b.json", .json, "false"⟩, ⟨"c.json", .json, "\x7b\x7d"⟩] ∧
      (Acyclic (graph diamondStore) diamondRoot → DependenciesFirst diamondStore diamondRoot
        [⟨"a.json", .json, "true"⟩, ⟨"b.json", .json, "false"⟩, ⟨"c.json", .json, "\x7b\x7d"⟩])) ↔
      ∀ r r', Met (graph diamondStore) diamondRoot r → Met (graph diamondStore) diamondRoot r' →
        refTarget r = refTarget r' → r.name = r'.name) ∧
    ((SuppliesNames diamondStore aliases [⟨"x.json", .json, "true"⟩] ∧
      (Acyclic (graph diamondStore) aliases →
        DependenciesFirst diamondStore aliases [⟨"x.json", .json, "true"⟩])) ↔
      ∀ r r', Met (graph diamondStore) aliases r → Met (graph diamondStore) aliases r' →
        refTarget r = refTarget r' → r.name = r'.name) := by
  constructor
  · refine closure_supplies_names_iff (by decide +kernel) fun r r' hr hr' hname => ?_
    exact (diamond_names r (diamond_met hr) r' (diamond_met hr')).mp hname
  · refine closure_supplies_names_iff aliases_closure fun r r' hr hr' _ => ?_
    have hsame : ∀ r ∈ aliases, refTarget r = ("a", 1) := by decide
    rw [hsame r (aliases_met hr), hsame r' (aliases_met hr')]

end KrabkaRegistry.Guarantees
