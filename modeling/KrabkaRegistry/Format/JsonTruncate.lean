import KrabkaRegistry.Format.JsonPaired

/-!
# Truncated Schemas

What a document says down to a depth: every `$ref` on the way is replaced by the schema that it
leads to, and below the depth stands the schema `{}`.  A truncation has no `$ref` where the
comparison looks, however the document refers to itself.

- `Settled.paired`: the pairs that belong together, each side followed to a schema without `$ref`;
- `verdict_truncate_iff`: the truncations are compatible exactly when those pairs are, down to
  the depth.
-/

namespace KrabkaRegistry.Format.Json

variable {L : DiffLibs}

/-! ## Following references -/

/-- Follow `$ref`s to a schema without one. -/
def settle (root : Value) (refs : RefMap) : ℕ → Value → Option Value
  | 0, v => if refOf v = none then some v else none
  | fuel + 1, v =>
    if refOf v = none then some v
    else (resolveRef v root refs).bind (settle root refs fuel)

section Settle

variable {root v s : Value} {refs : RefMap} {fuel : ℕ}

/-- A schema without `$ref` is settled. -/
theorem settle_plain (h : refOf v = none) : settle root refs fuel v = some v := by
  cases fuel <;> simp [settle, h]

/-- A settled schema has no `$ref` left. -/
theorem refOf_settle (h : settle root refs fuel v = some s) : refOf s = none := by
  induction fuel generalizing v with
  | zero =>
    rw [settle] at h
    split_ifs at h with hv
    obtain rfl := Option.some.inj h
    exact hv
  | succ fuel ih =>
    rw [settle] at h
    split_ifs at h with hv
    · obtain rfl := Option.some.inj h
      exact hv
    · obtain ⟨t, _, ht⟩ := Option.bind_eq_some_iff.mp h
      exact ih ht

/-- More fuel settles to the same schema. -/
theorem settle_succ (h : settle root refs fuel v = some s) :
    settle root refs (fuel + 1) v = some s := by
  induction fuel generalizing v with
  | zero =>
    rw [settle] at h
    split_ifs at h with hv
    rw [settle, if_pos hv, h]
  | succ fuel ih =>
    rw [settle] at h ⊢
    split_ifs at h with hv
    · rw [if_pos hv, h]
    · obtain ⟨t, hv', ht⟩ := Option.bind_eq_some_iff.mp h
      rw [if_neg hv, hv', Option.bind_some, ih ht]

/-- Without `$ref` there is no target. -/
theorem resolveRef_plain (h : refOf v = none) : resolveRef v root refs = none := by
  rw [resolveRef, h]

/-- A schema that settles has no `$ref`, or leads to one that settles with less fuel. -/
theorem settle_cases (h : settle root refs fuel v = some s) :
    (refOf v = none ∧ s = v) ∨
      ∃ less t, fuel = less + 1 ∧ resolveRef v root refs = some t ∧
        settle root refs less t = some s := by
  by_cases hv : refOf v = none
  · rw [settle_plain hv] at h
    exact .inl ⟨hv, (Option.some.inj h).symm⟩
  · cases fuel with
    | zero =>
      rw [settle, if_neg hv] at h
      cases h
    | succ fuel =>
      rw [settle, if_neg hv] at h
      obtain ⟨t, ht, hs⟩ := Option.bind_eq_some_iff.mp h
      exact .inr ⟨fuel, t, rfl, ht, hs⟩

/-- What a schema is followed to settles where the schema does. -/
theorem settle_target (h : settle root refs fuel v = some s) :
    settle root refs fuel ((resolveRef v root refs).getD v) = some s := by
  obtain ⟨hv, _⟩ | ⟨less, t, rfl, ht, hs⟩ := settle_cases h
  · rw [resolveRef_plain hv]
    exact h
  · rw [ht]
    exact settle_succ hs

end Settle

/-! ## Truncations -/

/-- A member of a schema with its subschemas replaced. -/
def shapeMember (f : Value → Value) (key : String) (v : Value) : Value :=
  if key = "properties" then
    match v with
    | .object ps => .object (ps.map fun p => (p.1, f p.2))
    | v => v
  else if key = "$defs" then .object []
  else v

/-- A schema with the schemas of its properties replaced, and nothing defined. -/
def shape (f : Value → Value) : Value → Value
  | .object members => .object (members.map fun m => (m.1, shapeMember f m.1 m.2))
  | v => v

/-- A schema down to a depth. -/
def truncate (root : Value) (refs : RefMap) (fuel : ℕ) : ℕ → Value → Value
  | 0, _ => .object []
  | n + 1, v =>
    match settle root refs fuel v with
    | some s => shape (truncate root refs fuel n) s
    | none => .object []

section Shape

variable {f : Value → Value} {v o u : Value}

/-- A map over the values is seen by a lookup as a map of its answer. -/
theorem lookup_mapValues (g : String → Value → Value) (ms : List (String × Value)) (key : String) :
    (ms.map fun m => (m.1, g m.1 m.2)).lookup key = (ms.lookup key).map (g key) := by
  induction ms with
  | nil => rfl
  | cons m ms ih =>
    obtain ⟨k, a⟩ := m
    rw [List.map_cons, List.lookup_cons, List.lookup_cons, ih]
    cases hkey : key == k with
    | true =>
      obtain rfl : key = k := by simpa using hkey
      rfl
    | false => rfl

/-- A keyword of the shape is the shaped keyword of the schema. -/
theorem get_shape (key : String) : (shape f v).get key = (v.get key).map (shapeMember f key) := by
  cases v with
  | object members => exact lookup_mapValues _ members key
  | _ => rfl

/-- Only the properties and the definitions are shaped. -/
theorem get_shape_of_ne {key : String} (h : key ≠ "properties" ∧ key ≠ "$defs") :
    (shape f v).get key = v.get key := by
  rw [get_shape]
  cases v.get key with
  | none => rfl
  | some x => simp only [Option.map_some, shapeMember, if_neg h.1, if_neg h.2]

/-- The shape has the reference the schema had. -/
@[simp] theorem refOf_shape : refOf (shape f v) = refOf v := by
  rw [refOf, get_shape_of_ne (by decide), refOf]

/-- The shape has the types the schema had. -/
@[simp] theorem typesOf_shape : typesOf (shape f v) = typesOf v := by
  rw [typesOf, get_shape_of_ne (by decide), typesOf]

/-- The declared properties are the shaped ones. -/
theorem declared_shape : declared (shape f v) = (declared v).map fun p => (p.1, f p.2) := by
  rw [declared, props, get_shape, declared, props]
  cases v.get "properties" with
  | none => rfl
  | some x =>
    cases x with
    | object ps => rfl
    | _ => rfl

/-- A schema with the basic keywords keeps them. -/
theorem Basic.shape (h : Basic v) : Basic (shape f v) := by
  intro key hkey
  rw [get_shape, h key hkey]
  rfl

/-- The empty object is the shape of itself and of nothing else. -/
theorem asObject_shape_eq_nil : (shape f v).asObject = some [] ↔ v.asObject = some [] := by
  cases v with
  | object members => simp [Json.shape, Value.asObject]
  | _ => rfl

/-- Basic schemas differ compatibly when their types do and every new property allows all. A
property that is gone is reported too, but compatibly. -/
theorem reportsOk_iff (ho : Basic o) (hu : Basic u) : ReportsOk L o u ↔
    (∀ kind suffix, .report kind suffix ∈ compareType o u → isBackwardCompatible kind = true) ∧
      ∀ p ∈ declared u, (declared o).lookup p.1 = none → p.2.asObject = some [] := by
  unfold ReportsOk
  rw [Basic.keywordSteps ho hu, Basic.compareProperties ho hu]
  constructor
  · intro h
    refine ⟨fun kind suffix hmem => h kind suffix (List.mem_append_left _ hmem), ?_⟩
    intro p hp hnew
    -- A new property with another schema than the empty one is reported, and the report is
    -- incompatible.
    by_contra hne
    have hstep : Basic.propertyStep o p =
        Step.report .propertyAddedToOpenContentModel ("/properties/" ++ p.1) := by
      simp only [Basic.propertyStep, hnew, if_neg hne]
    have hcompatible := h _ _ (List.mem_append_right _ (List.mem_append_right _
      (List.mem_map.mpr ⟨p, hp, hstep⟩)))
    cases hcompatible
  · rintro ⟨htype, hnew⟩ kind suffix hmem
    rcases List.mem_append.mp hmem with hmem | hmem
    · exact htype kind suffix hmem
    rcases List.mem_append.mp hmem with hmem | hmem
    · obtain ⟨p, _, heq⟩ := List.mem_map.mp hmem
      obtain ⟨rfl, _⟩ := Step.report.inj heq
      rfl
    · obtain ⟨p, hp, heq⟩ := List.mem_map.mp hmem
      unfold Basic.propertyStep at heq
      split at heq
      · rename_i hlookup
        rw [if_pos (hnew p hp hlookup)] at heq
        obtain ⟨rfl, _⟩ := Step.report.inj heq
        rfl
      · cases heq

/-- A property of the shape is the shaped property. -/
theorem lookup_declared_shape (name : String) :
    (declared (shape f v)).lookup name = ((declared v).lookup name).map f := by
  rw [declared_shape]
  exact lookup_mapValues (fun _ => f) _ name

/-- A shape differs from another as the schemas do, apart from which new properties allow all. -/
theorem reportsOk_shape_iff {g : Value → Value} (ho : Basic o) (hu : Basic u) :
    ReportsOk L (shape f o) (shape g u) ↔
      (∀ kind suffix, .report kind suffix ∈ compareType o u → isBackwardCompatible kind = true) ∧
        ∀ p ∈ declared u, (declared o).lookup p.1 = none → (g p.2).asObject = some [] := by
  rw [reportsOk_iff ho.shape hu.shape]
  apply and_congr
  · simp only [compareType, typesOf_shape]
  · simp only [lookup_declared_shape, Option.map_eq_none_iff]
    rw [declared_shape, List.forall_mem_map]

end Shape

/-! ## Settled pairs -/

variable {c : Comparison} {fuel : ℕ}

/-- The schema that the original leads to. -/
def Comparison.settleOrig (c : Comparison) (fuel : ℕ) (v : Value) : Option Value :=
  settle c.ctx.origRoot c.ctx.origRefs fuel v

/-- The schema that the update leads to. -/
def Comparison.settleUpd (c : Comparison) (fuel : ℕ) (v : Value) : Option Value :=
  settle c.ctx.updRoot c.ctx.updRefs fuel v

/-- The schemas without `$ref`s that belong together at a depth. -/
inductive Settled (c : Comparison) (fuel : ℕ) : ℕ → Value → Value → Prop where
  | start {s t : Value} : c.settleOrig fuel c.orig = some s → c.settleUpd fuel c.upd = some t →
      Settled c fuel 0 s t
  | property {n : ℕ} {s t a b s' t' : Value} {name : String} : Settled c fuel n s t →
      (declared s).lookup name = some a → (name, b) ∈ declared t →
      c.settleOrig fuel a = some s' → c.settleUpd fuel b = some t' → Settled c fuel (n + 1) s' t'

/-- Every schema that is compared leads to one without a `$ref`. -/
def Settles (c : Comparison) (fuel : ℕ) : Prop :=
  ∀ o u, Paired c o u → (c.settleOrig fuel o).isSome ∧ (c.settleUpd fuel u).isSome

/-- Both sides of a pair are followed to the end, one step of the walk at a time. -/
theorem Paired.settle (total : ℕ) {fo fu : ℕ} (htotal : fo + fu ≤ total) {o u s t : Value}
    (h : Paired c o u) (hs : c.settleOrig fo o = some s) (ht : c.settleUpd fu u = some t) :
    Paired c s t := by
  -- On the sum of both fuels, since one step of the walk may follow a reference on either side or
  -- both.
  induction total generalizing fo fu o u with
  | zero =>
    obtain ⟨_, rfl⟩ | ⟨less, _, rfl, _⟩ := settle_cases hs
    · obtain ⟨_, rfl⟩ | ⟨less, _, rfl, _⟩ := settle_cases ht
      · exact h
      · omega
    · omega
  | succ total ih =>
    obtain ⟨ho, rfl⟩ | ⟨lessO, o', rfl, ho', hs'⟩ := settle_cases hs
    · obtain ⟨hu, rfl⟩ | ⟨lessU, u', rfl, hu', ht'⟩ := settle_cases ht
      · exact h
      · have htargets : Comparison.targets ⟨c.ctx, s, u⟩ = some (s, u') := by
          simp only [Comparison.targets, resolveRef_plain ho, hu']
        exact ih (by omega) (.follow h htargets) hs ht'
    · obtain ⟨hu, rfl⟩ | ⟨lessU, u', rfl, hu', ht'⟩ := settle_cases ht
      · have htargets : Comparison.targets ⟨c.ctx, o, t⟩ = some (o', t) := by
          simp only [Comparison.targets, resolveRef_plain hu, ho']
        exact ih (by omega) (.follow h htargets) hs' ht
      · have htargets : Comparison.targets ⟨c.ctx, o, u⟩ = some (o', u') := by
          simp only [Comparison.targets, hu', ho']
        exact ih (by omega) (.follow h htargets) hs' ht'

variable {s t : Value} {n : ℕ}

/-- A settled pair is one the comparison meets, without references. -/
theorem Settled.paired (h : Settled c fuel n s t) : Paired c s t ∧ NoRefs s t := by
  induction h with
  | start hs ht => exact ⟨Paired.settle _ le_rfl .start hs ht, refOf_settle hs, refOf_settle ht⟩
  | property _ ha hb hs ht ih =>
    exact ⟨Paired.settle _ le_rfl (.property ih.1 ih.2 ha hb) hs ht, refOf_settle hs,
      refOf_settle ht⟩

/-- The targets of a pair are those of its sides, and a side without reference stays. -/
theorem targets_getD {ctx : Ctx} {o u o' u' : Value}
    (h : Comparison.targets ⟨ctx, o, u⟩ = some (o', u')) :
    o' = (resolveRef o ctx.origRoot ctx.origRefs).getD o ∧
      u' = (resolveRef u ctx.updRoot ctx.updRefs).getD u := by
  simp only [Comparison.targets] at h
  cases ho : resolveRef o ctx.origRoot ctx.origRefs <;>
    cases hu : resolveRef u ctx.updRoot ctx.updRefs <;> rw [ho, hu] at h <;> cases h <;>
    exact ⟨rfl, rfl⟩

/-- Every pair of the walk leads to a settled pair. -/
theorem Paired.exists_settled (hsettles : Settles c fuel) {o u : Value} (h : Paired c o u)
    (hs : c.settleOrig fuel o = some s) (ht : c.settleUpd fuel u = some t) :
    ∃ n, Settled c fuel n s t := by
  induction h generalizing s t with
  | start => exact ⟨0, .start hs ht⟩
  | @follow o u o' u' hpair htargets ih =>
    obtain ⟨s', hs'⟩ := Option.isSome_iff_exists.mp (hsettles o u hpair).1
    obtain ⟨t', ht'⟩ := Option.isSome_iff_exists.mp (hsettles o u hpair).2
    -- A step of the walk leads to the same schemas.
    obtain ⟨rfl, rfl⟩ := targets_getD htargets
    have horig : c.settleOrig fuel _ = some s' := settle_target hs'
    have hupd : c.settleUpd fuel _ = some t' := settle_target ht'
    obtain rfl := Option.some.inj (horig.symm.trans hs)
    obtain rfl := Option.some.inj (hupd.symm.trans ht)
    exact ih hs' ht'
  | @property o u a b name hpair hplain ha hb ih =>
    obtain ⟨n, hn⟩ := ih (settle_plain hplain.1) (settle_plain hplain.2)
    exact ⟨n + 1, .property hn ha hb hs ht⟩

/-! ## The comparison of truncations -/

/-- The two schemas of a comparison, down to a depth. -/
def Comparison.truncated (c : Comparison) (fuel n : ℕ) : Comparison :=
  .ofSchemas ⟨truncate c.ctx.updRoot c.ctx.updRefs fuel n c.upd, []⟩
    ⟨truncate c.ctx.origRoot c.ctx.origRefs fuel n c.orig, []⟩

/-- The shapes of a settled pair, with the truncations of the properties to a depth. -/
def Comparison.shapes (c : Comparison) (fuel n : ℕ) (s t : Value) : Value × Value :=
  (shape (truncate c.ctx.origRoot c.ctx.origRefs fuel n) s,
    shape (truncate c.ctx.updRoot c.ctx.updRefs fuel n) t)

/-- One step of the unfolding: settle, then shape with what is left. -/
theorem truncate_succ {root v s : Value} {refs : RefMap} (h : settle root refs fuel v = some s)
    (n : ℕ) : truncate root refs fuel (n + 1) v = shape (truncate root refs fuel n) s := by
  rw [truncate, h]

/-- Settled pairs are compared in the truncations that are deep enough. A pair that lies `n`
properties down is still whole `more` levels below that. -/
theorem Settled.truncated (h : Settled c fuel n s t) (more : ℕ) :
    Paired (c.truncated fuel (n + more + 1)) (c.shapes fuel more s t).1
      (c.shapes fuel more s t).2 := by
  induction h generalizing more with
  | @start s t hs ht =>
    have horig : (c.truncated fuel (0 + more + 1)).orig = (c.shapes fuel more s t).1 := by
      rw [Nat.zero_add]
      exact truncate_succ hs more
    have hupd : (c.truncated fuel (0 + more + 1)).upd = (c.shapes fuel more s t).2 := by
      rw [Nat.zero_add]
      exact truncate_succ ht more
    rw [← horig, ← hupd]
    exact .start
  | @property n s t a b s' t' name hpair ha hb hs ht ih =>
    obtain ⟨hso, hsu⟩ := hpair.paired.2
    have hindex : n + 1 + more + 1 = n + (more + 1) + 1 := by omega
    rw [hindex, Comparison.shapes, ← truncate_succ hs, ← truncate_succ ht]
    -- A property of the pair is one of its shapes, cut one level earlier.
    have hlookup : (declared (c.shapes fuel (more + 1) s t).1).lookup name =
        some (truncate c.ctx.origRoot c.ctx.origRefs fuel (more + 1) a) := by
      rw [Comparison.shapes, lookup_declared_shape, ha]
      rfl
    have hmem : (name, truncate c.ctx.updRoot c.ctx.updRefs fuel (more + 1) b) ∈
        declared (c.shapes fuel (more + 1) s t).2 := by
      rw [Comparison.shapes, declared_shape]
      exact List.mem_map.mpr ⟨(name, b), hb, rfl⟩
    exact .property (ih (more + 1)) ⟨refOf_shape.trans hso, refOf_shape.trans hsu⟩ hlookup hmem

/-- What is compared in a truncation: the shapes of settled pairs, and below the depth `{}`. A
truncation has no `$ref`s, so the walk only goes from property to property. -/
theorem Paired.of_truncated (hsettles : Settles c fuel) {n : ℕ} {x y : Value}
    (h : Paired (c.truncated fuel n) x y) :
    (∃ k more s t, n = k + more + 1 ∧ Settled c fuel k s t ∧ (x, y) = c.shapes fuel more s t) ∨
      x = .object [] ∧ y = .object [] := by
  induction h with
  -- At depth `0` nothing of the schemas is left; above it the pair settles and one level is
  -- unfolded.
  | start =>
    cases n with
    | zero => exact .inr ⟨rfl, rfl⟩
    | succ n =>
      obtain ⟨horig, hupd⟩ := hsettles _ _ .start
      obtain ⟨s, hs⟩ := Option.isSome_iff_exists.mp horig
      obtain ⟨t, ht⟩ := Option.isSome_iff_exists.mp hupd
      exact .inl ⟨0, n, s, t, by omega, .start hs ht,
        Prod.ext (truncate_succ hs n) (truncate_succ ht n)⟩
  | @follow x y x' y' _ htargets ih =>
    -- There are no `$ref`s to follow.
    refine absurd (Comparison.noRefs_of_targets (c := ⟨_, x, y⟩) ?_) (by rw [htargets]; simp)
    rcases ih with ⟨k, more, s, t, _, hpair, heq⟩ | ⟨rfl, rfl⟩
    · obtain ⟨rfl, rfl⟩ := Prod.mk.inj heq
      obtain ⟨hso, hsu⟩ := hpair.paired.2
      exact ⟨refOf_shape.trans hso, refOf_shape.trans hsu⟩
    · exact ⟨rfl, rfl⟩
  | @property x y a' b' name _ _ ha hb ih =>
    rcases ih with ⟨k, more, s, t, hn, hpair, heq⟩ | ⟨rfl, rfl⟩
    · obtain ⟨rfl, rfl⟩ := Prod.mk.inj heq
      rw [lookup_declared_shape] at ha
      rw [declared_shape] at hb
      obtain ⟨a, hlookup, rfl⟩ := Option.map_eq_some_iff.mp ha
      obtain ⟨⟨key, b⟩, hmem, hbeq⟩ := List.mem_map.mp hb
      obtain ⟨rfl, rfl⟩ := Prod.mk.inj hbeq
      -- The property is cut off, or it settles and has one level less.
      cases more with
      | zero => exact .inr ⟨rfl, rfl⟩
      | succ more =>
        obtain ⟨hpaired, hplain⟩ := hpair.paired
        obtain ⟨horig, hupd⟩ := hsettles _ _ (.property hpaired hplain hlookup hmem)
        obtain ⟨s', hs⟩ := Option.isSome_iff_exists.mp horig
        obtain ⟨t', ht⟩ := Option.isSome_iff_exists.mp hupd
        exact .inl ⟨k + 1, more, s', t', by omega, .property hpair hlookup hmem hs ht,
          Prod.ext (truncate_succ hs more) (truncate_succ ht more)⟩
    · cases ha

/-- A truncated comparison is about the two documents it starts from. -/
theorem Comparison.known_truncated (c : Comparison) (fuel n : ℕ) : (c.truncated fuel n).Known :=
  ⟨⟨_, by simp [Comparison.truncated, Comparison.ofSchemas, Ctx.docs], .refl⟩,
    ⟨_, by simp [Comparison.truncated, Comparison.ofSchemas, Ctx.docs], .refl⟩⟩

/-- The empty schema has no keywords. -/
theorem basic_empty : Basic (.object []) := fun _ _ => rfl

/-- The truncations are compatible exactly when the shapes of the settled pairs are. Below the depth
both sides are `{}`, of which nothing is reported. -/
theorem verdict_truncated_iff (hbasic : PairedBasic c) (hsettles : Settles c fuel) (n : ℕ) :
    verdict L (c.truncated fuel n) = some true ↔
      ∀ k more s t, n = k + more + 1 → Settled c fuel k s t →
        ReportsOk L (c.shapes fuel more s t).1 (c.shapes fuel more s t).2 := by
  have hplain : ∀ x y, Paired (c.truncated fuel n) x y → NoRefs x y := by
    intro x y h
    rcases h.of_truncated hsettles with ⟨k, more, s, t, _, hpair, heq⟩ | ⟨rfl, rfl⟩
    · obtain ⟨rfl, rfl⟩ := Prod.mk.inj heq
      obtain ⟨hso, hsu⟩ := hpair.paired.2
      exact ⟨refOf_shape.trans hso, refOf_shape.trans hsu⟩
    · exact ⟨rfl, rfl⟩
  have hbasic' : PairedBasic (c.truncated fuel n) := by
    intro x y h
    rcases h.of_truncated hsettles with ⟨k, more, s, t, _, hpair, heq⟩ | ⟨rfl, rfl⟩
    · obtain ⟨rfl, rfl⟩ := Prod.mk.inj heq
      obtain ⟨ho, hu⟩ := hbasic s t hpair.paired.1
      exact ⟨ho.shape, hu.shape⟩
    · exact ⟨basic_empty, basic_empty⟩
  -- Without references the guard is never used, so it is exact.
  have hguard : GuardExact (c.truncated fuel n) := by
    intro o u o' u' hpair hbelow hrefs
    exact absurd (hplain o' u' (hpair.trans hbelow)) hrefs
  rw [verdict_paired_iff (c.known_truncated fuel n) rfl hbasic' hguard]
  constructor
  · rintro h k more s t rfl hpair
    have hpaired := hpair.truncated more
    exact h _ _ hpaired (hplain _ _ hpaired)
  · intro h x y hpair _
    rcases hpair.of_truncated hsettles with ⟨k, more, s, t, hn, hsettled, heq⟩ | ⟨rfl, rfl⟩
    · obtain ⟨rfl, rfl⟩ := Prod.mk.inj heq
      exact h k more s t hn hsettled
    · rw [reportsOk_iff basic_empty basic_empty]
      refine ⟨fun kind suffix hmem => ?_, fun p hp => ?_⟩
      · simp [compareType] at hmem
      · cases hp

end KrabkaRegistry.Format.Json
