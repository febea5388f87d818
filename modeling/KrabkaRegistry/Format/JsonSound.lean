import KrabkaRegistry.Format.JsonValid
import KrabkaRegistry.Format.JsonBranches

/-!
# Compatible Keywords Accept More

For each keyword that `Valid` reads: when the comparison of two schemas reports nothing that is
incompatible, an instance that the keyword of the original allows is one that the keyword of the
update allows.

- `type_sound`, `enum_sound`, `bound_sound`, `unique_sound`, `required_sound`, `additional_sound`:
  keywords without subschemas
- `property_cases`, `allOf_cases`, `anyOf_cases`, `not_cases`: where the subschemas of the update
  come from
-/

namespace KrabkaRegistry.Format.Json

open Library.Binary64 (roundToDouble_intCast exists_int_roundToDouble epsilon_lt_one
  one_le_abs_roundToDouble)

variable {L : DiffLibs} {f : Value → Value → Option Bool} {o u v : Value}

/-- A report that is compatible. -/
theorem Step.Ok.compatible {kind : Kind} {suffix : String} {steps : List Step}
    (h : ∀ s ∈ steps, s.Ok f) (hs : .report kind suffix ∈ steps) :
    isBackwardCompatible kind = true := h _ hs

/-! ## Types -/

/-- The type is a name, or a list of names that is not empty. -/
def TypeNamed (schema : Value) : Prop :=
  ∀ x, schema.get "type" = some x →
    (∃ name, x = .string name) ∨
      ∃ names, x = .array names ∧ names ≠ [] ∧ ∀ y ∈ names, ∃ name, y = .string name

theorem mem_stringSet {items : List Value} {name : String} :
    name ∈ stringSet items ↔ .string name ∈ items := by
  rw [stringSet, List.mem_toFinset, List.mem_filterMap]
  constructor
  · rintro ⟨x, hx, hname⟩
    cases x with
    | string s =>
      obtain rfl := Option.some.inj hname
      exact hx
    | _ => exact absurd hname (by simp [Value.asStr])
  · exact fun h => ⟨_, h, rfl⟩

/-- No types are no limit. -/
theorem typeAllows_iff (h : TypeNamed o) :
    TypeAllows (o.get "type") v ↔
      typesOf o = ∅ ∨ ∃ name ∈ typeNames v, name ∈ typesOf o := by
  unfold TypeAllows typesOf
  cases hget : o.get "type" with
  | none => simp
  | some x =>
    rcases h x hget with ⟨name, rfl⟩ | ⟨names, rfl, hne, hall⟩
    · simp
    · simp only [mem_stringSet]
      have hsome : stringSet names ≠ ∅ := by
        obtain ⟨y, rest, rfl⟩ := List.exists_cons_of_ne_nil hne
        obtain ⟨name, rfl⟩ := hall y List.mem_cons_self
        exact Finset.ne_empty_of_mem (mem_stringSet.mpr List.mem_cons_self)
      simp only [hsome, false_or]
      exact exists_congr fun name => and_comm

/-- Every integer is a number. -/
theorem number_of_integer (h : "integer" ∈ typeNames v) : "number" ∈ typeNames v := by
  cases v with
  | number n =>
    rw [typeNames] at h ⊢
    split_ifs at h ⊢ with hden
    · simp
    · simp
  | _ => simp [typeNames] at h

theorem type_sound (ho : TypeNamed o) (hu : TypeNamed u) (hok : ∀ s ∈ compareType o u, s.Ok f)
    (h : TypeAllows (o.get "type") v) : TypeAllows (u.get "type") v := by
  rw [typeAllows_iff ho] at h
  rw [typeAllows_iff hu]
  unfold compareType at hok
  simp only at hok
  split_ifs at hok with heq hint hnarrowed hempty hless hmore
  · rwa [← heq]
  · -- An integer is read as a number.
    rw [hint.1] at h
    rw [hint.2]
    simp only [Finset.singleton_ne_empty, Finset.mem_singleton, exists_eq_right, false_or] at h ⊢
    exact number_of_integer h
  · exact absurd (Step.Ok.compatible hok List.mem_cons_self) (by decide)
  · exact .inl hempty.1
  · exact absurd (Step.Ok.compatible hok List.mem_cons_self) (by decide)
  · rcases h with hnone | ⟨name, hname, hmem⟩
    · -- Types that a schema without types gets are reported as narrowed.
      by_cases hu' : typesOf u = ∅
      · exact .inl hu'
      · exact absurd (.inr ⟨hnone, hu'⟩) hnarrowed
    · exact .inr ⟨name, hname, hmore hmem⟩
  · exact absurd (Step.Ok.compatible hok List.mem_cons_self) (by decide)

/-! ## Enumerations -/

/-- Equal texts are of values with one meaning. -/
def TextsMean (L : DiffLibs) (o u : Value) : Prop :=
  ∀ xs ys, o.get "enum" = some (.array xs) → u.get "enum" = some (.array ys) →
    ∀ x ∈ xs, ∀ y ∈ ys, canonicalValue L x = canonicalValue L y → x.meaning = y.meaning

theorem enumSet_eq (hconst : o.get "const" = none) :
    enumSet L o = ((o.get "enum").bind Value.asArray).map fun items =>
      (items.map (canonicalValue L)).toFinset := by
  rw [enumSet, hconst]
  cases (o.get "enum").bind Value.asArray <;> rfl

theorem enum_sound (ho : o.get "const" = none) (hu : u.get "const" = none)
    (htexts : TextsMean L o u) (hok : ∀ s ∈ compareEnum L o u, s.Ok f)
    (h : EnumAllows (o.get "enum") v) : EnumAllows (u.get "enum") v := by
  unfold EnumAllows
  split
  · rename_i ys hys
    have hue : enumSet L u = some (ys.map (canonicalValue L)).toFinset := by
      rw [enumSet_eq hu, hys]
      rfl
    -- The original has an enumeration, and its texts are among those of the update.
    obtain ⟨xs, hxs, hsub⟩ : ∃ xs, o.get "enum" = some (.array xs) ∧
        (xs.map (canonicalValue L)).toFinset ⊆ (ys.map (canonicalValue L)).toFinset := by
      have hoe := enumSet_eq (L := L) ho
      cases hget : (o.get "enum").bind Value.asArray with
      | none =>
        rw [hget] at hoe
        have hreport : Step.report .enumArrayNarrowed "" ∈ compareEnum L o u := by
          simp [compareEnum, hoe, hue]
        exact absurd (Step.Ok.compatible hok hreport) (by decide)
      | some xs =>
        obtain ⟨x, hx, hxs⟩ := Option.bind_eq_some_iff.mp hget
        cases x with
        | array items =>
          obtain rfl := Option.some.inj hxs
          refine ⟨items, hx, ?_⟩
          rw [hget] at hoe
          by_contra hsub
          have hne : (items.map (canonicalValue L)).toFinset ≠
              (ys.map (canonicalValue L)).toFinset := fun heq => hsub heq.subset
          have hreport : Step.report .enumArrayNarrowed "" ∈ compareEnum L o u ∨
              Step.report .enumArrayChanged "" ∈ compareEnum L o u := by
            simp only [compareEnum, hoe, hue, Option.map_some, Option.some.injEq, hne, if_false]
            split_ifs <;> simp
          rcases hreport with hreport | hreport
          · exact absurd (Step.Ok.compatible hok hreport) (by decide)
          · exact absurd (Step.Ok.compatible hok hreport) (by decide)
        | _ => exact absurd hxs (by simp [Value.asArray])
    rw [hxs] at h
    obtain ⟨x, hx, hmean⟩ := h
    have htext : canonicalValue L x ∈ (ys.map (canonicalValue L)).toFinset :=
      hsub (List.mem_toFinset.mpr (List.mem_map_of_mem hx))
    obtain ⟨y, hy, hsame⟩ := List.mem_map.mp (List.mem_toFinset.mp htext)
    exact ⟨y, hy, (htexts xs ys hxs hys x hx y hy hsame.symm).symm.trans hmean⟩
  · trivial

/-! ## Bounds -/

/-- The double that a number is read as. -/
def Number.double : Number → ℚ
  | .int n => Library.Binary64.roundToDouble n
  | .float token => Value.floatValue token

theorem Number.asF64_number (n : Number) : Value.asF64 (.number n) = some n.double := by
  cases n <;> rfl

/-- The limits of a schema are integers. -/
def IntegerLimits (schema : Value) : Prop :=
  ∀ b ∈ bounds, ∀ x, schema.get b.key = some x →
    ∃ (m : Number) (n : ℤ), x = .number m ∧ m.value = n

/-- The limits of a schema are integers below `2 ^ 53` in magnitude. -/
def SmallLimits (schema : Value) : Prop :=
  ∀ b ∈ bounds, ∀ x, schema.get b.key = some x →
    ∃ (m : Number) (n : ℤ), x = .number m ∧ m.value = n ∧ |n| < 2 ^ 53

/-- Limits that differ are in the same order as doubles. -/
def LimitsOrdered (o u : Value) : Prop :=
  ∀ b ∈ bounds, ∀ m n, o.get b.key = some (.number m) → u.get b.key = some (.number n) →
    (m.value < n.value → m.double < n.double) ∧ (n.value < m.value → n.double < m.double)

theorem SmallLimits.integer (h : SmallLimits o) : IntegerLimits o := fun b hb x hx => by
  obtain ⟨m, n, hm, hn, -⟩ := h b hb x hx
  exact ⟨m, n, hm, hn⟩

/-- An integer below `2 ^ 53` is a double. -/
theorem double_eq_value {m : Number} {n : ℤ} (hvalue : m.value = n) (hn : |n| < 2 ^ 53) :
    m.double = n := by
  cases m with
  | int k =>
    obtain rfl : k = n := by simpa [Number.value] using hvalue
    exact roundToDouble_intCast hn
  | float token => exact hvalue

/-- Limits that are doubles are in order. -/
theorem limitsOrdered_of_small (ho : SmallLimits o) (hu : SmallLimits u) : LimitsOrdered o u := by
  intro b hb m n hm hn
  obtain ⟨m', k, hm', hk, hsmall⟩ := ho b hb _ hm
  obtain ⟨n', l, hn', hl, hsmall'⟩ := hu b hb _ hn
  cases hm'
  cases hn'
  rw [double_eq_value hk hsmall, double_eq_value hl hsmall', hk, hl]
  exact ⟨id, id⟩

theorem exists_int_double {m : Number} {n : ℤ} (h : m.value = n) : ∃ k : ℤ, m.double = k := by
  cases m with
  | int i => exact exists_int_roundToDouble i
  | float token => exact ⟨n, h⟩

/-- Integers are told apart when they are rounded to different doubles. -/
theorem differs_double {m n : Number} {k l : ℤ} (hm : m.value = k) (hn : n.value = l)
    (h : m.double ≠ n.double) : differs m.double n.double = true := by
  obtain ⟨i, hi⟩ := exists_int_double hm
  obtain ⟨j, hj⟩ := exists_int_double hn
  rw [hi, hj] at h ⊢
  have hne : i - j ≠ 0 := sub_ne_zero.mpr (by exact_mod_cast h)
  have hapart : (1 : ℚ) ≤ |(i : ℚ) - j| := by exact_mod_cast Int.one_le_abs hne
  simpa [differs] using epsilon_lt_one.trans_le (one_le_abs_roundToDouble hapart)

/-- The kinds with which a bound is reported when it is added, decreased or increased. -/
structure Bound.Kinds (b : Bound) (kinds : Kind × Kind × Kind × Kind) : Prop where
  added : isBackwardCompatible kinds.1 = false
  decreased : b.upper = true → isBackwardCompatible kinds.2.2.1 = false
  increased : b.upper = false → isBackwardCompatible kinds.2.2.2 = false

theorem Bound.Holds.mono {b : Bound} {q m n : ℚ} (hupper : b.upper = true → m ≤ n)
    (hlower : b.upper = false → n ≤ m) (h : b.Holds q m) : b.Holds q n := by
  unfold Bound.Holds at *
  cases hb : b.upper with
  | true =>
    have hle := hupper hb
    rw [hb] at h
    simp only [if_true] at h ⊢
    split_ifs at h ⊢
    · exact h.trans_le hle
    · exact h.trans hle
  | false =>
    have hle := hlower hb
    rw [hb] at h
    simp only [Bool.false_eq_true, if_false] at h ⊢
    split_ifs at h ⊢
    · exact hle.trans_lt h
    · exact hle.trans h

theorem bound_sound {b : Bound} {kinds : Kind × Kind × Kind × Kind} (hb : b ∈ bounds)
    (hkinds : b.Kinds kinds) (ho : IntegerLimits o) (hu : IntegerLimits u)
    (hordered : LimitsOrdered o u) (hok : ∀ s ∈ compareBound o u b.key kinds, s.Ok f)
    (h : BoundAllows b (o.get b.key) v) : BoundAllows b (u.get b.key) v := by
  unfold BoundAllows
  split
  · rename_i n q hget hq
    obtain ⟨n', l, heq, hl⟩ := hu b hb _ hget
    obtain rfl := Value.number.inj heq
    have hunum : num u b.key = some n.double := by
      rw [num, hget, Option.bind_some, Number.asF64_number]
    cases horig : o.get b.key with
    | none =>
      have hreport : Step.report kinds.1 "" ∈ compareBound o u b.key kinds := by
        have honum : num o b.key = none := by
          rw [num, horig]
          rfl
        rw [compareBound, honum, hunum]
        exact List.mem_cons_self
      exact absurd (Step.Ok.compatible hok hreport) (by simp [hkinds.added])
    | some x =>
      obtain ⟨m, k, rfl, hk⟩ := ho b hb x horig
      have honum : num o b.key = some m.double := by
        rw [num, horig, Option.bind_some, Number.asF64_number]
      obtain ⟨hless, hmore⟩ := hordered b hb m n horig hget
      rw [horig] at h
      simp only [BoundAllows, hq] at h
      refine h.mono (fun hupper => ?_) fun hlower => ?_
      · -- A smaller upper limit would be reported, since the limits differ as doubles.
        by_contra hlt
        have hround := hmore (not_le.mp hlt)
        have hdiffers := differs_double hk hl hround.ne'
        have hreport : Step.report kinds.2.2.1 "" ∈ compareBound o u b.key kinds := by
          simp [compareBound, honum, hunum, hdiffers, hround]
        exact absurd (Step.Ok.compatible hok hreport) (by simp [hkinds.decreased hupper])
      · by_contra hlt
        have hround := hless (not_le.mp hlt)
        have hdiffers := differs_double hk hl hround.ne
        have hreport : Step.report kinds.2.2.2 "" ∈ compareBound o u b.key kinds := by
          simp [compareBound, honum, hunum, hdiffers, hround.not_gt]
        exact absurd (Step.Ok.compatible hok hreport) (by simp [hkinds.increased hlower])
  · trivial

/-- Every bound is compared, with kinds of its own. An upper bound may not be added or lowered, a
lower one not added or raised. -/
theorem exists_kinds (L : DiffLibs) (o u : Value) :
    ∀ b ∈ bounds, ∃ kinds, b.Kinds kinds ∧
      ∀ s ∈ compareBound o u b.key kinds, s ∈ keywordSteps L o u := by
  have hnumeric : ∀ s ∈ compareNumeric o u, s ∈ keywordSteps L o u := fun s hs => by
    simp [keywordSteps, hs]
  have hstrings : ∀ s ∈ compareStringConstraints o u, s ∈ keywordSteps L o u := fun s hs => by
    simp [keywordSteps, hs]
  have harrays : ∀ s ∈ compareArrayConstraints o u, s ∈ keywordSteps L o u := fun s hs => by
    simp [keywordSteps, hs]
  have hobjects : ∀ s ∈ compareObjectSize o u, s ∈ keywordSteps L o u := fun s hs => by
    simp [keywordSteps, hs]
  -- One bound after the other, each with the kinds it is compared under.
  simp only [bounds, List.forall_mem_cons]
  refine ⟨?_, ?_, ?_, ?_, ?_, ?_, ?_, ?_, ?_, ?_, fun b hb => absurd hb List.not_mem_nil⟩
  · exact ⟨(.maximumAdded, .maximumRemoved, .maximumDecreased, .maximumIncreased),
      ⟨rfl, fun _ => rfl, by simp⟩, fun s hs => hnumeric s (by simp [compareNumeric, hs])⟩
  · exact ⟨(.minimumAdded, .minimumRemoved, .minimumDecreased, .minimumIncreased),
      ⟨rfl, by simp, fun _ => rfl⟩, fun s hs => hnumeric s (by simp [compareNumeric, hs])⟩
  · exact ⟨(.exclusiveMaximumAdded, .exclusiveMaximumRemoved, .exclusiveMaximumDecreased,
        .exclusiveMaximumIncreased),
      ⟨rfl, fun _ => rfl, by simp⟩, fun s hs => hnumeric s (by simp [compareNumeric, hs])⟩
  · exact ⟨(.exclusiveMinimumAdded, .exclusiveMinimumRemoved, .exclusiveMinimumDecreased,
        .exclusiveMinimumIncreased),
      ⟨rfl, by simp, fun _ => rfl⟩, fun s hs => hnumeric s (by simp [compareNumeric, hs])⟩
  · exact ⟨(.maxLengthAdded, .maxLengthRemoved, .maxLengthDecreased, .maxLengthIncreased),
      ⟨rfl, fun _ => rfl, by simp⟩, fun s hs => hstrings s (by simp [compareStringConstraints, hs])⟩
  · exact ⟨(.minLengthAdded, .minLengthRemoved, .minLengthDecreased, .minLengthIncreased),
      ⟨rfl, by simp, fun _ => rfl⟩, fun s hs => hstrings s (by simp [compareStringConstraints, hs])⟩
  · exact ⟨(.maxItemsAdded, .maxItemsRemoved, .maxItemsDecreased, .maxItemsIncreased),
      ⟨rfl, fun _ => rfl, by simp⟩, fun s hs => harrays s (by simp [compareArrayConstraints, hs])⟩
  · exact ⟨(.minItemsAdded, .minItemsRemoved, .minItemsDecreased, .minItemsIncreased),
      ⟨rfl, by simp, fun _ => rfl⟩, fun s hs => harrays s (by simp [compareArrayConstraints, hs])⟩
  · exact ⟨(.maxPropertiesAdded, .maxPropertiesRemoved, .maxPropertiesDecreased,
        .maxPropertiesIncreased),
      ⟨rfl, fun _ => rfl, by simp⟩, fun s hs => hobjects s (by simp [compareObjectSize, hs])⟩
  · exact ⟨(.minPropertiesAdded, .minPropertiesRemoved, .minPropertiesDecreased,
        .minPropertiesIncreased),
      ⟨rfl, by simp, fun _ => rfl⟩, fun s hs => hobjects s (by simp [compareObjectSize, hs])⟩

/-! ## Elements -/

theorem uniqueItems_iff {schema : Value} :
    uniqueItems schema = true ↔ schema.get "uniqueItems" = some (.bool true) := by
  rw [uniqueItems]
  cases schema.get "uniqueItems" with
  | none => simp
  | some x => cases x <;> simp [Value.asBool]

theorem unique_sound (hok : ∀ s ∈ compareUniqueItems o u, s.Ok f)
    (h : o.get "uniqueItems" = some (.bool true) → ((elementsOf v).map Value.meaning).Nodup) :
    u.get "uniqueItems" = some (.bool true) → ((elementsOf v).map Value.meaning).Nodup := by
  intro hu
  apply h
  rw [← uniqueItems_iff] at hu ⊢
  by_contra hnot
  have ho : uniqueItems o = false := by simpa using hnot
  have hreport : Step.report .uniqueItemsAdded "" ∈ compareUniqueItems o u := by
    simp [compareUniqueItems, hu, ho]
  exact absurd (Step.Ok.compatible hok hreport) (by decide)

/-! ## Objects -/

/-- An object schema with a boolean `additionalProperties`, no patterns, and its required
properties declared without defaults. -/
structure PlainObject (schema : Value) : Prop where
  additional : ∀ x, schema.get "additionalProperties" = some x → ∃ b, x = .bool b
  patterns : schema.get "patternProperties" = none
  required : ∀ name ∈ requiredSet schema, ((declared schema).lookup name).isSome
  noDefault : ∀ p ∈ declared schema, p.2.get "default" = none

theorem PlainObject.contentModel_eq {schema : Value} (h : PlainObject schema) :
    contentModel schema =
      if schema.get "additionalProperties" = some (.bool false) then .closedContent
      else .openContent := by
  rw [contentModel, h.patterns]
  cases hget : schema.get "additionalProperties" with
  | none => simp
  | some x =>
    obtain ⟨b, rfl⟩ := h.additional x hget
    cases b <;> simp

theorem mem_requiredSet {schema : Value} {name : String} :
    name ∈ requiredSet schema ↔
      ∃ names, schema.get "required" = some (.array names) ∧ .string name ∈ names := by
  rw [requiredSet]
  cases hget : schema.get "required" with
  | none => simp
  | some x =>
    cases x with
    | array names => simp [Value.asArray, mem_stringSet]
    | _ => simp [Value.asArray]

/-- Where an added property comes from: the original declares it, or has no instance with it, or
the schema of the property limits nothing. -/
theorem property_cases (ho : PlainObject o) (hok : ∀ s ∈ compareProperties L o u, s.Ok f)
    {p : String × Value} (hp : p ∈ declared u) :
    (∃ oschema, (declared o).lookup p.1 = some oschema ∧ f oschema p.2 = some true) ∨
      (declared o).lookup p.1 = none ∧
        (p.2 = .object [] ∨ o.get "additionalProperties" = some (.bool false)) := by
  have hmem : ∀ s, s ∈ compareProperties L o u → s.Ok f := hok
  simp only [compareProperties, List.mem_append, List.mem_flatMap] at hmem
  cases hlookup : (declared o).lookup p.1 with
  -- A property both sides declare is compared, and the comparison accepted.
  | some oschema =>
    refine .inl ⟨oschema, rfl, ?_⟩
    have hrecurse : (Step.recurse ("/properties/" ++ p.1) oschema p.2).Ok f :=
      hmem _ (.inr ⟨p, hp, by simp [hlookup]⟩)
    exact hrecurse
  | none =>
    have hadded : ∀ s ∈ addedProperty L o u p.1 p.2, s.Ok f := fun s hs =>
      hmem s (.inr ⟨p, hp, by simpa only [hlookup] using hs⟩)
    refine .inr ⟨rfl, ?_⟩
    by_cases hclosed : o.get "additionalProperties" = some (.bool false)
    · exact .inr hclosed
    -- A new one: with the model open, the report on it has to be the compatible one.
    · have hmodel : contentModel o = .openContent := by
        rw [ho.contentModel_eq, if_neg hclosed]
      have hreceived : ∀ s ∈ receivedProperty L o p.1 p.2, s.Ok f := by
        intro s hs
        apply hadded
        simp only [addedProperty, isOpen, hmodel]
        simp [hs]
      by_cases hempty : p.2.asObject = some []
      · left
        cases hvalue : p.2 with
        | object members => simpa [hvalue, Value.asObject] using hempty
        | _ => simp [hvalue, Value.asObject] at hempty
      · have hreport : Step.report .propertyAddedToOpenContentModel ("/properties/" ++ p.1) ∈
            receivedProperty L o p.1 p.2 := by
          simp [receivedProperty, hmodel, hempty]
        exact absurd (Step.Ok.compatible hreceived hreport) (by decide)

theorem required_sound (hu : PlainObject u) (hproperties : ∀ s ∈ compareProperties L o u, s.Ok f)
    (hrequired : ∀ s ∈ compareRequired o u, s.Ok f) : requiredSet u ⊆ requiredSet o := by
  intro name hname
  by_contra hnot
  obtain ⟨uschema, hlookup⟩ := Option.isSome_iff_exists.mp (hu.required name hname)
  have hmem : (name, uschema) ∈ declared u := Value.lookup_mem hlookup
  have hdefault : uschema.get "default" = none := hu.noDefault _ hmem
  cases horig : (declared o).lookup name with
  | some oschema =>
    have hreport : Step.report .requiredAttributeAdded ("/required/" ++ name) ∈
        compareRequired o u := by
      refine List.mem_append_left _ (List.mem_map.mpr ⟨name, ?_, ?_⟩)
      · rw [Finset.mem_sort, Finset.mem_filter, Finset.mem_sdiff]
        exact ⟨⟨hname, hnot⟩, by simp [horig], by simp [hlookup]⟩
      · simp [hlookup, hdefault]
    exact absurd (Step.Ok.compatible hrequired hreport) (by decide)
  | none =>
    have hreport : Step.report .requiredAttributeAdded ("/properties/" ++ name) ∈
        compareProperties L o u := by
      refine List.mem_append_right _ (List.mem_flatMap.mpr ⟨_, hmem, ?_⟩)
      simp [horig, addedProperty, hname, hdefault]
    exact absurd (Step.Ok.compatible hproperties hreport) (by decide)

theorem additional_sound (hu : PlainObject u)
    (hproperties : ∀ s ∈ compareProperties L o u, s.Ok f)
    (hadditional : ∀ s ∈ compareAdditionalProperties o u, s.Ok f)
    (hclosed : u.get "additionalProperties" = some (.bool false)) :
    o.get "additionalProperties" = some (.bool false) ∧
      ∀ name, ((declared o).lookup name).isSome → ((declared u).lookup name).isSome := by
  constructor
  · by_contra hopen
    have hreport : Step.report .additionalPropertiesRemoved "" ∈
        compareAdditionalProperties o u := by
      simp [compareAdditionalProperties, isFalse, hclosed, hopen]
    exact absurd (Step.Ok.compatible hadditional hreport) (by decide)
  · intro name hname
    by_contra hnot
    obtain ⟨oschema, hlookup⟩ := Option.isSome_iff_exists.mp hname
    have hmodel : contentModel u = .closedContent := by
      rw [hu.contentModel_eq, if_pos hclosed]
    have hreport : Step.report .propertyRemovedFromClosedContentModel ("/properties/" ++ name) ∈
        compareProperties L o u := by
      refine List.mem_append_left _ (List.mem_flatMap.mpr ⟨_, Value.lookup_mem hlookup, ?_⟩)
      simp [hnot, removedProperty, hmodel]
    exact absurd (Step.Ok.compatible hproperties hreport) (by decide)

/-! ## Combinators -/

/-- A matching that is as large as one of the lists finds a partner for each of its branches. The
number computed is the size of a matching by the correctness of the algorithm. -/
theorem maximumMatching_covers {old new : List Value} {n : ℕ}
    (h : maximumMatching f old new = some n) :
    (old.length ≤ n → ∀ a ∈ old, ∃ b ∈ new, f a b = some true) ∧
      (new.length ≤ n → ∀ b ∈ new, ∃ a ∈ old, f a b = some true) := by
  obtain ⟨edges, hedges, -⟩ := Option.bind_eq_some_iff.mp h
  rw [maximumMatching_eq hedges] at h
  have hgreatest : IsGreatest {k | ∃ M, Library.Matching.IsMatching
      (fun i => (edges[i]?).getD []) old.length M ∧ M.card = k} _ :=
    Library.Matching.maximumMatching_isGreatest (edges_lt hedges)
  obtain ⟨⟨M, hM, hcard⟩, -⟩ := hgreatest
  rw [Option.some.inj h] at hcard
  constructor
  · intro hn a ha
    obtain ⟨i, hi, rfl⟩ := List.mem_iff_getElem.mp ha
    obtain ⟨j, hj⟩ := hM.covers_left (hcard ▸ hn) hi
    obtain ⟨a, b, hold, hnew, htrue⟩ := (mem_edges hedges i j).mp hj
    rw [List.getElem?_eq_getElem hi] at hold
    obtain rfl := Option.some.inj hold
    exact ⟨b, List.mem_of_getElem? hnew, htrue⟩
  · intro hn b hb
    obtain ⟨j, hj, rfl⟩ := List.mem_iff_getElem.mp hb
    obtain ⟨i, hi⟩ := hM.covers_right (edges_lt hedges) (hcard ▸ hn) hj
    obtain ⟨a, b, hold, hnew, htrue⟩ := (mem_edges hedges i j).mp hi
    rw [List.getElem?_eq_getElem hj] at hnew
    obtain rfl := Option.some.inj hnew
    exact ⟨a, List.mem_of_getElem? hold, htrue⟩

/-- What compatible lists of branches are, by the kinds for more and for fewer of them. -/
theorem compareBranches_covers {g : Value → Value → Option Bool} {old new : List Value}
    {suffix : String} {extended narrowed : Kind} {steps : List Step}
    (h : compareBranches g old new suffix extended narrowed = some steps)
    (hok : ∀ s ∈ steps, s.Ok f) :
    (isBackwardCompatible extended = false → ∀ b ∈ new, ∃ a ∈ old, g a b = some true) ∧
      (isBackwardCompatible narrowed = false → ∀ a ∈ old, ∃ b ∈ new, g a b = some true) := by
  obtain ⟨matched, hmatched, h⟩ := Option.bind_eq_some_iff.mp h
  obtain ⟨hleft, hright⟩ := maximumMatching_covers hmatched
  split_ifs at h with hfew hmore hless
  · obtain rfl := Option.some.inj h
    exact absurd (Step.Ok.compatible hok List.mem_cons_self) (by decide)
  · obtain rfl := Option.some.inj h
    have hextended := Step.Ok.compatible hok List.mem_cons_self
    refine ⟨fun hbad => absurd hextended (by simp [hbad]), fun _ => hleft (by omega)⟩
  · obtain rfl := Option.some.inj h
    have hnarrowed := Step.Ok.compatible hok List.mem_cons_self
    refine ⟨fun _ => hright (by omega), fun hbad => absurd hnarrowed (by simp [hbad])⟩
  · exact ⟨fun _ => hright (by omega), fun _ => hleft (by omega)⟩

theorem anyBranch_true {test : Value → Option Bool} {l : List Value}
    (h : anyBranch test l = some true) : ∃ b ∈ l, test b = some true := by
  induction l with
  | nil => exact absurd h (by simp [anyBranch])
  | cons b rest ih =>
    rw [anyBranch_cons] at h
    obtain ⟨found, hfound, h⟩ := Option.bind_eq_some_iff.mp h
    cases found with
    | true => exact ⟨b, List.mem_cons_self, hfound⟩
    | false =>
      obtain ⟨b', hb', htrue⟩ := ih h
      exact ⟨b', List.mem_cons_of_mem b hb', htrue⟩

/-- Every branch that an instance has to satisfy is one it satisfies already. -/
theorem allOf_cases {g : Value → Value → Option Bool} {steps : List Step}
    (h : compareAllOf g o u = some steps) (hok : ∀ s ∈ steps, s.Ok f) {new : List Value}
    (hnew : branches u "allOf" = some new) :
    ∃ old, branches o "allOf" = some old ∧
      (old = new ∨ ∀ b ∈ new, ∃ a ∈ old, g a b = some true) := by
  rw [compareAllOf, hnew] at h
  cases hold : branches o "allOf" with
  | none =>
    rw [hold] at h
    obtain rfl := Option.some.inj h
    exact absurd (Step.Ok.compatible hok List.mem_cons_self) (by decide)
  | some old =>
    refine ⟨old, rfl, ?_⟩
    simp only [hold] at h
    split_ifs at h with hne
    · exact .inr ((compareBranches_covers h hok).1 rfl)
    · exact .inl (not_not.mp hne)

/-- A branch is found for every branch of the original, or for the original itself. The second is
the case of an original without branches, which is compared as a whole. -/
theorem anyOf_cases {g : Value → Value → Option Bool} {steps : List Step}
    (hone : branches o "oneOf" = none) (h : compareSum g o u = some steps)
    (hok : ∀ s ∈ steps, s.Ok f) {new : List Value} (hnew : branches u "anyOf" = some new) :
    (∃ old, branches o "anyOf" = some old ∧
      (old = new ∨ ∀ a ∈ old, ∃ b ∈ new, g a b = some true)) ∨
      ∃ b ∈ new, g o b = some true := by
  have husum : sumOf u = some ("anyOf", new) := by rw [sumOf, hnew]
  rw [compareSum, husum] at h
  cases hold : branches o "anyOf" with
  | none =>
    have hosum : sumOf o = none := by rw [sumOf, hold, hone]; rfl
    rw [hosum] at h
    obtain ⟨found, hfound, h⟩ := Option.bind_eq_some_iff.mp h
    obtain rfl := Option.some.inj h
    have hkind := Step.Ok.compatible hok List.mem_cons_self
    cases found with
    | false => exact absurd hkind (by decide)
    | true => exact .inr (anyBranch_true hfound)
  | some old =>
    have hosum : sumOf o = some ("anyOf", old) := by rw [sumOf, hold]
    simp only [hosum, ne_eq, not_true_eq_false, if_false] at h
    refine .inl ⟨old, rfl, ?_⟩
    split_ifs at h with heq
    · exact .inl heq
    · exact .inr ((compareBranches_covers h hok).2 rfl)

/-- The sides are swapped below `not`. -/
theorem not_cases {g : Value → Value → Option Bool} {steps : List Step}
    (h : compareNot g o u = some steps) (hok : ∀ s ∈ steps, s.Ok f) {new : Value}
    (hnew : u.get "not" = some new) :
    ∃ old, o.get "not" = some old ∧ (old = new ∨ g new old = some true) := by
  rw [compareNot, hnew] at h
  cases hold : o.get "not" with
  | none =>
    rw [hold] at h
    obtain rfl := Option.some.inj h
    exact absurd (Step.Ok.compatible hok List.mem_cons_self) (by decide)
  | some old =>
    refine ⟨old, rfl, ?_⟩
    simp only [hold] at h
    split_ifs at h with hne
    · obtain ⟨found, hfound, h⟩ := Option.bind_eq_some_iff.mp h
      obtain rfl := Option.some.inj h
      have hkind := Step.Ok.compatible hok List.mem_cons_self
      cases found with
      | false => exact absurd hkind (by decide)
      | true => exact .inr hfound
    · exact .inl (not_not.mp hne)

end KrabkaRegistry.Format.Json
