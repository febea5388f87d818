import KrabkaRegistry.Guarantees.JsonSoundness
import Mathlib.Data.Set.List

/-!
# Accepted Array Schemas

When the elements of an array have a schema in the reader only, the comparison reports nothing.
So an accepted reader of arrays is one of what was written exactly if, wherever that happens, the
writer has no arrays with elements or the schema of the elements accepts everything.

- `arrays_read_iff`: the readers of what was written, among those that are accepted
- `added_elements_accepted`: an accepted reader of strings, where anything was written
-/

namespace KrabkaRegistry.Guarantees

open KrabkaRegistry.Format.Json

variable {o u v : Value}

/-! ## The schemas -/

def arrayKeywords : List String := ["type", "minItems", "maxItems", "uniqueItems", "items"]

/-- The keywords of one schema, without those of its elements. -/
structure ArrayKeywords (schema : Value) : Prop where
  keys : ∀ m ∈ membersOf schema, m.1 ∈ arrayKeywords
  type : TypeNamed schema
  limits : IntegerLimits schema

/-- Object schemas of these keywords, at any nesting. -/
inductive ArraySchema : Value → Prop where
  | schema {schema : Value} : schema.isObject → ArrayKeywords schema →
      (∀ items, schema.get "items" = some items → ArraySchema items) → ArraySchema schema

theorem ArraySchema.isObject (h : ArraySchema o) : o.isObject := by
  cases h
  assumption

theorem ArraySchema.keywords (h : ArraySchema o) : ArrayKeywords o := by
  cases h
  assumption

theorem ArraySchema.items (h : ArraySchema o) {items : Value} (hget : o.get "items" = some items) :
    ArraySchema items := by
  cases h with
  | schema _ _ hitems => exact hitems items hget

theorem ArrayKeywords.get_eq_none (h : ArrayKeywords o) {key : String} (hkey : key ∉ arrayKeywords) :
    o.get key = none := by
  cases hget : o.get key with
  | none => rfl
  | some x =>
    obtain ⟨members, rfl, hlookup⟩ := Value.get_eq_some hget
    exact absurd (h.keys (key, x) (Value.lookup_mem hlookup)) hkey

/-- Only arrays are limited by anything but the type. -/
theorem ArraySchema.valid_iff (h : ArraySchema o) :
    Valid o v ↔ TypeAllows (o.get "type") v ∧ (∀ b ∈ bounds, BoundAllows b (o.get b.key) v) ∧
      (o.get "uniqueItems" = some (.bool true) → ((elementsOf v).map Value.meaning).Nodup) ∧
      ∀ items, o.get "items" = some items → ∀ x ∈ elementsOf v, Valid items x := by
  have hnone : ∀ key, key ∉ arrayKeywords → o.get key = none := fun key =>
    h.keywords.get_eq_none
  rw [Format.Json.valid_iff]
  constructor
  · rintro ⟨hkeywords, hsub⟩
    exact ⟨hkeywords.type, hkeywords.bound, hkeywords.unique, fun items hitems =>
      hsub.items items hitems (h.items hitems).isObject⟩
  · rintro ⟨htype, hbound, hunique, hitems⟩
    refine ⟨⟨htype, ?_, hbound, hunique, ?_, ?_⟩, ⟨?_, ?_, ?_, ?_, ?_⟩⟩
    · simp [hnone "enum" (by decide), EnumAllows]
    · simp [hnone "required" (by decide)]
    · simp [hnone "additionalProperties" (by decide)]
    · simp [declared, props, hnone "properties" (by decide)]
    · exact fun items hget _ => hitems items hget
    · simp [branches, hnone "allOf" (by decide)]
    · simp [branches, hnone "anyOf" (by decide)]
    · simp [hnone "not" (by decide)]

/-! ## The condition -/

/-- The names of all types; integers are numbers. -/
def allTypes : Finset String := {"null", "boolean", "number", "string", "array", "object"}

/-- The schema has no limit that a value could miss. -/
inductive AcceptsAll : Value → Prop where
  | schema {schema : Value} : (typesOf schema = ∅ ∨ allTypes ⊆ typesOf schema) →
      (∀ m, schema.get "minItems" = some (.number m) → m.value ≤ 0) →
      schema.get "maxItems" = none → schema.get "uniqueItems" ≠ some (.bool true) →
      (∀ items, schema.get "items" = some items → AcceptsAll items) → AcceptsAll schema

/-- The type and the limits allow arrays of this length. -/
structure LengthAllowed (schema : Value) (n : ℕ) : Prop where
  type : typesOf schema = ∅ ∨ "array" ∈ typesOf schema
  min : ∀ m, schema.get "minItems" = some (.number m) → m.value ≤ n
  max : ∀ m, schema.get "maxItems" = some (.number m) → n ≤ m.value

/-- Where the update limits elements, there are none, or both limit them, or it allows all. -/
inductive ItemsFit : Value → Value → Prop where
  | free {o u : Value} : u.get "items" = none → ItemsFit o u
  | empty {o u : Value} : (∀ n, 1 ≤ n → ¬ LengthAllowed o n) → ItemsFit o u
  | both {o u oi ui : Value} : o.get "items" = some oi → u.get "items" = some ui →
      ItemsFit oi ui → ItemsFit o u
  | all {o u ui : Value} : o.get "items" = none → u.get "items" = some ui → AcceptsAll ui →
      ItemsFit o u

/-- The limits are in order wherever they are compared. -/
inductive LimitsKept : Value → Value → Prop where
  | schema {o u : Value} : LimitsOrdered o u →
      (∀ oi ui, o.get "items" = some oi → u.get "items" = some ui → LimitsKept oi ui) →
      LimitsKept o u

/-! ## Arrays -/

theorem boundAllows_array {items : List Value} :
    (∀ b ∈ bounds, BoundAllows b (o.get b.key) (.array items)) ↔
      (∀ m, o.get "minItems" = some (.number m) → m.value ≤ items.length) ∧
        ∀ m, o.get "maxItems" = some (.number m) → items.length ≤ m.value := by
  have hkeyword : ∀ b : Bound, b.measure (.array items) = some (items.length : ℚ) →
      (BoundAllows b (o.get b.key) (.array items) ↔
        ∀ m, o.get b.key = some (.number m) → b.Holds items.length m.value) := by
    intro b hb
    unfold BoundAllows
    rw [hb]
    cases hget : o.get b.key with
    | none => simp
    | some x => cases x <;> simp
  constructor
  · intro h
    constructor
    · exact (hkeyword ⟨"minItems", itemsOf, false, false⟩ rfl).mp (h _ (by simp [bounds]))
    · exact (hkeyword ⟨"maxItems", itemsOf, true, false⟩ rfl).mp (h _ (by simp [bounds]))
  · rintro ⟨hmin, hmax⟩
    simp only [bounds, List.forall_mem_cons]
    refine ⟨?_, ?_, ?_, ?_, ?_, ?_, ?_, ?_, ?_, ?_, fun b hb => absurd hb List.not_mem_nil⟩
    case refine_7 => exact (hkeyword ⟨"maxItems", itemsOf, true, false⟩ rfl).mpr hmax
    case refine_8 => exact (hkeyword ⟨"minItems", itemsOf, false, false⟩ rfl).mpr hmin
    all_goals simp [BoundAllows, numberOf, lengthOf, sizeOfObject]

theorem ArraySchema.valid_array_iff (h : ArraySchema o) {items : List Value} :
    Valid o (.array items) ↔ LengthAllowed o items.length ∧
      (o.get "uniqueItems" = some (.bool true) → (items.map Value.meaning).Nodup) ∧
      ∀ x ∈ items, Valid ((o.get "items").getD (.object [])) x := by
  have htype : TypeAllows (o.get "type") (.array items) ↔
      typesOf o = ∅ ∨ "array" ∈ typesOf o := by
    rw [typeAllows_iff h.keywords.type]
    simp [typeNames]
  -- No schema of the elements is one that accepts all of them.
  have hitems : (∀ schema, o.get "items" = some schema → ∀ x ∈ items, Valid schema x) ↔
      ∀ x ∈ items, Valid ((o.get "items").getD (.object [])) x := by
    cases hget : o.get "items" with
    | none => simp [valid_empty]
    | some schema => simp
  rw [h.valid_iff, htype, boundAllows_array]
  constructor
  · rintro ⟨htype, ⟨hmin, hmax⟩, hunique, hsub⟩
    exact ⟨⟨htype, hmin, hmax⟩, hunique, hitems.mp hsub⟩
  · rintro ⟨⟨htype, hmin, hmax⟩, hunique, hsub⟩
    exact ⟨htype, ⟨hmin, hmax⟩, hunique, hitems.mpr hsub⟩

/-- What is no array is limited by the type only. -/
theorem ArraySchema.valid_other_iff (h : ArraySchema o) (harray : v.isArray = false) :
    Valid o v ↔ TypeAllows (o.get "type") v := by
  have helements : elementsOf v = [] := by
    cases v with
    | array items => cases harray
    | _ => rfl
  have hitems : itemsOf v = none := by
    cases v with
    | array items => cases harray
    | _ => rfl
  rw [h.valid_iff, helements]
  constructor
  · exact fun hv => hv.1
  · refine fun htype => ⟨htype, ?_, by simp, by simp⟩
    simp only [bounds, List.forall_mem_cons]
    refine ⟨?_, ?_, ?_, ?_, ?_, ?_, ?_, ?_, ?_, ?_, fun b hb => absurd hb List.not_mem_nil⟩
    case refine_7 => simp [BoundAllows, hitems]
    case refine_8 => simp [BoundAllows, hitems]
    all_goals simp [BoundAllows, h.keywords.get_eq_none, arrayKeywords]

/-! ## Soundness -/

theorem acceptsAll_valid (ho : ArraySchema o) (h : AcceptsAll o) (v : Value) : Valid o v := by
  induction h generalizing v with
  | @schema s htypes hmin hmax hunique _ ih =>
    have htype : TypeAllows (s.get "type") v := by
      rw [typeAllows_iff ho.keywords.type]
      refine htypes.imp_right fun hall => ?_
      have hname : ∃ name ∈ typeNames v, name ∈ allTypes := by
        cases v with
        | number n =>
          refine ⟨"number", ?_, by decide⟩
          rw [typeNames]
          split_ifs <;> simp
        | _ => simp [typeNames, allTypes]
      obtain ⟨name, hmem, hin⟩ := hname
      exact ⟨name, hmem, hall hin⟩
    cases v with
    | array items =>
      rw [ho.valid_iff, boundAllows_array]
      refine ⟨htype, ⟨fun m hm => ?_, by simp [hmax]⟩, fun h => absurd h hunique, ?_⟩
      · exact (hmin m hm).trans (Nat.cast_nonneg _)
      · exact fun schema hschema x _ => ih schema hschema (ho.items hschema) x
    | _ => exact (ho.valid_other_iff rfl).mpr htype

/-- Every instance of an accepted writer is one of the reader, where the elements fit. By induction
on the nesting of the arrays, keyword by keyword at each level. -/
theorem array_sound {L : DiffLibs} (ho : ArraySchema o) (hu : ArraySchema u)
    (hlimits : LimitsKept o u) (hfit : ItemsFit o u) (ctx : Ctx)
    (h : verdict L ⟨ctx, o, u⟩ = some true) (v : Value) (hv : Valid o v) : Valid u v := by
  induction hlimits generalizing v with
  | @schema o u hordered _ ih =>
    have hrefs : NoRefs o u := by
      simp [NoRefs, refOf, ho.keywords.get_eq_none, hu.keywords.get_eq_none, arrayKeywords]
    rw [verdict_eq, judge_plain_true hrefs] at h
    obtain ⟨-, hok⟩ := h
    have hvalid := ho.valid_iff.mp hv
    refine hu.valid_iff.mpr ⟨?_, ?_, ?_, ?_⟩
    · exact type_sound ho.keywords.type hu.keywords.type
        (fun s hs => hok s (by simp [keywordSteps, hs])) hvalid.1
    · intro b hb
      obtain ⟨kinds, hkinds, hsteps⟩ := exists_kinds L o u b hb
      exact bound_sound hb hkinds ho.keywords.limits hu.keywords.limits hordered
        (fun s hs => hok s (hsteps s hs)) (hvalid.2.1 b hb)
    · exact unique_sound
        (fun s hs => hok s (by simp [keywordSteps, compareArrayConstraints, hs])) hvalid.2.2.1
    · intro ui hui x hx
      cases hfit with
      | free hnone => rw [hnone] at hui; cases hui
      | empty hempty =>
        -- An array with the element has a length that is allowed.
        cases v with
        | array items =>
          have hlength : 1 ≤ items.length := List.length_pos_of_mem hx
          exact absurd (ho.valid_array_iff.mp hv).1 (hempty _ hlength)
        | _ => exact absurd hx List.not_mem_nil
      | @both _ _ oi ui' hoi hui' hinner =>
        obtain rfl : ui = ui' := Option.some.inj (hui.symm.trans hui')
        have hrecurse : Step.recurse "/items" oi ui ∈ keywordSteps L o u := by
          simp [keywordSteps, compareArrayConstraints, compareItems, hoi, hui,
            (ho.items hoi).isObject, (hu.items hui).isObject]
        exact ih oi ui hoi hui (ho.items hoi) (hu.items hui) hinner (hok _ hrecurse) x
          (hvalid.2.2.2 oi hoi x hx)
      | all _ hui' hall =>
        rw [hui'] at hui
        obtain rfl := Option.some.inj hui
        exact acceptsAll_valid (hu.items hui') hall x

/-! ## Instances that the reader misses -/

/-- The number is no integer. -/
theorem typeNames_half : typeNames (.number (.float "0.5")) = ["number"] := by
  have hhalf : (Number.float "0.5").value.den = 2 := by decide +kernel
  rw [typeNames, hhalf]
  rfl

/-- A schema that accepts everything limits nothing. -/
theorem acceptsAll_of_valid (ho : ArraySchema o) (h : ∀ v, Valid o v) : AcceptsAll o := by
  induction ho with
  | @schema s hobject hkeywords hsub ih =>
    have hs : ArraySchema s := .schema hobject hkeywords hsub
    have htype : ∀ v, typesOf s = ∅ ∨ ∃ name ∈ typeNames v, name ∈ typesOf s := fun v =>
      (typeAllows_iff hkeywords.type).mp (hs.valid_iff.mp (h v)).1
    refine .schema ?_ ?_ ?_ ?_ ?_
    · by_cases hnone : typesOf s = ∅
      · exact .inl hnone
      · -- Each type has a value that is of no other.
        have hname : ∀ {v : Value} {name : String}, typeNames v = [name] → name ∈ typesOf s := by
          intro v name hv
          have hmem := (htype v).resolve_left hnone
          rw [hv] at hmem
          simpa using hmem
        right
        simp only [allTypes, Finset.insert_subset_iff, Finset.singleton_subset_iff]
        exact ⟨hname (v := .null) rfl, hname (v := .bool true) rfl, hname typeNames_half,
          hname (v := .string "") rfl, hname (v := .array []) rfl, hname (v := .object []) rfl⟩
    · have hempty := (hs.valid_array_iff.mp (h (.array []))).1
      intro m hm
      simpa using hempty.min m hm
    · cases hmax : s.get "maxItems" with
      | none => rfl
      | some x =>
        obtain ⟨m, n, rfl, hm⟩ :=
          hkeywords.limits ⟨"maxItems", itemsOf, true, false⟩ (by simp [bounds]) x hmax
        have hlong :=
          (hs.valid_array_iff.mp (h (.array (List.replicate (n.toNat + 1) .null)))).1.max m hmax
        rw [List.length_replicate, hm] at hlong
        have hle : ((n.toNat + 1 : ℕ) : ℤ) ≤ n := by exact_mod_cast hlong
        omega
    · intro hunique
      have htwo := (hs.valid_array_iff.mp (h (.array [.null, .null]))).2.1 hunique
      simp at htwo
    · intro schema hschema
      refine ih schema hschema fun x => ?_
      have hone := (hs.valid_array_iff.mp (h (.array [x]))).2.2
      simpa [hschema] using hone

/-- What the instances of a schema mean. -/
def instances (schema : Value) : Set Meaning := Value.meaning '' {v | Valid schema v}

theorem instances_empty_infinite : (instances (.object [])).Infinite := by
  refine Set.infinite_of_injective_forall_mem (f := fun n : ℕ => Meaning.number n) ?_ ?_
  · intro m n h
    simpa using h
  · intro n
    exact ⟨.number (.int n), valid_empty _, by simp [Value.meaning, Number.value]⟩

/-- Among infinitely many elements there are enough to fill an array without a repetition. -/
theorem exists_array {schema x : Value} (hinfinite : (instances schema).Infinite)
    (hx : Valid schema x) {n : ℕ} (hn : 1 ≤ n) :
    ∃ items : List Value, items.length = n ∧ x ∈ items ∧ (∀ y ∈ items, Valid schema y) ∧
      (items.map Value.meaning).Nodup := by
  -- `n - 1` further meanings, which infinitely many instances provide, and a value for each.
  obtain ⟨others, hothers, hcard⟩ :=
    (hinfinite.sdiff (Set.finite_singleton x.meaning)).exists_subset_card_eq (n - 1)
  have hvalues : others.toList ∈ Set.range
      (List.map fun y : {v // Valid schema v} => y.val.meaning) := by
    rw [Set.range_list_map]
    intro m hm
    obtain ⟨⟨v, hv, rfl⟩, -⟩ := hothers (Finset.mem_toList.mp hm)
    exact ⟨⟨v, hv⟩, rfl⟩
  obtain ⟨values, hvalues⟩ := hvalues
  have hmeanings : (values.map Subtype.val).map Value.meaning = others.toList := by
    rw [← hvalues, List.map_map]
    rfl
  have hlength : values.length = n - 1 := by
    rw [← hcard, ← Finset.length_toList, ← hvalues, List.length_map]
  refine ⟨x :: values.map Subtype.val, ?_, List.mem_cons_self, ?_, ?_⟩
  · rw [List.length_cons, List.length_map, hlength]
    omega
  · rw [List.forall_mem_cons]
    refine ⟨hx, fun y hy => ?_⟩
    obtain ⟨y, -, rfl⟩ := List.mem_map.mp hy
    exact y.property
  · rw [List.map_cons, hmeanings, List.nodup_cons]
    refine ⟨fun hmem => ?_, others.nodup_toList⟩
    exact (hothers (Finset.mem_toList.mp hmem)).2 rfl

/-- Arrays of infinitely many elements are infinitely many. -/
theorem instances_infinite (ho : ArraySchema o) {n : ℕ} (hn : 1 ≤ n) (hlength : LengthAllowed o n)
    (hinfinite : (instances ((o.get "items").getD (.object []))).Infinite) :
    (instances o).Infinite := by
  intro hfinite
  -- Finitely many arrays have finitely many elements, but every element is in one of them.
  have helements : ∀ m : Meaning, {y | ∃ items, m = .array items ∧ y ∈ items}.Finite := by
    intro m
    cases m <;> simp
  refine hinfinite ((hfinite.biUnion fun m _ => helements m).subset ?_)
  rintro _ ⟨x, hx, rfl⟩
  obtain ⟨items, rfl, hmem, hall, hnodup⟩ := exists_array hinfinite hx hn
  have hvalid : Valid o (.array items) :=
    ho.valid_array_iff.mpr ⟨hlength, fun _ => hnodup, hall⟩
  simp only [Set.mem_iUnion]
  refine ⟨(Value.array items).meaning, ⟨_, hvalid, rfl⟩, items.map Value.meaning, ?_,
    List.mem_map_of_mem hmem⟩
  rw [Value.meaning, itemMeanings_eq]

/-- Where the elements do not fit, an instance of the writer is none of the reader. -/
theorem exists_missed (ho : ArraySchema o) (hu : ArraySchema u) (h : ¬ ItemsFit o u) :
    (∃ v, Valid o v ∧ ¬ Valid u v) ∧ (instances o).Infinite := by
  induction hu generalizing o with
  | @schema u hobject hkeywords hsub ih =>
    have hu : ArraySchema u := .schema hobject hkeywords hsub
    obtain ⟨ui, hui⟩ : ∃ ui, u.get "items" = some ui :=
      Option.ne_none_iff_exists'.mp fun hnone => h (.free hnone)
    obtain ⟨n, hn, hlength⟩ : ∃ n, 1 ≤ n ∧ LengthAllowed o n := by
      by_contra hnone
      exact h (.empty fun n hn hlength => hnone ⟨n, hn, hlength⟩)
    -- The elements of the writer: infinitely many, and one that the reader misses.
    have helements : (∃ x, Valid ((o.get "items").getD (.object [])) x ∧ ¬ Valid ui x) ∧
        (instances ((o.get "items").getD (.object []))).Infinite := by
      cases hoi : o.get "items" with
      | some oi =>
        rw [Option.getD_some]
        exact ih ui hui (ho.items hoi) fun hfit => h (.both hoi hui hfit)
      | none =>
        rw [Option.getD_none]
        refine ⟨?_, instances_empty_infinite⟩
        by_contra hall
        refine h (.all hoi hui (acceptsAll_of_valid (hsub ui hui) fun x => ?_))
        by_contra hx
        exact hall ⟨x, valid_empty x, hx⟩
    obtain ⟨⟨x, hx, hmissed⟩, hinfinite⟩ := helements
    obtain ⟨items, rfl, hmem, hall, hnodup⟩ := exists_array hinfinite hx hn
    refine ⟨⟨.array items, ho.valid_array_iff.mpr ⟨hlength, fun _ => hnodup, hall⟩, fun hv => ?_⟩,
      instances_infinite ho hn hlength hinfinite⟩
    have helement := (hu.valid_array_iff.mp hv).2.2 x hmem
    rw [hui] at helement
    exact hmissed helement

/-! ## Schemas of arrays -/

def typed (name : String) : Value := .object [("type", .string name)]

/-- Arrays whose elements have one type. -/
def arraysOf (name : String) (limits : List (String × Value)) : Value :=
  .object (("items", typed name) :: limits ++ [("type", .string "array")])

theorem arraySchema_of {members : List (String × Value)} (name : String)
    (hkeys : ∀ m ∈ members, m.1 ∈ arrayKeywords)
    (htype : members.lookup "type" = some (.string name))
    (hlimits : ∀ m ∈ members, m.1 ≠ "type" → m.1 ≠ "uniqueItems" → m.1 ≠ "items" →
      ∃ n : ℤ, m.2 = .number (.int n))
    (hitems : ∀ items, members.lookup "items" = some items → ArraySchema items) :
    ArraySchema (.object members) := by
  refine .schema rfl ⟨hkeys, fun x hx => ?_, fun b hb x hx => ?_⟩ hitems
  · exact .inl ⟨name, Option.some.inj (hx.symm.trans htype)⟩
  · have hother : b.key ≠ "type" ∧ b.key ≠ "uniqueItems" ∧ b.key ≠ "items" := by
      revert b
      simp [bounds]
    obtain ⟨n, hn⟩ := hlimits (b.key, x) (Value.lookup_mem hx) hother.1 hother.2.1 hother.2.2
    exact ⟨.int n, n, hn, rfl⟩

theorem arraySchema_typed (name : String) : ArraySchema (typed name) := by
  refine arraySchema_of name ?_ rfl ?_ ?_
  · simp [arrayKeywords]
  · simp
  · simp [List.lookup_cons]

/-- A list schema with integers for `minItems` and `maxItems` is one that the guarantee speaks of.
-/
theorem arraySchema_arraysOf {name : String} {limits : List (String × Value)}
    (h : ∀ m ∈ limits, m.1 ∈ ["minItems", "maxItems"] ∧ ∃ n : ℤ, m.2 = .number (.int n)) :
    ArraySchema (arraysOf name limits) := by
  have hkeys : ∀ m ∈ limits, m.1 = "minItems" ∨ m.1 = "maxItems" := fun m hm => by
    simpa using (h m hm).1
  have htype : limits.lookup "type" = none := by
    rw [List.lookup_eq_none_iff]
    intro m hm
    rcases hkeys m hm with hkey | hkey <;> simp [hkey]
  refine arraySchema_of "array" ?_ ?_ ?_ ?_
  · intro m hm
    simp only [List.cons_append, List.mem_cons, List.mem_append, List.not_mem_nil, or_false] at hm
    rcases hm with rfl | hm | rfl
    · simp [arrayKeywords]
    · rcases hkeys m hm with hkey | hkey <;> simp [hkey, arrayKeywords]
    · simp [arrayKeywords]
  · simp [List.lookup_cons, List.lookup_append, htype]
  · intro m hm hother _ hother'
    simp only [List.cons_append, List.mem_cons, List.mem_append, List.not_mem_nil, or_false] at hm
    rcases hm with rfl | hm | rfl
    · exact absurd rfl hother'
    · exact (h m hm).2
    · exact absurd rfl hother
  · intro items hitems
    obtain rfl := Option.some.inj hitems
    exact arraySchema_typed name

theorem smallLimits_of {members : List (String × Value)}
    (h : ∀ m ∈ members, m.1 ≠ "type" → m.1 ≠ "items" →
      ∃ n : ℤ, m.2 = .number (.int n) ∧ |n| < 2 ^ 53) : SmallLimits (.object members) := by
  intro b hb x hx
  have hother : b.key ≠ "type" ∧ b.key ≠ "items" := by
    revert b
    simp [bounds]
  obtain ⟨n, hn, hsmall⟩ := h (b.key, x) (Value.lookup_mem hx) hother.1 hother.2
  exact ⟨.int n, n, hn, rfl, hsmall⟩

/-! ## The result -/

/-- An accepted reader of arrays reads what was written exactly if the elements fit. -/
theorem arrays_read_iff {L : DiffLibs} {reader writer : String}
    {readerRefs writerRefs : List ResolvedReference} {readerS writerS : JsonSchema}
    (hr : Parses L reader readerRefs readerS) (hw : Parses L writer writerRefs writerS)
    (hreader : ArraySchema readerS.value) (hwriter : ArraySchema writerS.value)
    (hlimits : LimitsKept writerS.value readerS.value)
    (haccepts : Accepts L reader writer readerRefs writerRefs) :
    (∀ v, Valid writerS.value v → Valid readerS.value v) ↔
      ItemsFit writerS.value readerS.value := by
  rw [accepts_iff hr hw] at haccepts
  constructor
  · intro h
    by_contra hfit
    obtain ⟨⟨v, hv, hmissed⟩, -⟩ := exists_missed hwriter hreader hfit
    exact hmissed (h v hv)
  · exact fun hfit => array_sound hwriter hreader hlimits hfit _ haccepts

/-- Arrays of two integers or more are read as arrays of numbers. -/
theorem integers_read :
    ItemsFit (arraysOf "integer" [("minItems", .number (.int 2))])
        (arraysOf "number" [("minItems", .number (.int 1))]) ∧
      ((∀ v, Valid (arraysOf "integer" [("minItems", .number (.int 2))]) v →
          Valid (arraysOf "number" [("minItems", .number (.int 1))]) v) ↔
        ItemsFit (arraysOf "integer" [("minItems", .number (.int 2))])
          (arraysOf "number" [("minItems", .number (.int 1))])) := by
  -- Arrays of at least two integers, read as arrays of at least one number.
  have hw : Parses .compact
      "\x7b\"type\":\"array\",\"items\":\x7b\"type\":\"integer\"\x7d,\"minItems\":2\x7d" []
      ⟨arraysOf "integer" [("minItems", .number (.int 2))], []⟩ :=
    compact_parses (by decide +kernel) rfl
  have hr : Parses .compact
      "\x7b\"type\":\"array\",\"items\":\x7b\"type\":\"number\"\x7d,\"minItems\":1\x7d" []
      ⟨arraysOf "number" [("minItems", .number (.int 1))], []⟩ :=
    compact_parses (by decide +kernel) rfl
  have hfit : ItemsFit (arraysOf "integer" [("minItems", .number (.int 2))])
      (arraysOf "number" [("minItems", .number (.int 1))]) := .both rfl rfl (.free rfl)
  refine ⟨hfit, arrays_read_iff hr hw (arraySchema_arraysOf (by simp))
    (arraySchema_arraysOf (by simp)) ?_ ?_⟩
  · refine .schema (limitsOrdered_of_small (smallLimits_of (by simp)) (smallLimits_of (by simp))) ?_
    intro oi ui hoi hui
    obtain rfl := Option.some.inj hoi
    obtain rfl := Option.some.inj hui
    refine .schema (limitsOrdered_of_small (smallLimits_of (by simp)) (smallLimits_of (by simp))) ?_
    intro oi ui hoi
    cases hoi
  · exact (accepts_iff hr hw).mpr (verdict_of_run 3 (by decide +kernel))

/-- The schema of the elements is new, and nothing is reported. -/
theorem added_elements_accepted :
    Parses .compact "\x7b\"type\":\"array\"\x7d" [] ⟨typed "array", []⟩ ∧
      Parses .compact "\x7b\"type\":\"array\",\"items\":\x7b\"type\":\"string\"\x7d\x7d" []
        ⟨arraysOf "string" [], []⟩ ∧
      ArraySchema (typed "array") ∧ ArraySchema (arraysOf "string" []) ∧
      Accepts .compact "\x7b\"type\":\"array\",\"items\":\x7b\"type\":\"string\"\x7d\x7d"
        "\x7b\"type\":\"array\"\x7d" [] [] ∧
      Valid (typed "array") (.array [.null]) ∧ ¬ Valid (arraysOf "string" []) (.array [.null]) := by
  have hw : Parses .compact "\x7b\"type\":\"array\"\x7d" [] ⟨typed "array", []⟩ :=
    compact_parses (by decide +kernel) rfl
  have hr : Parses .compact
      "\x7b\"type\":\"array\",\"items\":\x7b\"type\":\"string\"\x7d\x7d" []
      ⟨arraysOf "string" [], []⟩ := compact_parses (by decide +kernel) rfl
  have hwriter : ArraySchema (typed "array") := arraySchema_typed "array"
  have hreader : ArraySchema (arraysOf "string" []) := arraySchema_arraysOf (by simp)
  refine ⟨hw, hr, hwriter, hreader, ?_, ?_, fun hv => ?_⟩
  · exact (accepts_iff hr hw).mpr (verdict_of_run 2 (by decide +kernel))
  · refine hwriter.valid_array_iff.mpr ⟨⟨.inr (by decide), ?_, ?_⟩, ?_, ?_⟩
    · exact fun m hm => nomatch hm
    · exact fun m hm => nomatch hm
    · exact fun hm => nomatch hm
    · exact fun x _ => valid_empty x
  · -- The element is no string.
    have helement := (hreader.valid_array_iff.mp hv).2.2 .null List.mem_cons_self
    have htype := ((arraySchema_typed "string").valid_iff.mp helement).1
    exact absurd htype (by simp [typed, TypeAllows, typeNames])

end KrabkaRegistry.Guarantees
