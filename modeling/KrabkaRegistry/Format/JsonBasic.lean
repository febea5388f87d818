import KrabkaRegistry.Format.JsonSelf

/-!
# Schemas With Few Keywords

Schemas that use only `type`, `properties`, `$defs` and `$ref` are compared by their types and by
the properties that both sides declare.  A value that is no object is one of them: it has no keyword
at all.

- `Basic.keywordSteps`, `Basic.compareCombinators`: the steps of two such schemas;
- `verdict_others`: two values that are no objects are compatible.
-/

namespace KrabkaRegistry.Format.Json

variable {L : DiffLibs}

def combinatorKeywords : List String := ["allOf", "anyOf", "oneOf", "not"]

/-- A schema that uses no keyword but `type`, `properties`, `$defs` and `$ref`. -/
def Basic (v : Value) : Prop :=
  ∀ key, key ∉ ["type", "properties", "$defs", "$ref"] → v.get key = none

namespace Basic

variable {v o u : Value}

theorem combinators (h : Basic v) : ∀ key ∈ combinatorKeywords, v.get key = none := by
  intro key hkey
  apply h
  have hall : ∀ k ∈ combinatorKeywords, k ∉ ["type", "properties", "$defs", "$ref"] := by decide
  exact hall key hkey

theorem branches (h : Basic v) {key : String} (hkey : key ∈ combinatorKeywords) :
    branches v key = none := by
  simp [Json.branches, h.combinators key hkey]

theorem sumOf (h : Basic v) : sumOf v = none := by
  simp (disch := decide) [Json.sumOf, h.branches]

/-- There are no combinators to compare. -/
theorem compareCombinators (ho : Basic o) (hu : Basic u) (f : Value → Value → Option Bool) :
    compareCombinators f o u = some [] := by
  apply compareCombinators_same
  · rw [ho.branches (by decide), hu.branches (by decide)]
  · rw [ho.sumOf, hu.sumOf]
  · rw [ho.combinators "not" (by decide), hu.combinators "not" (by decide)]

theorem requiredSet (h : Basic v) : requiredSet v = ∅ := by
  simp [Json.requiredSet, h "required" (by decide)]

theorem contentModel (h : Basic v) : contentModel v = .openContent := by
  simp [Json.contentModel, h "additionalProperties" (by decide),
    h "patternProperties" (by decide)]

/-- The steps of one property of the update. -/
def propertyStep (o : Value) (p : String × Value) : Step :=
  match (declared o).lookup p.1 with
  | none =>
    if p.2.asObject = some [] then
      .report .propertyWithEmptySchemaAddedToOpenContentModel ("/properties/" ++ p.1)
    else .report .propertyAddedToOpenContentModel ("/properties/" ++ p.1)
  | some oschema => .recurse ("/properties/" ++ p.1) oschema p.2

theorem compareProperties (ho : Basic o) (hu : Basic u) :
    compareProperties L o u =
      ((declared o).filter fun p => ((declared u).lookup p.1).isNone).map (fun p =>
        .report .propertyRemovedFromOpenContentModel ("/properties/" ++ p.1)) ++
      (declared u).map (propertyStep o) := by
  unfold Json.compareProperties
  simp only
  -- What was removed is read from the original, what is there or was added from the update.
  congr 1
  · induction declared o with
    | nil => rfl
    | cons p ps ih =>
      rw [List.flatMap_cons, ih, List.filter_cons]
      cases (declared u).lookup p.1 with
      | none => simp [removedProperty, hu.contentModel]
      | some x => simp
  · rw [List.map_eq_flatMap]
    apply List.flatMap_congr
    intro p _
    unfold propertyStep
    cases (declared o).lookup p.1 with
    | none =>
      simp only [addedProperty, receivedProperty, hu.requiredSet, Finset.notMem_empty, false_and,
        if_false, List.nil_append, ho.contentModel]
      split_ifs <;> rfl
    | some x => rfl

/-- Basic schemas are compared by their types and properties. -/
theorem keywordSteps (ho : Basic o) (hu : Basic u) :
    keywordSteps L o u = compareType o u ++ Json.compareProperties L o u := by
  -- A keyword outside the four is absent, so its comparison has nothing to report.
  have hnum : ∀ {v key}, Basic v → key ∉ ["type", "properties", "$defs", "$ref"] →
      num v key = none := by
    intro v key hv hkey
    simp [num, hv key hkey]
  have hbound : ∀ {key kinds}, key ∉ ["type", "properties", "$defs", "$ref"] →
      compareBound o u key kinds = [] := by
    intro key kinds hkey
    simp [compareBound, hnum ho hkey, hnum hu hkey]
  have henum : ∀ {v}, Basic v → enumSet L v = none := by
    intro v hv
    simp [enumSet, hv "enum" (by decide), hv "const" (by decide)]
  have hconditional : ∀ {v}, Basic v → hasConditional v = false := by
    intro v hv
    simp [hasConditional, hv "if" (by decide), hv "then" (by decide), hv "else" (by decide)]
  have hfalse : isFalse none = false := by simp [isFalse]
  have henums : compareEnum L o u = [] := by simp [compareEnum, henum ho, henum hu]
  have hrequired : compareRequired o u = [] := by
    simp [compareRequired, ho.requiredSet, hu.requiredSet]
  have hadditional : compareAdditionalProperties o u = [] := by
    simp [compareAdditionalProperties, ho "additionalProperties" (by decide),
      hu "additionalProperties" (by decide), hfalse, isSchemaValued]
  have hnumeric : compareNumeric o u = [] := by
    simp (disch := decide) [compareNumeric, compareMultipleOf, hbound, hnum ho, hnum hu]
  have hstrings : compareStringConstraints o u = [] := by
    simp (disch := decide) [compareStringConstraints, comparePattern, hbound, ho "pattern",
      hu "pattern"]
  have harrays : compareArrayConstraints o u = [] := by
    simp (disch := decide) [compareArrayConstraints, compareItems, compareAdditionalItems,
      compareUniqueItems, uniqueItems, hbound, ho "items", ho "additionalItems",
      hu "additionalItems", ho "uniqueItems", hu "uniqueItems", hfalse, isSchemaValued]
  have hsizes : compareObjectSize o u = [] := by
    simp (disch := decide) [compareObjectSize, hbound]
  have hdependencies : compareDependencies o u = [] := by
    simp [compareDependencies, ho "dependencies" (by decide), hu "dependencies" (by decide)]
  have hconditionals : compareConditionals L o u = [] := by
    simp [compareConditionals, hconditional ho, hconditional hu]
  simp [Json.keywordSteps, henums, hrequired, hadditional, hnumeric, hstrings, harrays, hsizes,
    hdependencies, hconditionals]

/-- Only the properties of basic schemas are compared below. -/
theorem recurse (ho : Basic o) (hu : Basic u) {suffix : String} {a b : Value}
    (hmem : .recurse suffix a b ∈ Json.keywordSteps L o u) :
    ∃ name, (name, b) ∈ declared u ∧ (declared o).lookup name = some a := by
  rw [keywordSteps ho hu, List.mem_append, compareProperties ho hu] at hmem
  rcases hmem with hmem | hmem
  · obtain ⟨kind, suffix', heq⟩ := compareType_onlyReports o u _ hmem
    cases heq
  · rcases List.mem_append.mp hmem with hmem | hmem
    · obtain ⟨p, -, heq⟩ := List.mem_map.mp hmem
      cases heq
    · obtain ⟨p, hp, heq⟩ := List.mem_map.mp hmem
      unfold propertyStep at heq
      split at heq
      · split_ifs at heq
      · rename_i oschema hlookup
        obtain ⟨-, rfl, rfl⟩ := Step.recurse.inj heq
        exact ⟨p.1, hp, hlookup⟩

end Basic

/-! ## Values without keywords -/

section Others

variable {a b : Value} (ha : a.isObject = false) (hb : b.isObject = false)

theorem get_of_other {v : Value} (hv : v.isObject = false) (key : String) : v.get key = none := by
  cases v with
  | object members => cases hv
  | _ => rfl

theorem basic_of_other {v : Value} (hv : v.isObject = false) : Basic v :=
  fun key _ => get_of_other hv key

include ha hb

theorem keywordSteps_others : keywordSteps L a b = [] := by
  rw [(basic_of_other ha).keywordSteps (basic_of_other hb),
    (basic_of_other ha).compareProperties (basic_of_other hb)]
  simp [compareType, typesOf, declared, props, get_of_other ha, get_of_other hb]

/-- Two values that are no objects are compatible, whatever they are. -/
theorem verdict_others (ctx : Ctx) : verdict L ⟨ctx, a, b⟩ = some true := by
  have hplain : NoRefs a b := by
    constructor
    · simp [refOf, get_of_other ha]
    · simp [refOf, get_of_other hb]
  rw [verdict_eq, judge_plain_true hplain]
  refine ⟨⟨[], (basic_of_other ha).compareCombinators (basic_of_other hb) _, by simp⟩, ?_⟩
  rw [keywordSteps_others ha hb]
  simp

end Others

end KrabkaRegistry.Format.Json
