import KrabkaRegistry.Format.JsonSelf
import KrabkaRegistry.Library.Related

/-!
# Schemas That Compare Alike

Two schemas and two others, each of which corresponds to its counterpart, are compared step by
step in the same way when their keywords correspond.  `O` and `U` say what corresponds on the
side of the original and of the update.  There is one lemma for each group of keywords, so that a
change to one group needs no other.

- `keywordSteps_alike` puts the groups together, for any relation that goes by parts;
- `keywordsAlike_of_properties`: schemas that differ in `properties` only.
-/

namespace KrabkaRegistry.Format.Json

open KrabkaRegistry.Library.Related (optionRel_of_refl)

variable (L : DiffLibs) {O U R : Value → Value → Prop}

/-! ## Steps -/

/-- The same report, or the comparison of corresponding schemas. -/
inductive StepAlike (O U : Value → Value → Prop) : Step → Step → Prop where
  | report (kind : Kind) (suffix suffix' : String) :
      StepAlike O U (.report kind suffix) (.report kind suffix')
  | recurse {suffix suffix' : String} {a b a' b' : Value} :
      O a a' → U b b' → StepAlike O U (.recurse suffix a b) (.recurse suffix' a' b')

/-- Steps that correspond one by one. -/
abbrev StepsAlike (O U : Value → Value → Prop) : List Step → List Step → Prop :=
  List.Forall₂ (StepAlike O U)

namespace StepsAlike

variable {s s' t t' : List Step}

/-- Step lists are compared piece by piece: the report of a keyword never depends on what another
keyword reports. -/
theorem append (hs : StepsAlike O U s s') (ht : StepsAlike O U t t') :
    StepsAlike O U (s ++ t) (s' ++ t') := List.rel_append hs ht

/-- A report has no schemas in it, so its kind is all that has to agree; the suffix is only the path
it is shown under. -/
theorem one (kind : Kind) (suffix suffix' : String) :
    StepsAlike O U [.report kind suffix] [.report kind suffix'] :=
  .cons (.report kind suffix suffix') .nil

/-- A keyword that never recurses is alike to itself under any relations. -/
theorem of_onlyReports (h : OnlyReports s) : StepsAlike O U s s := by
  induction s with
  | nil => exact .nil
  | cons x s ih =>
    obtain ⟨kind, suffix, rfl⟩ := h x List.mem_cons_self
    exact .cons (.report kind suffix suffix) (ih fun y hy => h y (List.mem_cons_of_mem _ hy))

/-- A loop over related members gives alike steps when its body does. -/
theorem flatMap {α : Type} {P : α → α → Prop} {l l' : List α} {f f' : α → List Step}
    (hl : List.Forall₂ P l l') (h : ∀ a a', P a a' → StepsAlike O U (f a) (f' a')) :
    StepsAlike O U (l.flatMap f) (l'.flatMap f') := by
  induction hl with
  | nil => exact .nil
  | cons ha _ ih =>
    simp only [List.flatMap_cons]
    exact append (h _ _ ha) ih

/-- The same for a loop that gives one step a member. -/
theorem map {α : Type} {P : α → α → Prop} {l l' : List α} {f f' : α → Step}
    (hl : List.Forall₂ P l l') (h : ∀ a a', P a a' → StepAlike O U (f a) (f' a')) :
    StepsAlike O U (l.map f) (l'.map f') := by
  induction hl with
  | nil => exact .nil
  | cons ha _ ih =>
    simp only [List.map_cons]
    exact .cons (h _ _ ha) ih

/-- Every step on the left has its partner on the right. -/
theorem mem (h : StepsAlike O U s s') {x : Step} (hx : x ∈ s) : ∃ x' ∈ s', StepAlike O U x x' := by
  induction h with
  | nil => cases hx
  | cons hrel _ ih =>
    rcases List.mem_cons.mp hx with rfl | hx
    · exact ⟨_, List.mem_cons_self, hrel⟩
    · obtain ⟨x', hx', hrel'⟩ := ih hx
      exact ⟨x', List.mem_cons_of_mem _ hx', hrel'⟩

end StepsAlike

/-! ## Members -/

/-- Two lists of members with the same keys and corresponding values. -/
abbrev MembersAlike (R : Value → Value → Prop) :
    List (String × Value) → List (String × Value) → Prop :=
  List.Forall₂ fun m m' => m.1 = m'.1 ∧ R m.2 m'.2

/-- Both are missing, or they correspond. -/
abbrev OptionAlike (R : Value → Value → Prop) : Option Value → Option Value → Prop :=
  Option.Rel R

/-- Looking a key up in related members finds related values, or finds nothing in both. -/
theorem lookup_alike {ms ms' : List (String × Value)} (h : MembersAlike R ms ms') (key : String) :
    OptionAlike R (ms.lookup key) (ms'.lookup key) := by
  induction h with
  | nil => exact .none
  | @cons m m' ms ms' hm _ ih =>
    obtain ⟨k, v⟩ := m
    obtain ⟨k', v'⟩ := m'
    obtain ⟨rfl, hv⟩ := hm
    simp only [List.lookup_cons]
    cases key == k with
    | true => exact .some hv
    | false => exact ih

/-- Related optional values are present together. -/
theorem OptionAlike.isSome {v v' : Option Value} (h : OptionAlike R v v') :
    v.isSome = v'.isSome := by
  cases h <;> rfl

variable {o o' u u' : Value}

/-! ## Keywords that are compared as they are -/

/-- The keywords whose values are compared as a whole. -/
def plainKeywords : List String :=
  ["type", "enum", "const", "maximum", "minimum", "exclusiveMaximum", "exclusiveMinimum",
    "multipleOf", "maxLength", "minLength", "pattern", "maxItems", "minItems", "maxProperties",
    "minProperties"]

def SamePlain (v v' : Value) : Prop := ∀ key ∈ plainKeywords, v.get key = v'.get key

/-- `type` is read as it stands. -/
theorem compareType_congr (ho : SamePlain o o') (hu : SamePlain u u') :
    compareType o u = compareType o' u' := by
  have htypes : ∀ {v v'}, SamePlain v v' → typesOf v = typesOf v' := by
    intro v v' h
    unfold typesOf
    rw [h "type" (by decide)]
  unfold compareType
  rw [htypes ho, htypes hu]

/-- `enum` is read as it stands, its values being compared for equality and never as schemas. -/
theorem compareEnum_congr (ho : SamePlain o o') (hu : SamePlain u u') :
    compareEnum L o u = compareEnum L o' u' := by
  have henum : ∀ {v v'}, SamePlain v v' → enumSet L v = enumSet L v' := by
    intro v v' h
    unfold enumSet
    rw [h "enum" (by decide), h "const" (by decide)]
  unfold compareEnum
  rw [henum ho, henum hu]

/-- A numeric keyword is one of the plain ones. -/
theorem num_congr {v v' : Value} (h : SamePlain v v') {key : String} (hkey : key ∈ plainKeywords) :
    num v key = num v' key := by
  simp only [num, h key hkey]

/-- A bound compares the numbers under its own key. -/
theorem compareBound_congr (ho : SamePlain o o') (hu : SamePlain u u') {key : String}
    (hkey : key ∈ plainKeywords) (kinds : Kind × Kind × Kind × Kind) :
    compareBound o u key kinds = compareBound o' u' key kinds := by
  simp only [compareBound, num_congr ho hkey, num_congr hu hkey]

/-- The numeric constraints are bounds, a `multipleOf` and nothing that holds a schema. -/
theorem compareNumeric_congr (ho : SamePlain o o') (hu : SamePlain u u') :
    compareNumeric o u = compareNumeric o' u' := by
  simp (disch := decide) only [compareNumeric, compareMultipleOf, compareBound_congr ho hu,
    num_congr ho, num_congr hu]

/-- The string constraints read plain keywords only. -/
theorem compareStringConstraints_congr (ho : SamePlain o o') (hu : SamePlain u u') :
    compareStringConstraints o u = compareStringConstraints o' u' := by
  simp (disch := decide) only [compareStringConstraints, comparePattern, compareBound_congr ho hu,
    ho "pattern", hu "pattern"]

/-- The two object sizes are bounds. -/
theorem compareObjectSize_congr (ho : SamePlain o o') (hu : SamePlain u u') :
    compareObjectSize o u = compareObjectSize o' u' := by
  simp (disch := decide) only [compareObjectSize, compareBound_congr ho hu]

/-! ## Properties -/

/-- The same content model, with corresponding schemas. -/
inductive ContentAlike (R : Value → Value → Prop) : ContentModel → ContentModel → Prop where
  | openContent : ContentAlike R .openContent .openContent
  | partialContent : ContentAlike R .partialContent .partialContent
  | closedContent : ContentAlike R .closedContent .closedContent
  | schemaContent {a a' : Value} : R a a' → ContentAlike R (.schemaContent a) (.schemaContent a')

/-- The members of `patternProperties`. -/
def patterns (schema : Value) : List (String × Value) :=
  ((schema.get "patternProperties").bind Value.asObject).getD []

/-- The schemas of the patterns that match a name are related one by one: the test looks at the
pattern, which both sides share. -/
theorem patterns_filter_alike {ms ms' : List (String × Value)} (h : MembersAlike R ms ms')
    (test : String → Bool) :
    List.Forall₂ R ((ms.filter fun p => test p.1).map (·.2))
      ((ms'.filter fun p => test p.1).map (·.2)) := by
  induction h with
  | nil => exact .nil
  | @cons m m' ms ms' hm _ ih =>
    obtain ⟨k, v⟩ := m
    obtain ⟨k', v'⟩ := m'
    obtain ⟨rfl, hv⟩ := hm
    cases htest : test k with
    | true =>
      simp only [List.filter_cons, htest, if_true, List.map_cons]
      exact .cons hv ih
    | false =>
      simp only [List.filter_cons, htest]
      exact ih

/-- What covers the undeclared properties corresponds. -/
structure CoverAlike (R : Value → Value → Prop) (v v' : Value) : Prop where
  content : ContentAlike R (contentModel v) (contentModel v')
  patterns : MembersAlike R (patterns v) (patterns v')

/-- The schemas that cover an undeclared property are those of the matching patterns and, where the
content model has one, the schema for the rest. -/
theorem coveringSchemas_alike {v v' : Value} (h : CoverAlike R v v') (property : String) :
    List.Forall₂ R (coveringSchemas L v property) (coveringSchemas L v' property) := by
  unfold coveringSchemas
  refine List.rel_append ?_ (patterns_filter_alike h.patterns fun key => L.isMatch key property)
  have hcontent := h.content
  generalize contentModel v = c, contentModel v' = c' at hcontent
  cases hcontent with
  | schemaContent ha => exact .cons ha .nil
  | _ => exact .nil

/-- A property that the update no longer declares is compared with what covers it there. The verdict
depends on the content model and on whether the cover is empty, and both agree for alike sides. -/
theorem removedProperty_alike (hu : CoverAlike U u u') {a a' : Value} (ha : O a a')
    (name : String) : StepsAlike O U (removedProperty L u name a) (removedProperty L u' name a') := by
  have hcover := coveringSchemas_alike L hu name
  have hmap : StepsAlike O U
      ((coveringSchemas L u name).map fun allowed => .recurse ("/properties/" ++ name) a allowed)
      ((coveringSchemas L u' name).map fun allowed =>
        .recurse ("/properties/" ++ name) a' allowed) :=
    .map hcover fun b b' hb => .recurse ha hb
  have hempty : (coveringSchemas L u name).isEmpty = (coveringSchemas L u' name).isEmpty := by
    rw [Bool.eq_iff_iff, List.isEmpty_iff_length_eq_zero, List.isEmpty_iff_length_eq_zero,
      hcover.length_eq]
  have hcontent := hu.content
  unfold removedProperty
  simp only
  -- From here on the two content models matter only through their common shape.
  generalize contentModel u = c, contentModel u' = c' at hcontent
  cases hcontent with
  | openContent => exact .one _ _ _
  | closedContent => exact .one _ _ _
  | _ =>
    rw [hempty]
    split_ifs
    · exact .one _ _ _
    · exact .cons (.report _ _ _) hmap

/-- A property that only the update declares is compared with what covers it in the original. In an
open model nothing covers it, and the source asks instead whether the new schema is the empty
object. -/
theorem receivedProperty_alike (ho : CoverAlike O o o') {b b' : Value} (hb : U b b')
    (hempty : isOpen o = true → (b.asObject = some [] ↔ b'.asObject = some [])) (name : String) :
    StepsAlike O U (receivedProperty L o name b) (receivedProperty L o' name b') := by
  have hcover := coveringSchemas_alike L ho name
  have hmap : StepsAlike O U
      ((coveringSchemas L o name).map fun allowed => .recurse ("/properties/" ++ name) allowed b)
      ((coveringSchemas L o' name).map fun allowed =>
        .recurse ("/properties/" ++ name) allowed b') :=
    .map hcover fun a a' ha => .recurse ha hb
  have hnone : (coveringSchemas L o name).isEmpty = (coveringSchemas L o' name).isEmpty := by
    rw [Bool.eq_iff_iff, List.isEmpty_iff_length_eq_zero, List.isEmpty_iff_length_eq_zero,
      hcover.length_eq]
  have hcontent := ho.content
  unfold receivedProperty
  unfold isOpen at hempty
  simp only
  generalize contentModel o = c, contentModel o' = c' at hcontent hempty
  cases hcontent with
  -- Only the open model looks at the new property itself.
  | openContent =>
    rw [if_congr (hempty rfl) rfl rfl]
    split_ifs <;> exact .one _ _ _
  | closedContent => exact .one _ _ _
  | _ =>
    simp only [hnone]
    split_ifs
    · exact .one _ _ _
    · exact .cons (.report _ _ _) hmap

/-- Alike content models are open together. -/
theorem ContentAlike.isOpen {v v' : Value} (h : ContentAlike R (contentModel v) (contentModel v')) :
    isOpen v = isOpen v' := by
  unfold Json.isOpen
  generalize contentModel v = c, contentModel v' = c' at h
  cases h <;> rfl

/-- A property that only the update declares, under the same name.  Where the original is open, it
matters whether the schema is empty; where the property is required, whether it has a default. -/
theorem addedProperty_alike (ho : CoverAlike O o o') (hreq : requiredSet u = requiredSet u')
    {name : String} {b b' : Value} (hb : U b b')
    (hempty : isOpen o = true → (b.asObject = some [] ↔ b'.asObject = some []))
    (hdefault : name ∈ requiredSet u → (b.get "default").isSome = (b'.get "default").isSome) :
    StepsAlike O U (addedProperty L o u name b) (addedProperty L o' u' name b') := by
  have hreceived := receivedProperty_alike L (O := O) (U := U) ho hb hempty name
  unfold addedProperty
  simp only
  rw [← hreq, ← ho.content.isOpen]
  by_cases hmem : name ∈ requiredSet u
  · have hsome : (b.get "default").isSome = (b'.get "default").isSome := hdefault hmem
    have hnone : (b.get "default").isNone = (b'.get "default").isNone := by
      simp only [← Option.not_isSome, hsome]
    rw [hsome, hnone]
    split_ifs
    · exact .one _ _ _
    · exact .append (.one _ _ _) hreceived
    · exact .append .nil hreceived
  · simp only [hmem, false_and, if_false]
    exact .append .nil hreceived

/-- The steps of a property that the update declares. -/
def updateProperty (o u : Value) (name : String) (b : Value) : List Step :=
  match (declared o).lookup name with
  | none => addedProperty L o u name b
  | some a => [.recurse ("/properties/" ++ name) a b]

/-- The loop over the original's properties and the one over the update's, with the body of the
second under its own name. -/
theorem compareProperties_eq (o u : Value) :
    compareProperties L o u =
      ((declared o).flatMap fun m => if ((declared u).lookup m.1).isSome then []
        else removedProperty L u m.1 m.2) ++
      (declared u).flatMap fun m => updateProperty L o u m.1 m.2 := rfl

/-- The declared properties are compared by two loops, each of which meets related members. -/
theorem compareProperties_alike (ho : CoverAlike O o o') (hu : CoverAlike Eq u u)
    (hop : MembersAlike O (declared o) (declared o')) :
    StepsAlike O Eq (compareProperties L o u) (compareProperties L o' u) := by
  rw [compareProperties_eq, compareProperties_eq]
  apply StepsAlike.append
  · refine .flatMap hop fun m m' hm => ?_
    rw [← hm.1]
    split_ifs
    · exact .nil
    · exact removedProperty_alike L hu hm.2 m.1
  · refine .flatMap (List.forall₂_same.mpr fun m _ => rfl) fun m m' hm => ?_
    subst hm
    have hlookup := lookup_alike hop m.1
    unfold updateProperty
    generalize (declared o).lookup m.1 = a, (declared o').lookup m.1 = a' at hlookup
    cases hlookup with
    | none => exact addedProperty_alike L ho rfl rfl (fun _ => Iff.rfl) fun _ => rfl
    | some ha => exact .cons (.recurse ha rfl) .nil

/-- Only the declared names and the defaults of newly required properties matter. -/
theorem compareRequired_congr (horeq : requiredSet o = requiredSet o')
    (hureq : requiredSet u = requiredSet u')
    (ho : ∀ name, ((declared o).lookup name).isSome = ((declared o').lookup name).isSome)
    (hu : ∀ name, ((declared u).lookup name).isSome = ((declared u').lookup name).isSome)
    (hdefault : ∀ name ∈ requiredSet u \ requiredSet o, ((declared o).lookup name).isSome →
      (((declared u).lookup name).bind (·.get "default")).isSome =
        (((declared u').lookup name).bind (·.get "default")).isSome) :
    compareRequired o u = compareRequired o' u' := by
  unfold compareRequired
  simp only [ho, hu, ← horeq, ← hureq]
  refine congrArg (· ++ _) (List.map_congr_left fun name hname => ?_)
  simp only [Finset.mem_sort, Finset.mem_filter, ← ho] at hname
  rw [hdefault name hname.1 hname.2.1]

/-! ## Keywords with one schema -/

/-- The same boolean, or corresponding schemas. -/
inductive KeywordAlike (R : Value → Value → Prop) : Value → Value → Prop where
  | bool (b : Bool) : KeywordAlike R (.bool b) (.bool b)
  | schema {a a' : Value} : a.isBoolean = false → a'.isBoolean = false →
      a.isObject = a'.isObject → R a a' → KeywordAlike R a a'

/-- A keyword that is missing on both, or stands for the same. -/
abbrev SchemaAlike (R : Value → Value → Prop) (key : String) (v v' : Value) : Prop :=
  Option.Rel (KeywordAlike R) (v.get key) (v'.get key)

section Keyword

variable {a a' : Option Value}

/-- Related keywords are the literal `false` together. -/
theorem isFalse_alike (h : Option.Rel (KeywordAlike R) a a') : isFalse a = isFalse a' := by
  cases h with
  | none => rfl
  | some h =>
    cases h with
    | bool b => rfl
    | schema ha ha' _ _ =>
      have hne : ∀ {x : Value}, x.isBoolean = false → isFalse (some x) = false := by
        intro x hx
        cases x with
        | bool b => simp [Value.isBoolean, Value.asBool] at hx
        | _ => simp [isFalse]
      rw [hne ha, hne ha']

/-- Related keywords are schemas together. -/
theorem isSchemaValued_alike (h : Option.Rel (KeywordAlike R) a a') :
    isSchemaValued a = isSchemaValued a' := by
  cases h with
  | none => rfl
  | some h =>
    cases h with
    | bool b => rfl
    | schema ha ha' _ _ => simp [isSchemaValued, ha, ha']

/-- Related keywords are absent together. -/
theorem isNone_alike (h : Option.Rel (KeywordAlike R) a a') : a.isNone = a'.isNone := by
  cases h <;> rfl

end Keyword

/-- The last part of the comparisons of `additionalProperties` and `additionalItems`. -/
def bothSchemas (suffix : String) (a b : Option Value) : List Step :=
  match a, b with
  | some a, some b => if !a.isBoolean ∧ !b.isBoolean then [.recurse suffix a b] else []
  | _, _ => []

/-- Two schemas are compared by a recursive step on related values. -/
theorem bothSchemas_alike {a a' b b' : Option Value} (ha : Option.Rel (KeywordAlike O) a a')
    (hb : Option.Rel (KeywordAlike U) b b') (suffix : String) :
    StepsAlike O U (bothSchemas suffix a b) (bothSchemas suffix a' b') := by
  unfold bothSchemas
  cases ha with
  | none => exact .nil
  | some ha =>
    cases hb with
    | none => exact .nil
    | some hb =>
      cases ha with
      | bool x => simp [Value.isBoolean, Value.asBool]
      | schema ha ha' _ hrel =>
        cases hb with
        | bool y => simp [Value.isBoolean, Value.asBool]
        | schema hb hb' _ hrel' =>
          simp only [ha, ha', hb, hb', Bool.not_false, and_self, if_true]
          exact .cons (.recurse hrel hrel') .nil

/-- The kinds of difference of a keyword that holds one schema, or `false`. -/
structure AdditionalKinds where
  added : Kind
  removed : Kind
  narrowed : Kind
  extended : Kind

/-- The steps of `additionalProperties` and of `additionalItems`, with the kinds of each. -/
def additionalSteps (kinds : AdditionalKinds) (suffix : String) (a b : Option Value) : List Step :=
  if isFalse a ∧ ¬ isFalse b then [.report kinds.added ""]
  else if ¬ isFalse a ∧ isFalse b then [.report kinds.removed ""]
  else if a.isNone ∧ isSchemaValued b then [.report kinds.narrowed ""]
  else if b.isNone ∧ isSchemaValued a then [.report kinds.extended ""]
  else bothSchemas suffix a b

def propertiesKinds : AdditionalKinds :=
  ⟨.additionalPropertiesAdded, .additionalPropertiesRemoved, .additionalPropertiesNarrowed,
    .additionalPropertiesExtended⟩

def itemsKinds : AdditionalKinds :=
  ⟨.additionalItemsAdded, .additionalItemsRemoved, .additionalItemsNarrowed,
    .additionalItemsExtended⟩

/-- `additionalProperties` is one instance of the shared body. -/
theorem compareAdditionalProperties_eq (o u : Value) :
    compareAdditionalProperties o u = additionalSteps propertiesKinds "/additionalProperties"
      (o.get "additionalProperties") (u.get "additionalProperties") := rfl

/-- The source asks in another order here whether the one or the other is `false`. -/
theorem compareAdditionalItems_eq (o u : Value) :
    compareAdditionalItems o u = additionalSteps itemsKinds "/additionalItems"
      (o.get "additionalItems") (u.get "additionalItems") := by
  have hboth : ∀ a b, bothSchemas "/additionalItems" a b =
      match a, b with
      | some a, some b => if !a.isBoolean ∧ !b.isBoolean then [.recurse "/additionalItems" a b] else []
      | _, _ => [] := fun _ _ => rfl
  unfold compareAdditionalItems additionalSteps
  simp only [hboth]
  cases isFalse (o.get "additionalItems") <;> cases isFalse (u.get "additionalItems") <;> simp <;> rfl

/-- The shared body distinguishes absent, `false` and schema-valued, which alike keywords are
together. -/
theorem additionalSteps_alike {kinds : AdditionalKinds} {a a' b b' : Option Value}
    (ha : Option.Rel (KeywordAlike O) a a') (hb : Option.Rel (KeywordAlike U) b b')
    (suffix : String) :
    StepsAlike O U (additionalSteps kinds suffix a b) (additionalSteps kinds suffix a' b') := by
  have hboth := bothSchemas_alike ha hb suffix
  unfold additionalSteps
  simp only [isFalse_alike ha, isFalse_alike hb, isSchemaValued_alike ha, isSchemaValued_alike hb,
    isNone_alike ha, isNone_alike hb]
  split_ifs
  · exact .one _ _ _
  · exact .one _ _ _
  · exact .one _ _ _
  · exact .one _ _ _
  · exact hboth

/-- The body at the kinds of `additionalProperties`. -/
theorem compareAdditionalProperties_alike (ho : SchemaAlike O "additionalProperties" o o')
    (hu : SchemaAlike U "additionalProperties" u u') :
    StepsAlike O U (compareAdditionalProperties o u) (compareAdditionalProperties o' u') := by
  rw [compareAdditionalProperties_eq, compareAdditionalProperties_eq]
  exact additionalSteps_alike ho hu _

/-- The body at the kinds of `additionalItems`. -/
theorem compareAdditionalItems_alike (ho : SchemaAlike O "additionalItems" o o')
    (hu : SchemaAlike U "additionalItems" u u') :
    StepsAlike O U (compareAdditionalItems o u) (compareAdditionalItems o' u') := by
  rw [compareAdditionalItems_eq, compareAdditionalItems_eq]
  exact additionalSteps_alike ho hu _

/-- Whether `patternProperties` is a map. -/
def hasPatterns (schema : Value) : Bool := (schema.get "patternProperties").any Value.isObject

/-- The content model is read off `additionalProperties` and the presence of patterns. A boolean is
kept as it is; a value that is neither boolean nor object leaves the model to the patterns. -/
theorem contentModel_alike {v v' : Value} (h : SchemaAlike R "additionalProperties" v v')
    (hpatterns : hasPatterns v = hasPatterns v') :
    ContentAlike R (contentModel v) (contentModel v') := by
  have hother : ContentAlike R
      (if hasPatterns v then .partialContent else .openContent)
      (if hasPatterns v' then .partialContent else .openContent) := by
    rw [hpatterns]
    split_ifs
    · exact .partialContent
    · exact .openContent
  unfold contentModel
  unfold SchemaAlike at h
  -- The goal depends on the keyword only through its two values, so these become variables.
  revert h
  generalize v.get "additionalProperties" = a
  generalize v'.get "additionalProperties" = a'
  intro h
  cases h with
  | none => exact hother
  | @some a a' h =>
    cases h with
    | bool b =>
      cases b with
      | true => exact .openContent
      | false => exact .closedContent
    | schema ha ha' hobject hrel =>
      cases a <;> cases a' <;>
        simp only [Value.isBoolean, Value.asBool, Value.isObject, Value.asObject, Option.isSome_some,
          Option.isSome_none, Bool.true_eq_false, Bool.false_eq_true] at ha ha' hobject
      all_goals first | exact hother | exact .schemaContent hrel

/-! ## Items and dependencies -/

/-- Corresponding schemas, lists of schemas, or neither. -/
inductive ItemsAlike (R : Value → Value → Prop) : Value → Value → Prop where
  | schema {a a' : Value} : a.isObject = true → a'.isObject = true → R a a' → ItemsAlike R a a'
  | list {l l' : List Value} : List.Forall₂ R l l' → ItemsAlike R (.array l) (.array l')
  | other {a a' : Value} : a.isObject = false → a'.isObject = false → a.isArray = false →
      a'.isArray = false → ItemsAlike R a a'

/-- The tuple forms are compared position by position, so the numbering of the paths is the same on
both sides. -/
theorem zipItems_alike {ol ol' ul ul' : List Value} (ho : List.Forall₂ O ol ol')
    (hu : List.Forall₂ U ul ul') (n : ℕ) :
    StepsAlike O U
      (((ol.zip ul).zipIdx n).map fun p => .recurse ("/items/" ++ toString p.2) p.1.1 p.1.2)
      (((ol'.zip ul').zipIdx n).map fun p => .recurse ("/items/" ++ toString p.2) p.1.1 p.1.2) := by
  induction ho generalizing ul ul' n with
  | nil => exact .nil
  | cons ha _ ih =>
    cases hu with
    | nil => exact .nil
    | cons hb hu => exact .cons (.recurse ha hb) (ih hu (n + 1))

/-- The steps of two values of `items`. -/
def itemSteps (a b : Value) : List Step :=
  if a.isObject ∧ b.isObject then [.recurse "/items" a b]
  else
    match a, b with
    | .array ol, .array ul =>
      ((ol.zip ul).zipIdx.map fun p => .recurse ("/items/" ++ toString p.2) p.1.1 p.1.2) ++
      if ol.length < ul.length then [.report .additionalItemsRemoved "/items"]
      else if ul.length < ol.length then [.report .additionalItemsAdded "/items"]
      else []
    | _, _ => [.report .typeChanged "/items"]

/-- `items` is compared only where both sides have it. -/
theorem compareItems_eq (o u : Value) :
    compareItems o u =
      match o.get "items", u.get "items" with
      | some a, some b => itemSteps a b
      | _, _ => [] := rfl

/-- A schema against a list of schemas, or anything else that is neither, is a change of type. -/
theorem itemSteps_mixed {a b : Value} (hobject : ¬ (a.isObject = true ∧ b.isObject = true))
    (harray : ¬ (a.isArray = true ∧ b.isArray = true)) :
    itemSteps a b = [.report .typeChanged "/items"] := by
  unfold itemSteps
  rw [if_neg hobject]
  split
  · exact absurd ⟨rfl, rfl⟩ harray
  · rfl

/-- Alike values of `items` are a single schema together and a list together. -/
theorem ItemsAlike.kinds {a a' : Value} (h : ItemsAlike R a a') :
    a.isObject = a'.isObject ∧ a.isArray = a'.isArray := by
  cases h with
  | schema ha ha' _ =>
    exact ⟨by rw [ha, ha'], by rw [Value.isArray_of_isObject ha, Value.isArray_of_isObject ha']⟩
  | list => exact ⟨rfl, rfl⟩
  | other ha ha' hb hb' => exact ⟨by rw [ha, ha'], by rw [hb, hb']⟩

/-- The three shapes of the pair of `items`: two schemas, two lists, anything else. -/
theorem itemSteps_alike {a a' b b' : Value} (ha : ItemsAlike O a a') (hb : ItemsAlike U b b') :
    StepsAlike O U (itemSteps a b) (itemSteps a' b') := by
  -- `ItemsAlike.kinds` carries each test over to the other side; the impossible pairs contradict
  -- it.
  by_cases hobject : a.isObject = true ∧ b.isObject = true
  · have hobject' : a'.isObject = true ∧ b'.isObject = true := by
      rwa [← ha.kinds.1, ← hb.kinds.1]
    cases ha with
    | schema _ _ hrel =>
      cases hb with
      | schema _ _ hrel' =>
        simp only [itemSteps, hobject, hobject', and_self, if_true]
        exact .cons (.recurse hrel hrel') .nil
      | list => cases hobject.2
      | other hne => rw [hne] at hobject; cases hobject.2
    | list => cases hobject.1
    | other hne => rw [hne] at hobject; cases hobject.1
  · have hobject' : ¬ (a'.isObject = true ∧ b'.isObject = true) := by
      rwa [← ha.kinds.1, ← hb.kinds.1]
    by_cases harray : a.isArray = true ∧ b.isArray = true
    · cases ha with
      | schema ha => rw [Value.isArray_of_isObject ha] at harray; cases harray.1
      | list hl =>
        cases hb with
        | schema hb => rw [Value.isArray_of_isObject hb] at harray; cases harray.2
        | list hl' =>
          rw [itemSteps, if_neg hobject, itemSteps, if_neg hobject']
          simp only [hl.length_eq, hl'.length_eq]
          refine .append (zipItems_alike hl hl' 0) (.of_onlyReports ?_)
          split_ifs
          · exact .one _ _
          · exact .one _ _
          · exact .nil
        | other _ _ hne => rw [hne] at harray; cases harray.2
      | other _ _ hne => rw [hne] at harray; cases harray.1
    · have harray' : ¬ (a'.isArray = true ∧ b'.isArray = true) := by
        rwa [← ha.kinds.2, ← hb.kinds.2]
      rw [itemSteps_mixed hobject harray, itemSteps_mixed hobject' harray']
      exact .one _ _ _

/-- `items` is a keyword of its own with a relation of its own, since a list of schemas is not a
schema. -/
theorem compareItems_alike (ho : Option.Rel (ItemsAlike O) (o.get "items") (o'.get "items"))
    (hu : Option.Rel (ItemsAlike U) (u.get "items") (u'.get "items")) :
    StepsAlike O U (compareItems o u) (compareItems o' u') := by
  rw [compareItems_eq, compareItems_eq]
  revert ho hu
  generalize o.get "items" = a
  generalize o'.get "items" = a'
  generalize u.get "items" = b
  generalize u'.get "items" = b'
  intro ho hu
  cases ho with
  | none => exact .nil
  | some ha =>
    cases hu with
    | none => exact .nil
    | some hb => exact itemSteps_alike ha hb

/-- Corresponding schemas, or the same value. -/
inductive DependencyAlike (R : Value → Value → Prop) : Value → Value → Prop where
  | schema {a a' : Value} : a.isObject = true → a'.isObject = true → R a a' → DependencyAlike R a a'
  | other {a : Value} : a.isObject = false → DependencyAlike R a a

/-- Alike dependencies are schemas together. -/
theorem DependencyAlike.isObject {a a' : Value} (h : DependencyAlike R a a') :
    a.isObject = a'.isObject := by
  cases h with
  | schema ha ha' _ => rw [ha, ha']
  | other _ => rfl

/-- Two schemas are compared. -/
theorem compareDependency_objects {suffix : String} {a b : Value} (ha : a.isObject = true)
    (hb : b.isObject = true) : compareDependency suffix a b = [.recurse suffix a b] := by
  simp only [compareDependency, Value.asArray_of_isObject ha, Value.asArray_of_isObject hb, ha, hb,
    and_self, if_true]

/-- Values that differ, and are neither two schemas nor two lists. -/
theorem compareDependency_changed {suffix : String} {a b : Value} (hne : a ≠ b)
    (hobject : ¬ (a.isObject = true ∧ b.isObject = true))
    (harray : ¬ (a.isArray = true ∧ b.isArray = true)) :
    compareDependency suffix a b = [.report .dependencyArrayChanged suffix] := by
  unfold compareDependency
  split
  · rename_i hx hy
    refine absurd ⟨?_, ?_⟩ harray
    · cases a with
      | array items => rfl
      | _ => cases hx
    · cases b with
      | array items => rfl
      | _ => cases hy
  · rw [if_neg hobject, if_pos hne]
  · rw [if_pos hne]

/-- Without two schemas nothing is compared below. -/
theorem compareDependency_onlyReports {suffix : String} {a b : Value}
    (hobject : ¬ (a.isObject = true ∧ b.isObject = true)) :
    OnlyReports (compareDependency suffix a b) := by
  unfold compareDependency
  split
  · simp only
    split_ifs
    · exact .one _ _
    · exact .one _ _
    · exact .one _ _
    · exact .nil
  · rw [if_neg hobject]
    split_ifs
    · exact .one _ _
    · exact .nil
  · split_ifs
    · exact .one _ _
    · exact .nil

/-- Two dependencies that are schemas recurse; every other pair only reports, and it reports the
same when the sides agree on which of them is a schema. -/
theorem compareDependency_alike {a a' b b' : Value} (suffix : String) (ha : DependencyAlike O a a')
    (hb : DependencyAlike U b b') :
    StepsAlike O U (compareDependency suffix a b) (compareDependency suffix a' b') := by
  -- An object differs from what is no object.
  have hmixed : ∀ {x y : Value}, x.isObject ≠ y.isObject →
      compareDependency suffix x y = [.report .dependencyArrayChanged suffix] := by
    intro x y hne
    apply compareDependency_changed
    · rintro rfl
      exact hne rfl
    · rintro ⟨hx, hy⟩
      exact hne (hx.trans hy.symm)
    · rintro ⟨hx, hy⟩
      have hnot : ∀ {z : Value}, z.isArray = true → z.isObject = false := by
        intro z hz
        cases z with
        | array items => rfl
        | _ => cases hz
      exact hne ((hnot hx).trans (hnot hy).symm)
  cases ha with
  | schema ho ho' hrel =>
    cases hb with
    | schema hu hu' hrel' =>
      rw [compareDependency_objects ho hu, compareDependency_objects ho' hu']
      exact .cons (.recurse hrel hrel') .nil
    | other hu =>
      rw [hmixed (by rw [ho, hu]; decide), hmixed (by rw [ho', hu]; decide)]
      exact .one _ _ _
  | other ho =>
    cases hb with
    | schema hu hu' _ =>
      rw [hmixed (by rw [ho, hu]; decide), hmixed (by rw [ho, hu']; decide)]
      exact .one _ _ _
    | other hu =>
      apply StepsAlike.of_onlyReports
      apply compareDependency_onlyReports
      simp [ho]

/-- The kind reported for a dependency without partner depends on whether it is a schema. -/
theorem dependencyKind_alike {a a' : Value} (h : DependencyAlike R a a') (added : Bool) :
    dependencyKind a added = dependencyKind a' added := by
  cases h with
  | schema ha ha' _ =>
    simp only [dependencyKind, Value.isArray_of_isObject ha, Value.isArray_of_isObject ha']
  | other _ => rfl

/-- Each dependency of the original against its partner, then the ones only the update has. -/
theorem compareDependencies_alike
    (ho : MembersAlike (DependencyAlike O) (dependencies o) (dependencies o'))
    (hu : MembersAlike (DependencyAlike U) (dependencies u) (dependencies u')) :
    StepsAlike O U (compareDependencies o u) (compareDependencies o' u') := by
  unfold compareDependencies
  apply StepsAlike.append
  · refine .flatMap ho fun m m' hm => ?_
    have hlookup := lookup_alike hu m.1
    rw [hm.1] at hlookup ⊢
    simp only [dependencies] at hlookup
    revert hlookup
    generalize List.lookup m'.1 (((u.get "dependencies").bind Value.asObject).getD []) = b
    generalize List.lookup m'.1 (((u'.get "dependencies").bind Value.asObject).getD []) = b'
    intro hlookup
    cases hlookup with
    | none =>
      simp only [dependencyKind_alike hm.2]
      exact .one _ _ _
    | some hb => exact compareDependency_alike _ hm.2 hb
  -- The second loop reports what the first did not meet.
  · refine .flatMap hu fun m m' hm => ?_
    have hlookup := (lookup_alike ho m.1).isSome
    simp only [dependencies] at hlookup
    rw [hm.1] at hlookup ⊢
    rw [hlookup, dependencyKind_alike hm.2]
    split_ifs
    · exact .nil
    · exact .one _ _ _

/-! ## Conditionals -/

def conditionalKeywords : List String := ["if", "then", "else"]

/-- Corresponding schemas under the conditional keywords, whose texts agree on the one side when
they do on the other. -/
structure ConditionalsAlike (O U : Value → Value → Prop) (o u o' u' : Value) : Prop where
  orig : ∀ key ∈ conditionalKeywords, OptionAlike O (o.get key) (o'.get key)
  upd : ∀ key ∈ conditionalKeywords, OptionAlike U (u.get key) (u'.get key)
  same : ∀ key ∈ conditionalKeywords, ∀ a b a' b', o.get key = some a → u.get key = some b →
    o'.get key = some a' → u'.get key = some b' →
    (canonicalValue L a = canonicalValue L b ↔ canonicalValue L a' = canonicalValue L b')

/-- A conditional keyword is compared when its two values differ, so the relation must also keep
equality of the two sides (`same`). -/
theorem compareConditional_alike (h : ConditionalsAlike L O U o u o' u') {key : String}
    (hkey : key ∈ conditionalKeywords) :
    StepsAlike O U (compareConditional L o u key) (compareConditional L o' u' key) := by
  have horig := h.orig key hkey
  have hupd := h.upd key hkey
  have hsame := h.same key hkey
  unfold compareConditional
  revert horig hupd hsame
  generalize o.get key = a, o'.get key = a', u.get key = b, u'.get key = b'
  intro horig hupd hsame
  cases horig with
  -- Absent on the original's side: an addition, or nothing at all.
  | none =>
    cases hupd with
    | none => exact .nil
    | some => exact .one _ _ _
  | @some a a' ha =>
    cases hupd with
    | none => exact .one _ _ _
    | @some b b' hb =>
      simp only [ne_eq, hsame a b a' b' rfl rfl rfl rfl]
      split_ifs
      · exact .nil
      · exact .cons (.report _ _ _) (.cons (.recurse ha hb) .nil)

/-- The three conditional keywords are compared alike. -/
theorem compareConditionals_alike (h : ConditionalsAlike L O U o u o' u') :
    StepsAlike O U (compareConditionals L o u) (compareConditionals L o' u') := by
  have hhas : ∀ {R v v'}, (∀ key ∈ conditionalKeywords, OptionAlike R (v.get key) (v'.get key)) →
      hasConditional v = hasConditional v' := by
    intro R v v' h
    unfold hasConditional
    rw [(h "if" (by decide)).isSome, (h "then" (by decide)).isSome, (h "else" (by decide)).isSome]
  unfold compareConditionals
  rw [hhas h.orig, hhas h.upd]
  split_ifs
  · exact .nil
  · exact ((compareConditional_alike L h (by decide)).append
      (compareConditional_alike L h (by decide))).append
      (compareConditional_alike L h (by decide))

/-! ## All keywords -/

/-- A relation between lists of steps that holds for the whole when it holds for the parts. -/
structure Compositional (Q : List Step → List Step → Prop) : Prop where
  append : ∀ {s s' t t' : List Step}, Q s s' → Q t t' → Q (s ++ t) (s' ++ t')
  reports : ∀ {s : List Step}, OnlyReports s → Q s s

/-- The relation of this module is one of the relations that `keywordSteps_alike` accepts. -/
theorem StepsAlike.compositional : Compositional (StepsAlike O U) := ⟨append, of_onlyReports⟩

/-- What has to correspond for two pairs of schemas to have related steps, but for their
combinators. -/
structure KeywordsAlike (Q : List Step → List Step → Prop) (o u o' u' : Value) : Prop where
  plainO : SamePlain o o'
  plainU : SamePlain u u'
  properties : Q (compareProperties L o u) (compareProperties L o' u')
  required : compareRequired o u = compareRequired o' u'
  additionalProperties : Q (compareAdditionalProperties o u) (compareAdditionalProperties o' u')
  items : Q (compareItems o u) (compareItems o' u')
  additionalItems : Q (compareAdditionalItems o u) (compareAdditionalItems o' u')
  uniqueItems : compareUniqueItems o u = compareUniqueItems o' u'
  dependencies : Q (compareDependencies o u) (compareDependencies o' u')
  conditionals : Q (compareConditionals L o u) (compareConditionals L o' u')

/-- The steps of all keywords are related when those of each keyword are. -/
theorem keywordSteps_alike {Q : List Step → List Step → Prop} (hQ : Compositional Q)
    (h : KeywordsAlike L Q o u o' u') : Q (keywordSteps L o u) (keywordSteps L o' u') := by
  unfold keywordSteps compareArrayConstraints
  rw [compareType_congr h.plainO h.plainU, compareEnum_congr L h.plainO h.plainU, h.required,
    compareNumeric_congr h.plainO h.plainU, compareStringConstraints_congr h.plainO h.plainU,
    compareObjectSize_congr h.plainO h.plainU, compareBound_congr h.plainO h.plainU (by decide),
    compareBound_congr h.plainO h.plainU (by decide), h.uniqueItems]
  -- Taken apart from the last keyword to the first, as the list is built.
  apply hQ.append _ h.conditionals
  apply hQ.append _ h.dependencies
  apply hQ.append _ (hQ.reports (compareObjectSize_onlyReports _ _))
  apply hQ.append
  · apply hQ.append _ (hQ.reports (compareStringConstraints_onlyReports _ _))
    apply hQ.append _ (hQ.reports (compareNumeric_onlyReports _ _))
    apply hQ.append _ h.additionalProperties
    apply hQ.append _ (hQ.reports (compareRequired_onlyReports _ _))
    apply hQ.append _ h.properties
    apply hQ.append
    · exact hQ.reports (compareType_onlyReports _ _)
    · exact hQ.reports (compareEnum_onlyReports L _ _)
  · apply hQ.append _ (hQ.reports (compareUniqueItems_onlyReports _ _))
    apply hQ.append _ h.additionalItems
    apply hQ.append _ (hQ.reports (compareBound_onlyReports _ _ _ _))
    apply hQ.append _ (hQ.reports (compareBound_onlyReports _ _ _ _))
    exact h.items

/-! ## Schemas that differ in `properties` only -/

section OnlyProperties

variable (hR : ∀ v, R v v)
include hR

/-- Every keyword is alike to itself under a reflexive relation. -/
theorem KeywordAlike.refl (v : Value) : KeywordAlike R v v := by
  cases hv : v.isBoolean with
  | true =>
    cases v with
    | bool b => exact .bool b
    | _ => cases hv
  | false => exact .schema hv hv rfl (hR v)

/-- The same for `items`. -/
theorem ItemsAlike.refl (v : Value) : ItemsAlike R v v := by
  cases v with
  | object members => exact .schema rfl rfl (hR _)
  | array items => exact .list (List.forall₂_same.mpr fun x _ => hR x)
  | _ => exact .other rfl rfl rfl rfl

/-- The same for a dependency. -/
theorem DependencyAlike.refl (v : Value) : DependencyAlike R v v := by
  cases hv : v.isObject with
  | true => exact .schema hv hv (hR v)
  | false => exact .other hv

/-- The same for a list of members. -/
theorem MembersAlike.refl (ms : List (String × Value)) : MembersAlike R ms ms :=
  List.forall₂_same.mpr fun m _ => ⟨rfl, hR m.2⟩

/-- A schema that differs in `properties` only, where the values correspond, compares with a
schema as that schema does with itself. -/
theorem keywordsAlike_of_properties (hget : ∀ key, key ≠ "properties" → o.get key = u.get key)
    (hdeclared : MembersAlike R (declared o) (declared u)) :
    KeywordsAlike L (StepsAlike R Eq) o u u u := by
  have hcover : CoverAlike R o u := by
    constructor
    · apply contentModel_alike
      · unfold SchemaAlike
        rw [hget _ (by decide)]
        exact optionRel_of_refl (KeywordAlike.refl hR) _
      · unfold hasPatterns
        rw [hget _ (by decide)]
    · unfold patterns
      rw [hget _ (by decide)]
      exact MembersAlike.refl hR _
  -- The update is compared with itself, so on that side the relation is equality.
  have hself : CoverAlike Eq u u := by
    constructor
    · cases contentModel u with
      | openContent => exact .openContent
      | partialContent => exact .partialContent
      | closedContent => exact .closedContent
      | schemaContent schema => exact .schemaContent rfl
    · exact MembersAlike.refl (fun _ => rfl) _
  have hrequired : requiredSet o = requiredSet u := by
    unfold requiredSet
    rw [hget _ (by decide)]
  -- Every keyword except `properties` is the same value on both sides.
  have hplain : SamePlain o u := fun key hkey => hget key (by rintro rfl; simp [plainKeywords] at hkey)
  have hconditional : ∀ key ∈ conditionalKeywords, key ≠ "properties" := by decide
  refine
    { plainO := hplain
      plainU := fun _ _ => rfl
      properties := compareProperties_alike L hcover hself hdeclared
      required := compareRequired_congr hrequired rfl
        (fun name => (lookup_alike hdeclared name).isSome) (fun _ => rfl) fun _ _ _ => rfl
      additionalProperties := compareAdditionalProperties_alike ?_
        (optionRel_of_refl (KeywordAlike.refl fun _ => rfl) _)
      items := compareItems_alike ?_ (optionRel_of_refl (ItemsAlike.refl fun _ => rfl) _)
      additionalItems := compareAdditionalItems_alike ?_
        (optionRel_of_refl (KeywordAlike.refl fun _ => rfl) _)
      uniqueItems := ?_
      dependencies := compareDependencies_alike ?_
        (MembersAlike.refl (DependencyAlike.refl fun _ => rfl) _)
      conditionals := compareConditionals_alike L ⟨?_, fun _ _ => optionRel_of_refl (fun _ => rfl) _,
        ?_⟩ }
  · unfold SchemaAlike
    rw [hget _ (by decide)]
    exact optionRel_of_refl (KeywordAlike.refl hR) _
  · rw [hget _ (by decide)]
    exact optionRel_of_refl (ItemsAlike.refl hR) _
  · unfold SchemaAlike
    rw [hget _ (by decide)]
    exact optionRel_of_refl (KeywordAlike.refl hR) _
  · unfold compareUniqueItems uniqueItems
    rw [hget _ (by decide)]
  · unfold dependencies
    rw [hget _ (by decide)]
    exact MembersAlike.refl (DependencyAlike.refl hR) _
  · intro key hkey
    rw [hget key (hconditional key hkey)]
    exact optionRel_of_refl hR _
  · intro key hkey a b a' b' ha hb ha' hb'
    rw [hget key (hconditional key hkey)] at ha
    obtain rfl := Option.some.inj (ha.symm.trans ha')
    obtain rfl := Option.some.inj (hb.symm.trans hb')
    rfl

end OnlyProperties

end KrabkaRegistry.Format.Json
