import Mathlib.Data.Finset.Sort
import KrabkaRegistry.Format.Diff
import KrabkaRegistry.Format.JsonValue
import KrabkaRegistry.Library.Matching

/-!
# JSON Schema Compatibility

`format/json/diff.rs`, `compat.rs` and the `check` of `format/json/mod.rs`.  A comparison of two
schemas is a list of steps: a difference to report, or two subschemas to compare, each at a
suffix of the path of the schemas themselves.  `compareSchema` carries the steps out.

Following a `$ref` makes the comparison recursive beyond the documents, and the branches of
combinators are compared afresh, without the guard against cycles.  The recursion is over a fuel
argument, and no result says that the fuel ran out: `check` ends when some amount is enough.
-/

namespace KrabkaRegistry.Format.Json

/-! ## Differences -/

inductive Kind where
  | typeNarrowed
  | typeExtended
  | typeChanged
  | propertyAddedToOpenContentModel
  | propertyRemovedFromOpenContentModel
  | propertyAddedToClosedContentModel
  | propertyRemovedFromClosedContentModel
  | propertyAddedCoveredByPartiallyOpenContentModel
  | propertyAddedNotCoveredByPartiallyOpenContentModel
  | propertyRemovedCoveredByPartiallyOpenContentModel
  | propertyRemovedNotCoveredByPartiallyOpenContentModel
  | propertyWithEmptySchemaAddedToOpenContentModel
  | requiredAttributeAdded
  | requiredAttributeRemoved
  | requiredAttributeWithDefaultAdded
  | requiredPropertyWithDefaultAddedToClosedContentModel
  | additionalPropertiesRemoved
  | additionalPropertiesAdded
  | additionalPropertiesNarrowed
  | additionalPropertiesExtended
  | enumArrayNarrowed
  | enumArrayExtended
  | enumArrayChanged
  | maximumAdded
  | maximumRemoved
  | maximumDecreased
  | maximumIncreased
  | minimumAdded
  | minimumRemoved
  | minimumDecreased
  | minimumIncreased
  | exclusiveMaximumAdded
  | exclusiveMaximumRemoved
  | exclusiveMaximumDecreased
  | exclusiveMaximumIncreased
  | exclusiveMinimumAdded
  | exclusiveMinimumRemoved
  | exclusiveMinimumDecreased
  | exclusiveMinimumIncreased
  | multipleOfAdded
  | multipleOfRemoved
  | multipleOfReduced
  | multipleOfExpanded
  | multipleOfChanged
  | maxLengthAdded
  | maxLengthRemoved
  | maxLengthDecreased
  | maxLengthIncreased
  | minLengthAdded
  | minLengthRemoved
  | minLengthDecreased
  | minLengthIncreased
  | patternAdded
  | patternRemoved
  | patternChanged
  | maxItemsAdded
  | maxItemsRemoved
  | maxItemsDecreased
  | maxItemsIncreased
  | minItemsAdded
  | minItemsRemoved
  | minItemsDecreased
  | minItemsIncreased
  | additionalItemsRemoved
  | additionalItemsAdded
  | additionalItemsNarrowed
  | additionalItemsExtended
  | uniqueItemsAdded
  | uniqueItemsRemoved
  | maxPropertiesAdded
  | maxPropertiesRemoved
  | maxPropertiesDecreased
  | maxPropertiesIncreased
  | minPropertiesAdded
  | minPropertiesRemoved
  | minPropertiesDecreased
  | minPropertiesIncreased
  | combinedTypeChanged
  | combinedTypeExtended
  | productTypeExtended
  | productTypeNarrowed
  | sumTypeExtended
  | sumTypeNarrowed
  | notTypeExtended
  | notTypeNarrowed
  | combinedTypeSubschemasChanged
  | dependencyArrayAdded
  | dependencyArrayRemoved
  | dependencyArrayExtended
  | dependencyArrayNarrowed
  | dependencyArrayChanged
  | dependencySchemaAdded
  | dependencySchemaRemoved
  | conditionalChanged
  deriving DecidableEq

/-- The derived `Debug` text. -/
def Kind.debug : Kind → String
  | .typeNarrowed => "TypeNarrowed"
  | .typeExtended => "TypeExtended"
  | .typeChanged => "TypeChanged"
  | .propertyAddedToOpenContentModel => "PropertyAddedToOpenContentModel"
  | .propertyRemovedFromOpenContentModel => "PropertyRemovedFromOpenContentModel"
  | .propertyAddedToClosedContentModel => "PropertyAddedToClosedContentModel"
  | .propertyRemovedFromClosedContentModel => "PropertyRemovedFromClosedContentModel"
  | .propertyAddedCoveredByPartiallyOpenContentModel => "PropertyAddedCoveredByPartiallyOpenContentModel"
  | .propertyAddedNotCoveredByPartiallyOpenContentModel => "PropertyAddedNotCoveredByPartiallyOpenContentModel"
  | .propertyRemovedCoveredByPartiallyOpenContentModel => "PropertyRemovedCoveredByPartiallyOpenContentModel"
  | .propertyRemovedNotCoveredByPartiallyOpenContentModel => "PropertyRemovedNotCoveredByPartiallyOpenContentModel"
  | .propertyWithEmptySchemaAddedToOpenContentModel => "PropertyWithEmptySchemaAddedToOpenContentModel"
  | .requiredAttributeAdded => "RequiredAttributeAdded"
  | .requiredAttributeRemoved => "RequiredAttributeRemoved"
  | .requiredAttributeWithDefaultAdded => "RequiredAttributeWithDefaultAdded"
  | .requiredPropertyWithDefaultAddedToClosedContentModel => "RequiredPropertyWithDefaultAddedToClosedContentModel"
  | .additionalPropertiesRemoved => "AdditionalPropertiesRemoved"
  | .additionalPropertiesAdded => "AdditionalPropertiesAdded"
  | .additionalPropertiesNarrowed => "AdditionalPropertiesNarrowed"
  | .additionalPropertiesExtended => "AdditionalPropertiesExtended"
  | .enumArrayNarrowed => "EnumArrayNarrowed"
  | .enumArrayExtended => "EnumArrayExtended"
  | .enumArrayChanged => "EnumArrayChanged"
  | .maximumAdded => "MaximumAdded"
  | .maximumRemoved => "MaximumRemoved"
  | .maximumDecreased => "MaximumDecreased"
  | .maximumIncreased => "MaximumIncreased"
  | .minimumAdded => "MinimumAdded"
  | .minimumRemoved => "MinimumRemoved"
  | .minimumDecreased => "MinimumDecreased"
  | .minimumIncreased => "MinimumIncreased"
  | .exclusiveMaximumAdded => "ExclusiveMaximumAdded"
  | .exclusiveMaximumRemoved => "ExclusiveMaximumRemoved"
  | .exclusiveMaximumDecreased => "ExclusiveMaximumDecreased"
  | .exclusiveMaximumIncreased => "ExclusiveMaximumIncreased"
  | .exclusiveMinimumAdded => "ExclusiveMinimumAdded"
  | .exclusiveMinimumRemoved => "ExclusiveMinimumRemoved"
  | .exclusiveMinimumDecreased => "ExclusiveMinimumDecreased"
  | .exclusiveMinimumIncreased => "ExclusiveMinimumIncreased"
  | .multipleOfAdded => "MultipleOfAdded"
  | .multipleOfRemoved => "MultipleOfRemoved"
  | .multipleOfReduced => "MultipleOfReduced"
  | .multipleOfExpanded => "MultipleOfExpanded"
  | .multipleOfChanged => "MultipleOfChanged"
  | .maxLengthAdded => "MaxLengthAdded"
  | .maxLengthRemoved => "MaxLengthRemoved"
  | .maxLengthDecreased => "MaxLengthDecreased"
  | .maxLengthIncreased => "MaxLengthIncreased"
  | .minLengthAdded => "MinLengthAdded"
  | .minLengthRemoved => "MinLengthRemoved"
  | .minLengthDecreased => "MinLengthDecreased"
  | .minLengthIncreased => "MinLengthIncreased"
  | .patternAdded => "PatternAdded"
  | .patternRemoved => "PatternRemoved"
  | .patternChanged => "PatternChanged"
  | .maxItemsAdded => "MaxItemsAdded"
  | .maxItemsRemoved => "MaxItemsRemoved"
  | .maxItemsDecreased => "MaxItemsDecreased"
  | .maxItemsIncreased => "MaxItemsIncreased"
  | .minItemsAdded => "MinItemsAdded"
  | .minItemsRemoved => "MinItemsRemoved"
  | .minItemsDecreased => "MinItemsDecreased"
  | .minItemsIncreased => "MinItemsIncreased"
  | .additionalItemsRemoved => "AdditionalItemsRemoved"
  | .additionalItemsAdded => "AdditionalItemsAdded"
  | .additionalItemsNarrowed => "AdditionalItemsNarrowed"
  | .additionalItemsExtended => "AdditionalItemsExtended"
  | .uniqueItemsAdded => "UniqueItemsAdded"
  | .uniqueItemsRemoved => "UniqueItemsRemoved"
  | .maxPropertiesAdded => "MaxPropertiesAdded"
  | .maxPropertiesRemoved => "MaxPropertiesRemoved"
  | .maxPropertiesDecreased => "MaxPropertiesDecreased"
  | .maxPropertiesIncreased => "MaxPropertiesIncreased"
  | .minPropertiesAdded => "MinPropertiesAdded"
  | .minPropertiesRemoved => "MinPropertiesRemoved"
  | .minPropertiesDecreased => "MinPropertiesDecreased"
  | .minPropertiesIncreased => "MinPropertiesIncreased"
  | .combinedTypeChanged => "CombinedTypeChanged"
  | .combinedTypeExtended => "CombinedTypeExtended"
  | .productTypeExtended => "ProductTypeExtended"
  | .productTypeNarrowed => "ProductTypeNarrowed"
  | .sumTypeExtended => "SumTypeExtended"
  | .sumTypeNarrowed => "SumTypeNarrowed"
  | .notTypeExtended => "NotTypeExtended"
  | .notTypeNarrowed => "NotTypeNarrowed"
  | .combinedTypeSubschemasChanged => "CombinedTypeSubschemasChanged"
  | .dependencyArrayAdded => "DependencyArrayAdded"
  | .dependencyArrayRemoved => "DependencyArrayRemoved"
  | .dependencyArrayExtended => "DependencyArrayExtended"
  | .dependencyArrayNarrowed => "DependencyArrayNarrowed"
  | .dependencyArrayChanged => "DependencyArrayChanged"
  | .dependencySchemaAdded => "DependencySchemaAdded"
  | .dependencySchemaRemoved => "DependencySchemaRemoved"
  | .conditionalChanged => "ConditionalChanged"

/-- `is_backward_compatible`. -/
def isBackwardCompatible : Kind → Bool
  | .typeExtended | .propertyRemovedFromOpenContentModel | .propertyAddedToClosedContentModel
  | .propertyAddedCoveredByPartiallyOpenContentModel
  | .propertyAddedNotCoveredByPartiallyOpenContentModel
  | .propertyRemovedCoveredByPartiallyOpenContentModel
  | .propertyWithEmptySchemaAddedToOpenContentModel | .requiredAttributeRemoved
  | .requiredAttributeWithDefaultAdded | .requiredPropertyWithDefaultAddedToClosedContentModel
  | .additionalPropertiesAdded | .additionalPropertiesExtended | .enumArrayExtended
  | .maximumRemoved | .maximumIncreased | .minimumRemoved | .minimumDecreased
  | .exclusiveMaximumRemoved | .exclusiveMaximumIncreased | .exclusiveMinimumRemoved
  | .exclusiveMinimumDecreased | .multipleOfRemoved | .multipleOfReduced | .maxLengthRemoved
  | .maxLengthIncreased | .minLengthRemoved | .minLengthDecreased | .patternRemoved
  | .maxItemsRemoved | .maxItemsIncreased | .minItemsRemoved | .minItemsDecreased
  | .additionalItemsAdded | .additionalItemsExtended | .uniqueItemsRemoved
  | .maxPropertiesRemoved | .maxPropertiesIncreased | .minPropertiesRemoved
  | .minPropertiesDecreased | .combinedTypeExtended | .productTypeNarrowed | .sumTypeExtended
  | .notTypeNarrowed | .dependencyArrayRemoved | .dependencyArrayNarrowed
  | .dependencySchemaRemoved => true
  | _ => false

structure Difference where
  kind : Kind
  path : String

/-- The line of `messages` for one difference. -/
def Difference.message (d : Difference) : String := d.kind.debug ++ " at " ++ d.path

/-- One step of a comparison, at a suffix of the path of the schemas compared. -/
inductive Step where
  | report (kind : Kind) (suffix : String)
  | recurse (suffix : String) (orig upd : Value)
  deriving DecidableEq

/-- The regular expressions, next to `serde_json`. -/
structure DiffLibs where
  serdeJson : SerdeJson
  /-- The pattern is a valid expression and matches somewhere in the text. -/
  isMatch : String → String → Bool

variable (L : DiffLibs)

/-! ## Types -/

/-- `BTreeSet<String>` of the strings among the items. -/
def stringSet (items : List Value) : Finset String := (items.filterMap Value.asStr).toFinset

def typesOf (schema : Value) : Finset String :=
  match schema.get "type" with
  | some (.string s) => {s}
  | some (.array items) => stringSet items
  | _ => ∅

def compareType (orig upd : Value) : List Step :=
  let ot := typesOf orig
  let ut := typesOf upd
  if ot = ut then []
  else if ot = {"integer"} ∧ ut = {"number"} then [.report .typeExtended ""]
  else if ot = {"number"} ∧ ut = {"integer"} ∨ ot = ∅ ∧ ut ≠ ∅ then [.report .typeNarrowed ""]
  else if ut = ∅ ∧ ot ≠ ∅ then [.report .typeExtended ""]
  else if ut ⊆ ot then [.report .typeNarrowed ""]
  else if ot ⊆ ut then [.report .typeExtended ""]
  else [.report .typeChanged ""]

/-! ## Properties -/

inductive ContentModel where
  | openContent
  | partialContent
  | closedContent
  | schemaContent (schema : Value)

def contentModel (schema : Value) : ContentModel :=
  match schema.get "additionalProperties" with
  | some (.bool false) => .closedContent
  | some (.bool true) => .openContent
  | some (.object members) => .schemaContent (.object members)
  | _ =>
    if (schema.get "patternProperties").any Value.isObject then .partialContent else .openContent

/-- The schemas that apply to a property that is not declared. -/
def coveringSchemas (schema : Value) (property : String) : List Value :=
  let additional :=
    match contentModel schema with
    | .schemaContent value => [value]
    | _ => []
  let patterns := ((schema.get "patternProperties").bind Value.asObject).getD []
  additional ++ (patterns.filter fun p => L.isMatch p.1 property).map (·.2)

def props (schema : Value) : Option (List (String × Value)) :=
  (schema.get "properties").bind Value.asObject

/-- The declared properties, none if the schema has no `properties`. -/
def declared (schema : Value) : List (String × Value) := (props schema).getD []

def requiredSet (schema : Value) : Finset String :=
  (((schema.get "required").bind Value.asArray).map stringSet).getD ∅

/-- A property that only the original declares. -/
def removedProperty (upd : Value) (name : String) (oschema : Value) : List Step :=
  let here := "/properties/" ++ name
  let covering := coveringSchemas L upd name
  match contentModel upd with
  | .openContent => [.report .propertyRemovedFromOpenContentModel here]
  | .closedContent => [.report .propertyRemovedFromClosedContentModel here]
  | .partialContent | .schemaContent _ =>
    if covering.isEmpty then [.report .propertyRemovedNotCoveredByPartiallyOpenContentModel here]
    else .report .propertyRemovedCoveredByPartiallyOpenContentModel here ::
      covering.map fun allowed => .recurse here oschema allowed

/-- How the original's content model receives a property that only the update declares. -/
def receivedProperty (orig : Value) (name : String) (uschema : Value) : List Step :=
  let here := "/properties/" ++ name
  let covering := coveringSchemas L orig name
  match contentModel orig with
  | .openContent =>
    if uschema.asObject = some [] then
      [.report .propertyWithEmptySchemaAddedToOpenContentModel here]
    else [.report .propertyAddedToOpenContentModel here]
  | .closedContent => [.report .propertyAddedToClosedContentModel here]
  | .partialContent | .schemaContent _ =>
    if covering.isEmpty then [.report .propertyAddedNotCoveredByPartiallyOpenContentModel here]
    else .report .propertyAddedCoveredByPartiallyOpenContentModel here ::
      covering.map fun allowed => .recurse here allowed uschema

/-- The content model lets undeclared properties hold anything. -/
def isOpen (schema : Value) : Bool :=
  match contentModel schema with
  | .openContent => true
  | _ => false

/-- A property that only the update declares. -/
def addedProperty (orig upd : Value) (name : String) (uschema : Value) : List Step :=
  let here := "/properties/" ++ name
  if name ∈ requiredSet upd ∧ (uschema.get "default").isSome ∧ ¬ isOpen orig then
    [.report .requiredPropertyWithDefaultAddedToClosedContentModel here]
  else
    (if name ∈ requiredSet upd ∧ (uschema.get "default").isNone then
      [.report .requiredAttributeAdded here]
    else []) ++ receivedProperty L orig name uschema

def compareProperties (orig upd : Value) : List Step :=
  let op := declared orig
  let up := declared upd
  (op.flatMap fun p => if (up.lookup p.1).isSome then [] else removedProperty L upd p.1 p.2) ++
  up.flatMap fun p =>
    match op.lookup p.1 with
    | none => addedProperty L orig upd p.1 p.2
    | some oschema => [.recurse ("/properties/" ++ p.1) oschema p.2]

def compareRequired (orig upd : Value) : List Step :=
  let orq := requiredSet orig
  let urq := requiredSet upd
  let op := declared orig
  let up := declared upd
  (((urq \ orq).filter fun name =>
      (op.lookup name).isSome ∧ (up.lookup name).isSome).sort.map fun name =>
    if ((up.lookup name).bind (·.get "default")).isSome then
      .report .requiredAttributeWithDefaultAdded ("/required/" ++ name)
    else .report .requiredAttributeAdded ("/required/" ++ name)) ++
  (orq \ urq).sort.map fun name => .report .requiredAttributeRemoved ("/required/" ++ name)

/-- The keyword is `false`. -/
def isFalse (v : Option Value) : Bool := v = some (.bool false)

/-- The keyword is there and not a boolean. -/
def isSchemaValued (v : Option Value) : Bool := v.any fun value => !value.isBoolean

def compareAdditionalProperties (orig upd : Value) : List Step :=
  let oa := orig.get "additionalProperties"
  let ua := upd.get "additionalProperties"
  if isFalse oa ∧ ¬ isFalse ua then [.report .additionalPropertiesAdded ""]
  else if ¬ isFalse oa ∧ isFalse ua then [.report .additionalPropertiesRemoved ""]
  else if oa.isNone ∧ isSchemaValued ua then [.report .additionalPropertiesNarrowed ""]
  else if ua.isNone ∧ isSchemaValued oa then [.report .additionalPropertiesExtended ""]
  else
    match oa, ua with
    | some oa, some ua =>
      if !oa.isBoolean ∧ !ua.isBoolean then [.recurse "/additionalProperties" oa ua] else []
    | _, _ => []

/-! ## Enum and const -/

/-- `canonical_value`. -/
def canonicalValue (v : Value) : String := canonicalize L.serdeJson v

/-- The texts of `enum`, or of `const` as its only value. -/
def enumSet (schema : Value) : Option (Finset String) :=
  match (schema.get "enum").bind Value.asArray with
  | some items => some (items.map (canonicalValue L)).toFinset
  | none => (schema.get "const").map fun c => {canonicalValue L c}

def compareEnum (orig upd : Value) : List Step :=
  let oe := enumSet L orig
  let ue := enumSet L upd
  if oe = ue then []
  else
    match oe, ue with
    | some os, some us =>
      if us ⊆ os then [.report .enumArrayNarrowed ""]
      else if os ⊆ us then [.report .enumArrayExtended ""]
      else [.report .enumArrayChanged ""]
    | none, some _ => [.report .enumArrayNarrowed ""]
    | some _, none => [.report .enumArrayExtended ""]
    | none, none => []

/-! ## Numeric bounds -/

open Library.Binary64 (roundToDouble roundHalfAway epsilon Overflows)

def num (schema : Value) (key : String) : Option ℚ := (schema.get key).bind Value.asF64

/-- `(o - u).abs() > f64::EPSILON`. -/
def differs (o u : ℚ) : Bool := epsilon < |roundToDouble (o - u)|

/-- One bound, with the kinds for adding, removing, decreasing and increasing it. -/
def compareBound (orig upd : Value) (key : String) (kinds : Kind × Kind × Kind × Kind) :
    List Step :=
  match num orig key, num upd key with
  | none, some _ => [.report kinds.1 ""]
  | some _, none => [.report kinds.2.1 ""]
  | some o, some u =>
    if differs o u then
      if u < o then [.report kinds.2.2.1 ""] else [.report kinds.2.2.2 ""]
    else []
  | none, none => []

/-- The quotient of the doubles is an integer, up to the last places.  A quotient that is
infinite or not a number is not. -/
def divisible (larger smaller : ℚ) : Bool :=
  let quotient := roundToDouble (larger / smaller)
  smaller ≠ 0 ∧ ¬ Overflows quotient ∧
    |roundToDouble (quotient - roundHalfAway quotient)| ≤ epsilon * max |quotient| 1

def compareMultipleOf (orig upd : Value) : List Step :=
  match num orig "multipleOf", num upd "multipleOf" with
  | none, some _ => [.report .multipleOfAdded ""]
  | some _, none => [.report .multipleOfRemoved ""]
  | some o, some u =>
    if differs o u then
      if divisible o u then [.report .multipleOfReduced ""]
      else if divisible u o then [.report .multipleOfExpanded ""]
      else [.report .multipleOfChanged ""]
    else []
  | none, none => []

def compareNumeric (orig upd : Value) : List Step :=
  compareBound orig upd "maximum"
    (.maximumAdded, .maximumRemoved, .maximumDecreased, .maximumIncreased) ++
  compareBound orig upd "minimum"
    (.minimumAdded, .minimumRemoved, .minimumDecreased, .minimumIncreased) ++
  compareBound orig upd "exclusiveMaximum"
    (.exclusiveMaximumAdded, .exclusiveMaximumRemoved, .exclusiveMaximumDecreased,
      .exclusiveMaximumIncreased) ++
  compareBound orig upd "exclusiveMinimum"
    (.exclusiveMinimumAdded, .exclusiveMinimumRemoved, .exclusiveMinimumDecreased,
      .exclusiveMinimumIncreased) ++
  compareMultipleOf orig upd

/-! ## Strings -/

def comparePattern (orig upd : Value) : List Step :=
  match (orig.get "pattern").bind Value.asStr, (upd.get "pattern").bind Value.asStr with
  | none, some _ => [.report .patternAdded ""]
  | some _, none => [.report .patternRemoved ""]
  | some o, some u => if o ≠ u then [.report .patternChanged ""] else []
  | none, none => []

def compareStringConstraints (orig upd : Value) : List Step :=
  compareBound orig upd "maxLength"
    (.maxLengthAdded, .maxLengthRemoved, .maxLengthDecreased, .maxLengthIncreased) ++
  compareBound orig upd "minLength"
    (.minLengthAdded, .minLengthRemoved, .minLengthDecreased, .minLengthIncreased) ++
  comparePattern orig upd

/-! ## Arrays -/

def compareItems (orig upd : Value) : List Step :=
  match orig.get "items", upd.get "items" with
  | some oi, some ui =>
    if oi.isObject ∧ ui.isObject then [.recurse "/items" oi ui]
    else
      match oi, ui with
      | .array ois, .array uis =>
        ((ois.zip uis).zipIdx.map fun p => .recurse ("/items/" ++ toString p.2) p.1.1 p.1.2) ++
        if ois.length < uis.length then [.report .additionalItemsRemoved "/items"]
        else if uis.length < ois.length then [.report .additionalItemsAdded "/items"]
        else []
      | _, _ => [.report .typeChanged "/items"]
  | _, _ => []

def compareAdditionalItems (orig upd : Value) : List Step :=
  let oa := orig.get "additionalItems"
  let ua := upd.get "additionalItems"
  if ¬ isFalse oa ∧ isFalse ua then [.report .additionalItemsRemoved ""]
  else if isFalse oa ∧ ¬ isFalse ua then [.report .additionalItemsAdded ""]
  else if oa.isNone ∧ isSchemaValued ua then [.report .additionalItemsNarrowed ""]
  else if ua.isNone ∧ isSchemaValued oa then [.report .additionalItemsExtended ""]
  else
    match oa, ua with
    | some oa, some ua =>
      if !oa.isBoolean ∧ !ua.isBoolean then [.recurse "/additionalItems" oa ua] else []
    | _, _ => []

/-- `uniqueItems` is `true`. -/
def uniqueItems (schema : Value) : Bool := ((schema.get "uniqueItems").bind Value.asBool).getD false

def compareUniqueItems (orig upd : Value) : List Step :=
  match uniqueItems orig, uniqueItems upd with
  | false, true => [.report .uniqueItemsAdded ""]
  | true, false => [.report .uniqueItemsRemoved ""]
  | _, _ => []

def compareArrayConstraints (orig upd : Value) : List Step :=
  compareItems orig upd ++
  compareBound orig upd "maxItems"
    (.maxItemsAdded, .maxItemsRemoved, .maxItemsDecreased, .maxItemsIncreased) ++
  compareBound orig upd "minItems"
    (.minItemsAdded, .minItemsRemoved, .minItemsDecreased, .minItemsIncreased) ++
  compareAdditionalItems orig upd ++
  compareUniqueItems orig upd

/-! ## Object size -/

def compareObjectSize (orig upd : Value) : List Step :=
  compareBound orig upd "maxProperties"
    (.maxPropertiesAdded, .maxPropertiesRemoved, .maxPropertiesDecreased,
      .maxPropertiesIncreased) ++
  compareBound orig upd "minProperties"
    (.minPropertiesAdded, .minPropertiesRemoved, .minPropertiesDecreased,
      .minPropertiesIncreased)

/-! ## Combinators

`compatible` is `branch_compatible`; it has no answer where the comparison of the branches does
not end. -/

section Combinators

variable (compatible : Value → Value → Option Bool)

def branches (schema : Value) (keyword : String) : Option (List Value) :=
  (schema.get keyword).bind Value.asArray

/-- The indices of the branches of the update that an original branch is compatible with. -/
def edgesOf (old : Value) (new : List Value) : Option (List ℕ) := do
  let answers ← new.mapM (compatible old)
  return (List.range answers.length).filter fun index => answers[index]? = some true

def maximumMatching (old new : List Value) : Option ℕ := do
  let edges ← old.mapM fun branch => edgesOf compatible branch new
  return Library.Matching.maximumMatching (fun index => (edges[index]?).getD []) old.length
    new.length

/-- `iter().any(..)`, which stops at the first compatible branch. -/
def anyBranch (test : Value → Option Bool) : List Value → Option Bool
  | [] => some false
  | branch :: rest =>
    match test branch with
    | none => none
    | some true => some true
    | some false => anyBranch test rest

/-- `iter().all(..)`, which stops at the first branch that is not. -/
def allBranches (test : Value → Option Bool) : List Value → Option Bool
  | [] => some true
  | branch :: rest =>
    match test branch with
    | none => none
    | some false => some false
    | some true => allBranches test rest

/-- Two lists of branches that differ, with the kinds for more and for fewer of them. -/
def compareBranches (old new : List Value) (suffix : String) (extended narrowed : Kind) :
    Option (List Step) := do
  let matched ← maximumMatching compatible old new
  if matched < min old.length new.length then
    return [.report .combinedTypeSubschemasChanged suffix]
  else if old.length < new.length then return [.report extended suffix]
  else if new.length < old.length then return [.report narrowed suffix]
  else return []

def compareAllOf (orig upd : Value) : Option (List Step) :=
  match branches orig "allOf", branches upd "allOf" with
  | some old, some new =>
    if old ≠ new then
      compareBranches compatible old new "/allOf" .productTypeExtended .productTypeNarrowed
    else some []
  | some _, none | none, some _ => some [.report .combinedTypeChanged ""]
  | none, none => some []

/-- `anyOf`, or else `oneOf`, with its keyword. -/
def sumOf (schema : Value) : Option (String × List Value) :=
  match branches schema "anyOf" with
  | some value => some ("anyOf", value)
  | none => (branches schema "oneOf").map fun value => ("oneOf", value)

def compareSum (orig upd : Value) : Option (List Step) :=
  match sumOf orig, sumOf upd with
  | some (oldKind, old), some (newKind, new) =>
    if oldKind ≠ newKind then
      some [.report (if newKind = "anyOf" then .combinedTypeExtended else .combinedTypeChanged) ""]
    else if old ≠ new then
      compareBranches compatible old new ("/" ++ oldKind) .sumTypeExtended .sumTypeNarrowed
    else some []
  | none, some (kind, new) => do
    let found ← anyBranch (fun branch => compatible orig branch) new
    return [.report (if found then .sumTypeExtended else .combinedTypeChanged) ("/" ++ kind)]
  | some (kind, old), none => do
    let found ← allBranches (fun branch => compatible branch upd) old
    return [.report (if found then .sumTypeNarrowed else .combinedTypeChanged) ("/" ++ kind)]
  | none, none => some []

def compareNot (orig upd : Value) : Option (List Step) :=
  match orig.get "not", upd.get "not" with
  | some old, some new =>
    if old ≠ new then do
      -- The sides are swapped here, but not their roots.
      let found ← compatible new old
      return [.report (if found then .notTypeNarrowed else .notTypeExtended) "/not"]
    else some []
  | some _, none | none, some _ => some [.report .combinedTypeChanged ""]
  | none, none => some []

def compareCombinators (orig upd : Value) : Option (List Step) := do
  let products ← compareAllOf compatible orig upd
  let sums ← compareSum compatible orig upd
  let negations ← compareNot compatible orig upd
  return products ++ sums ++ negations

end Combinators

/-! ## Dependencies and conditionals -/

def dependencyKind (value : Value) (added : Bool) : Kind :=
  if value.isArray then
    if added then .dependencyArrayAdded else .dependencyArrayRemoved
  else if added then .dependencySchemaAdded
  else .dependencySchemaRemoved

/-- A dependency that both sides have. -/
def compareDependency (suffix : String) (value update : Value) : List Step :=
  match value.asArray, update.asArray with
  | some old, some new =>
    let old := stringSet old
    let new := stringSet new
    if old ⊆ new ∧ new ≠ old then [.report .dependencyArrayExtended suffix]
    else if new ⊆ old ∧ new ≠ old then [.report .dependencyArrayNarrowed suffix]
    else if new ≠ old then [.report .dependencyArrayChanged suffix]
    else []
  | none, none =>
    if value.isObject ∧ update.isObject then [.recurse suffix value update]
    else if value ≠ update then [.report .dependencyArrayChanged suffix]
    else []
  | _, _ => if value ≠ update then [.report .dependencyArrayChanged suffix] else []

def compareDependencies (orig upd : Value) : List Step :=
  let old := ((orig.get "dependencies").bind Value.asObject).getD []
  let new := ((upd.get "dependencies").bind Value.asObject).getD []
  (old.flatMap fun p =>
    match new.lookup p.1 with
    | none => [.report (dependencyKind p.2 false) ("/dependencies/" ++ p.1)]
    | some update => compareDependency ("/dependencies/" ++ p.1) p.2 update) ++
  new.flatMap fun p =>
    if (old.lookup p.1).isSome then []
    else [.report (dependencyKind p.2 true) ("/dependencies/" ++ p.1)]

/-- One of the keywords `if`, `then` and `else`. -/
def compareConditional (orig upd : Value) (keyword : String) : List Step :=
  match orig.get keyword, upd.get keyword with
  | some ov, some uv =>
    if canonicalValue L ov ≠ canonicalValue L uv then
      [.report .conditionalChanged ("/" ++ keyword), .recurse ("/" ++ keyword) ov uv]
    else []
  | none, some _ | some _, none => [.report .conditionalChanged ("/" ++ keyword)]
  | none, none => []

def hasConditional (schema : Value) : Bool :=
  (schema.get "if").isSome || (schema.get "then").isSome || (schema.get "else").isSome

def compareConditionals (orig upd : Value) : List Step :=
  if !hasConditional orig ∧ !hasConditional upd then []
  else
    compareConditional L orig upd "if" ++ compareConditional L orig upd "then" ++
      compareConditional L orig upd "else"

/-! ## References -/

/-- A side's registry references: each name with its document. -/
abbrev RefMap := List (String × Value)

/-- Each side's root and references, and the pairs of `$ref`s that are being followed. -/
structure Ctx where
  origRoot : Value
  updRoot : Value
  origRefs : RefMap
  updRefs : RefMap
  visited : Finset (String × String)

/-- `Ctx::new`, with the roots and references of another context. -/
def Ctx.fresh (ctx : Ctx) : Ctx := { ctx with visited := ∅ }

/-- The string of a schema's `$ref`. -/
def refOf (schema : Value) : Option String := (schema.get "$ref").bind Value.asStr

/-- `resolve_ref`: a pointer into the root, or the name of a registered document. -/
def resolveRef (schema root : Value) (refs : RefMap) : Option Value :=
  match refOf schema with
  | none => none
  | some ref =>
    match ref.toList with
    | '#' :: ptr => root.pointer ptr
    | _ => refs.lookup ref

/-- What `compare_refs` does with two schemas. -/
inductive RefStep where
  /-- Neither side is a reference: the schemas themselves are compared. -/
  | noRefs
  /-- There is nothing to compare: the pair is being followed already, or nothing resolves. -/
  | stop
  /-- The targets are compared, below a suffix of the path and with the pair marked. -/
  | follow (ctx : Ctx) (suffix : String) (orig upd : Value)

def compareRefs (ctx : Ctx) (orig upd : Value) : RefStep :=
  match refOf orig, refOf upd with
  | none, none => .noRefs
  | oRef, uRef =>
    let key := (oRef.getD "", uRef.getD "")
    if key ∈ ctx.visited then .stop
    else
      let marked := { ctx with visited := insert key ctx.visited }
      match resolveRef orig ctx.origRoot ctx.origRefs, resolveRef upd ctx.updRoot ctx.updRefs with
      | some ores, some ures => .follow marked "/$ref" ores ures
      | some ores, none => .follow marked "" ores upd
      | none, some ures => .follow marked "" orig ures
      | none, none => .stop

/-! ## The comparison -/

/-- The steps of two schemas without `$ref`s. -/
def schemaSteps (compatible : Value → Value → Option Bool) (orig upd : Value) :
    Option (List Step) := do
  let combinators ← compareCombinators compatible orig upd
  return compareType orig upd ++ compareEnum L orig upd ++ compareProperties L orig upd ++
    compareRequired orig upd ++ compareAdditionalProperties orig upd ++
    compareNumeric orig upd ++ compareStringConstraints orig upd ++
    compareArrayConstraints orig upd ++ compareObjectSize orig upd ++ combinators ++
    compareDependencies orig upd ++ compareConditionals L orig upd

/-- Carry out the steps below `path`. -/
def runSteps (compare : String → Value → Value → Option (List Difference)) (path : String) :
    List Step → Option (List Difference)
  | [] => some []
  | .report kind suffix :: steps => do
    let rest ← runSteps compare path steps
    return ⟨kind, path ++ suffix⟩ :: rest
  | .recurse suffix orig upd :: steps => do
    let below ← compare (path ++ suffix) orig upd
    let rest ← runSteps compare path steps
    return below ++ rest

/-- No difference is backward-incompatible. -/
def allCompatible (diffs : List Difference) : Bool := diffs.all fun d => isBackwardCompatible d.kind

/-- `compare_schema`. -/
def compareSchema : ℕ → Ctx → String → Value → Value → Option (List Difference)
  | 0, _, _, _, _ => none
  | fuel + 1, ctx, path, orig, upd =>
    match compareRefs ctx orig upd with
    | .stop => some []
    | .follow ctx' suffix o u => compareSchema fuel ctx' (path ++ suffix) o u
    | .noRefs => do
      let steps ← schemaSteps L
        (fun o u => (compareSchema fuel ctx.fresh "#" o u).map allCompatible) orig upd
      runSteps (compareSchema fuel ctx) path steps

/-- `compare_with_refs`. -/
def compareWithRefs (fuel : ℕ) (original update : Value) (originalRefs updateRefs : RefMap) :
    Option (List Difference) :=
  compareSchema L fuel ⟨original, update, originalRefs, updateRefs, ∅⟩ "#" original update

/-- The check of two parsed schemas. -/
def checkParsed (fuel : ℕ) (reader writer : JsonSchema) : Option (Except (List String) Unit) := do
  let diffs ← compareWithRefs L fuel writer.value reader.value writer.refs reader.refs
  let incompatible := diffs.filter fun d => !isBackwardCompatible d.kind
  return if incompatible.isEmpty then .ok () else .error (incompatible.map Difference.message)

/-- `json::check`. -/
def check (fuel : ℕ) (reader writer : String) (readerRefs writerRefs : List ResolvedReference) :
    Option (Except (List String) Unit) :=
  match parse L.serdeJson reader readerRefs with
  | .error e => some (.error ["reader: " ++ Failure.display e])
  | .ok readerS =>
    match parse L.serdeJson writer writerRefs with
    | .error e => some (.error ["writer: " ++ Failure.display e])
    | .ok writerS => checkParsed L fuel readerS writerS

end KrabkaRegistry.Format.Json
