import KrabkaRegistry.Format.JsonDiff

/-!
# What a JSON Schema Means

The instances that are valid under a schema, by the JSON Schema specification: a keyword limits
the values of the type it is about, and no others.  The registry itself never validates; this is
what its compatibility check is for.  The keywords here are those of the results over it:
references, patterns and schemas of additional properties are none of them.

- `Valid`: an instance is valid under a schema
- `valid_iff`: the same, by the subschemas
-/

namespace KrabkaRegistry.Format.Json

/-! ## Equality of values -/

/-- The number that a number of a document is. -/
def Number.value : Number → ℚ
  | .int n => n
  | .float token => Value.floatValue token

/-- What a value is as data: numbers by their value, and objects without an order. -/
inductive Meaning where
  | null
  | bool (b : Bool)
  | number (q : ℚ)
  | string (s : String)
  | array (items : List Meaning)
  | object (members : String → Option Meaning)

mutual

def Value.meaning : Value → Meaning
  | .null => .null
  | .bool b => .bool b
  | .number n => .number n.value
  | .string s => .string s
  | .array items => .array (itemMeanings items)
  | .object members => .object (memberMeanings members)

def itemMeanings : List Value → List Meaning
  | [] => []
  | v :: vs => v.meaning :: itemMeanings vs

def memberMeanings : List (String × Value) → String → Option Meaning
  | [] => fun _ => none
  | (k, v) :: ms => fun key => if key = k then some v.meaning else memberMeanings ms key

end

theorem itemMeanings_eq (items : List Value) : itemMeanings items = items.map Value.meaning := by
  induction items with
  | nil => rfl
  | cons v vs ih => rw [itemMeanings, ih, List.map_cons]

theorem memberMeanings_eq (members : List (String × Value)) (key : String) :
    memberMeanings members key = (members.lookup key).map Value.meaning := by
  induction members with
  | nil => rfl
  | cons m ms ih =>
    obtain ⟨k, v⟩ := m
    rw [memberMeanings, List.lookup_cons]
    by_cases h : key = k
    · simp [h]
    · have hne : (key == k) = false := by simpa using h
      simp only [h, if_false, hne, ih]

/-! ## Keywords -/

/-- The names of the types of a value; an integer is a number without a fraction. -/
def typeNames : Value → List String
  | .null => ["null"]
  | .bool _ => ["boolean"]
  | .number n => if n.value.den = 1 then ["integer", "number"] else ["number"]
  | .string _ => ["string"]
  | .array _ => ["array"]
  | .object _ => ["object"]

def TypeAllows (keyword : Option Value) (v : Value) : Prop :=
  match keyword with
  | some (.string name) => name ∈ typeNames v
  | some (.array names) => ∃ name, .string name ∈ names ∧ name ∈ typeNames v
  | _ => True

def EnumAllows (keyword : Option Value) (v : Value) : Prop :=
  match keyword with
  | some (.array items) => ∃ x ∈ items, x.meaning = v.meaning
  | _ => True

/-- A keyword that bounds a measure of the values of one type. -/
structure Bound where
  key : String
  measure : Value → Option ℚ
  upper : Bool
  strict : Bool

def numberOf : Value → Option ℚ
  | .number n => some n.value
  | _ => none

/-- The length in characters. -/
def lengthOf : Value → Option ℚ
  | .string s => some s.length
  | _ => none

def itemsOf : Value → Option ℚ
  | .array items => some items.length
  | _ => none

def sizeOfObject : Value → Option ℚ
  | .object members => some members.length
  | _ => none

def bounds : List Bound :=
  [⟨"maximum", numberOf, true, false⟩, ⟨"minimum", numberOf, false, false⟩,
    ⟨"exclusiveMaximum", numberOf, true, true⟩, ⟨"exclusiveMinimum", numberOf, false, true⟩,
    ⟨"maxLength", lengthOf, true, false⟩, ⟨"minLength", lengthOf, false, false⟩,
    ⟨"maxItems", itemsOf, true, false⟩, ⟨"minItems", itemsOf, false, false⟩,
    ⟨"maxProperties", sizeOfObject, true, false⟩, ⟨"minProperties", sizeOfObject, false, false⟩]

def Bound.Holds (b : Bound) (q limit : ℚ) : Prop :=
  if b.upper then (if b.strict then q < limit else q ≤ limit)
  else if b.strict then limit < q else limit ≤ q

def BoundAllows (b : Bound) (keyword : Option Value) (v : Value) : Prop :=
  match keyword, b.measure v with
  | some (.number n), some q => b.Holds q n.value
  | _, _ => True

/-- The members of an object; no other value has any. -/
def membersOf (v : Value) : List (String × Value) := v.asObject.getD []

/-- The elements of an array; no other value has any. -/
def elementsOf (v : Value) : List Value := v.asArray.getD []

/-- The keywords that hold no schemas. -/
structure KeywordsAllow (schema v : Value) : Prop where
  type : TypeAllows (schema.get "type") v
  enum : EnumAllows (schema.get "enum") v
  bound : ∀ b ∈ bounds, BoundAllows b (schema.get b.key) v
  unique : schema.get "uniqueItems" = some (.bool true) → ((elementsOf v).map Value.meaning).Nodup
  required : ∀ names name, schema.get "required" = some (.array names) → .string name ∈ names →
    v.isObject → (v.get name).isSome
  additional : schema.get "additionalProperties" = some (.bool false) →
    ∀ m ∈ membersOf v, ((declared schema).lookup m.1).isSome

/-! ## Validity -/

theorem sizeOf_declared {schema : Value} {p : String × Value} (h : p ∈ declared schema) :
    sizeOf p.2 < sizeOf schema := by
  rw [declared, props] at h
  cases hget : schema.get "properties" with
  | none => simp [hget] at h
  | some x =>
    cases x with
    | object members =>
      rw [hget] at h
      exact (Value.sizeOf_member h).trans (Value.sizeOf_get hget)
    | _ => simp [hget, Value.asObject] at h

theorem sizeOf_branches {schema b : Value} {keyword : String} {l : List Value}
    (h : branches schema keyword = some l) (hb : b ∈ l) : sizeOf b < sizeOf schema := by
  obtain ⟨x, hget, hx⟩ := Option.bind_eq_some_iff.mp h
  cases x with
  | array items =>
    obtain rfl := Option.some.inj hx
    exact (Value.sizeOf_item hb).trans (Value.sizeOf_get hget)
  | _ => simp [Value.asArray] at hx

/-- An instance is valid under a schema. -/
def Valid (schema v : Value) : Prop :=
  KeywordsAllow schema v ∧
  (∀ p, ∀ _ : p ∈ declared schema, ∀ x, v.get p.1 = some x → Valid p.2 x) ∧
  (∀ items, ∀ _ : schema.get "items" = some items, items.isObject →
    ∀ x ∈ elementsOf v, Valid items x) ∧
  (∀ l b, ∀ _ : branches schema "allOf" = some l, ∀ _ : b ∈ l, Valid b v) ∧
  (∀ l, ∀ _ : branches schema "anyOf" = some l, ∃ b, ∃ _ : b ∈ l, Valid b v) ∧
  (∀ s, ∀ _ : schema.get "not" = some s, ¬ Valid s v)
termination_by sizeOf schema
decreasing_by
  · exact sizeOf_declared ‹_›
  · exact Value.sizeOf_get ‹_›
  · exact sizeOf_branches ‹_› ‹_›
  · exact sizeOf_branches ‹_› ‹_›
  · exact Value.sizeOf_get ‹_›

/-- The subschemas of a schema accept what they are about. -/
structure SubschemasAllow (schema v : Value) : Prop where
  properties : ∀ p ∈ declared schema, ∀ x, v.get p.1 = some x → Valid p.2 x
  items : ∀ items, schema.get "items" = some items → items.isObject →
    ∀ x ∈ elementsOf v, Valid items x
  allOf : ∀ l, branches schema "allOf" = some l → ∀ b ∈ l, Valid b v
  anyOf : ∀ l, branches schema "anyOf" = some l → ∃ b ∈ l, Valid b v
  not : ∀ s, schema.get "not" = some s → ¬ Valid s v

theorem valid_iff {schema v : Value} :
    Valid schema v ↔ KeywordsAllow schema v ∧ SubschemasAllow schema v := by
  rw [Valid]
  constructor
  · rintro ⟨hkeywords, hproperties, hitems, hall, hany, hnot⟩
    refine ⟨hkeywords, ⟨hproperties, hitems, fun l hl b hb => hall l b hl hb, fun l hl => ?_, hnot⟩⟩
    obtain ⟨b, hb, hvalid⟩ := hany l hl
    exact ⟨b, hb, hvalid⟩
  · rintro ⟨hkeywords, h⟩
    refine ⟨hkeywords, h.properties, h.items, fun l b hl hb => h.allOf l hl b hb, fun l hl => ?_, h.not⟩
    obtain ⟨b, hb, hvalid⟩ := h.anyOf l hl
    exact ⟨b, hb, hvalid⟩

/-- The empty schema limits nothing. -/
theorem valid_empty (v : Value) : Valid (.object []) v := by
  rw [valid_iff]
  have hget : ∀ key, (Value.object []).get key = none := fun _ => rfl
  constructor
  · constructor <;> simp [hget, TypeAllows, EnumAllows, BoundAllows]
  · constructor <;> simp [hget, declared, props, branches]

end KrabkaRegistry.Format.Json
