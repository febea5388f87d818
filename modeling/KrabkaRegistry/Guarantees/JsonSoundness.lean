import KrabkaRegistry.Format.JsonSound
import KrabkaRegistry.Guarantees.CanonicalForm

/-!
# Accepted JSON Schemas Read What Was Written

Where the check accepts a reader, every instance that is valid under the writer is valid under the
reader: for object schemas without references, patterns, elements and conditionals, at any
nesting.

- `accepted_reads_written`: soundness of the check on these schemas
- `long_strings_refused`: limits from `2 ^ 53` on are compared as doubles, which is why those of
  lengths and sizes have to be below
-/

namespace KrabkaRegistry.Guarantees

open KrabkaRegistry.Format.Json
open KrabkaRegistry.Library.Delimited
open KrabkaRegistry.Library.Related (map_eq_of_forall₂)
open KrabkaRegistry.Library.Binary64 (roundToDouble roundToDouble_first)

/-! ## Equal texts mean equal values -/

/-- Numbers that print alike are one number. -/
def NumbersMean (J : SerdeJson) : Prop :=
  ∀ m n : Number, J.numToString m = J.numToString n → m.value = n.value

/-- With distinct keys the order of the members does not matter to a lookup. -/
private theorem lookup_perm {ms ns : List (String × Value)} (hkeys : (ms.map Prod.fst).Nodup)
    (h : ms.Perm ns) (key : String) : ms.lookup key = ns.lookup key := by
  have hkeys' : (ns.map Prod.fst).Nodup := (h.map Prod.fst).nodup_iff.mp hkeys
  cases hm : ms.lookup key with
  | some x => exact (Value.lookup_of_mem hkeys' (h.mem_iff.mp (Value.lookup_mem hm))).symm
  | none =>
    cases hn : ns.lookup key with
    | none => rfl
    | some x =>
      rw [Value.lookup_of_mem hkeys (h.mem_iff.mpr (Value.lookup_mem hn))] at hm
      cases hm

/-- Members with the same keys and values of the same meanings. -/
private theorem memberMeanings_congr {ms mid : List (String × Value)}
    (hkeys : ms.map Prod.fst = mid.map Prod.fst)
    (hvalues : (ms.map Prod.snd).map Value.meaning = (mid.map Prod.snd).map Value.meaning) :
    memberMeanings ms = memberMeanings mid := by
  induction ms generalizing mid with
  | nil =>
    cases mid with
    | nil => rfl
    | cons m mid => exact absurd hkeys (by simp)
  | cons m ms ih =>
    cases mid with
    | nil => exact absurd hkeys (by simp)
    | cons m' mid =>
      obtain ⟨k, v⟩ := m
      obtain ⟨k', v'⟩ := m'
      simp only [List.map_cons, List.cons.injEq] at hkeys hvalues
      obtain ⟨rfl, hkeys⟩ := hkeys
      simp only [memberMeanings, hvalues.1, ih hkeys hvalues.2]

/-- Equality up to the order of members is equality of meanings. -/
theorem meaning_of_same {J : SerdeJson} (hnum : NumbersMean J) :
    ∀ {a b : Value}, a.Distinct → SameUpToOrder J a b → a.meaning = b.meaning
  | _, _, _, .null => rfl
  | _, _, _, .bool _ => rfl
  | _, _, _, .string _ => rfl
  | .number m, .number n, _, .number h => by
    simp only [Value.meaning, hnum m n h]
  | .array as, .array bs, hd, .array h => by
    have hitems := map_eq_of_forall₂ h fun a ha b hab =>
      meaning_of_same hnum (hd.sub (.item ha .refl)) hab
    simp only [Value.meaning, itemMeanings_eq, hitems]
  | .object ms, .object ns, hd, @SameUpToOrder.object _ _ mid _ hkeys hvalues hperm => by
    have hmeanings := map_eq_of_forall₂ hvalues fun v hv b hvb => by
      obtain ⟨m, hm, rfl⟩ := List.mem_map.mp hv
      exact meaning_of_same hnum (hd.sub (.member hm .refl)) hvb
    have hnodup : (mid.map Prod.fst).Nodup := by
      rw [← hkeys]
      exact hd ms .refl
    have hmid : memberMeanings ms = memberMeanings mid := memberMeanings_congr hkeys hmeanings
    have hns : memberMeanings mid = memberMeanings ns := by
      funext key
      rw [memberMeanings_eq, memberMeanings_eq, lookup_perm hnodup hperm]
    simp only [Value.meaning, hmid, hns]
termination_by a => sizeOf a
decreasing_by
  · exact Value.sizeOf_item ha
  · exact Value.sizeOf_member hm

/-! ## The schemas -/

/-- The keywords of the schemas that the result is about. -/
def fragmentKeywords : List String :=
  ["type", "enum", "properties", "required", "additionalProperties", "minimum", "maximum",
    "exclusiveMinimum", "exclusiveMaximum", "minLength", "maxLength", "minProperties",
    "maxProperties", "allOf", "anyOf", "not"]

/-- The keywords of one schema, without those of its subschemas. -/
structure FragmentKeywords (schema : Value) : Prop where
  keys : ∀ m ∈ membersOf schema, m.1 ∈ fragmentKeywords
  type : TypeNamed schema
  enum : ∀ xs, schema.get "enum" = some (.array xs) → ∀ x ∈ xs, x.Distinct
  additional : ∀ x, schema.get "additionalProperties" = some x → ∃ b, x = .bool b
  required : ∀ name ∈ requiredSet schema, ((declared schema).lookup name).isSome

/-- Object schemas of these keywords, at any nesting. -/
inductive InFragment (limits : Value → Prop) : Value → Prop where
  | schema {schema : Value} : schema.isObject → FragmentKeywords schema → limits schema →
      (∀ p ∈ declared schema, InFragment limits p.2) →
      (∀ l, branches schema "allOf" = some l → ∀ b ∈ l, InFragment limits b) →
      (∀ l, branches schema "anyOf" = some l → ∀ b ∈ l, InFragment limits b) →
      (∀ s, schema.get "not" = some s → InFragment limits s) → InFragment limits schema

/-- A keyword outside the fragment is absent. -/
theorem FragmentKeywords.get_eq_none {schema : Value} (h : FragmentKeywords schema) {key : String}
    (hkey : key ∉ fragmentKeywords) : schema.get key = none := by
  cases hget : schema.get key with
  | none => rfl
  | some x =>
    obtain ⟨members, rfl, hlookup⟩ := Value.get_eq_some hget
    exact absurd (h.keys (key, x) (Value.lookup_mem hlookup)) hkey

/-- A schema of the fragment has keywords of the fragment only. -/
theorem InFragment.keywords {limits : Value → Prop} {schema : Value}
    (h : InFragment limits schema) : FragmentKeywords schema := by
  cases h
  assumption

/-- A schema of the fragment meets the condition on its limits. -/
theorem InFragment.limits {limits : Value → Prop} {schema : Value}
    (h : InFragment limits schema) : limits schema := by
  cases h
  assumption

section Subschemas

variable {limits : Value → Prop} {schema : Value}

/-- The schemas of the properties are in the fragment. -/
theorem InFragment.property (h : InFragment limits schema) {p : String × Value}
    (hp : p ∈ declared schema) : InFragment limits p.2 := by
  cases h with
  | schema _ _ _ hproperties _ _ _ => exact hproperties p hp

/-- The branches of `allOf` are in the fragment. -/
theorem InFragment.allOf (h : InFragment limits schema) {l : List Value} {b : Value}
    (hl : branches schema "allOf" = some l) (hb : b ∈ l) : InFragment limits b := by
  cases h with
  | schema _ _ _ _ hall _ _ => exact hall l hl b hb

/-- The branches of `anyOf` are in the fragment. -/
theorem InFragment.anyOf (h : InFragment limits schema) {l : List Value} {b : Value}
    (hl : branches schema "anyOf" = some l) (hb : b ∈ l) : InFragment limits b := by
  cases h with
  | schema _ _ _ _ _ hany _ => exact hany l hl b hb

/-- The schema under `not` is in the fragment. -/
theorem InFragment.not (h : InFragment limits schema) {s : Value}
    (hs : schema.get "not" = some s) : InFragment limits s := by
  cases h with
  | schema _ _ _ _ _ _ hnot => exact hnot s hs

end Subschemas

/-- In the fragment the content model is open or closed, there being no patterns and no schema for
the rest. -/
theorem InFragment.plain {limits : Value → Prop} {schema : Value} (h : InFragment limits schema) :
    PlainObject schema where
  additional := h.keywords.additional
  patterns := h.keywords.get_eq_none (by decide)
  required := h.keywords.required
  noDefault p hp := (h.property hp).keywords.get_eq_none (by decide)

/-! ## Soundness -/

section Sound

variable {L : DiffLibs} (hJ : PrintsTokens L.serdeJson) (hnum : NumbersMean L.serdeJson)
include hJ hnum

/-- Texts that are compared for equality are equal only if the values are. -/
theorem textsMean {o u : Value} (ho : FragmentKeywords o) : TextsMean L o u :=
  fun xs _ hxs _ x hx _ _ htext =>
    meaning_of_same hnum (ho.enum xs hxs x hx) (same_of_canonicalize hJ htext)

/-- The keywords of one schema, where the comparison reports nothing incompatible. -/
theorem keywords_sound {f : Value → Value → Option Bool} {o u v : Value}
    (ho : InFragment SmallLimits o) (hu : InFragment SmallLimits u)
    (hok : ∀ s ∈ keywordSteps L o u, s.Ok f) (h : KeywordsAllow o v) : KeywordsAllow u v := by
  -- Each keyword is sound by the steps it contributes.
  have hproperties : ∀ s ∈ compareProperties L o u, s.Ok f := fun s hs =>
    hok s (by simp [keywordSteps, hs])
  have hadditional : ∀ s ∈ compareAdditionalProperties o u, s.Ok f := fun s hs =>
    hok s (by simp [keywordSteps, hs])
  constructor
  · exact type_sound ho.keywords.type hu.keywords.type
      (fun s hs => hok s (by simp [keywordSteps, hs])) h.type
  · exact enum_sound (ho.keywords.get_eq_none (by decide)) (hu.keywords.get_eq_none (by decide))
      (textsMean hJ hnum ho.keywords) (fun s hs => hok s (by simp [keywordSteps, hs])) h.enum
  · intro b hb
    obtain ⟨kinds, hkinds, hsteps⟩ := exists_kinds L o u b hb
    exact bound_sound hb hkinds ho.limits.integer hu.limits.integer
      (limitsOrdered_of_small ho.limits hu.limits) (fun s hs => hok s (hsteps s hs)) (h.bound b hb)
  · exact unique_sound (fun s hs => hok s (by simp [keywordSteps, compareArrayConstraints, hs]))
      h.unique
  · intro names name hnames hname hv
    have hsub := required_sound hu.plain hproperties fun s hs =>
      hok s (by simp [keywordSteps, hs])
    obtain ⟨onames, honames, honame⟩ :=
      mem_requiredSet.mp (hsub (mem_requiredSet.mpr ⟨names, hnames, hname⟩))
    exact h.required onames name honames honame hv
  · intro hclosed m hm
    obtain ⟨horig, hdeclared⟩ := additional_sound hu.plain hproperties hadditional hclosed
    exact hdeclared m.1 (h.additional horig m hm)

omit hJ hnum in
/-- The fragment has no references, so schemas are compared as they stand. -/
theorem InFragment.noRefs {limits : Value → Prop} {o u : Value} (ho : InFragment limits o)
    (hu : InFragment limits u) : NoRefs o u := by
  have href : ∀ {w : Value}, InFragment limits w → refOf w = none := by
    intro w hw
    rw [refOf, hw.keywords.get_eq_none (by decide)]
    rfl
  exact ⟨href ho, href hu⟩

/-- Every instance of an accepted writer is one of the reader.  The induction is on the sizes of
both schemas, since the sides are swapped below `not`. -/
theorem fragment_sound {o u : Value} (ho : InFragment SmallLimits o)
    (hu : InFragment SmallLimits u) (ctx : Ctx) (h : verdict L ⟨ctx, o, u⟩ = some true) (v : Value)
    (hv : Valid o v) : Valid u v := by
  rw [verdict_eq, judge_plain_true (ho.noRefs hu)] at h
  obtain ⟨⟨combinators, hcombinators, hcok⟩, hok⟩ := h
  obtain ⟨products, sums, negations, hproducts, hsums, hnegations, rfl⟩ :=
    compareCombinators_some hcombinators
  -- Validity is the keywords at this level and validity of the parts.
  obtain ⟨hkeywords, hsub⟩ := valid_iff.mp hv
  have hone : branches o "oneOf" = none := by
    rw [branches, ho.keywords.get_eq_none (by decide)]
    rfl
  have hitems : u.get "items" = none := hu.keywords.get_eq_none (by decide)
  refine valid_iff.mpr ⟨keywords_sound hJ hnum ho hu hok hkeywords, ?_, ?_, ?_, ?_, ?_⟩
  · intro p hp x hx
    have hproperties : ∀ s ∈ compareProperties L o u, s.Ok fun o u => verdict L ⟨ctx, o, u⟩ :=
      fun s hs => hok s (by simp [keywordSteps, hs])
    rcases property_cases ho.plain hproperties hp with
      ⟨oschema, hlookup, htrue⟩ | ⟨hlookup, hempty | hclosed⟩
    · have hmem : (p.1, oschema) ∈ declared o := Value.lookup_mem hlookup
      exact fragment_sound (ho.property hmem) (hu.property hp) ctx htrue x
        (hsub.properties _ hmem x hx)
    · rw [hempty]
      exact valid_empty x
    · -- An instance of a closed schema has declared properties only.
      obtain ⟨members, rfl, hmember⟩ := Value.get_eq_some hx
      have hdeclared := hkeywords.additional hclosed (p.1, x) (Value.lookup_mem hmember)
      rw [hlookup] at hdeclared
      exact absurd hdeclared (by simp)
  · intro items hget
    rw [hitems] at hget
    exact absurd hget (by simp)
  -- `allOf`: every new branch is implied by an old one.
  · intro new hnew b hb
    obtain ⟨old, hold, heq | hall⟩ := allOf_cases hproducts
      (fun s hs => hcok s (by simp [hs])) hnew
    · exact hsub.allOf old hold b (heq ▸ hb)
    · obtain ⟨a, ha, htrue⟩ := hall b hb
      exact fragment_sound (ho.allOf hold ha) (hu.allOf hnew hb) ctx.fresh htrue v
        (hsub.allOf old hold a ha)
  -- `anyOf`: a branch that holds is followed by a new one that does.
  · intro new hnew
    rcases anyOf_cases hone hsums (fun s hs => hcok s (by simp [hs])) hnew with
      ⟨old, hold, heq | hall⟩ | ⟨b, hb, htrue⟩
    · exact heq ▸ hsub.anyOf old hold
    · obtain ⟨a, ha, hvalid⟩ := hsub.anyOf old hold
      obtain ⟨b, hb, htrue⟩ := hall a ha
      exact ⟨b, hb, fragment_sound (ho.anyOf hold ha) (hu.anyOf hnew hb) ctx.fresh htrue v
        hvalid⟩
    · exact ⟨b, hb, fragment_sound ho (hu.anyOf hnew hb) ctx.fresh htrue v hv⟩
  -- `not`: here the sides change places, and the induction is used the other way.
  · intro new hnew hvalid
    obtain ⟨old, hold, heq | htrue⟩ := not_cases hnegations (fun s hs => hcok s (by simp [hs])) hnew
    · exact hsub.not old hold (heq ▸ hvalid)
    · exact hsub.not old hold
        (fragment_sound (hu.not hnew) (ho.not hold) ctx.fresh htrue v hvalid)
termination_by sizeOf o + sizeOf u
decreasing_by
  · exact Nat.add_lt_add (sizeOf_declared hmem) (sizeOf_declared hp)
  · exact Nat.add_lt_add (sizeOf_branches hold ha) (sizeOf_branches hnew hb)
  · exact Nat.add_lt_add (sizeOf_branches hold ha) (sizeOf_branches hnew hb)
  · exact Nat.add_lt_add_left (sizeOf_branches hnew hb) _
  · have hsizes := Nat.add_lt_add (Value.sizeOf_get hnew) (Value.sizeOf_get hold)
    omega

end Sound

/-! ## A printer that tells numbers apart -/

/-- A fraction as two numerals with a dot between them. -/
def fractionText (q : ℚ) : String := toString q.num ++ "." ++ toString q.den

/-- A fraction is printed as numerator, dot and denominator. -/
theorem fractionText_toList (q : ℚ) :
    (fractionText q).toList = (toString q.num).toList ++ '.' :: (toString q.den).toList := by
  simp [fractionText]

/-- An integer has no dot in it. -/
private theorem dot_not_mem (n : ℤ) : '.' ∉ (toString n).toList := by
  intro h
  rcases toString_int_chars n h with hdigit | hsign
  · exact absurd hdigit (by decide)
  · exact absurd hsign (by decide)

/-- So the two parts can be read off again, and different fractions have different texts. -/
theorem fractionText_inj {q r : ℚ} (h : fractionText q = fractionText r) : q = r := by
  have hchars := congrArg String.toList h
  rw [fractionText_toList, fractionText_toList] at hchars
  obtain ⟨hnum, hden⟩ := @token_append Char (· = '.') _ _ _ _
    (fun c hc heq => dot_not_mem q.num (heq ▸ hc)) (fun c hc heq => dot_not_mem r.num (heq ▸ hc))
    (stops_cons rfl) (stops_cons rfl) hchars
  have hnum := toString_int_inj (String.toList_inj.mp hnum)
  have hden := toString_nat_inj (String.toList_inj.mp (List.cons.inj hden).2)
  exact Rat.ext hnum hden

/-- The characters are those of a JSON number. -/
theorem fractionText_chars (q : ℚ) : ∀ c ∈ (fractionText q).toList, isNumberChar c := by
  intro c hc
  rw [fractionText_toList, List.mem_append, List.mem_cons] at hc
  rcases hc with hc | rfl | hc
  · exact isNumberChar_int _ c hc
  · decide
  · exact isNumberChar_int q.den c hc

/-- `serde_json` on documents without floats. -/
def serdeFractions : SerdeJson :=
  { SerdeJson.compact with
    numToString
      | .int n => toString n
      | .float token => fractionText (Value.floatValue token)
    numToString_no_nul := by
      intro n h
      cases n with
      | int n => exact absurd (isNumberChar_int n _ h) (by decide)
      | float token => exact absurd (fractionText_chars _ _ h) (by decide) }

/-- A printer with these texts prints tokens that end where the number does. -/
theorem printsTokens_serdeFractions : PrintsTokens serdeFractions where
  number_ne_nil n := by
    cases n with
    | int n => exact toString_int_ne_nil n
    | float token =>
      rw [serdeFractions, fractionText_toList]
      simp
  number_chars n := by
    cases n with
    | int n => exact isNumberChar_int n
    | float token => exact fractionText_chars _
  string_quoted := printsTokens_serdeTokens.string_quoted
  string_injective := printsTokens_serdeTokens.string_injective

/-- Under it different numbers never look alike. -/
theorem numbersMean_serdeFractions : NumbersMean serdeFractions := by
  -- A fraction has a dot, and an integer has none.
  have hkinds : ∀ (n : ℤ) (q : ℚ), toString n ≠ fractionText q := by
    intro n q h
    apply dot_not_mem n
    rw [h, fractionText_toList]
    simp
  intro m n h
  cases m with
  | int m =>
    cases n with
    | int n => rw [toString_int_inj h]
    | float token => exact absurd h (hkinds m _)
  | float token =>
    cases n with
    | int n => exact absurd h.symm (hkinds n _)
    | float token' => exact fractionText_inj h

/-- The libraries of the comparison, on documents without floats. -/
def diffFractions : DiffLibs := { DiffLibs.compact with serdeJson := serdeFractions }

/-- Parsing with it is plain JSON reading. -/
theorem fractions_parses {text : String} {v : Value}
    (h : (readText text.toList).map asValue = some v) (hv : v.isObject || v.isBoolean) :
    Parses diffFractions text [] ⟨v, []⟩ :=
  parses_of_fromStr (L := diffFractions) (compact_fromStr h) hv

/-! ## Limits that are not doubles -/

/-- Limits of numbers are below `2 ^ 53`, and those of lengths and sizes are any integers. -/
def NumericLimitsSmall (schema : Value) : Prop :=
  ∀ b ∈ bounds, ∀ x, schema.get b.key = some x →
    ∃ (m : Number) (n : ℤ), x = .number m ∧ m.value = n ∧
      (b.key ∈ ["minimum", "maximum", "exclusiveMinimum", "exclusiveMaximum"] → |n| < 2 ^ 53)

/-- A schema that limits the length of strings only. -/
def atLeast (n : ℤ) : Value := .object [("minLength", .number (.int n))]

/-- `atLeast` sets one keyword. -/
theorem get_atLeast {n : ℤ} {key : String} (h : key ≠ "minLength") :
    (atLeast n).get key = none := by
  have hne : (key == "minLength") = false := by simpa using h
  simp [atLeast, List.lookup_cons, hne]

/-- A string is valid under it when it is long enough. -/
theorem valid_atLeast_iff {n : ℤ} {s : String} :
    Valid (atLeast n) (.string s) ↔ n ≤ s.length := by
  rw [valid_iff]
  constructor
  · rintro ⟨hkeywords, -⟩
    have hbound := hkeywords.bound ⟨"minLength", lengthOf, false, false⟩ (by simp [bounds])
    have hlimit : (n : ℚ) ≤ (s.length : ℚ) := hbound
    exact_mod_cast hlimit
  · intro h
    have hlimit : (n : ℚ) ≤ (s.length : ℚ) := by exact_mod_cast h
    refine ⟨⟨?_, ?_, ?_, ?_, ?_, ?_⟩, ⟨?_, ?_, ?_, ?_, ?_⟩⟩
    · simp [get_atLeast, TypeAllows]
    · simp [get_atLeast, EnumAllows]
    -- Of the bounds only `minLength` is there.
    · intro b hb
      by_cases hkey : b.key = "minLength"
      · obtain rfl : b = ⟨"minLength", lengthOf, false, false⟩ := by
          simp only [bounds, List.mem_cons, List.not_mem_nil, or_false] at hb
          rcases hb with rfl | rfl | rfl | rfl | rfl | rfl | rfl | rfl | rfl | rfl <;>
            first
              | rfl
              | exact absurd hkey (by decide)
        exact hlimit
      · simp [get_atLeast hkey, BoundAllows]
    · simp [get_atLeast]
    · simp [get_atLeast]
    · simp [get_atLeast]
    · simp [declared, props, get_atLeast]
    · simp [get_atLeast]
    · simp [branches, get_atLeast]
    · simp [branches, get_atLeast]
    · simp [get_atLeast]

/-- The rounded limits decide: no keyword but the one is there. -/
theorem atLeast_steps {L : DiffLibs} {m n : ℤ}
    (h : roundToDouble (m : ℚ) = roundToDouble (n : ℚ)) :
    keywordSteps L (atLeast m) (atLeast n) = [] := by
  have hm : num (atLeast m) "minLength" = some (roundToDouble m) := rfl
  have hn : num (atLeast n) "minLength" = some (roundToDouble n) := rfl
  have hbound : ∀ key kinds, compareBound (atLeast m) (atLeast n) key kinds = [] := by
    intro key kinds
    by_cases hkey : key = "minLength"
    · rw [hkey, compareBound, hm, hn, h]
      simp [differs, Library.Binary64.epsilon]
    · simp [compareBound, num, get_atLeast hkey]
  simp [keywordSteps, compareNumeric, compareStringConstraints, compareArrayConstraints,
    compareObjectSize, hbound, compareType, typesOf, compareEnum, enumSet, compareProperties,
    declared, props, compareRequired, requiredSet, compareAdditionalProperties, Format.Json.isFalse,
    isSchemaValued, compareMultipleOf, num, comparePattern, compareItems, compareAdditionalItems,
    compareUniqueItems, uniqueItems, compareDependencies, compareConditionals, hasConditional,
    get_atLeast]

/-- Two limits that are equal as doubles are not told apart. -/
theorem verdict_atLeast {L : DiffLibs} {m n : ℤ} (ctx : Ctx)
    (h : roundToDouble (m : ℚ) = roundToDouble (n : ℚ)) :
    verdict L ⟨ctx, atLeast m, atLeast n⟩ = some true := by
  have hrefs : NoRefs (atLeast m) (atLeast n) := by
    simp [NoRefs, refOf, get_atLeast]
  rw [verdict_eq, judge_plain_true hrefs, atLeast_steps h]
  refine ⟨⟨[], ?_, by simp⟩, by simp⟩
  simp [compareCombinators, compareAllOf, compareSum, compareNot, sumOf, branches, get_atLeast]

/-- It is in the fragment, whatever the limits have to meet. -/
theorem inFragment_atLeast {limits : Value → Prop} {n : ℤ} (h : limits (atLeast n)) :
    InFragment limits (atLeast n) := by
  have hdeclared : declared (atLeast n) = [] := by simp [declared, props, get_atLeast]
  refine .schema rfl ⟨?_, ?_, ?_, ?_, ?_⟩ h ?_ ?_ ?_ ?_
  · simp [membersOf, atLeast, Value.asObject, fragmentKeywords]
  · simp [TypeNamed, get_atLeast]
  · simp [get_atLeast]
  · simp [get_atLeast]
  · simp [requiredSet, get_atLeast]
  · simp [hdeclared]
  · simp [branches, get_atLeast]
  · simp [branches, get_atLeast]
  · simp [get_atLeast]

/-- The only limit is that of the length. -/
theorem limit_atLeast {n : ℤ} {b : Bound} {x : Value} (hx : (atLeast n).get b.key = some x) :
    b.key = "minLength" ∧ x = .number (.int n) := by
  by_cases hkey : b.key = "minLength"
  · rw [hkey] at hx
    exact ⟨hkey, (Option.some.inj hx).symm⟩
  · rw [get_atLeast hkey] at hx
    cases hx

/-- Below `2 ^ 53` the limit is exact as a double. -/
theorem smallLimits_atLeast {n : ℤ} (h : |n| < 2 ^ 53) : SmallLimits (atLeast n) := by
  intro b _ x hx
  exact ⟨.int n, n, (limit_atLeast hx).2, rfl, h⟩

/-- The numeric limits are absent, hence small. -/
theorem numericLimitsSmall_atLeast (n : ℤ) : NumericLimitsSmall (atLeast n) := by
  intro b _ x hx
  refine ⟨.int n, n, (limit_atLeast hx).2, rfl, fun hnumeric => ?_⟩
  rw [(limit_atLeast hx).1] at hnumeric
  exact absurd hnumeric (by decide)

/-! ## The result -/

/-- Where the check accepts a reader of these schemas, whatever is valid under the writer is valid
under the reader. -/
theorem accepted_reads_written {L : DiffLibs} (hJ : PrintsTokens L.serdeJson)
    (hnum : NumbersMean L.serdeJson) {reader writer : String}
    {readerRefs writerRefs : List ResolvedReference} {readerS writerS : JsonSchema}
    (hr : Parses L reader readerRefs readerS) (hw : Parses L writer writerRefs writerS)
    (hreader : InFragment SmallLimits readerS.value)
    (hwriter : InFragment SmallLimits writerS.value)
    (haccepts : Accepts L reader writer readerRefs writerRefs) :
    ∀ v, Valid writerS.value v → Valid readerS.value v := by
  rw [accepts_iff hr hw] at haccepts
  exact fragment_sound hJ hnum hwriter hreader _ haccepts

/-- A string of two characters is read where one is asked for. -/
theorem accepted_shorter_minimum :
    Valid (atLeast 2) (.string "ab") ∧ Valid (atLeast 1) (.string "ab") := by
  have hw : Parses diffFractions "\x7b\"minLength\":2\x7d" [] ⟨atLeast 2, []⟩ :=
    fractions_parses (by decide +kernel) rfl
  have hr : Parses diffFractions "\x7b\"minLength\":1\x7d" [] ⟨atLeast 1, []⟩ :=
    fractions_parses (by decide +kernel) rfl
  have hvalid : Valid (atLeast 2) (.string "ab") := valid_atLeast_iff.mpr (by decide)
  refine ⟨hvalid, accepted_reads_written printsTokens_serdeFractions numbersMean_serdeFractions hr hw
    (inFragment_atLeast (smallLimits_atLeast (by norm_num)))
    (inFragment_atLeast (smallLimits_atLeast (by norm_num))) ?_ _ hvalid⟩
  exact (accepts_iff hr hw).mpr (verdict_of_run 2 (by decide +kernel))

/-- A longer minimum that is the same double. -/
theorem long_strings_refused :
    PrintsTokens diffFractions.serdeJson ∧ NumbersMean diffFractions.serdeJson ∧
      Parses diffFractions "\x7b\"minLength\":9007199254740992\x7d" [] ⟨atLeast (2 ^ 53), []⟩ ∧
      Parses diffFractions "\x7b\"minLength\":9007199254740993\x7d" []
        ⟨atLeast (2 ^ 53 + 1), []⟩ ∧
      InFragment NumericLimitsSmall (atLeast (2 ^ 53)) ∧
      InFragment NumericLimitsSmall (atLeast (2 ^ 53 + 1)) ∧
      Accepts diffFractions "\x7b\"minLength\":9007199254740993\x7d"
        "\x7b\"minLength\":9007199254740992\x7d" [] [] ∧
      ∃ v, Valid (atLeast (2 ^ 53)) v ∧ ¬ Valid (atLeast (2 ^ 53 + 1)) v := by
  have hw : Parses diffFractions "\x7b\"minLength\":9007199254740992\x7d" []
      ⟨atLeast (2 ^ 53), []⟩ := fractions_parses (by decide +kernel) rfl
  have hr : Parses diffFractions "\x7b\"minLength\":9007199254740993\x7d" []
      ⟨atLeast (2 ^ 53 + 1), []⟩ := fractions_parses (by decide +kernel) rfl
  refine ⟨printsTokens_serdeFractions, numbersMean_serdeFractions, hw, hr,
    inFragment_atLeast (numericLimitsSmall_atLeast _),
    inFragment_atLeast (numericLimitsSmall_atLeast _),
    (accepts_iff hr hw).mpr (verdict_atLeast _ roundToDouble_first.symm),
    .string (String.ofList (List.replicate (2 ^ 53) 'a')), ?_, ?_⟩
  · rw [valid_atLeast_iff, String.length_ofList, List.length_replicate]
    norm_num
  · rw [valid_atLeast_iff, String.length_ofList, List.length_replicate]
    norm_num

end KrabkaRegistry.Guarantees
