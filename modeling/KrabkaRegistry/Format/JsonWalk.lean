import KrabkaRegistry.Format.JsonVerdict

/-!
# The Walk of a JSON Schema Comparison

What a comparison calls: the subschemas that lie inside the two schemas, the targets of their
`$ref`s, and the branches of their combinators, which start a walk of their own.

- `judge_plain_true`, `judge_plain_isSome`: a comparison by the comparisons it calls;
- `recurse_inside`: a step of the walk goes inwards on both sides.
-/

namespace KrabkaRegistry.Format.Json

variable (L : DiffLibs)

/-! ## Steps of one comparison -/

/-- The steps of every keyword but the combinators. -/
def keywordSteps (orig upd : Value) : List Step :=
  compareType orig upd ++ compareEnum L orig upd ++ compareProperties L orig upd ++
    compareRequired orig upd ++ compareAdditionalProperties orig upd ++
    compareNumeric orig upd ++ compareStringConstraints orig upd ++
    compareArrayConstraints orig upd ++ compareObjectSize orig upd ++
    compareDependencies orig upd ++ compareConditionals L orig upd

/-- The steps of a comparison are those of the keywords and those of the combinators. Their order
does not matter to the verdict, so membership is all that is kept of it. -/
theorem mem_schemaSteps {f : Value → Value → Option Bool} {orig upd : Value} {steps : List Step}
    (h : schemaSteps L f orig upd = some steps) :
    ∃ combinators, compareCombinators f orig upd = some combinators ∧
      ∀ s, s ∈ steps ↔ s ∈ keywordSteps L orig upd ∨ s ∈ combinators := by
  unfold schemaSteps at h
  obtain ⟨combinators, hc, hsteps⟩ := Option.bind_eq_some_iff.mp h
  refine ⟨combinators, hc, fun s => ?_⟩
  obtain rfl := Option.some.inj hsteps
  -- The combinators stand before the last two keywords.
  simp only [keywordSteps, List.mem_append]
  rw [or_right_comm (b := s ∈ combinators), or_right_comm (b := s ∈ combinators)]

/-- Only a combinator can leave the steps undecided, since only it asks for verdicts while the steps
are built. -/
theorem schemaSteps_isSome {f : Value → Value → Option Bool} {orig upd : Value} :
    (schemaSteps L f orig upd).isSome ↔ (compareCombinators f orig upd).isSome := by
  unfold schemaSteps
  cases compareCombinators f orig upd <;> simp

/-- Steps that compare nothing below. -/
def OnlyReports (steps : List Step) : Prop := ∀ s ∈ steps, ∃ kind suffix, s = .report kind suffix

namespace OnlyReports

/-- No step, no recursion. -/
theorem nil : OnlyReports [] := by simp [OnlyReports]

/-- A single report. -/
theorem one (kind : Kind) (suffix : String) : OnlyReports [.report kind suffix] := by
  intro s hs
  exact ⟨kind, suffix, List.mem_singleton.mp hs⟩

/-- Reports followed by reports. -/
theorem append {a b : List Step} (ha : OnlyReports a) (hb : OnlyReports b) :
    OnlyReports (a ++ b) := by
  intro s hs
  exact (List.mem_append.mp hs).elim (ha s) (hb s)

/-- Reports end whatever the comparisons below do. -/
theorem ends {steps : List Step} (h : OnlyReports steps) (f : Value → Value → Option Bool) :
    ∀ s ∈ steps, s.Ends f := by
  intro s hs
  obtain ⟨kind, suffix, rfl⟩ := h s hs
  trivial

/-- So a list of reports is accepted or rejected independently of the comparisons below. -/
theorem ok_iff {steps : List Step} (h : OnlyReports steps) (f g : Value → Value → Option Bool) :
    (∀ s ∈ steps, s.Ok f) ↔ ∀ s ∈ steps, s.Ok g := by
  refine forall₂_congr fun s hs => ?_
  obtain ⟨kind, suffix, rfl⟩ := h s hs
  exact Iff.rfl

end OnlyReports

/-- Matching branches reports how the two lists relate; the comparisons of the branches are asked
for before. -/
theorem compareBranches_onlyReports {f : Value → Value → Option Bool} {old new : List Value}
    {suffix : String} {extended narrowed : Kind} {steps : List Step}
    (h : compareBranches f old new suffix extended narrowed = some steps) : OnlyReports steps := by
  unfold compareBranches at h
  obtain ⟨matched, _, h⟩ := Option.bind_eq_some_iff.mp h
  split_ifs at h <;> obtain rfl := Option.some.inj h
  · exact .one _ _
  · exact .one _ _
  · exact .one _ _
  · exact .nil

/-- The steps of `allOf` are reports. -/
theorem compareAllOf_onlyReports {f : Value → Value → Option Bool} {orig upd : Value}
    {steps : List Step} (h : compareAllOf f orig upd = some steps) : OnlyReports steps := by
  unfold compareAllOf at h
  split at h
  · split_ifs at h
    · exact compareBranches_onlyReports h
    · obtain rfl := Option.some.inj h
      exact .nil
  · obtain rfl := Option.some.inj h
    exact .one _ _
  · obtain rfl := Option.some.inj h
    exact .one _ _
  · obtain rfl := Option.some.inj h
    exact .nil

/-- The steps of `anyOf` and `oneOf` are reports. -/
theorem compareSum_onlyReports {f : Value → Value → Option Bool} {orig upd : Value}
    {steps : List Step} (h : compareSum f orig upd = some steps) : OnlyReports steps := by
  unfold compareSum at h
  split at h
  · split_ifs at h
    · obtain rfl := Option.some.inj h
      exact .one _ _
    · obtain rfl := Option.some.inj h
      exact .one _ _
    · exact compareBranches_onlyReports h
    · obtain rfl := Option.some.inj h
      exact .nil
  · obtain ⟨found, _, h⟩ := Option.bind_eq_some_iff.mp h
    obtain rfl := Option.some.inj h
    exact .one _ _
  · obtain ⟨found, _, h⟩ := Option.bind_eq_some_iff.mp h
    obtain rfl := Option.some.inj h
    exact .one _ _
  · obtain rfl := Option.some.inj h
    exact .nil

/-- The step of `not` is a report. -/
theorem compareNot_onlyReports {f : Value → Value → Option Bool} {orig upd : Value}
    {steps : List Step} (h : compareNot f orig upd = some steps) : OnlyReports steps := by
  unfold compareNot at h
  split at h
  · split_ifs at h
    · obtain ⟨found, _, h⟩ := Option.bind_eq_some_iff.mp h
      obtain rfl := Option.some.inj h
      exact .one _ _
    · obtain rfl := Option.some.inj h
      exact .nil
  · obtain rfl := Option.some.inj h
    exact .one _ _
  · obtain rfl := Option.some.inj h
    exact .one _ _
  · obtain rfl := Option.some.inj h
    exact .nil

/-- The combinators are decided together: if one of the three is undecided, so are all. -/
theorem compareCombinators_some {f : Value → Value → Option Bool} {orig upd : Value}
    {steps : List Step} (h : compareCombinators f orig upd = some steps) :
    ∃ products sums negations, compareAllOf f orig upd = some products ∧
      compareSum f orig upd = some sums ∧ compareNot f orig upd = some negations ∧
      steps = products ++ sums ++ negations := by
  unfold compareCombinators at h
  obtain ⟨products, hp, h⟩ := Option.bind_eq_some_iff.mp h
  obtain ⟨sums, hs, h⟩ := Option.bind_eq_some_iff.mp h
  obtain ⟨negations, hn, h⟩ := Option.bind_eq_some_iff.mp h
  exact ⟨products, sums, negations, hp, hs, hn, (Option.some.inj h).symm⟩

/-- Hence the combinators add no recursive step to the walk. -/
theorem compareCombinators_onlyReports {f : Value → Value → Option Bool} {orig upd : Value}
    {steps : List Step} (h : compareCombinators f orig upd = some steps) : OnlyReports steps := by
  obtain ⟨products, sums, negations, hp, hs, hn, rfl⟩ := compareCombinators_some h
  exact ((compareAllOf_onlyReports hp).append (compareSum_onlyReports hs)).append
    (compareNot_onlyReports hn)

/-! ## The verdict by its calls -/

section Verdict

variable {L} {ctx ctx' : Ctx} {orig upd o u : Value} {suffix : String}

/-- Neither schema is a reference. -/
def NoRefs (orig upd : Value) : Prop := refOf orig = none ∧ refOf upd = none

/-- Two schemas without a usable `$ref` are compared as they stand. -/
theorem compareRefs_plain (h : NoRefs orig upd) : compareRefs ctx orig upd = .noRefs := by
  unfold compareRefs
  rw [h.1, h.2]

/-- And they are compared as they stand only then. -/
theorem plain_of_noRefs (h : compareRefs ctx orig upd = .noRefs) : NoRefs orig upd := by
  unfold compareRefs at h
  split at h
  · exact ⟨‹_›, ‹_›⟩
  · simp only at h
    split_ifs at h
    split at h <;> cases h

/-- The contrapositive, in the form the reference cases need. -/
theorem not_plain (h : compareRefs ctx orig upd ≠ .noRefs) : ¬ NoRefs orig upd :=
  fun hplain => h (compareRefs_plain hplain)

/-- One comparison without references: the steps are built with a fresh context for the branches,
then checked with the context of the walk. -/
theorem judge_plain (f : Comparison → Option Bool) (h : NoRefs orig upd) :
    judge L f ⟨ctx, orig, upd⟩ = (schemaSteps L (fun o u => f ⟨ctx.fresh, o, u⟩) orig upd).bind
      (checkSteps fun o u => f ⟨ctx, o, u⟩) := by
  rw [judge, compareRefs_plain h]

/-- Two schemas are compatible when their combinators are and every step of the other keywords
is. -/
theorem judge_plain_true {f : Comparison → Option Bool} (h : NoRefs orig upd) :
    judge L f ⟨ctx, orig, upd⟩ = some true ↔
      (∃ combinators, compareCombinators (fun o u => f ⟨ctx.fresh, o, u⟩) orig upd =
        some combinators ∧ ∀ s ∈ combinators, s.Ok fun o u => f ⟨ctx, o, u⟩) ∧
      ∀ s ∈ keywordSteps L orig upd, s.Ok fun o u => f ⟨ctx, o, u⟩ := by
  rw [judge_plain f h, Option.bind_eq_some_iff]
  constructor
  · rintro ⟨steps, hsteps, hok⟩
    rw [checkSteps_eq_true] at hok
    obtain ⟨combinators, hc, hmem⟩ := mem_schemaSteps L hsteps
    exact ⟨⟨combinators, hc, fun s hs => hok s ((hmem s).mpr (.inr hs))⟩,
      fun s hs => hok s ((hmem s).mpr (.inl hs))⟩
  · rintro ⟨⟨combinators, hc, hcok⟩, hok⟩
    have hsome : (schemaSteps L (fun o u => f ⟨ctx.fresh, o, u⟩) orig upd).isSome := by
      rw [schemaSteps_isSome, hc]
      rfl
    obtain ⟨steps, hsteps⟩ := Option.isSome_iff_exists.mp hsome
    refine ⟨steps, hsteps, checkSteps_eq_true.mpr fun s hs => ?_⟩
    obtain ⟨combinators', hc', hmem⟩ := mem_schemaSteps L hsteps
    obtain rfl : combinators = combinators' := Option.some.inj (hc.symm.trans hc')
    exact ((hmem s).mp hs).elim (hok s) (hcok s)

/-- Such a comparison ends when its branches end and every step of its keywords does. -/
theorem judge_plain_isSome {f : Comparison → Option Bool} (h : NoRefs orig upd) :
    (judge L f ⟨ctx, orig, upd⟩).isSome ↔
      (compareCombinators (fun o u => f ⟨ctx.fresh, o, u⟩) orig upd).isSome ∧
      ∀ s ∈ keywordSteps L orig upd, s.Ends fun o u => f ⟨ctx, o, u⟩ := by
  rw [judge_plain f h, ← schemaSteps_isSome L]
  cases hsteps : schemaSteps L (fun o u => f ⟨ctx.fresh, o, u⟩) orig upd with
  | none => simp
  | some steps =>
    obtain ⟨combinators, hc, hmem⟩ := mem_schemaSteps L hsteps
    simp only [Option.bind_some, checkSteps_isSome, Option.isSome_some, true_and]
    constructor
    · exact fun hends s hs => hends s ((hmem s).mpr (.inl hs))
    · intro hends s hs
      exact ((hmem s).mp hs).elim (hends s) (compareCombinators_onlyReports hc |>.ends _ s)

end Verdict

/-! ## Recursion goes inwards -/

/-- `a` lies strictly inside `v`. -/
structure Inside (a v : Value) : Prop where
  sub : Value.Sub a v
  size : sizeOf a < sizeOf v

/-- The value under a keyword lies inside the schema. -/
theorem Inside.of_get {v x : Value} {key : String} (h : v.get key = some x) : Inside x v :=
  ⟨Value.sub_of_get h, Value.sizeOf_get h⟩

/-- So does a member of an object inside it. -/
theorem Inside.member {v x : Value} {members : List (String × Value)} {m : String × Value}
    (hx : x.asObject = some members) (hm : m ∈ members) (h : Inside x v) : Inside m.2 v := by
  obtain rfl : x = .object members := by
    cases x with
    | object ms => simpa [Value.asObject] using hx
    | _ => simp [Value.asObject] at hx
  exact ⟨(Value.Sub.member hm .refl).trans h.sub, (Value.sizeOf_member hm).trans h.size⟩

/-- So does an item of an array inside it. -/
theorem Inside.item {v x : Value} {items : List Value} {y : Value}
    (hx : x.asArray = some items) (hy : y ∈ items) (h : Inside x v) : Inside y v := by
  obtain rfl : x = .array items := by
    cases x with
    | array vs => simpa [Value.asArray] using hx
    | _ => simp [Value.asArray] at hx
  exact ⟨(Value.Sub.item hy .refl).trans h.sub, (Value.sizeOf_item hy).trans h.size⟩

/-- The members of an object that stands under a keyword. -/
theorem inside_of_keyword {v : Value} {key : String} {m : String × Value}
    (h : m ∈ ((v.get key).bind Value.asObject).getD []) : Inside m.2 v := by
  cases hg : v.get key with
  | none => simp [hg] at h
  | some x =>
    cases ho : x.asObject with
    | none => simp [hg, ho] at h
    | some members =>
      exact (Inside.of_get hg).member ho (by simpa [hg, ho] using h)

/-- A declared property lies inside its schema. -/
theorem inside_of_declared {v : Value} {m : String × Value} (h : m ∈ declared v) : Inside m.2 v :=
  inside_of_keyword h

/-- A branch of a combinator lies inside its schema. -/
theorem inside_of_branches {v b : Value} {key : String} {items : List Value}
    (h : branches v key = some items) (hb : b ∈ items) : Inside b v := by
  obtain ⟨x, hx, ha⟩ := Option.bind_eq_some_iff.mp h
  exact (Inside.of_get hx).item ha hb

/-- What covers an undeclared property lies inside the schema, be it a pattern's schema or the one
for the rest. -/
theorem inside_of_covering {v a : Value} {property : String}
    (h : a ∈ coveringSchemas L v property) : Inside a v := by
  unfold coveringSchemas at h
  rcases List.mem_append.mp h with hadd | hpat
  · unfold contentModel at hadd
    split at hadd
    · rename_i schema hmodel
      split at hmodel <;> try cases hmodel
      · rename_i members hget
        obtain rfl := List.mem_singleton.mp hadd
        exact Inside.of_get hget
      · split_ifs at hmodel
    · simp at hadd
  · obtain ⟨m, hm, rfl⟩ := List.mem_map.mp hpat
    exact inside_of_keyword (List.mem_of_mem_filter hm)

/-- Each comparison among the steps is of schemas inside the two. -/
def Inwards (orig upd : Value) (steps : List Step) : Prop :=
  ∀ suffix a b, .recurse suffix a b ∈ steps → Inside a orig ∧ Inside b upd

namespace Inwards

variable {orig upd : Value}

/-- Reports go nowhere. -/
theorem of_onlyReports {steps : List Step} (h : OnlyReports steps) : Inwards orig upd steps := by
  intro suffix a b hmem
  obtain ⟨kind, suffix', heq⟩ := h _ hmem
  cases heq

/-- Going inwards is checked keyword by keyword. -/
theorem append {s t : List Step} (hs : Inwards orig upd s) (ht : Inwards orig upd t) :
    Inwards orig upd (s ++ t) := fun suffix a b hmem =>
  (List.mem_append.mp hmem).elim (hs suffix a b) (ht suffix a b)

/-- A recursion on two inner values goes inwards. -/
theorem one {suffix : String} {a b : Value} (ha : Inside a orig) (hb : Inside b upd) :
    Inwards orig upd [.recurse suffix a b] := by
  intro suffix' a' b' hmem
  cases List.mem_singleton.mp hmem
  exact ⟨ha, hb⟩

/-- A loop whose body goes inwards does. -/
theorem flatMap {ι : Type} {l : List ι} {f : ι → List Step}
    (h : ∀ i ∈ l, Inwards orig upd (f i)) : Inwards orig upd (l.flatMap f) := by
  intro suffix a b hmem
  obtain ⟨i, hi, hstep⟩ := List.mem_flatMap.mp hmem
  exact h i hi suffix a b hstep

end Inwards

/-- `type` compares no subschema. -/
theorem compareType_onlyReports (orig upd : Value) : OnlyReports (compareType orig upd) := by
  unfold compareType
  simp only
  split_ifs
  · exact .nil
  all_goals exact .one _ _

/-- `enum` compares no subschema. -/
theorem compareEnum_onlyReports (orig upd : Value) : OnlyReports (compareEnum L orig upd) := by
  unfold compareEnum
  simp only
  split_ifs
  · exact .nil
  · split
    · split_ifs <;> exact .one _ _
    · exact .one _ _
    · exact .one _ _
    · exact .nil

/-- `required` looks at names and defaults, and compares no subschema. -/
theorem compareRequired_onlyReports (orig upd : Value) :
    OnlyReports (compareRequired orig upd) := by
  apply OnlyReports.append
  · intro s hs
    obtain ⟨name, _, rfl⟩ := List.mem_map.mp hs
    split_ifs
    · exact ⟨_, _, rfl⟩
    · exact ⟨_, _, rfl⟩
  · intro s hs
    obtain ⟨name, _, rfl⟩ := List.mem_map.mp hs
    exact ⟨_, _, rfl⟩

/-- A bound compares two numbers. -/
theorem compareBound_onlyReports (orig upd : Value) (key : String)
    (kinds : Kind × Kind × Kind × Kind) : OnlyReports (compareBound orig upd key kinds) := by
  unfold compareBound
  split
  · exact .one _ _
  · exact .one _ _
  · split_ifs
    · exact .one _ _
    · exact .one _ _
    · exact .nil
  · exact .nil

/-- `multipleOf` compares two numbers. -/
theorem compareMultipleOf_onlyReports (orig upd : Value) :
    OnlyReports (compareMultipleOf orig upd) := by
  unfold compareMultipleOf
  split
  · exact .one _ _
  · exact .one _ _
  · split_ifs
    · exact .one _ _
    · exact .one _ _
    · exact .one _ _
    · exact .nil
  · exact .nil

/-- `pattern` compares two strings. -/
theorem comparePattern_onlyReports (orig upd : Value) :
    OnlyReports (comparePattern orig upd) := by
  unfold comparePattern
  split
  · exact .one _ _
  · exact .one _ _
  · split_ifs
    · exact .one _ _
    · exact .nil
  · exact .nil

/-- `uniqueItems` compares two booleans. -/
theorem compareUniqueItems_onlyReports (orig upd : Value) :
    OnlyReports (compareUniqueItems orig upd) := by
  unfold compareUniqueItems
  split
  · exact .one _ _
  · exact .one _ _
  · exact .nil

/-- The numeric constraints compare no subschema. -/
theorem compareNumeric_onlyReports (orig upd : Value) :
    OnlyReports (compareNumeric orig upd) := by
  unfold compareNumeric
  apply OnlyReports.append _ (compareMultipleOf_onlyReports _ _)
  repeat' apply OnlyReports.append
  all_goals apply compareBound_onlyReports

/-- The string constraints compare no subschema. -/
theorem compareStringConstraints_onlyReports (orig upd : Value) :
    OnlyReports (compareStringConstraints orig upd) := by
  apply OnlyReports.append _ (comparePattern_onlyReports _ _)
  apply OnlyReports.append <;> apply compareBound_onlyReports

/-- The object sizes compare no subschema. -/
theorem compareObjectSize_onlyReports (orig upd : Value) :
    OnlyReports (compareObjectSize orig upd) := by
  apply OnlyReports.append <;> apply compareBound_onlyReports

/-- A removed property is compared with what covers it in the update. -/
theorem removedProperty_inwards {orig upd : Value} {p : String × Value} (hp : p ∈ declared orig) :
    Inwards orig upd (removedProperty L upd p.1 p.2) := by
  have hcover : Inwards orig upd ((coveringSchemas L upd p.1).map fun allowed =>
      .recurse ("/properties/" ++ p.1) p.2 allowed) := by
    intro suffix a b hmem
    simp only [List.mem_map, Step.recurse.injEq] at hmem
    obtain ⟨allowed, hallowed, -, rfl, rfl⟩ := hmem
    exact ⟨inside_of_declared hp, inside_of_covering L hallowed⟩
  unfold removedProperty
  simp only
  split
  · exact .of_onlyReports (.one _ _)
  · exact .of_onlyReports (.one _ _)
  all_goals
    split_ifs
    · exact .of_onlyReports (.one _ _)
    · exact Inwards.append (.of_onlyReports (.one _ _)) hcover

/-- An added property is compared with what covers it in the original. -/
theorem receivedProperty_inwards {orig upd : Value} {p : String × Value} (hp : p ∈ declared upd) :
    Inwards orig upd (receivedProperty L orig p.1 p.2) := by
  have hcover : Inwards orig upd ((coveringSchemas L orig p.1).map fun allowed =>
      .recurse ("/properties/" ++ p.1) allowed p.2) := by
    intro suffix a b hmem
    simp only [List.mem_map, Step.recurse.injEq] at hmem
    obtain ⟨allowed, hallowed, -, rfl, rfl⟩ := hmem
    exact ⟨inside_of_covering L hallowed, inside_of_declared hp⟩
  unfold receivedProperty
  simp only
  split
  · split_ifs <;> exact .of_onlyReports (.one _ _)
  · exact .of_onlyReports (.one _ _)
  all_goals
    split_ifs
    · exact .of_onlyReports (.one _ _)
    · exact Inwards.append (.of_onlyReports (.one _ _)) hcover

/-- A property that both sides declare is compared with itself, one that only the update declares
with its cover in the original; all of these lie inside. -/
theorem addedProperty_inwards {orig upd : Value} {p : String × Value} (hp : p ∈ declared upd) :
    Inwards orig upd (addedProperty L orig upd p.1 p.2) := by
  unfold addedProperty
  simp only
  split_ifs
  · exact .of_onlyReports (.one _ _)
  · exact Inwards.append (.of_onlyReports (.one _ _)) (receivedProperty_inwards L hp)
  · exact Inwards.append (.of_onlyReports .nil) (receivedProperty_inwards L hp)

/-- Both loops over properties go inwards. -/
theorem compareProperties_inwards (orig upd : Value) :
    Inwards orig upd (compareProperties L orig upd) := by
  apply Inwards.append
  · refine Inwards.flatMap fun p hp => ?_
    split_ifs
    · exact .of_onlyReports .nil
    · exact removedProperty_inwards L hp
  · refine Inwards.flatMap fun p hp => ?_
    split
    · exact addedProperty_inwards L hp
    · rename_i oschema hlookup
      exact .one (inside_of_declared (Value.lookup_mem hlookup)) (inside_of_declared hp)

/-- The two schemas for further properties lie inside. -/
theorem compareAdditionalProperties_inwards (orig upd : Value) :
    Inwards orig upd (compareAdditionalProperties orig upd) := by
  unfold compareAdditionalProperties
  simp only
  split_ifs
  all_goals try exact .of_onlyReports (.one _ _)
  split
  · rename_i hoa hua
    split_ifs
    · exact .one (.of_get hoa) (.of_get hua)
    · exact .of_onlyReports .nil
  · exact .of_onlyReports .nil

/-- So do the two schemas for further items. -/
theorem compareAdditionalItems_inwards (orig upd : Value) :
    Inwards orig upd (compareAdditionalItems orig upd) := by
  unfold compareAdditionalItems
  simp only
  split_ifs
  all_goals try exact .of_onlyReports (.one _ _)
  split
  · rename_i hoa hua
    split_ifs
    · exact .one (.of_get hoa) (.of_get hua)
    · exact .of_onlyReports .nil
  · exact .of_onlyReports .nil

/-- Two schemas under `items`, or the pairs of two lists, lie inside. -/
theorem compareItems_inwards (orig upd : Value) : Inwards orig upd (compareItems orig upd) := by
  unfold compareItems
  split
  · rename_i oi ui hoi hui
    split_ifs
    · exact .one (.of_get hoi) (.of_get hui)
    · split
      · rename_i ois uis _
        apply Inwards.append
        · intro suffix a b hmem
          simp only [List.mem_map, Step.recurse.injEq] at hmem
          obtain ⟨p, hp, -, rfl, rfl⟩ := hmem
          -- The index only numbers the path, so it is dropped first.
          have hzip : p.1 ∈ ois.zip uis := List.fst_mem_of_mem_zipIdx hp
          obtain ⟨ho, hu⟩ := List.of_mem_zip (a := p.1.1) (b := p.1.2) hzip
          exact ⟨(Inside.of_get hoi).item rfl ho, (Inside.of_get hui).item rfl hu⟩
        · split_ifs
          · exact .of_onlyReports (.one _ _)
          · exact .of_onlyReports (.one _ _)
          · exact .of_onlyReports .nil
      · exact .of_onlyReports (.one _ _)
  · exact .of_onlyReports .nil

/-- Of the array constraints only the items recurse. -/
theorem compareArrayConstraints_inwards (orig upd : Value) :
    Inwards orig upd (compareArrayConstraints orig upd) := by
  unfold compareArrayConstraints
  apply Inwards.append _ (.of_onlyReports (compareUniqueItems_onlyReports _ _))
  apply Inwards.append _ (compareAdditionalItems_inwards _ _)
  apply Inwards.append _ (.of_onlyReports (compareBound_onlyReports _ _ _ _))
  apply Inwards.append _ (.of_onlyReports (compareBound_onlyReports _ _ _ _))
  exact compareItems_inwards orig upd

/-- A pair of schema dependencies lies inside; every other pair only reports. -/
theorem compareDependencies_inwards (orig upd : Value) :
    Inwards orig upd (compareDependencies orig upd) := by
  apply Inwards.append
  · refine Inwards.flatMap fun p hp => ?_
    -- A dependency without partner is reported; one with partner is compared by its shape.
    split
    · exact .of_onlyReports (.one _ _)
    · rename_i update hlookup
      have hnew : Inside update upd := inside_of_keyword (Value.lookup_mem hlookup)
      unfold compareDependency
      split
      · simp only
        split_ifs
        · exact .of_onlyReports (.one _ _)
        · exact .of_onlyReports (.one _ _)
        · exact .of_onlyReports (.one _ _)
        · exact .of_onlyReports .nil
      · split_ifs
        · exact .one (inside_of_keyword hp) hnew
        · exact .of_onlyReports (.one _ _)
        · exact .of_onlyReports .nil
      · split_ifs
        · exact .of_onlyReports (.one _ _)
        · exact .of_onlyReports .nil
  · refine Inwards.flatMap fun p hp => ?_
    split_ifs
    · exact .of_onlyReports .nil
    · exact .of_onlyReports (.one _ _)

/-- The two values of a conditional keyword lie inside. -/
theorem compareConditional_inwards (orig upd : Value) (keyword : String) :
    Inwards orig upd (compareConditional L orig upd keyword) := by
  unfold compareConditional
  split
  · rename_i ov uv hov huv
    split_ifs
    · intro suffix a b hmem
      simp only [List.mem_cons, reduceCtorEq, Step.recurse.injEq, List.not_mem_nil, or_false,
        false_or] at hmem
      obtain ⟨-, rfl, rfl⟩ := hmem
      exact ⟨.of_get hov, .of_get huv⟩
    · exact .of_onlyReports .nil
  · exact .of_onlyReports (.one _ _)
  · exact .of_onlyReports (.one _ _)
  · exact .of_onlyReports .nil

/-- All three conditional keywords go inwards. -/
theorem compareConditionals_inwards (orig upd : Value) :
    Inwards orig upd (compareConditionals L orig upd) := by
  unfold compareConditionals
  split_ifs
  · exact .of_onlyReports .nil
  · repeat' apply Inwards.append
    all_goals apply compareConditional_inwards

/-- A step of the walk goes inwards on both sides. -/
theorem recurse_inside {orig upd a b : Value} {suffix : String}
    (h : .recurse suffix a b ∈ keywordSteps L orig upd) : Inside a orig ∧ Inside b upd := by
  have hall : Inwards orig upd (keywordSteps L orig upd) := by
    unfold keywordSteps
    apply Inwards.append _ (compareConditionals_inwards L _ _)
    apply Inwards.append _ (compareDependencies_inwards _ _)
    apply Inwards.append _ (.of_onlyReports (compareObjectSize_onlyReports _ _))
    apply Inwards.append _ (compareArrayConstraints_inwards _ _)
    apply Inwards.append _ (.of_onlyReports (compareStringConstraints_onlyReports _ _))
    apply Inwards.append _ (.of_onlyReports (compareNumeric_onlyReports _ _))
    apply Inwards.append _ (compareAdditionalProperties_inwards _ _)
    apply Inwards.append _ (.of_onlyReports (compareRequired_onlyReports _ _))
    apply Inwards.append _ (compareProperties_inwards L _ _)
    apply Inwards.append (.of_onlyReports (compareType_onlyReports _ _))
    exact .of_onlyReports (compareEnum_onlyReports L _ _)
  exact hall suffix a b h

end KrabkaRegistry.Format.Json
