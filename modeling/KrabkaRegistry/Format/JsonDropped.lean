import KrabkaRegistry.Format.JsonTermination

/-!
# Dropping Keywords

An update without any keyword.  Each keyword of the original is then dropped, which is
compatible except for combinators and conditionals, and nothing is compared below.
-/

namespace KrabkaRegistry.Format.Json

variable {L : DiffLibs} {w u : Value}

/-- None of the keywords that may not stand on one side only. -/
structure WithoutCombinators (w : Value) : Prop where
  allOf : branches w "allOf" = none
  sum : sumOf w = none
  not : w.get "not" = none
  conditionals : hasConditional w = false

/-- Compatible reports, and nothing to compare below. -/
def Harmless (steps : List Step) : Prop :=
  ∀ s ∈ steps, ∃ kind suffix, s = .report kind suffix ∧ isBackwardCompatible kind = true

namespace Harmless

theorem nil : Harmless [] := by simp [Harmless]

theorem one {kind : Kind} (suffix : String) (h : isBackwardCompatible kind = true) :
    Harmless [.report kind suffix] := by
  intro s hs
  exact ⟨kind, suffix, List.mem_singleton.mp hs, h⟩

theorem append {s t : List Step} (hs : Harmless s) (ht : Harmless t) : Harmless (s ++ t) := by
  intro x hx
  exact (List.mem_append.mp hx).elim (hs x) (ht x)

theorem flatMap {α : Type} {l : List α} {f : α → List Step} (h : ∀ a ∈ l, Harmless (f a)) :
    Harmless (l.flatMap f) := by
  intro x hx
  obtain ⟨a, ha, hx⟩ := List.mem_flatMap.mp hx
  exact h a ha x hx

end Harmless

section Dropped

variable (hu : ∀ key, u.get key = none)
include hu

theorem compareType_dropped : Harmless (compareType w u) := by
  have htypes : typesOf u = ∅ := by simp [typesOf, hu]
  unfold compareType
  simp only [htypes]
  split_ifs with h₁ h₂ h₃ h₄ h₅
  · exact .nil
  · exact .one _ rfl
  · simp at h₃
  · exact .one _ rfl
  · exact absurd ⟨trivial, h₁⟩ h₄
  · exact absurd ⟨trivial, h₁⟩ h₄
  · exact absurd ⟨trivial, h₁⟩ h₄

theorem compareEnum_dropped : Harmless (compareEnum L w u) := by
  have henum : enumSet L u = none := by simp [enumSet, hu]
  unfold compareEnum
  simp only [henum]
  cases enumSet L w with
  | none => exact .nil
  | some texts => exact .one _ rfl

theorem compareBound_dropped (key : String) {kinds : Kind × Kind × Kind × Kind}
    (h : isBackwardCompatible kinds.2.1 = true) : Harmless (compareBound w u key kinds) := by
  have hnum : num u key = none := by simp [num, hu]
  unfold compareBound
  rw [hnum]
  cases num w key with
  | none => exact .nil
  | some bound => exact .one _ h

theorem compareNumeric_dropped : Harmless (compareNumeric w u) := by
  have hmultiple : Harmless (compareMultipleOf w u) := by
    have hnum : num u "multipleOf" = none := by simp [num, hu]
    unfold compareMultipleOf
    rw [hnum]
    cases num w "multipleOf" with
    | none => exact .nil
    | some bound => exact .one _ rfl
  unfold compareNumeric
  apply Harmless.append _ hmultiple
  repeat' apply Harmless.append
  all_goals exact compareBound_dropped hu _ rfl

theorem compareStringConstraints_dropped : Harmless (compareStringConstraints w u) := by
  have hpattern : Harmless (comparePattern w u) := by
    unfold comparePattern
    rw [hu]
    cases (w.get "pattern").bind Value.asStr with
    | none => exact .nil
    | some pattern => exact .one _ rfl
  unfold compareStringConstraints
  apply Harmless.append _ hpattern
  apply Harmless.append
  all_goals exact compareBound_dropped hu _ rfl

theorem compareProperties_dropped : Harmless (compareProperties L w u) := by
  have hdeclared : declared u = [] := by simp [declared, props, hu]
  have hopen : contentModel u = .openContent := by simp [contentModel, hu]
  unfold compareProperties
  simp only [hdeclared]
  refine Harmless.append (.flatMap fun p _ => ?_) .nil
  simp only [List.lookup_nil, Option.isSome_none, Bool.false_eq_true, if_false, removedProperty,
    hopen]
  exact .one _ rfl

theorem compareRequired_dropped : Harmless (compareRequired w u) := by
  have hrequired : requiredSet u = ∅ := by simp [requiredSet, hu]
  unfold compareRequired
  simp only [hrequired]
  apply Harmless.append
  · simp [Harmless]
  · intro s hs
    obtain ⟨name, _, rfl⟩ := List.mem_map.mp hs
    exact ⟨_, _, rfl, rfl⟩

theorem compareAdditionalProperties_dropped : Harmless (compareAdditionalProperties w u) := by
  have hfalse : isFalse none = false := by simp [isFalse]
  have hschema : isSchemaValued none = false := rfl
  unfold compareAdditionalProperties
  simp only [hu, hfalse, hschema, Bool.false_eq_true, not_false_eq_true, and_true, and_false,
    if_false, Option.isNone_none, true_and]
  split_ifs
  · exact .one _ rfl
  · exact .one _ rfl
  · cases w.get "additionalProperties" <;> exact .nil

theorem compareArrayConstraints_dropped : Harmless (compareArrayConstraints w u) := by
  have hitems : compareItems w u = [] := by
    unfold compareItems
    rw [hu]
    cases w.get "items" <;> rfl
  have hadditional : Harmless (compareAdditionalItems w u) := by
    have hfalse : isFalse none = false := by simp [isFalse]
    have hschema : isSchemaValued none = false := rfl
    unfold compareAdditionalItems
    simp only [hu, hfalse, hschema, Bool.false_eq_true, not_false_eq_true, and_true, and_false,
      if_false, Option.isNone_none, true_and]
    split_ifs
    · exact .one _ rfl
    · exact .one _ rfl
    · cases w.get "additionalItems" <;> exact .nil
  have hunique : Harmless (compareUniqueItems w u) := by
    have hfalse : uniqueItems u = false := by simp [uniqueItems, hu]
    unfold compareUniqueItems
    rw [hfalse]
    cases uniqueItems w with
    | false => exact .nil
    | true => exact .one _ rfl
  unfold compareArrayConstraints
  rw [hitems]
  exact (((Harmless.nil.append (compareBound_dropped hu _ rfl)).append
    (compareBound_dropped hu _ rfl)).append hadditional).append hunique

theorem compareObjectSize_dropped : Harmless (compareObjectSize w u) := by
  unfold compareObjectSize
  apply Harmless.append
  all_goals exact compareBound_dropped hu _ rfl

theorem compareDependencies_dropped : Harmless (compareDependencies w u) := by
  unfold compareDependencies
  simp only [hu, Option.bind_none, Option.getD_none]
  refine Harmless.append (.flatMap fun p _ => ?_) .nil
  have hkind : isBackwardCompatible (dependencyKind p.2 false) = true := by
    unfold dependencyKind
    cases p.2.isArray <;> rfl
  exact .one _ hkind

/-- Every keyword but the conditionals is dropped without harm, and nothing is compared below. -/
theorem keywordSteps_dropped {s : Step} (h : s ∈ keywordSteps L w u) :
    (∃ kind suffix, s = .report kind suffix ∧ isBackwardCompatible kind = true) ∨
      s ∈ compareConditionals L w u := by
  unfold keywordSteps at h
  rcases List.mem_append.mp h with h | h
  · left
    refine (show Harmless _ from ?_) s h
    apply Harmless.append _ (compareDependencies_dropped hu)
    apply Harmless.append _ (compareObjectSize_dropped hu)
    apply Harmless.append _ (compareArrayConstraints_dropped hu)
    apply Harmless.append _ (compareStringConstraints_dropped hu)
    apply Harmless.append _ (compareNumeric_dropped hu)
    apply Harmless.append _ (compareAdditionalProperties_dropped hu)
    apply Harmless.append _ (compareRequired_dropped hu)
    apply Harmless.append _ (compareProperties_dropped hu)
    exact (compareType_dropped hu).append (compareEnum_dropped hu)
  · exact .inr h

/-- A schema is compatible by itself with one without keywords exactly when it has neither
combinators nor conditionals. -/
theorem locallyOk_dropped {ctx : Ctx} : LocallyOk L ⟨ctx, w, u⟩ ↔ WithoutCombinators w := by
  have hbranches : ∀ key, branches u key = none := fun key => by simp [branches, hu]
  have hsum : sumOf u = none := by simp [sumOf, hbranches]
  constructor
  · rintro ⟨⟨combinators, hc, hok⟩, hreports⟩
    obtain ⟨products, sums, negations, hp, hs, hn, rfl⟩ := compareCombinators_some hc
    refine ⟨?_, ?_, ?_, ?_⟩
    · by_contra hne
      obtain ⟨old, hold⟩ := Option.ne_none_iff_exists'.mp hne
      simp only [compareAllOf, hold, hbranches, Option.some.injEq] at hp
      have := hok (.report .combinedTypeChanged "") (by simp [← hp])
      cases this
    · by_contra hne
      obtain ⟨⟨kind, old⟩, hold⟩ := Option.ne_none_iff_exists'.mp hne
      simp only [compareSum, hold, hsum] at hs
      obtain ⟨found, -, hs⟩ := Option.bind_eq_some_iff.mp hs
      obtain rfl := Option.some.inj hs
      have := hok _ (List.mem_append_left _ (List.mem_append_right _ (List.mem_singleton_self _)))
      cases found <;> cases this
    · by_contra hne
      obtain ⟨old, hold⟩ := Option.ne_none_iff_exists'.mp hne
      simp only [compareNot, hold, hu, Option.some.injEq] at hn
      have := hok (.report .combinedTypeChanged "") (by simp [← hn])
      cases this
    · by_contra hne
      -- Each conditional keyword of the original is reported.
      have hreport : ∀ key, w.get key ≠ none → (∀ s, s ∈ compareConditional L w u key →
          s ∈ keywordSteps L w u) → False := by
        intro key hkey hmem
        obtain ⟨v, hv⟩ := Option.ne_none_iff_exists'.mp hkey
        have hstep := hreports .conditionalChanged ("/" ++ key)
          (hmem _ (by simp [compareConditional, hv, hu]))
        cases hstep
      have hconditionals : compareConditionals L w u = compareConditional L w u "if" ++
          compareConditional L w u "then" ++ compareConditional L w u "else" := by
        unfold compareConditionals
        rw [if_neg]
        simp [hne]
      have hmem : ∀ s, s ∈ compareConditionals L w u → s ∈ keywordSteps L w u := fun s hs =>
        List.mem_append_right _ hs
      simp only [hasConditional, Bool.not_eq_false, Bool.or_eq_true, Option.isSome_iff_ne_none] at hne
      rcases hne with (hif | hthen) | helse
      · exact hreport "if" hif fun s hs => hmem s (by rw [hconditionals]; simp [hs])
      · exact hreport "then" hthen fun s hs => hmem s (by rw [hconditionals]; simp [hs])
      · exact hreport "else" helse fun s hs => hmem s (by rw [hconditionals]; simp [hs])
  · intro h
    have hnone : hasConditional u = false := by simp [hasConditional, hu]
    have hcombinators : ∀ f, compareCombinators f w u = some [] := by
      intro f
      simp [compareCombinators, compareAllOf, compareSum, compareNot, h.allOf, h.sum, h.not, hsum,
        hbranches, hu]
    refine ⟨⟨[], hcombinators _, by simp⟩, fun kind suffix hmem => ?_⟩
    rcases keywordSteps_dropped hu hmem with ⟨kind', suffix', heq, hok⟩ | hmem
    · cases heq
      exact hok
    · simp [compareConditionals, h.conditionals, hnone] at hmem

/-- Nothing is compared below. -/
theorem recurse_dropped {suffix : String} {a b : Value} :
    .recurse suffix a b ∉ keywordSteps L w u := by
  have hone : ∀ key, OnlyReports (compareConditional L w u key) := by
    intro key
    unfold compareConditional
    rw [hu]
    cases w.get key with
    | none => exact .nil
    | some v => exact .one _ _
  have honly : OnlyReports (compareConditionals L w u) := by
    unfold compareConditionals
    split_ifs
    · exact .nil
    · exact ((hone _).append (hone _)).append (hone _)
  intro hmem
  rcases keywordSteps_dropped hu hmem with ⟨kind, suffix', heq, -⟩ | hmem
  · cases heq
  · obtain ⟨kind, suffix', heq⟩ := honly _ hmem
    cases heq

end Dropped

end KrabkaRegistry.Format.Json
