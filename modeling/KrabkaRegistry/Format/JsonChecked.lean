import KrabkaRegistry.Format.JsonAlike

/-!
# Steps With One Outcome

Two lists of steps need not correspond one by one for their checks to end alike: a comparison that
only one side makes may find nothing, and a report may be of another kind that is as compatible.

- `SameCheck`: both lists are checked, with one outcome;
- `compareProperties_checked`, `additionalSteps_checked`, `compareItems_checked` and
  `compareDependencies_checked`: the keywords in which another schema may stand for a schema.  They
  ask for the kind of a value only where the comparison looks at it.
-/

namespace KrabkaRegistry.Format.Json

variable {L : DiffLibs} {f g : Value → Value → Option Bool} {O U R : Value → Value → Prop}
  {s s' t t' : List Step}

/-! ## Outcomes -/

/-- Two answers that are given, and are the same. -/
structure SameAnswer (x y : Option Bool) : Prop where
  eq : x = y
  ends : y.isSome

/-- Two comparisons that ended with one answer have the same. -/
theorem SameAnswer.of_eq_some {x y : Option Bool} {b : Bool} (hx : x = some b)
    (hy : y = some b) : SameAnswer x y := ⟨hx.trans hy.symm, by rw [hy]; rfl⟩

/-- Two lists of steps that are checked, with the same outcome. -/
def SameCheck (f g : Value → Value → Option Bool) (s s' : List Step) : Prop :=
  SameAnswer (checkSteps f s) (checkSteps g s')

/-- Step lists are checked one after the other, and the second is checked even where the first
already failed, so that an undecided step leaves the whole undecided. -/
theorem checkSteps_append (f : Value → Value → Option Bool) (s t : List Step) :
    checkSteps f (s ++ t) =
      (checkSteps f s).bind fun found => (checkSteps f t).map (found && ·) := by
  induction s with
  | nil =>
    rw [List.nil_append, checkSteps, Option.bind_some]
    cases checkSteps f t <;> simp
  | cons x s ih =>
    cases x with
    | report kind suffix =>
      simp only [List.cons_append, checkSteps, ih]
      cases checkSteps f s <;> cases checkSteps f t <;> simp [Bool.and_assoc]
    | recurse suffix a b =>
      simp only [List.cons_append, checkSteps, ih]
      cases f a b <;> cases checkSteps f s <;> cases checkSteps f t <;> simp [Bool.and_assoc]

/-- A report is judged by its kind. -/
theorem checkSteps_report (f : Value → Value → Option Bool) (kind : Kind) (suffix : String) :
    checkSteps f [.report kind suffix] = some (isBackwardCompatible kind) := by
  simp [checkSteps]

/-- A recursion is the answer of the comparison below. -/
theorem checkSteps_recurse (f : Value → Value → Option Bool) (suffix : String) (a b : Value) :
    checkSteps f [.recurse suffix a b] = f a b := by
  cases h : f a b <;> simp [checkSteps, h]

/-- The comparisons among the steps are answered as the ones in their place are. -/
def AnsweredAlike (f g : Value → Value → Option Bool) (O U : Value → Value → Prop)
    (steps : List Step) : Prop :=
  ∀ suffix a b, .recurse suffix a b ∈ steps → ∀ a' b', O a a' → U b b' →
    SameAnswer (f a b) (g a' b')

namespace AnsweredAlike

/-- Fewer steps ask fewer questions. -/
theorem mono (h : AnsweredAlike f g O U s) (hsub : t ⊆ s) : AnsweredAlike f g O U t :=
  fun suffix a b hmem => h suffix a b (hsub hmem)

/-- What is answered alike for two parts is answered alike for the first. -/
theorem left (h : AnsweredAlike f g O U (s ++ t)) : AnsweredAlike f g O U s :=
  h.mono (List.subset_append_left s t)

/-- What is answered alike for two parts is answered alike for the second. -/
theorem right (h : AnsweredAlike f g O U (s ++ t)) : AnsweredAlike f g O U t :=
  h.mono (List.subset_append_right s t)

/-- What is answered alike for a loop is answered alike for each round of it. -/
theorem part {α : Type} {l : List α} {F : α → List Step}
    (h : AnsweredAlike f g O U (l.flatMap F)) {x : α} (hx : x ∈ l) : AnsweredAlike f g O U (F x) :=
  h.mono fun _ hstep => List.mem_flatMap.mpr ⟨x, hx, hstep⟩

end AnsweredAlike

namespace SameCheck

/-- Two parts that are judged alike are judged alike together. -/
theorem append (hs : SameCheck f g s s') (ht : SameCheck f g t t') :
    SameCheck f g (s ++ t) (s' ++ t') := by
  obtain ⟨heq, hends⟩ := hs
  obtain ⟨heq', hends'⟩ := ht
  refine ⟨by rw [checkSteps_append, checkSteps_append, heq, heq'], ?_⟩
  obtain ⟨x, hx⟩ := Option.isSome_iff_exists.mp hends
  obtain ⟨y, hy⟩ := Option.isSome_iff_exists.mp hends'
  rw [checkSteps_append, hx, hy]
  rfl

/-- No step is accepted on both sides. -/
theorem nil : SameCheck f g [] [] := .of_eq_some rfl rfl

/-- Two reports that are as compatible as each other. -/
theorem report {kind kind' : Kind} (suffix suffix' : String)
    (h : isBackwardCompatible kind = isBackwardCompatible kind') :
    SameCheck f g [.report kind suffix] [.report kind' suffix'] :=
  .of_eq_some (checkSteps_report f kind suffix) (by rw [checkSteps_report, h])

/-- Two recursions are judged alike when their comparisons have the same answer. -/
theorem recurse {suffix suffix' : String} {a b a' b' : Value} (h : SameAnswer (f a b) (g a' b')) :
    SameCheck f g [.recurse suffix a b] [.recurse suffix' a' b'] := by
  unfold SameCheck
  rwa [checkSteps_recurse, checkSteps_recurse]

/-- The same reports have the same kinds. -/
theorem of_onlyReports (h : OnlyReports s) : SameCheck f g s s := by
  induction s with
  | nil => exact .nil
  | cons x s ih =>
    obtain ⟨kind, suffix, rfl⟩ := h x List.mem_cons_self
    have hx : SameCheck f g [.report kind suffix] [.report kind suffix] := .report _ _ rfl
    exact hx.append (ih fun y hy => h y (List.mem_cons_of_mem _ hy))

/-- So being judged alike is one of the relations that `keywordSteps_alike` accepts. -/
theorem compositional : Compositional (SameCheck f g) := ⟨append, of_onlyReports⟩

/-- A loop over related members is judged alike when each round is. -/
theorem flatMap {α : Type} {P : α → α → Prop} {l l' : List α} {F F' : α → List Step}
    (hl : List.Forall₂ P l l') (h : ∀ a a', a ∈ l → P a a' → SameCheck f g (F a) (F' a')) :
    SameCheck f g (l.flatMap F) (l'.flatMap F') := by
  induction hl with
  | nil => exact .nil
  | cons ha _ ih =>
    simp only [List.flatMap_cons]
    apply append (h _ _ List.mem_cons_self ha)
    exact ih fun a a' hmem => h a a' (List.mem_cons_of_mem _ hmem)

/-- Steps that correspond one by one have one outcome, if the comparisons below have. -/
theorem of_alike (h : StepsAlike O U s s') (hbelow : AnsweredAlike f g O U s) :
    SameCheck f g s s' := by
  induction h with
  | nil => exact .nil
  | @cons x x' s s' hx _ ih =>
    have hrest := ih (hbelow.mono (List.subset_cons_self x s))
    have hone : SameCheck f g [x] [x'] := by
      cases hx with
      | report kind suffix suffix' => exact .report _ _ rfl
      | recurse ha hb => exact .recurse (hbelow _ _ _ List.mem_cons_self _ _ ha hb)
    exact hone.append hrest

end SameCheck

/-! ## What stands for a value -/

/-- Only objects are replaced, by objects and by booleans. -/
structure ReplacesObjects (R : Value → Value → Prop) : Prop where
  other : ∀ {a a' : Value}, R a a' → a.isObject = false → a' = a
  object : ∀ {a a' : Value}, R a a' → a.isObject = true →
    a'.isObject = true ∨ a'.isBoolean = true

namespace ReplacesObjects

variable (hR : ReplacesObjects R) {a a' : Value} (h : R a a')
include hR h

/-- Only an object leads to an object. -/
theorem isObject (ha' : a'.isObject = true) : a.isObject = true := by
  cases ha : a.isObject with
  | true => rfl
  | false =>
    rw [hR.other h ha, ha] at ha'
    cases ha'

/-- What replaces a schema is a list only where the schema was one. -/
theorem notArray (ha : a.isArray = false) : a'.isArray = false := by
  cases hobject : a.isObject with
  | false => rw [hR.other h hobject, ha]
  | true =>
    rcases hR.object h hobject with ha' | ha'
    · exact Value.isArray_of_isObject ha'
    · cases a' with
      | bool b => rfl
      | _ => cases ha'

/-- And it is a boolean wherever the schema was one. -/
theorem notBoolean (ha' : a'.isBoolean = false) : a.isBoolean = false := by
  cases a with
  | bool b =>
    rw [hR.other h rfl] at ha'
    exact ha'
  | _ => rfl

end ReplacesObjects

/-! ## Keywords that hold one schema -/

/-- The keyword allows less in the update than in the original, whatever its schemas say. -/
def narrows (a b : Option Value) : Bool :=
  !isFalse a && (isFalse b || (a.isNone && isSchemaValued b))

/-- A boolean against an object. -/
def booleanAgainstObject (a b : Option Value) : Bool :=
  (a.any Value.isBoolean && b.any Value.isObject) ||
    (a.any Value.isObject && b.any Value.isBoolean)

/-- Adding and extending are compatible, removing and narrowing are not. -/
structure AdditionalKinds.Graded (kinds : AdditionalKinds) : Prop where
  added : isBackwardCompatible kinds.added = true
  removed : isBackwardCompatible kinds.removed = false
  narrowed : isBackwardCompatible kinds.narrowed = false
  extended : isBackwardCompatible kinds.extended = true

/-- The kinds reported for `additionalProperties` are compatible in the widening cases and in no
other. -/
theorem propertiesKinds_graded : propertiesKinds.Graded := ⟨rfl, rfl, rfl, rfl⟩

/-- The kinds reported for `additionalItems` are graded as those for `additionalProperties` are. -/
theorem itemsKinds_graded : itemsKinds.Graded := ⟨rfl, rfl, rfl, rfl⟩

/-- The literal `false` is not counted as a schema here. -/
theorem isSchemaValued_of_isFalse {a : Option Value} (h : isFalse a = true) :
    isSchemaValued a = false := by
  obtain rfl := of_decide_eq_true h
  rfl

/-- Without two schemas there is nothing to compare. -/
theorem bothSchemas_of_not (suffix : String) {a b : Option Value}
    (h : ¬ (isSchemaValued a = true ∧ isSchemaValued b = true)) : bothSchemas suffix a b = [] := by
  unfold bothSchemas
  cases a with
  | none => rfl
  | some a =>
    cases b with
    | none => rfl
    | some b =>
      have hboth : ¬ ((!a.isBoolean) = true ∧ (!b.isBoolean) = true) := h
      exact if_neg hboth

/-- Two schemas are compared as such. -/
theorem additionalSteps_schemas {kinds : AdditionalKinds} (suffix : String) {a b : Value}
    (ha : a.isBoolean = false) (hb : b.isBoolean = false) :
    additionalSteps kinds suffix (some a) (some b) = [.recurse suffix a b] := by
  have hfalse : ∀ {x : Value}, x.isBoolean = false → isFalse (some x) = false := by
    intro x hx
    cases x with
    | bool y => cases hx
    | _ => simp [isFalse]
  simp [additionalSteps, bothSchemas, hfalse ha, hfalse hb, ha, hb]

/-- What is reported is incompatible exactly where the keyword narrows. Only two schemas are
compared any further. -/
theorem checkSteps_additional {kinds : AdditionalKinds} (hkinds : kinds.Graded) (suffix : String)
    (a b : Option Value) :
    checkSteps f (additionalSteps kinds suffix a b) =
      if narrows a b then some false else checkSteps f (bothSchemas suffix a b) := by
  unfold additionalSteps narrows
  cases ha : isFalse a with
  -- `false` on the original's side: the update can only widen it.
  | true =>
    have hvalued : isSchemaValued a = false := isSchemaValued_of_isFalse ha
    have hnone : bothSchemas suffix a b = [] := bothSchemas_of_not suffix (by simp [hvalued])
    have hsome : a.isNone = false := by
      obtain rfl := of_decide_eq_true ha
      rfl
    cases isFalse b <;> simp [hnone, hsome, hvalued, checkSteps, hkinds.added]
  | false =>
    cases hb : isFalse b with
    | true => simp [checkSteps, hkinds.removed]
    | false =>
      cases hn : a.isNone && isSchemaValued b with
      | true =>
        rw [Bool.and_eq_true] at hn
        simp [hn.1, hn.2, checkSteps, hkinds.narrowed]
      | false =>
        have hn' : ¬ (a.isNone = true ∧ isSchemaValued b = true) := by
          rw [← Bool.and_eq_true, hn]
          exact Bool.false_ne_true
        simp only [Bool.false_eq_true, not_false_eq_true, and_true, and_false, if_false, if_neg hn',
          Bool.not_false, Bool.true_and, Bool.or_false]
        split_ifs with hx
        · have hnone : bothSchemas suffix a b = [] := by
            apply bothSchemas_of_not
            rintro ⟨-, hvalued⟩
            obtain rfl := Option.isNone_iff_eq_none.mp hx.1
            cases hvalued
          simp [hnone, checkSteps, hkinds.extended]
        · rfl

section Compared

variable (hO : ReplacesObjects O) (hU : ReplacesObjects U)
  (hother : ∀ a b : Value, a.isObject = false → b.isObject = false → g a b = some true)
  {o u o' u' : Value}
include hO hU

include hother in
/-- One schema on each side, or `false`.  Where both are schemas, they are compared; what they lead
to is not when one of the two is a boolean, and then neither may be an object. -/
theorem additionalSteps_checked {kinds : AdditionalKinds} (hkinds : kinds.Graded) (suffix : String)
    {a b a' b' : Option Value} (ha : Option.Rel O a a') (hb : Option.Rel U b b')
    (hnarrows : narrows a b = narrows a' b')
    (hbooleans : isSchemaValued a = true → isSchemaValued b = true →
      booleanAgainstObject a' b' = false)
    (hbelow : AnsweredAlike f g O U (additionalSteps kinds suffix a b)) :
    SameCheck f g (additionalSteps kinds suffix a b) (additionalSteps kinds suffix a' b') := by
  unfold SameCheck
  rw [checkSteps_additional hkinds, checkSteps_additional hkinds, ← hnarrows]
  cases narrows a b with
  -- Narrowing is refused whatever the schemas are.
  | true => exact .of_eq_some rfl rfl
  | false =>
    show SameCheck f g (bothSchemas suffix a b) (bothSchemas suffix a' b')
    -- A replaced schema may have become a boolean, but never the other way round.
    have hvalued : ∀ {R : Value → Value → Prop} {x x' : Option Value}, ReplacesObjects R →
        Option.Rel R x x' → isSchemaValued x' = true → isSchemaValued x = true := by
      intro R x x' hR hx hx'
      cases hx with
      | none => cases hx'
      | some hrel =>
        simp only [isSchemaValued, Option.any_some, Bool.not_eq_true'] at hx' ⊢
        exact hR.notBoolean hrel hx'
    by_cases hboth : isSchemaValued a = true ∧ isSchemaValued b = true
    · cases ha with
      | none => cases hboth.1
      | @some x x' hx =>
        cases hb with
        | none => cases hboth.2
        | @some y y' hy =>
          have hboolean := hbooleans hboth.1 hboth.2
          simp only [isSchemaValued, Option.any_some, Bool.not_eq_true'] at hboth
          rw [additionalSteps_schemas suffix hboth.1 hboth.2] at hbelow
          have hanswer := hbelow suffix x y List.mem_cons_self x' y' hx hy
          have hraw : bothSchemas suffix (some x) (some y) = [.recurse suffix x y] := by
            simp [bothSchemas, hboth.1, hboth.2]
          rw [hraw]
          by_cases hboth' : x'.isBoolean = false ∧ y'.isBoolean = false
          · have hexp : bothSchemas suffix (some x') (some y') = [.recurse suffix x' y'] := by
              simp [bothSchemas, hboth'.1, hboth'.2]
            rw [hexp]
            exact .recurse hanswer
          · -- One of them leads to a boolean, so that neither leads to an object.
            have hnot : x'.isObject = false ∧ y'.isObject = false := by
              simp only [booleanAgainstObject, Option.any_some, Bool.or_eq_false_iff,
                Bool.and_eq_false_iff] at hboolean
              have hkind : ∀ {z : Value}, z.isBoolean = true → z.isObject = false := by
                intro z hz
                cases z with
                | bool b => rfl
                | _ => cases hz
              cases hx' : x'.isBoolean with
              | true => exact ⟨hkind hx', hboolean.1.resolve_left (by simp [hx'])⟩
              | false =>
                have hy' : y'.isBoolean = true := by
                  rw [← Bool.not_eq_false]
                  exact fun hy' => hboth' ⟨hx', hy'⟩
                exact ⟨hboolean.2.resolve_right (by simp [hy']), hkind hy'⟩
            have hnone : bothSchemas suffix (some x') (some y') = [] := by
              apply bothSchemas_of_not
              simpa [isSchemaValued] using hboth'
            rw [hnone]
            -- Then the source compares nothing, and the pair below is accepted as one without
            -- objects.
            have htrue := hother x' y' hnot.1 hnot.2
            refine .of_eq_some (b := true) ?_ rfl
            rw [checkSteps_recurse, hanswer.eq, htrue]
    · have hboth' : ¬ (isSchemaValued a' = true ∧ isSchemaValued b' = true) :=
        fun h => hboth ⟨hvalued hO ha h.1, hvalued hU hb h.2⟩
      rw [bothSchemas_of_not suffix hboth, bothSchemas_of_not suffix hboth']
      exact .nil

/-! ## Items and dependencies -/

/-- What stands for a value of `items`: a list item by item, or a schema. -/
inductive ItemsFrom (R : Value → Value → Prop) : Value → Value → Prop where
  | list {l l' : List Value} : List.Forall₂ R l l' → ItemsFrom R (.array l) (.array l')
  | schema {a a' : Value} : a.isArray = false → R a a' → ItemsFrom R a a'

omit hU in
/-- Only an object leads to an object, and only a list to a list. -/
theorem ItemsFrom.kinds {a a' : Value} (h : ItemsFrom O a a') :
    (a'.isObject = true → a.isObject = true) ∧ (a'.isArray = true → a.isArray = true) := by
  cases h with
  | list =>
    refine ⟨fun ha' => ?_, fun _ => rfl⟩
    cases ha'
  | schema ha hrel =>
    refine ⟨hO.isObject hrel, fun ha' => ?_⟩
    rw [hO.notArray hrel ha] at ha'
    cases ha'

/-- Two values of `items`.  Their kinds matter only where both are schemas. -/
theorem itemSteps_checked {a b a' b' : Value} (ha : ItemsFrom O a a') (hb : ItemsFrom U b b')
    (hobjects : a.isObject = true → b.isObject = true → a'.isObject = true ∧ b'.isObject = true)
    (hbelow : AnsweredAlike f g O U (itemSteps a b)) :
    SameCheck f g (itemSteps a b) (itemSteps a' b') := by
  by_cases hobject : a.isObject = true ∧ b.isObject = true
  · obtain ⟨ha', hb'⟩ := hobjects hobject.1 hobject.2
    cases ha with
    | list => cases hobject.1
    | schema _ hrel =>
      cases hb with
      | list => cases hobject.2
      | schema _ hrel' =>
        exact .of_alike (itemSteps_alike (.schema hobject.1 ha' hrel) (.schema hobject.2 hb' hrel'))
          hbelow
  · by_cases harray : a.isArray = true ∧ b.isArray = true
    · cases ha with
      | schema hne => rw [harray.1] at hne; cases hne
      | list hl =>
        cases hb with
        | schema hne => rw [harray.2] at hne; cases hne
        | list hl' => exact .of_alike (itemSteps_alike (.list hl) (.list hl')) hbelow
    · -- On both sides the kinds do not match.
      have hobject' : ¬ (a'.isObject = true ∧ b'.isObject = true) := fun h =>
        hobject ⟨(ha.kinds hO).1 h.1, (hb.kinds hU).1 h.2⟩
      have harray' : ¬ (a'.isArray = true ∧ b'.isArray = true) := fun h =>
        harray ⟨(ha.kinds hO).2 h.1, (hb.kinds hU).2 h.2⟩
      rw [itemSteps_mixed hobject harray, itemSteps_mixed hobject' harray']
      exact .report _ _ rfl

/-- `items` is judged alike when lists stay lists item by item, and when two schemas are replaced by
two schemas: with a boolean in place of one of them the source compares nothing and reports a
change. -/
theorem compareItems_checked (ho : Option.Rel (ItemsFrom O) (o.get "items") (o'.get "items"))
    (hu : Option.Rel (ItemsFrom U) (u.get "items") (u'.get "items"))
    (hobjects : ∀ a b a' b', o.get "items" = some a → u.get "items" = some b →
      o'.get "items" = some a' → u'.get "items" = some b' → a.isObject = true →
      b.isObject = true → a'.isObject = true ∧ b'.isObject = true)
    (hbelow : AnsweredAlike f g O U (compareItems o u)) :
    SameCheck f g (compareItems o u) (compareItems o' u') := by
  rw [compareItems_eq] at hbelow
  rw [compareItems_eq, compareItems_eq]
  revert ho hu hobjects hbelow
  generalize o.get "items" = a, o'.get "items" = a', u.get "items" = b, u'.get "items" = b'
  intro ho hu hobjects hbelow
  cases ho with
  | none => exact .nil
  | @some a a' ha =>
    cases hu with
    | none => exact .nil
    | @some b b' hb =>
      exact itemSteps_checked hO hU ha hb (hobjects a b a' b' rfl rfl rfl rfl) hbelow

/-- A dependency that both sides declare, with what stands for it.  Two schemas lead to schemas, or
to the same; one schema leads to something that still differs from the other side. -/
structure SameDependency (a b a' b' : Value) : Prop where
  schemas : a.isObject = true → b.isObject = true →
    (a'.isObject = true ∧ b'.isObject = true) ∨ a' = b'
  mixed : a.isObject ≠ b.isObject → a' ≠ b'

include hother in
/-- Two dependencies are judged alike when the replacement keeps their shapes or keeps that they
differ; two schemas recurse, and the rest is reports. -/
theorem compareDependency_checked {a b a' b' : Value} (suffix : String) (ha : O a a') (hb : U b b')
    (hsame : SameDependency a b a' b')
    (hbelow : AnsweredAlike f g O U (compareDependency suffix a b)) :
    SameCheck f g (compareDependency suffix a b) (compareDependency suffix a' b') := by
  by_cases hobject : a.isObject = true ∧ b.isObject = true
  · rw [compareDependency_objects hobject.1 hobject.2] at hbelow ⊢
    have hanswer := hbelow suffix a b List.mem_cons_self a' b' ha hb
    by_cases hobject' : a'.isObject = true ∧ b'.isObject = true
    · rw [compareDependency_objects hobject'.1 hobject'.2]
      exact .recurse hanswer
    · -- Both lead to one boolean, with which nothing is compared.
      obtain rfl : a' = b' := (hsame.schemas hobject.1 hobject.2).resolve_left hobject'
      have hnot : a'.isObject = false := by simpa using hobject'
      have hself : compareDependency suffix a' a' = [] := by
        have hboolean := (hO.object ha hobject.1).resolve_left (by simp [hnot])
        cases a' with
        | bool x => simp [compareDependency, Value.asArray, Value.isObject, Value.asObject]
        | _ => cases hboolean
      rw [hself]
      refine .of_eq_some (b := true) ?_ rfl
      rw [checkSteps_recurse, hanswer.eq, hother a' a' hnot hnot]
  · by_cases hmixed : a.isObject = b.isObject
    · -- Neither is an object, so that both stay.
      have hnot : a.isObject = false ∧ b.isObject = false := by
        rw [hmixed, and_self, Bool.not_eq_true] at hobject
        exact ⟨hmixed.trans hobject, hobject⟩
      rw [hO.other ha hnot.1, hU.other hb hnot.2]
      exact .of_onlyReports (compareDependency_onlyReports hobject)
    -- One is a schema and the other is not, before and after.
    · have hne : a ≠ b := by
        rintro rfl
        exact hmixed rfl
      have hobject' : ¬ (a'.isObject = true ∧ b'.isObject = true) := fun h =>
        hobject ⟨hO.isObject ha h.1, hU.isObject hb h.2⟩
      have hlist : ∀ {x y : Value}, x.isArray = true → y.isArray = true → x.isObject = y.isObject := by
        intro x y hx hy
        cases x with
        | array items =>
          cases y with
          | array items' => rfl
          | _ => cases hy
        | _ => cases hx
      have harray : ¬ (a.isArray = true ∧ b.isArray = true) := fun h => hmixed (hlist h.1 h.2)
      have harray' : ¬ (a'.isArray = true ∧ b'.isArray = true) := by
        rintro ⟨hx, hy⟩
        apply harray
        constructor
        · by_contra hne
          rw [hO.notArray ha (Bool.eq_false_iff.mpr hne)] at hx
          cases hx
        · by_contra hne
          rw [hU.notArray hb (Bool.eq_false_iff.mpr hne)] at hy
          cases hy
      rw [compareDependency_changed hne hobject harray,
        compareDependency_changed (hsame.mixed hmixed) hobject' harray']
      exact .report _ _ rfl

omit hO hU in
/-- Removing a dependency is compatible and adding one is not, of whatever kind it is. -/
theorem dependencyKind_compatible (a : Value) (added : Bool) :
    isBackwardCompatible (dependencyKind a added) = !added := by
  unfold dependencyKind
  cases a.isArray <;> cases added <;> rfl

include hother in
/-- The loop over the dependencies. Only those that both sides have are compared, so
`SameDependency` is asked for these alone. -/
theorem compareDependencies_checked
    (ho : MembersAlike O (dependencies o) (dependencies o'))
    (hu : MembersAlike U (dependencies u) (dependencies u'))
    (hsame : ∀ m ∈ dependencies o, ∀ b, (dependencies u).lookup m.1 = some b → ∀ a' b', O m.2 a' →
      U b b' → SameDependency m.2 b a' b')
    (hbelow : AnsweredAlike f g O U (compareDependencies o u)) :
    SameCheck f g (compareDependencies o u) (compareDependencies o' u') := by
  unfold compareDependencies at hbelow ⊢
  apply SameCheck.append
  · refine .flatMap ho fun m m' hmem hm => ?_
    have hpart := hbelow.left.part hmem
    have hlookup := lookup_alike hu m.1
    have hdependency := hsame m hmem
    simp only [dependencies] at hlookup hdependency
    rw [hm.1] at hlookup hdependency hpart ⊢
    -- The partners become variables, since the goal depends on them by their shapes only.
    revert hpart hlookup hdependency
    generalize List.lookup m'.1 (((u.get "dependencies").bind Value.asObject).getD []) = b
    generalize List.lookup m'.1 (((u'.get "dependencies").bind Value.asObject).getD []) = b'
    intro hpart hlookup hdependency
    cases hlookup with
    | none => exact .report _ _ (by rw [dependencyKind_compatible, dependencyKind_compatible])
    | @some b b' hb =>
      exact compareDependency_checked hO hU hother _ hm.2 hb (hdependency b rfl _ _ hm.2 hb) hpart
  · refine .flatMap hu fun m m' _ hm => ?_
    have hlookup := (lookup_alike ho m.1).isSome
    simp only [dependencies] at hlookup
    rw [hm.1] at hlookup ⊢
    rw [hlookup]
    split_ifs
    · exact .nil
    · exact .report _ _ (by rw [dependencyKind_compatible, dependencyKind_compatible])

end Compared

/-! ## Properties -/

section Properties

variable {o u o' u' : Value}

/-- The default of a property that is required now decides: the original does not declare it and is
not open, or declares it without requiring it. -/
def DefaultDecides (o u : Value) (name : String) : Prop :=
  name ∈ requiredSet u ∧ (((declared o).lookup name = none ∧ isOpen o = false) ∨
    (((declared o).lookup name).isSome ∧ name ∉ requiredSet o))

/-- It decides whether the schema of a property is `{}`: the original is open and does not declare
it, and it is not required. -/
def EmptyDecides (o u : Value) (name : String) : Prop :=
  name ∉ requiredSet u ∧ (declared o).lookup name = none ∧ isOpen o = true

/-- A property that the update declares, and its counterpart. -/
structure PropertyAlike (U : Value → Value → Prop) (o u : Value) (m m' : String × Value) :
    Prop where
  key : m.1 = m'.1
  schema : U m.2 m'.2
  empty : EmptyDecides o u m.1 → (m.2.asObject = some [] ↔ m'.2.asObject = some [])
  default : DefaultDecides o u m.1 → (m.2.get "default").isSome = (m'.2.get "default").isSome

/-- `isOpen` asks for the open model. -/
theorem contentModel_of_isOpen {v : Value} (h : isOpen v = true) :
    contentModel v = .openContent := by
  unfold isOpen at h
  generalize contentModel v = c at h ⊢
  cases c with
  | openContent => rfl
  | _ => cases h

/-- An open content model receives `{}` only, unless it is required. -/
theorem checkSteps_added_open {name : String} {b : Value} (hopen : isOpen o = true) :
    checkSteps f (addedProperty L o u name b) =
      some (decide (b.asObject = some [] ∧ name ∉ requiredSet u)) := by
  have hreceived : receivedProperty L o name b =
      [.report (if b.asObject = some [] then .propertyWithEmptySchemaAddedToOpenContentModel
        else .propertyAddedToOpenContentModel) ("/properties/" ++ name)] := by
    unfold receivedProperty
    rw [contentModel_of_isOpen hopen]
    simp only
    split_ifs <;> rfl
  -- The empty schema has no default.
  have hdefault : b.asObject = some [] → (b.get "default").isSome = false := by
    intro hempty
    cases b with
    | object members =>
      obtain rfl : members = [] := by simpa [Value.asObject] using hempty
      rfl
    | _ => simp [Value.asObject] at hempty
  unfold addedProperty
  simp only [hopen, not_true_eq_false, and_false, if_false, hreceived]
  by_cases hempty : b.asObject = some []
  · have hnone : (b.get "default").isNone = true := by
      rw [← Option.not_isSome, hdefault hempty]
      rfl
    by_cases hrequired : name ∈ requiredSet u <;>
      simp [checkSteps, hempty, hrequired, hnone, isBackwardCompatible]
  · rw [checkSteps_append, checkSteps_report]
    split_ifs <;> simp [checkSteps, hempty, isBackwardCompatible]

/-- A property that only the update has is judged alike: in the open model by its emptiness and its
default, elsewhere by its cover. -/
theorem addedProperty_checked (ho : CoverAlike O o o') (hreq : requiredSet u = requiredSet u')
    {m m' : String × Value} (hm : PropertyAlike U o u m m')
    (hnew : (declared o).lookup m.1 = none)
    (hbelow : AnsweredAlike f g O U (addedProperty L o u m.1 m.2)) :
    SameCheck f g (addedProperty L o u m.1 m.2) (addedProperty L o' u' m'.1 m'.2) := by
  cases hopen : isOpen o with
  | true =>
    have hopen' : isOpen o' = true := by rw [← ho.content.isOpen, hopen]
    have hsame : (m.2.asObject = some [] ∧ m.1 ∉ requiredSet u) ↔
        (m'.2.asObject = some [] ∧ m'.1 ∉ requiredSet u') := by
      rw [← hm.key, ← hreq]
      exact and_congr_left fun hrequired => hm.empty ⟨hrequired, hnew, hopen⟩
    refine .of_eq_some (checkSteps_added_open hopen) ?_
    rw [checkSteps_added_open hopen', decide_eq_decide.mpr hsame]
  | false =>
    rw [← hm.key]
    refine .of_alike (addedProperty_alike L ho hreq hm.schema (fun h => ?_) fun hrequired => ?_) hbelow
    · rw [hopen] at h
      cases h
    · exact hm.default ⟨hrequired, .inl ⟨hnew, hopen⟩⟩

/-- All properties.  What covers undeclared properties matters only where there are some. -/
theorem compareProperties_checked
    (ho : (∃ m ∈ declared u, (declared o).lookup m.1 = none) → CoverAlike O o o')
    (hu : (∃ m ∈ declared o, (declared u).lookup m.1 = none) → CoverAlike U u u')
    (hreq : requiredSet u = requiredSet u') (hop : MembersAlike O (declared o) (declared o'))
    (hup : List.Forall₂ (PropertyAlike U o u) (declared u) (declared u'))
    (hbelow : AnsweredAlike f g O U (compareProperties L o u)) :
    SameCheck f g (compareProperties L o u) (compareProperties L o' u') := by
  have hmembers : MembersAlike U (declared u) (declared u') :=
    hup.imp fun m m' hm => ⟨hm.key, hm.schema⟩
  rw [compareProperties_eq] at hbelow
  rw [compareProperties_eq, compareProperties_eq]
  apply SameCheck.append
  -- The original's properties that the update no longer declares.
  · refine .flatMap hop fun m m' hmem hm => ?_
    have hpart := hbelow.left.part hmem
    rw [← hm.1, ← (lookup_alike hmembers m.1).isSome]
    cases hremoved : (declared u).lookup m.1 with
    | some b => exact .nil
    | none =>
      rw [hremoved] at hpart
      exact .of_alike (removedProperty_alike L (hu ⟨m, hmem, hremoved⟩) hm.2 m.1) hpart
  -- The update's properties, new ones first and then those both sides have.
  · refine .flatMap hup fun m m' hmem hm => ?_
    have hpart := hbelow.right.part hmem
    have hlookup := lookup_alike hop m.1
    unfold updateProperty at hpart ⊢
    rw [← hm.key]
    cases hnew : (declared o).lookup m.1 with
    | none =>
      rw [hnew] at hlookup hpart
      have hnew' : (declared o').lookup m.1 = none := by
        generalize (declared o').lookup m.1 = a' at hlookup
        cases hlookup
        rfl
      rw [hnew']
      have hadded := addedProperty_checked (ho ⟨m, hmem, hnew⟩) hreq hm hnew hpart
      rwa [← hm.key] at hadded
    | some a =>
      rw [hnew] at hlookup hpart
      generalize (declared o').lookup m.1 = x at hlookup
      cases hlookup with
      | some ha => exact .recurse (hpart _ _ _ List.mem_cons_self _ _ ha hm.schema)

/-- A newly required property is reported by its default. -/
theorem compareRequired_declared (horeq : requiredSet o = requiredSet o')
    (hureq : requiredSet u = requiredSet u') (hop : MembersAlike O (declared o) (declared o'))
    (hup : List.Forall₂ (PropertyAlike U o u) (declared u) (declared u')) :
    compareRequired o u = compareRequired o' u' := by
  have hmembers : MembersAlike U (declared u) (declared u') :=
    hup.imp fun m m' hm => ⟨hm.key, hm.schema⟩
  refine compareRequired_congr horeq hureq (fun name => (lookup_alike hop name).isSome)
    (fun name => (lookup_alike hmembers name).isSome) fun name hname hdeclared => ?_
  obtain ⟨hname, hnew⟩ := Finset.mem_sdiff.mp hname
  generalize declared u = ms at hup
  generalize declared u' = ms' at hup
  -- Induction on the declared properties, whose keys are the same on both sides.
  clear hmembers
  induction hup with
  | nil => rfl
  | @cons m m' ms ms' hm _ ih =>
    obtain ⟨k, v⟩ := m
    obtain ⟨k', v'⟩ := m'
    obtain rfl : k = k' := hm.key
    simp only [List.lookup_cons]
    cases hkey : name == k with
    | true =>
      obtain rfl : name = k := by simpa using hkey
      exact hm.default ⟨hname, .inr ⟨hdeclared, hnew⟩⟩
    | false => exact ih

end Properties

/-! ## All keywords -/

/-- The steps of each keyword are among those of all. -/
theorem subset_keywordSteps (o u : Value) :
    compareProperties L o u ⊆ keywordSteps L o u ∧
      compareAdditionalProperties o u ⊆ keywordSteps L o u ∧
      compareItems o u ⊆ keywordSteps L o u ∧ compareAdditionalItems o u ⊆ keywordSteps L o u ∧
      compareDependencies o u ⊆ keywordSteps L o u ∧
      compareConditionals L o u ⊆ keywordSteps L o u := by
  refine ⟨?_, ?_, ?_, ?_, ?_, ?_⟩
  all_goals
    intro s hs
    simp only [keywordSteps, compareArrayConstraints, List.mem_append]
    simp [hs]

end KrabkaRegistry.Format.Json
