import KrabkaRegistry.Format.JsonChecked

/-!
# Combinators That Compare Alike

The combinators of two schemas compare lists of branches, unless the lists are equal as texts.
The combinators of two other schemas report alike when their branches correspond and no list
changes from equal to different, or the branches that come to be different are compatible one by
one.

- `compareCombinators_alike`: corresponding combinators report alike;
- `judge_alike`: pairs of schemas that are alike have one verdict.
-/

namespace KrabkaRegistry.Format.Json

open KrabkaRegistry.Library.Related (forall₂_mem_left mapM_alike mapM_eq_some mapM_isSome)

variable (L : DiffLibs) {O U R : Value → Value → Prop} {o o' u u' : Value}

/-! ## Corresponding branches -/

/-- The keywords whose value is a list of branches. -/
def branchKeywords : List String := ["allOf", "anyOf", "oneOf"]

/-- Lists of branches of two schemas that are compared with each other. -/
def ComparedLists (kind : String) (o u : Value) (old new : List Value) : Prop :=
  (kind = "allOf" ∧ branches o kind = some old ∧ branches u kind = some new) ∨
    (sumOf o = some (kind, old) ∧ sumOf u = some (kind, new))

/-- Branches that are compatible one by one, in lists that the search can go through. -/
def Matched (f : Value → Value → Option Bool) (old new : List Value) : Prop :=
  (∀ a ∈ old, ∀ b ∈ new, (f a b).isSome) ∧ List.Forall₂ (fun a b => f a b = some true) old new

/-- Combinators with corresponding branches. -/
structure CombinatorsAlike (O U : Value → Value → Prop) (f : Value → Value → Option Bool)
    (o u o' u' : Value) : Prop where
  origLists : ∀ key ∈ branchKeywords,
    Option.Rel (List.Forall₂ O) (branches o key) (branches o' key)
  updLists : ∀ key ∈ branchKeywords,
    Option.Rel (List.Forall₂ U) (branches u key) (branches u' key)
  origNot : OptionAlike O (o.get "not") (o'.get "not")
  updNot : OptionAlike U (u.get "not") (u'.get "not")
  /-- Equal lists stay equal, and lists that come to be equal are compatible. -/
  lists : ∀ kind old new old' new', ComparedLists kind o u old new →
    ComparedLists kind o' u' old' new' → List.Forall₂ O old old' → List.Forall₂ U new new' →
    (old = new → old' = new') ∧ (old ≠ new → old' = new' → Matched f old new)
  not : ∀ a b a' b', o.get "not" = some a → u.get "not" = some b → o'.get "not" = some a' →
    u'.get "not" = some b' → (a = b → a' = b') ∧ (a ≠ b → a' = b' → f b a = some true)

/-- The branches that the combinators of two schemas call, when the answers are those of `f`, and
the ones in their place.  The search through the branches of one side stops at the first that
decides. -/
inductive CallsTo (f : Value → Value → Option Bool) (O U : Value → Value → Prop)
    (o u o' u' : Value) : Value → Value → Value → Value → Prop where
  | both {kind : String} {old new : List Value} {a b a' b' : Value} :
      ComparedLists kind o u old new → old ≠ new → a ∈ old → b ∈ new → O a a' → U b b' →
      CallsTo f O U o u o' u' a b a' b'
  | any {kind : String} {before after : List Value} {b b' : Value} :
      sumOf o = none → sumOf u = some (kind, before ++ b :: after) →
      (∀ x ∈ before, f o x = some false) → U b b' → CallsTo f O U o u o' u' o b o' b'
  | all {kind : String} {before after : List Value} {a a' : Value} :
      sumOf o = some (kind, before ++ a :: after) → sumOf u = none →
      (∀ x ∈ before, f x u = some true) → O a a' → CallsTo f O U o u o' u' a u a' u'
  -- The sides are swapped below `not`.
  | not {a b a' b' : Value} :
      o.get "not" = some a → u.get "not" = some b → a ≠ b → O a a' → U b b' →
      CallsTo f O U o u o' u' b a b' a'

theorem sumOf_alike {v v' : Value}
    (h : ∀ key ∈ branchKeywords, Option.Rel (List.Forall₂ R) (branches v key) (branches v' key)) :
    Option.Rel (fun p p' => p.1 = p'.1 ∧ List.Forall₂ R p.2 p'.2) (sumOf v) (sumOf v') := by
  have hany := h "anyOf" (by decide)
  have hone := h "oneOf" (by decide)
  unfold sumOf
  revert hany hone
  generalize branches v "anyOf" = a, branches v' "anyOf" = a', branches v "oneOf" = b,
    branches v' "oneOf" = b'
  intro hany hone
  cases hany with
  | some hall => exact .some ⟨rfl, hall⟩
  | none =>
    cases hone with
    | none => exact .none
    | some hall => exact .some ⟨rfl, hall⟩

/-- Every call has one in its place. The lists of branches are related item by item, so each branch
has a partner; where one side is the whole schema, it is the other whole schema. -/
theorem Calls.callsTo {f : Value → Value → Option Bool} {a b : Value}
    (horig : ∀ key ∈ branchKeywords, Option.Rel (List.Forall₂ O) (branches o key) (branches o' key))
    (hupd : ∀ key ∈ branchKeywords, Option.Rel (List.Forall₂ U) (branches u key) (branches u' key))
    (hnotO : OptionAlike O (o.get "not") (o'.get "not"))
    (hnotU : OptionAlike U (u.get "not") (u'.get "not")) (h : Calls f o u a b) :
    ∃ a' b', CallsTo f O U o u o' u' a b a' b' := by
  -- A branch that is called has a partner, since the lists are related item by item.
  have hlist : ∀ {R : Value → Value → Prop} {l : List Value} {y : Option (List Value)} {x : Value},
      Option.Rel (List.Forall₂ R) (some l) y → x ∈ l → ∃ x', R x x' := by
    intro R l y x hrel hx
    cases hrel with
    | @some _ y hall =>
      obtain ⟨x', -, hx'⟩ := forall₂_mem_left hall hx
      exact ⟨x', hx'⟩
  have hsum : ∀ {R : Value → Value → Prop} {v v' : Value} {kind l x},
      (∀ key ∈ branchKeywords, Option.Rel (List.Forall₂ R) (branches v key) (branches v' key)) →
      sumOf v = some (kind, l) → x ∈ l → ∃ x', R x x' := by
    intro R v v' kind l x hrel hv hx
    have hrel := sumOf_alike hrel
    rw [hv] at hrel
    generalize sumOf v' = y at hrel
    cases hrel with
    | @some _ y hall =>
      obtain ⟨x', -, hx'⟩ := forall₂_mem_left hall.2 hx
      exact ⟨x', hx'⟩
  cases h with
  | allOf ho hu hne ha hb =>
    obtain ⟨a', haa'⟩ := hlist (ho ▸ horig "allOf" (by decide)) ha
    obtain ⟨b', hbb'⟩ := hlist (hu ▸ hupd "allOf" (by decide)) hb
    exact ⟨a', b', .both (.inl ⟨rfl, ho, hu⟩) hne ha hb haa' hbb'⟩
  | sum ho hu hne ha hb =>
    obtain ⟨a', haa'⟩ := hsum horig ho ha
    obtain ⟨b', hbb'⟩ := hsum hupd hu hb
    exact ⟨a', b', .both (.inr ⟨ho, hu⟩) hne ha hb haa' hbb'⟩
  | any ho hu hbefore =>
    obtain ⟨b', hbb'⟩ := hsum hupd hu (List.mem_append_right _ List.mem_cons_self)
    exact ⟨o', b', .any ho hu hbefore hbb'⟩
  | all ho hu hbefore =>
    obtain ⟨a', haa'⟩ := hsum horig ho (List.mem_append_right _ List.mem_cons_self)
    exact ⟨a', u', .all ho hu hbefore haa'⟩
  -- `not` has one schema on each side, and both have partners.
  | not ho hu hne =>
    rw [ho] at hnotO
    rw [hu] at hnotU
    generalize o'.get "not" = x at hnotO
    generalize u'.get "not" = y at hnotU
    cases hnotO with
    | some haa' =>
      cases hnotU with
      | some hbb' => exact ⟨_, _, .not ho hu hne haa' hbb'⟩

/-! ## Searching through branches -/

section Search

variable {f g : Value → Value → Option Bool}

theorem compareBranches_alike {old new old' new' : List Value} (hold : List.Forall₂ O old old')
    (hnew : List.Forall₂ U new new')
    (h : ∀ a b a' b', a ∈ old → b ∈ new → O a a' → U b b' → f a b = g a' b')
    (suffix : String) (extended narrowed : Kind) :
    compareBranches f old new suffix extended narrowed =
      compareBranches g old' new' suffix extended narrowed := by
  have hedges : ∀ a a', a ∈ old → O a a' → edgesOf f a new = edgesOf g a' new' := by
    intro a a' ha haa'
    unfold edgesOf
    rw [mapM_alike hnew fun b b' hb hbb' => h a b a' b' ha hb haa' hbb']
  unfold compareBranches maximumMatching
  rw [mapM_alike hold hedges, hold.length_eq, hnew.length_eq]

/-- The search for a compatible branch, by the branches that it comes to. -/
theorem anyBranch_alike {p q : Value → Option Bool} {l l' : List Value} (hl : List.Forall₂ R l l')
    (h : ∀ before b after b', l = before ++ b :: after → (∀ x ∈ before, p x = some false) →
      R b b' → p b = q b') : anyBranch p l = anyBranch q l' := by
  induction hl with
  | nil => rfl
  | @cons b b' l l' hb _ ih =>
    have hhead : p b = q b' := h [] b l b' rfl (by simp) hb
    rw [anyBranch_cons, anyBranch_cons, ← hhead]
    cases hp : p b with
    | none => rfl
    | some found =>
      cases found with
      | true => rfl
      | false =>
        apply ih
        intro before x after x' hsplit hbefore
        exact h (b :: before) x after x' (by rw [hsplit]; rfl)
          (List.forall_mem_cons.mpr ⟨hp, hbefore⟩)

/-- The search for a branch that is not. -/
theorem allBranches_alike {p q : Value → Option Bool} {l l' : List Value}
    (hl : List.Forall₂ R l l')
    (h : ∀ before b after b', l = before ++ b :: after → (∀ x ∈ before, p x = some true) →
      R b b' → p b = q b') : allBranches p l = allBranches q l' := by
  induction hl with
  | nil => rfl
  | @cons b b' l l' hb _ ih =>
    have hhead : p b = q b' := h [] b l b' rfl (by simp) hb
    rw [allBranches_cons, allBranches_cons, ← hhead]
    cases hp : p b with
    | none => rfl
    | some found =>
      cases found with
      | false => rfl
      | true =>
        apply ih
        intro before x after x' hsplit hbefore
        exact h (b :: before) x after x' (by rw [hsplit]; rfl)
          (List.forall_mem_cons.mpr ⟨hp, hbefore⟩)

/-- The edges of a branch go to the branches of the update it is compatible with. -/
theorem mem_edgesOf {a : Value} {new : List Value} {edges : List ℕ}
    (h : edgesOf f a new = some edges) (i : ℕ) :
    i ∈ edges ↔ ∃ b, new[i]? = some b ∧ f a b = some true := by
  obtain ⟨answers, hanswers, heq⟩ := Option.bind_eq_some_iff.mp h
  cases heq
  have hall := mapM_eq_some.mp hanswers
  have hget : answers[i]? = some true ↔ ∃ b, new[i]? = some b ∧ f a b = some true := by
    constructor
    · intro hi
      obtain ⟨hlt, htrue⟩ := List.getElem?_eq_some_iff.mp hi
      have hlt' : i < new.length := by rw [hall.length_eq]; exact hlt
      have hanswer : f a new[i] = some answers[i] := hall.get hlt' hlt
      exact ⟨new[i], List.getElem?_eq_getElem hlt', by rw [hanswer, htrue]⟩
    · rintro ⟨b, hb, htrue⟩
      obtain ⟨hlt', rfl⟩ := List.getElem?_eq_some_iff.mp hb
      have hlt : i < answers.length := by rw [← hall.length_eq]; exact hlt'
      have hanswer : f a new[i] = some answers[i] := hall.get hlt' hlt
      rw [List.getElem?_eq_getElem hlt, ← hanswer, htrue]
  rw [List.mem_filter, decide_eq_true_iff, hget, and_iff_right_iff_imp]
  rintro hbound
  exact List.mem_range.mpr (List.getElem?_eq_some_iff.mp (hget.mpr hbound)).1

/-- The edges of all branches, when every pair has an answer. -/
theorem exists_edges {old new : List Value} (hsome : ∀ a ∈ old, ∀ b ∈ new, (f a b).isSome) :
    ∃ edges, old.mapM (fun branch => edgesOf f branch new) = some edges :=
  Option.isSome_iff_exists.mp (mapM_isSome.mpr fun a ha => edgesOf_isSome.mpr (hsome a ha))

section Edges

variable {old new : List Value} {edges : List (List ℕ)}
  (hedges : old.mapM (fun branch => edgesOf f branch new) = some edges)

include hedges

/-- The search is the one of the library, over the edges of all branches. -/
theorem maximumMatching_eq :
    maximumMatching f old new =
      some (Library.Matching.maximumMatching (fun index => (edges[index]?).getD []) old.length
        new.length) := by
  unfold maximumMatching
  rw [hedges]
  rfl

theorem mem_edges (i j : ℕ) :
    j ∈ (edges[i]?).getD [] ↔
      ∃ a b, old[i]? = some a ∧ new[j]? = some b ∧ f a b = some true := by
  have hall := mapM_eq_some.mp hedges
  by_cases hi : i < old.length
  · have hi' : i < edges.length := by rw [← hall.length_eq]; exact hi
    have hrow : edgesOf f old[i] new = some edges[i] := hall.get hi hi'
    simp only [List.getElem?_eq_getElem hi', List.getElem?_eq_getElem hi, Option.getD_some,
      mem_edgesOf hrow]
    simp
  · have hi' : edges.length ≤ i := by rw [← hall.length_eq]; omega
    simp [List.getElem?_eq_none hi', List.getElem?_eq_none (Nat.le_of_not_lt hi)]

/-- The edges stay within the branches of the update. -/
theorem edges_lt (i : ℕ) : ∀ j ∈ (edges[i]?).getD [], j < new.length := by
  intro j hj
  obtain ⟨a, b, -, hb, -⟩ := (mem_edges hedges i j).mp hj
  exact (List.getElem?_eq_some_iff.mp hb).1

end Edges

/-- The search finds a full matching when branch and branch are compatible one by one. -/
theorem maximumMatching_matched {old new : List Value} (h : Matched f old new) :
    maximumMatching f old new = some old.length := by
  obtain ⟨hsome, hmatched⟩ := h
  have hlen := hmatched.length_eq
  obtain ⟨edges, hedges⟩ := exists_edges hsome
  have hself : ∀ i < old.length, i ∈ (edges[i]?).getD [] := by
    intro i hi
    have hi' : i < new.length := by rw [← hlen]; exact hi
    exact (mem_edges hedges i i).mpr ⟨old[i], new[i], List.getElem?_eq_getElem hi,
      List.getElem?_eq_getElem hi', hmatched.get hi hi'⟩
  rw [maximumMatching_eq hedges,
    Library.Matching.maximumMatching_full (edges_lt hedges) hself fun _ _ _ _ h => h]

theorem compareBranches_matched {old new : List Value} (h : Matched f old new) (suffix : String)
    (extended narrowed : Kind) : compareBranches f old new suffix extended narrowed = some [] := by
  have hlen := h.2.length_eq
  unfold compareBranches
  rw [maximumMatching_matched h]
  simp [hlen]

end Search

/-! ## Combinators -/

section Combinators

variable {f g : Value → Value → Option Bool}

/-- Reports that are all compatible on one side when they are on the other. -/
def ReportsAlike (x y : Option (List Step)) : Prop :=
  Option.Rel (fun steps steps' => (∀ s ∈ steps, s.Ok fun _ _ => none) ↔
    ∀ s ∈ steps', s.Ok fun _ _ => none) x y

theorem ReportsAlike.of_eq {x y : Option (List Step)} (h : x = y) : ReportsAlike x y := by
  subst h
  cases x with
  | none => exact .none
  | some steps => exact .some Iff.rfl

theorem ReportsAlike.isSome {x y : Option (List Step)} (h : ReportsAlike x y) :
    x.isSome ↔ y.isSome := by
  cases h with
  | none => exact Iff.rfl
  | some => simp

variable (h : CombinatorsAlike O U f o u o' u')
  (hcalls : ∀ a b a' b', CallsTo f O U o u o' u' a b a' b' → f a b = g a' b')
include h hcalls

/-- Two lists of branches, with the lists in their place. -/
theorem compareLists_alike {kind : String} {old new old' new' : List Value}
    (hlists : ComparedLists kind o u old new) (hlists' : ComparedLists kind o' u' old' new')
    (hold : List.Forall₂ O old old') (hnew : List.Forall₂ U new new') (suffix : String)
    (extended narrowed : Kind) :
    (if old ≠ new then compareBranches f old new suffix extended narrowed else some []) =
      if old' ≠ new' then compareBranches g old' new' suffix extended narrowed else some [] := by
  obtain ⟨hequal, hmatched⟩ := h.lists kind old new old' new' hlists hlists' hold hnew
  by_cases hne : old = new
  · rw [if_neg (not_not.mpr hne), if_neg (not_not.mpr (hequal hne))]
  · rw [if_pos hne]
    by_cases hne' : old' = new'
    · rw [if_neg (not_not.mpr hne')]
      exact compareBranches_matched (hmatched hne hne') suffix extended narrowed
    · rw [if_pos hne']
      exact compareBranches_alike hold hnew
        (fun a b a' b' ha hb haa' hbb' => hcalls a b a' b' (.both hlists hne ha hb haa' hbb'))
        suffix extended narrowed

theorem compareAllOf_alike : compareAllOf f o u = compareAllOf g o' u' := by
  have hcompare : ∀ old new old' new', ComparedLists "allOf" o u old new →
      ComparedLists "allOf" o' u' old' new' → _ :=
    fun old new old' new' => compareLists_alike h hcalls
  have horig := h.origLists "allOf" (by decide)
  have hupd := h.updLists "allOf" (by decide)
  unfold ComparedLists at hcompare
  unfold compareAllOf
  revert horig hupd hcompare
  generalize branches o "allOf" = a, branches o' "allOf" = a', branches u "allOf" = b,
    branches u' "allOf" = b'
  intro hcompare horig hupd
  cases horig with
  | none =>
    cases hupd with
    | none => rfl
    | some => rfl
  | some hold =>
    cases hupd with
    | none => rfl
    | some hnew =>
      exact hcompare _ _ _ _ (.inl ⟨rfl, rfl, rfl⟩) (.inl ⟨rfl, rfl, rfl⟩) hold hnew _ _ _

theorem compareSum_alike : compareSum f o u = compareSum g o' u' := by
  have horig := sumOf_alike h.origLists
  have hupd := sumOf_alike h.updLists
  -- The two sides have their sums in the same places, so each case on the left has its like on the
  -- right; the mixed ones contradict `sumOf_alike`.
  unfold compareSum
  cases ho : sumOf o with
  | none =>
    rw [ho] at horig
    cases ho' : sumOf o' with
    | some => rw [ho'] at horig; cases horig
    | none =>
      cases hu : sumOf u with
      | none =>
        rw [hu] at hupd
        cases hu' : sumOf u' with
        | some => rw [hu'] at hupd; cases hupd
        | none => rfl
      | some new =>
        rw [hu] at hupd
        obtain ⟨kind, new⟩ := new
        cases hu' : sumOf u' with
        | none => rw [hu'] at hupd; cases hupd
        | some new' =>
          rw [hu'] at hupd
          obtain ⟨kind', new'⟩ := new'
          cases hupd with
          | some hupd =>
            obtain ⟨rfl, hnew⟩ := hupd
            have hsearch : anyBranch (f o) new = anyBranch (g o') new' := by
              -- The search stops at the first branch that fits, so only the branches before it are
              -- called.
              apply anyBranch_alike hnew
              rintro before b after b' rfl hbefore hbb'
              exact hcalls o b o' b' (.any ho hu hbefore hbb')
            simp only [hsearch]
  | some old =>
    rw [ho] at horig
    obtain ⟨oldKind, old⟩ := old
    cases ho' : sumOf o' with
    | none => rw [ho'] at horig; cases horig
    | some old' =>
      rw [ho'] at horig
      obtain ⟨oldKind', old'⟩ := old'
      cases horig with
      | some horig =>
        obtain ⟨rfl, hold⟩ := horig
        cases hu : sumOf u with
        | none =>
          rw [hu] at hupd
          cases hu' : sumOf u' with
          | some => rw [hu'] at hupd; cases hupd
          | none =>
            have hsearch : allBranches (f · u) old = allBranches (g · u') old' := by
              -- And this one at the first branch that does not fit.
              apply allBranches_alike hold
              rintro before a after a' rfl hbefore haa'
              exact hcalls a u a' u' (.all ho hu hbefore haa')
            simp only [hsearch]
        | some new =>
          rw [hu] at hupd
          obtain ⟨newKind, new⟩ := new
          cases hu' : sumOf u' with
          | none => rw [hu'] at hupd; cases hupd
          | some new' =>
            rw [hu'] at hupd
            obtain ⟨newKind', new'⟩ := new'
            cases hupd with
            | some hupd =>
              obtain ⟨rfl, hnew⟩ := hupd
              simp only
              by_cases hkind : oldKind = newKind
              · subst hkind
                simp only [ne_eq, not_true_eq_false, if_false]
                exact compareLists_alike h hcalls (.inr ⟨ho, hu⟩) (.inr ⟨ho', hu'⟩) hold hnew _ _ _
              · rw [if_pos hkind, if_pos hkind]

theorem compareNot_alike : ReportsAlike (compareNot f o u) (compareNot g o' u') := by
  have horig := h.origNot
  have hupd := h.updNot
  have hsame := h.not
  have hswap := fun a b a' b' ha hb hne haa' hbb' =>
    hcalls b a b' a' (.not (a := a) (b := b) ha hb hne haa' hbb')
  unfold compareNot
  revert horig hupd hsame hswap
  generalize o.get "not" = a, o'.get "not" = a', u.get "not" = b, u'.get "not" = b'
  intro horig hupd hsame hswap
  cases horig with
  | none => cases hupd <;> exact .of_eq rfl
  | @some a a' ha =>
    cases hupd with
    | none => exact .of_eq rfl
    | @some b b' hb =>
      obtain ⟨hequal, hcompatible⟩ := hsame a b a' b' rfl rfl rfl rfl
      by_cases hne : a = b
      · simp only [ne_eq, hne, not_true_eq_false, if_false, hequal hne]
        exact .of_eq rfl
      · by_cases hne' : a' = b'
        · -- The comparison that only one side makes finds the branches compatible.
          simp only [ne_eq, hne, not_false_eq_true, if_true, hne', not_true_eq_false, if_false,
            hcompatible hne hne']
          exact .some (by simp [Step.Ok, isBackwardCompatible])
        · simp only [ne_eq, hne, not_false_eq_true, if_true, hne',
            hswap a b a' b' rfl rfl hne ha hb]
          exact .of_eq rfl

/-- **Combinators.**  Corresponding combinators report alike, when the calls are answered alike. -/
theorem compareCombinators_alike :
    ReportsAlike (compareCombinators f o u) (compareCombinators g o' u') := by
  have hnot := compareNot_alike h hcalls
  unfold compareCombinators
  rw [compareAllOf_alike h hcalls, compareSum_alike h hcalls]
  generalize compareNot f o u = x, compareNot g o' u' = y at hnot
  cases compareAllOf g o' u' with
  | none => exact .none
  | some products =>
    cases compareSum g o' u' with
    | none => exact .none
    | some sums =>
      cases hnot with
      | none => exact .none
      | some hok =>
        refine .some ?_
        simp only [List.forall_mem_append, hok]

end Combinators

/-! ## One verdict -/

/-- Two pairs of schemas without `$ref`s have one verdict, if their combinators report alike and
the check of their other steps answers alike. -/
theorem judge_alike {f g : Comparison → Option Bool} {ctx ctx' : Ctx} (h : NoRefs o u)
    (h' : NoRefs o' u')
    (hcombinators : ReportsAlike (compareCombinators (fun a b => f ⟨ctx.fresh, a, b⟩) o u)
      (compareCombinators (fun a b => g ⟨ctx'.fresh, a, b⟩) o' u'))
    (hsteps : checkSteps (fun a b => f ⟨ctx, a, b⟩) (keywordSteps L o u) =
      checkSteps (fun a b => g ⟨ctx', a, b⟩) (keywordSteps L o' u')) :
    judge L f ⟨ctx, o, u⟩ = judge L g ⟨ctx', o', u'⟩ := by
  -- The three parts of a verdict: the keywords accept, they end, and the combinators report nothing
  -- incompatible.
  have hok : (∀ s ∈ keywordSteps L o u, s.Ok fun a b => f ⟨ctx, a, b⟩) ↔
      ∀ s ∈ keywordSteps L o' u', s.Ok fun a b => g ⟨ctx', a, b⟩ := by
    rw [← checkSteps_eq_true, ← checkSteps_eq_true, hsteps]
  have hends : (∀ s ∈ keywordSteps L o u, s.Ends fun a b => f ⟨ctx, a, b⟩) ↔
      ∀ s ∈ keywordSteps L o' u', s.Ends fun a b => g ⟨ctx', a, b⟩ := by
    rw [← checkSteps_isSome, ← checkSteps_isSome, hsteps]
  have hreports : (∃ combinators, compareCombinators (fun a b => f ⟨ctx.fresh, a, b⟩) o u =
      some combinators ∧ ∀ s ∈ combinators, s.Ok fun a b => f ⟨ctx, a, b⟩) ↔
      ∃ combinators, compareCombinators (fun a b => g ⟨ctx'.fresh, a, b⟩) o' u' =
        some combinators ∧ ∀ s ∈ combinators, s.Ok fun a b => g ⟨ctx', a, b⟩ := by
    have honly : ∀ steps, compareCombinators (fun a b => f ⟨ctx.fresh, a, b⟩) o u = some steps →
        ((∀ s ∈ steps, s.Ok fun a b => f ⟨ctx, a, b⟩) ↔ ∀ s ∈ steps, s.Ok fun _ _ => none) :=
      fun steps h => (compareCombinators_onlyReports h).ok_iff _ _
    have honly' : ∀ steps, compareCombinators (fun a b => g ⟨ctx'.fresh, a, b⟩) o' u' =
        some steps →
        ((∀ s ∈ steps, s.Ok fun a b => g ⟨ctx', a, b⟩) ↔ ∀ s ∈ steps, s.Ok fun _ _ => none) :=
      fun steps h => (compareCombinators_onlyReports h).ok_iff _ _
    generalize compareCombinators (fun a b => f ⟨ctx.fresh, a, b⟩) o u = x at hcombinators honly
    generalize compareCombinators (fun a b => g ⟨ctx'.fresh, a, b⟩) o' u' = y
      at hcombinators honly'
    cases hcombinators with
    | none => simp
    | some hiff =>
      simp only [Option.some.injEq, exists_eq_left']
      rw [honly _ rfl, honly' _ rfl, hiff]
  -- An answer is determined by whether it is `true` and whether it is there.
  have htrue : judge L f ⟨ctx, o, u⟩ = some true ↔ judge L g ⟨ctx', o', u'⟩ = some true := by
    rw [judge_plain_true h, judge_plain_true h', hreports, hok]
  have hsome : (judge L f ⟨ctx, o, u⟩).isSome ↔ (judge L g ⟨ctx', o', u'⟩).isSome := by
    rw [judge_plain_isSome h, judge_plain_isSome h', hcombinators.isSome, hends]
  generalize judge L f ⟨ctx, o, u⟩ = x at htrue hsome
  generalize judge L g ⟨ctx', o', u'⟩ = y at htrue hsome
  rcases x with _ | _ | _ <;> rcases y with _ | _ | _ <;> simp_all

end KrabkaRegistry.Format.Json
