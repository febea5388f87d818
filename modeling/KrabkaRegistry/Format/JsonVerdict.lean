import KrabkaRegistry.Format.JsonDiff
import KrabkaRegistry.Library.Fuel

/-!
# The Verdict of a JSON Schema Comparison

Compatibility looks at the kinds of the differences and not at their paths.  `judge` is the
recursion of `compareSchema` with only that left, and `verdict` is its outcome: whether all the
differences of two schemas are compatible, if the comparison ends.

- `compareSchema_verdict`: the verdict is that of the differences that `compareSchema` finds;
- `verdict_eq`: the recursion equation, without fuel;
- `accepts_iff`: what it means for `json::check` to accept.
-/

namespace KrabkaRegistry.Format.Json

open Library.Fuel

variable (L : DiffLibs)

/-- Two schemas that are compared, and where. -/
structure Comparison where
  ctx : Ctx
  orig : Value
  upd : Value

/-! ## Steps -/

/-- Whether all the differences of the steps are compatible. -/
def checkSteps (compare : Value → Value → Option Bool) : List Step → Option Bool
  | [] => some true
  | .report kind _ :: steps => (checkSteps compare steps).map (isBackwardCompatible kind && ·)
  | .recurse _ orig upd :: steps =>
    (compare orig upd).bind fun below => (checkSteps compare steps).map (below && ·)

/-- A step that finds no incompatible difference. -/
def Step.Ok (compare : Value → Value → Option Bool) : Step → Prop
  | .report kind _ => isBackwardCompatible kind = true
  | .recurse _ orig upd => compare orig upd = some true

/-- A step whose comparison ends. -/
def Step.Ends (compare : Value → Value → Option Bool) : Step → Prop
  | .report _ _ => True
  | .recurse _ orig upd => (compare orig upd).isSome

section Steps

variable {compare : Value → Value → Option Bool}

/-- A list of steps is accepted when every step is. -/
theorem checkSteps_eq_true {steps : List Step} :
    checkSteps compare steps = some true ↔ ∀ s ∈ steps, s.Ok compare := by
  induction steps with
  | nil => simp [checkSteps]
  | cons s steps ih =>
    rw [List.forall_mem_cons, ← ih]
    cases s with
    | report kind suffix =>
      simp only [checkSteps, Step.Ok]
      cases checkSteps compare steps <;> simp
    | recurse suffix orig upd =>
      simp only [checkSteps, Step.Ok]
      cases compare orig upd <;> cases checkSteps compare steps <;> simp

/-- It is decided when every step is, since all of them are asked. -/
theorem checkSteps_isSome {steps : List Step} :
    (checkSteps compare steps).isSome ↔ ∀ s ∈ steps, s.Ends compare := by
  induction steps with
  | nil => simp [checkSteps]
  | cons s steps ih =>
    rw [List.forall_mem_cons, ← ih]
    cases s with
    | report kind suffix => simp [checkSteps, Step.Ends]
    | recurse suffix orig upd =>
      cases hc : compare orig upd <;> simp [checkSteps, Step.Ends, hc]

/-- An accepted step is decided. -/
theorem Step.Ok.ends {s : Step} (h : s.Ok compare) : s.Ends compare := by
  cases s with
  | report kind suffix => trivial
  | recurse suffix orig upd =>
    have hc : compare orig upd = some true := h
    simp [Step.Ends, hc]

/-- The steps and the differences that they give. -/
theorem runSteps_map {run : String → Value → Value → Option (List Difference)}
    (h : ∀ path o u, (run path o u).map allCompatible = compare o u) (path : String) :
    ∀ steps, (runSteps run path steps).map allCompatible = checkSteps compare steps := by
  intro steps
  induction steps with
  | nil => rfl
  | cons s steps ih =>
    cases s with
    | report kind suffix =>
      simp only [runSteps, checkSteps, ← ih]
      cases runSteps run path steps <;> simp [allCompatible]
    | recurse suffix orig upd =>
      simp only [runSteps, checkSteps, ← ih, ← h (path ++ suffix) orig upd]
      cases run (path ++ suffix) orig upd <;> cases runSteps run path steps <;>
        simp [allCompatible]

end Steps

/-! ## The recursion -/

/-- One call of `compare_schema`, given the verdicts of the calls it makes. -/
def judge (compare : Comparison → Option Bool) (c : Comparison) : Option Bool :=
  match compareRefs c.ctx c.orig c.upd with
  | .stop => some true
  | .follow ctx _ o u => compare ⟨ctx, o, u⟩
  | .noRefs =>
    (schemaSteps L (fun o u => compare ⟨c.ctx.fresh, o, u⟩) c.orig c.upd).bind
      (checkSteps fun o u => compare ⟨c.ctx, o, u⟩)

/-- The verdict does not depend on the path. -/
theorem compareSchema_judge (fuel : ℕ) : ∀ (ctx : Ctx) (path : String) (orig upd : Value),
    (compareSchema L fuel ctx path orig upd).map allCompatible =
      iterate (judge L) fuel ⟨ctx, orig, upd⟩ := by
  induction fuel with
  | zero => intro ctx path orig upd; rfl
  | succ fuel ih =>
    intro ctx path orig upd
    rw [compareSchema, iterate, judge]
    cases hr : compareRefs ctx orig upd with
    | stop => rfl
    | follow ctx' suffix o u => exact ih ctx' (path ++ suffix) o u
    | noRefs =>
      have hbranch : (fun o u => (compareSchema L fuel ctx.fresh "#" o u).map allCompatible) =
          fun o u => iterate (judge L) fuel ⟨ctx.fresh, o, u⟩ := by
        funext o u
        exact ih ctx.fresh "#" o u
      simp only [hbranch]
      cases schemaSteps L (fun o u => iterate (judge L) fuel ⟨ctx.fresh, o, u⟩) orig upd with
      | none => rfl
      | some steps =>
        exact runSteps_map (fun path o u => ih ctx path o u) path steps

/-! ## The recursion is finitary -/

section Finitary

variable {α : Type}

/-- The search for a branch that fits, unfolded once. -/
theorem anyBranch_cons (test : Value → Option Bool) (branch : Value) (rest : List Value) :
    anyBranch test (branch :: rest) =
      (test branch).bind fun found => if found then some true else anyBranch test rest := by
  rw [anyBranch]
  rcases test branch with _ | _ | _ <;> rfl

/-- The search for a branch that does not fit, unfolded once. -/
theorem allBranches_cons (test : Value → Option Bool) (branch : Value) (rest : List Value) :
    allBranches test (branch :: rest) =
      (test branch).bind fun found => if found then allBranches test rest else some false := by
  rw [allBranches]
  rcases test branch with _ | _ | _ <;> rfl

/-- A function of two values as a part of the functions of a comparison. -/
private theorem finitary_call (ctx : Ctx) (o u : Value) :
    Finitary fun f : Comparison → Option Bool => f ⟨ctx, o, u⟩ := finitary_apply _

/-- The search for a branch that fits asks finitely many questions. -/
private theorem finitary_anyBranch {test : Value → (Comparison → Option Bool) → Option Bool}
    (h : ∀ v, Finitary (test v)) (l : List Value) :
    Finitary fun f => anyBranch (fun v => test v f) l := by
  induction l with
  | nil => exact finitary_const _
  | cons v l ih =>
    simp only [anyBranch_cons]
    refine (h v).bind fun found => ?_
    cases found with
    | true => exact finitary_const _
    | false => simpa using ih

/-- The search for one that does not fit asks finitely many questions. -/
private theorem finitary_allBranches {test : Value → (Comparison → Option Bool) → Option Bool}
    (h : ∀ v, Finitary (test v)) (l : List Value) :
    Finitary fun f => allBranches (fun v => test v f) l := by
  induction l with
  | nil => exact finitary_const _
  | cons v l ih =>
    simp only [allBranches_cons]
    refine (h v).bind fun found => ?_
    cases found with
    | true => simpa using ih
    | false => exact finitary_const _

variable (ctx : Ctx)

/-- A matching asks one question for every pair of branches. -/
private theorem finitary_maximumMatching (old new : List Value) :
    Finitary fun f : Comparison → Option Bool =>
      maximumMatching (fun o u => f ⟨ctx, o, u⟩) old new := by
  have hedges : ∀ branch, Finitary fun f : Comparison → Option Bool =>
      edgesOf (fun o u => f ⟨ctx, o, u⟩) branch new := fun branch =>
    (Finitary.mapM (fun u => finitary_call ctx branch u) new).bind fun _ => finitary_const _
  exact (Finitary.mapM hedges old).bind fun _ => finitary_const _

/-- The step for matched branches asks what the matching asks. -/
private theorem finitary_compareBranches (old new : List Value) (suffix : String)
    (extended narrowed : Kind) :
    Finitary fun f : Comparison → Option Bool =>
      compareBranches (fun o u => f ⟨ctx, o, u⟩) old new suffix extended narrowed := by
  refine (finitary_maximumMatching ctx old new).bind fun matched => ?_
  split_ifs <;> exact finitary_const _

/-- `allOf` asks what its matched branches ask. -/
private theorem finitary_compareAllOf (orig upd : Value) :
    Finitary fun f : Comparison → Option Bool =>
      compareAllOf (fun o u => f ⟨ctx, o, u⟩) orig upd := by
  unfold compareAllOf
  cases branches orig "allOf" with
  | none => cases branches upd "allOf" <;> exact finitary_const _
  | some old =>
    cases branches upd "allOf" with
    | none => exact finitary_const _
    | some new =>
      by_cases heq : old = new
      · simpa [heq] using finitary_const _
      · simpa [heq] using finitary_compareBranches ctx old new _ _ _

/-- The two sums and the searches for a single schema. -/
private theorem finitary_compareSum (orig upd : Value) :
    Finitary fun f : Comparison → Option Bool =>
      compareSum (fun o u => f ⟨ctx, o, u⟩) orig upd := by
  unfold compareSum
  rcases sumOf orig with _ | ⟨oldKind, old⟩ <;> rcases sumOf upd with _ | ⟨newKind, new⟩
  · exact finitary_const _
  · exact (finitary_anyBranch (fun v => finitary_call ctx orig v) new).bind
      fun _ => finitary_const _
  · exact (finitary_allBranches (fun v => finitary_call ctx v upd) old).bind
      fun _ => finitary_const _
  · by_cases hkind : oldKind = newKind
    · by_cases heq : old = new
      · simpa [hkind, heq] using finitary_const _
      · simpa [hkind, heq] using finitary_compareBranches ctx old new _ _ _
    · simpa [hkind] using finitary_const _

/-- `not` asks one question. -/
private theorem finitary_compareNot (orig upd : Value) :
    Finitary fun f : Comparison → Option Bool =>
      compareNot (fun o u => f ⟨ctx, o, u⟩) orig upd := by
  unfold compareNot
  cases orig.get "not" with
  | none => cases upd.get "not" <;> exact finitary_const _
  | some old =>
    cases upd.get "not" with
    | none => exact finitary_const _
    | some new =>
      by_cases heq : old = new
      · simpa [heq] using finitary_const _
      · have h := (finitary_call ctx new old).bind fun found : Bool =>
          finitary_const (α := Comparison) (β := Bool)
            (some [Step.report (if found then .notTypeNarrowed else .notTypeExtended) "/not"])
        simpa [heq] using h

/-- Building the steps of a comparison needs finitely many answers. -/
private theorem finitary_schemaSteps (orig upd : Value) :
    Finitary fun f : Comparison → Option Bool =>
      schemaSteps L (fun o u => f ⟨ctx, o, u⟩) orig upd := by
  have hcombinators : Finitary fun f : Comparison → Option Bool =>
      compareCombinators (fun o u => f ⟨ctx, o, u⟩) orig upd :=
    (finitary_compareAllOf ctx orig upd).bind fun _ =>
      (finitary_compareSum ctx orig upd).bind fun _ =>
        (finitary_compareNot ctx orig upd).bind fun _ => finitary_const _
  exact hcombinators.bind fun _ => finitary_const _

/-- Checking the steps needs one answer for each recursion. -/
private theorem finitary_checkSteps (steps : List Step) :
    Finitary fun f : Comparison → Option Bool => checkSteps (fun o u => f ⟨ctx, o, u⟩) steps := by
  induction steps with
  | nil => exact finitary_const _
  | cons s steps ih =>
    cases s with
    | report kind suffix => exact ih.map _
    | recurse suffix orig upd =>
      exact (finitary_call ctx orig upd).bind fun below => ih.map _

/-- Hence one comparison looks at finitely many others, which is what makes the verdict the limit of
the fuelled runs. -/
theorem judge_finitary (c : Comparison) : Finitary fun f => judge L f c := by
  unfold judge
  cases compareRefs c.ctx c.orig c.upd with
  | stop => exact finitary_const _
  | follow ctx suffix o u => exact finitary_call ctx o u
  | noRefs =>
    exact (finitary_schemaSteps L c.ctx.fresh c.orig c.upd).bind fun steps =>
      finitary_checkSteps c.ctx steps

end Finitary

/-! ## Verdicts -/

/-- Whether all the differences are compatible, if the comparison ends. -/
noncomputable def verdict (c : Comparison) : Option Bool := outcome (judge L) c

/-- The verdict solves the equation that one comparison states. -/
theorem verdict_eq (c : Comparison) : verdict L c = judge L (verdict L) c :=
  outcome_eq (judge_finitary L) c

/-- A run with enough fuel returns the verdict, and only that. -/
theorem compareSchema_verdict {ctx : Ctx} {orig upd : Value} {b : Bool} :
    verdict L ⟨ctx, orig, upd⟩ = some b ↔
      ∃ fuel, (compareSchema L fuel ctx "#" orig upd).map allCompatible = some b := by
  simp only [compareSchema_judge]
  exact outcome_eq_some (judge_finitary L)

/-- The comparison of two documents with their references. -/
def Comparison.ofSchemas (reader writer : JsonSchema) : Comparison :=
  ⟨⟨writer.value, reader.value, writer.refs, reader.refs, ∅⟩, writer.value, reader.value⟩

/-! ## What `json::check` answers -/

/-- `json::check` ends with `Ok`. -/
def Accepts (reader writer : String) (readerRefs writerRefs : List ResolvedReference) : Prop :=
  ∃ fuel, check L fuel reader writer readerRefs writerRefs = some (.ok ())

/-- `json::check` ends with `Err`. -/
def Rejects (reader writer : String) (readerRefs writerRefs : List ResolvedReference) : Prop :=
  ∃ fuel messages, check L fuel reader writer readerRefs writerRefs = some (.error messages)

/-- The check of parsed schemas answers by the verdict. -/
theorem checkParsed_ok {fuel : ℕ} {reader writer : JsonSchema} :
    checkParsed L fuel reader writer = some (.ok ()) ↔
      iterate (judge L) fuel (Comparison.ofSchemas reader writer) = some true := by
  rw [Comparison.ofSchemas, ← compareSchema_judge L fuel _ "#"]
  unfold checkParsed compareWithRefs
  cases compareSchema L fuel
    ⟨writer.value, reader.value, writer.refs, reader.refs, ∅⟩ "#" writer.value reader.value with
  | none => simp
  | some diffs =>
    simp only [allCompatible, Option.map_some, Option.some.injEq, List.all_eq_true]
    simp

/-- A refusal lists the differences of a comparison that said no. -/
theorem checkParsed_error {fuel : ℕ} {reader writer : JsonSchema} :
    (∃ messages, checkParsed L fuel reader writer = some (.error messages)) ↔
      iterate (judge L) fuel (Comparison.ofSchemas reader writer) = some false := by
  have hok : checkParsed L fuel reader writer = some (.ok ()) ↔ _ := checkParsed_ok L
  have hsome : (checkParsed L fuel reader writer).isSome ↔
      (iterate (judge L) fuel (Comparison.ofSchemas reader writer)).isSome := by
    rw [Comparison.ofSchemas, ← compareSchema_judge L fuel _ "#"]
    unfold checkParsed compareWithRefs
    cases compareSchema L fuel
      ⟨writer.value, reader.value, writer.refs, reader.refs, ∅⟩ "#" writer.value reader.value <;>
      simp
  cases hc : checkParsed L fuel reader writer with
  | none =>
    cases hi : iterate (judge L) fuel (Comparison.ofSchemas reader writer) <;>
      simp [hc, hi] at hsome ⊢
  | some result =>
    cases hi : iterate (judge L) fuel (Comparison.ofSchemas reader writer) with
    | none => simp [hc, hi] at hsome
    | some b =>
      rcases result with messages | ⟨⟨⟩⟩ <;> cases b <;> simp_all

/-- The texts parse, to these schemas. -/
def Parses (text : String) (refs : List ResolvedReference) (schema : JsonSchema) : Prop :=
  parse L.serdeJson text refs = .ok schema

variable {L}

/-- For parsed schemas, acceptance is a positive verdict of the two roots. -/
theorem accepts_iff {reader writer : String} {readerRefs writerRefs : List ResolvedReference}
    {readerS writerS : JsonSchema} (hr : Parses L reader readerRefs readerS)
    (hw : Parses L writer writerRefs writerS) :
    Accepts L reader writer readerRefs writerRefs ↔
      verdict L (.ofSchemas readerS writerS) = some true := by
  unfold Parses at hr hw
  simp only [Accepts, check, hr, hw, checkParsed_ok]
  exact (outcome_eq_some (judge_finitary L)).symm

/-- For parsed schemas, refusal is a negative verdict of the two roots. -/
theorem rejects_iff {reader writer : String} {readerRefs writerRefs : List ResolvedReference}
    {readerS writerS : JsonSchema} (hr : Parses L reader readerRefs readerS)
    (hw : Parses L writer writerRefs writerS) :
    Rejects L reader writer readerRefs writerRefs ↔
      verdict L (.ofSchemas readerS writerS) = some false := by
  unfold Parses at hr hw
  simp only [Rejects, check, hr, hw, checkParsed_error]
  exact (outcome_eq_some (judge_finitary L)).symm

/-- A run that ends decides the verdict. -/
theorem verdict_of_run {reader writer : JsonSchema} {b : Bool} (fuel : ℕ)
    (h : (compareWithRefs L fuel writer.value reader.value writer.refs reader.refs).map
      allCompatible = some b) : verdict L (.ofSchemas reader writer) = some b :=
  (compareSchema_verdict L).mpr ⟨fuel, h⟩

/-- No text is both accepted and rejected. -/
theorem not_accepts_of_rejects {reader writer : String}
    {readerRefs writerRefs : List ResolvedReference} {readerS writerS : JsonSchema}
    (hr : Parses L reader readerRefs readerS) (hw : Parses L writer writerRefs writerS)
    (h : Rejects L reader writer readerRefs writerRefs) :
    ¬ Accepts L reader writer readerRefs writerRefs := by
  rw [rejects_iff hr hw] at h
  rw [accepts_iff hr hw, h]
  simp

end KrabkaRegistry.Format.Json
