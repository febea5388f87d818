import KrabkaRegistry.Format.JsonBasic

/-!
# Comparing Schemas of Few Keywords

Where documents use only `type`, `properties`, `$defs` and `$ref`, a comparison walks along the
properties that both sides declare and follows `$ref`s on the way.  `Paired` is that walk without
the guard against cycles.

- `GuardExact`: a pair of `$ref`s that comes again below itself has the same targets
- `verdict_paired_iff`: under this condition the guard hides nothing
-/

namespace KrabkaRegistry.Format.Json

open Relation (ReflTransGen)

variable {L : DiffLibs}

/-! ## Pairs of schemas -/

/-- The pairs of schemas that belong together: along `$ref`s and shared properties. -/
inductive Paired (c : Comparison) : Value → Value → Prop where
  | start : Paired c c.orig c.upd
  | follow {o u o' u' : Value} : Paired c o u →
      Comparison.targets ⟨c.ctx, o, u⟩ = some (o', u') → Paired c o' u'
  | property {o u a b : Value} {name : String} : Paired c o u → NoRefs o u →
      (declared o).lookup name = some a → (name, b) ∈ declared u → Paired c a b

/-- Where a pair of `$ref`s comes again below itself, its targets are the same.  This can fail only
for a `$ref` of one side, against schemas without one of the other. -/
def GuardExact (c : Comparison) : Prop :=
  ∀ o u o' u', Paired c o u → Paired ⟨c.ctx, o, u⟩ o' u' → ¬ NoRefs o' u' →
    Comparison.key ⟨c.ctx, o, u⟩ = Comparison.key ⟨c.ctx, o', u'⟩ →
    ∀ p, Comparison.targets ⟨c.ctx, o, u⟩ = some p → Comparison.targets ⟨c.ctx, o', u'⟩ = some p

/-- Every schema that is compared uses these keywords only. -/
def PairedBasic (c : Comparison) : Prop := ∀ o u, Paired c o u → Basic o ∧ Basic u

/-- What two schemas report by themselves is compatible. -/
def ReportsOk (L : DiffLibs) (o u : Value) : Prop :=
  ∀ kind suffix, .report kind suffix ∈ keywordSteps L o u → isBackwardCompatible kind = true

variable {c : Comparison} {o u : Value}

theorem Paired.trans {o' u' : Value} (h : Paired c o u) (h' : Paired ⟨c.ctx, o, u⟩ o' u') :
    Paired c o' u' := by
  induction h' with
  | start => exact h
  | follow _ htargets ih => exact .follow ih htargets
  | property _ hplain ha hb ih => exact .property ih hplain ha hb

/-- Marks do not change the targets. -/
theorem targets_sameDocs {ctx ctx' : Ctx} (h : SameDocs ctx ctx') (o u : Value) :
    Comparison.targets ⟨ctx', o, u⟩ = Comparison.targets ⟨ctx, o, u⟩ := by
  obtain ⟨h₁, h₂, h₃, h₄⟩ := h
  simp only [Comparison.targets, h₁, h₂, h₃, h₄]

theorem Paired.sameDocs {ctx ctx' : Ctx} (hdocs : SameDocs ctx ctx') {o' u' : Value}
    (h : Paired ⟨ctx', o, u⟩ o' u') : Paired ⟨ctx, o, u⟩ o' u' := by
  induction h with
  | start => exact .start
  | follow _ htargets ih =>
    rw [targets_sameDocs hdocs] at htargets
    exact .follow ih htargets
  | property _ hplain ha hb ih => exact .property ih hplain ha hb

/-! ## The walk -/

/-- The walk comes to pairs only. -/
theorem paired_of_reaches (hbasic : PairedBasic c) {d : Comparison} (h : Reaches L c d) :
    Paired c d.orig d.upd := by
  induction h with
  | refl => exact .start
  | @tail d e hprev hn ih =>
    have hdocs := Reaches.sameDocs hprev
    cases hn with
    | @follow ctx ctx' orig upd o' u' suffix hr =>
      have htargets := targets_of_follow hr
      rw [targets_sameDocs hdocs] at htargets
      exact .follow ih htargets
    | recurse hplain hmem =>
      obtain ⟨ho, hu⟩ := hbasic _ _ ih
      obtain ⟨name, hb, ha⟩ := Basic.recurse ho hu hmem
      exact .property ih hplain ha hb

/-- Shared properties are compared. -/
theorem Basic.recurse_mem {a b : Value} {name : String} (ho : Basic o) (hu : Basic u)
    (ha : (declared o).lookup name = some a) (hb : (name, b) ∈ declared u) :
    .recurse ("/properties/" ++ name) a b ∈ Json.keywordSteps L o u := by
  rw [Basic.keywordSteps ho hu, Basic.compareProperties ho hu]
  refine List.mem_append_right _ (List.mem_append_right _ (List.mem_map.mpr ⟨(name, b), hb, ?_⟩))
  simp only [propertyStep, ha]

/-- With an exact guard the walk comes to every pair. -/
theorem reaches_of_paired (hstart : c.ctx.visited = ∅) (hbasic : PairedBasic c)
    (hguard : GuardExact c) (h : Paired c o u) :
    ∃ marked, Reaches L c ⟨c.ctx.mark marked, o, u⟩ := by
  induction h with
  | start => exact ⟨c.ctx.visited, .refl⟩
  | @follow o u o' u' _ htargets ih =>
    obtain ⟨marked, hreach⟩ := ih
    refine reaches_targets hstart ?_ hreach htargets
    intro d e hd hbelow p hp hkey hrefs
    have hdocs := Reaches.sameDocs hd
    have hdocs' := Reaches.sameDocs hbelow
    have hpair := paired_of_reaches hbasic hd
    have hpair' : Paired d e.orig e.upd := by
      refine paired_of_reaches ?_ hbelow
      exact fun x y hxy => hbasic x y (hpair.trans (hxy.sameDocs hdocs))
    have htargets' := hguard _ _ _ _ hpair (hpair'.sameDocs hdocs) hrefs hkey p
      ((targets_sameDocs hdocs _ _).symm.trans hp)
    exact (targets_sameDocs (hdocs.trans hdocs') _ _).trans htargets'
  | property hpair hplain ha hb ih =>
    obtain ⟨marked, hreach⟩ := ih
    obtain ⟨ho, hu⟩ := hbasic _ _ hpair
    exact ⟨marked, hreach.tail (.recurse hplain (Basic.recurse_mem ho hu ha hb))⟩

theorem Basic.locallyOk_iff {ctx : Ctx} (ho : Basic o) (hu : Basic u) :
    LocallyOk L ⟨ctx, o, u⟩ ↔ ReportsOk L o u := by
  have hnone := ho.compareCombinators hu fun a b => verdict L ⟨ctx.fresh, a, b⟩
  constructor
  · exact fun h => h.2
  · exact fun h => ⟨⟨[], hnone, by simp⟩, h⟩

/-- Two schemas are compatible exactly when every pair is, taken by itself. -/
theorem verdict_paired_iff (hknown : c.Known) (hstart : c.ctx.visited = ∅)
    (hbasic : PairedBasic c) (hguard : GuardExact c) :
    verdict L c = some true ↔ ∀ o u, Paired c o u → NoRefs o u → ReportsOk L o u := by
  rw [verdict_true_iff_reach hknown]
  constructor
  · intro h o u hpair hplain
    obtain ⟨marked, hreach⟩ := reaches_of_paired (L := L) hstart hbasic hguard hpair
    obtain ⟨ho, hu⟩ := hbasic o u hpair
    exact (Basic.locallyOk_iff ho hu).mp (h _ hreach hplain)
  · intro h d hd hplain
    have hpair := paired_of_reaches hbasic hd
    obtain ⟨ho, hu⟩ := hbasic _ _ hpair
    exact (Basic.locallyOk_iff ho hu).mpr (h _ _ hpair hplain)

end KrabkaRegistry.Format.Json
