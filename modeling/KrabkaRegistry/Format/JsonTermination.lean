import Mathlib.Data.Finset.Prod
import Mathlib.Data.Prod.Lex
import Mathlib.Logic.Relation
import KrabkaRegistry.Format.JsonWalk
import KrabkaRegistry.Library.Related

/-!
# Where a JSON Schema Comparison Ends

A walk goes inwards or follows a pair of `$ref`s that is not marked yet.  The documents hold
finitely many `$ref`s, so a walk on its own ends; only the branches of combinators, which start
walks with nothing marked, can go on for ever.

- `next_induction`: induction along the walk within the documents;
- `verdict_true_iff_reach`: two schemas are compatible exactly when every pair of the walk is,
  taken by itself;
- `ends_iff_calls`: a walk ends exactly when the branches it starts do.
-/

namespace KrabkaRegistry.Format.Json

open KrabkaRegistry.Library.Related (mapM_isSome)
open Relation (ReflTransGen)

variable (L : DiffLibs)

/-! ## The calls of combinators -/

/-- `Calls f orig upd a b`: the combinators of the two schemas compare the branches `a` and `b`.
The answers `f` decide where the search through the branches of one side stops. -/
inductive Calls (f : Value → Value → Option Bool) (orig upd : Value) : Value → Value → Prop where
  | allOf {old new : List Value} {a b : Value} :
      branches orig "allOf" = some old → branches upd "allOf" = some new → old ≠ new →
      a ∈ old → b ∈ new → Calls f orig upd a b
  | sum {kind : String} {old new : List Value} {a b : Value} :
      sumOf orig = some (kind, old) → sumOf upd = some (kind, new) → old ≠ new →
      a ∈ old → b ∈ new → Calls f orig upd a b
  | any {kind : String} {before after : List Value} {b : Value} :
      sumOf orig = none → sumOf upd = some (kind, before ++ b :: after) →
      (∀ x ∈ before, f orig x = some false) → Calls f orig upd orig b
  | all {kind : String} {before after : List Value} {a : Value} :
      sumOf orig = some (kind, before ++ a :: after) → sumOf upd = none →
      (∀ x ∈ before, f x upd = some true) → Calls f orig upd a upd
  -- The sides are swapped below `not`.
  | not {old new : Value} :
      orig.get "not" = some old → upd.get "not" = some new → old ≠ new → Calls f orig upd new old

section Combinators

variable {f : Value → Value → Option Bool} {orig upd : Value}

/-- The edges of a branch are known when all its comparisons are. -/
theorem edgesOf_isSome {old : Value} {new : List Value} :
    (edgesOf f old new).isSome ↔ ∀ b ∈ new, (f old b).isSome := by
  rw [← mapM_isSome]
  unfold edgesOf
  cases new.mapM (f old) <;> simp

/-- Matching two lists compares every pair of branches. -/
theorem maximumMatching_isSome {old new : List Value} :
    (maximumMatching f old new).isSome ↔ ∀ a ∈ old, ∀ b ∈ new, (f a b).isSome := by
  have hedges : (maximumMatching f old new).isSome ↔
      (old.mapM fun branch => edgesOf f branch new).isSome := by
    unfold maximumMatching
    cases old.mapM fun branch => edgesOf f branch new <;> simp
  rw [hedges, mapM_isSome]
  exact forall₂_congr fun a _ => edgesOf_isSome

/-- So the step for matched branches is decided when every pair is. -/
theorem compareBranches_isSome {old new : List Value} {suffix : String} {extended narrowed : Kind} :
    (compareBranches f old new suffix extended narrowed).isSome ↔
      ∀ a ∈ old, ∀ b ∈ new, (f a b).isSome := by
  rw [← maximumMatching_isSome]
  unfold compareBranches
  cases maximumMatching f old new with
  | none => simp
  | some matched =>
    simp only [Option.bind_eq_bind, Option.bind_some, Option.isSome_some, iff_true]
    split_ifs <;> rfl

/-- A search for a branch that fits stops at the first one that does, so only the branches before it
have to be decided. -/
theorem anyBranch_isSome {test : Value → Option Bool} {l : List Value} :
    (anyBranch test l).isSome ↔ ∀ before b after, l = before ++ b :: after →
      (∀ x ∈ before, test x = some false) → (test b).isSome := by
  induction l with
  | nil => simp [anyBranch]
  | cons v l ih =>
    rw [anyBranch_cons]
    constructor
    -- The head is asked first, and the tail only if the head does not fit.
    · intro h before b after hsplit hbefore
      cases before with
      | nil =>
        obtain ⟨rfl, rfl⟩ := List.cons.inj hsplit
        cases hv : test v with
        | none => simp [hv] at h
        | some found => rfl
      | cons x before =>
        obtain ⟨rfl, rfl⟩ := List.cons.inj hsplit
        have hv : test v = some false := hbefore v List.mem_cons_self
        rw [hv] at h
        exact ih.mp h before b after rfl fun x hx => hbefore x (List.mem_cons_of_mem v hx)
    · intro h
      have hv := h [] v l rfl (by simp)
      cases htest : test v with
      | none => simp [htest] at hv
      | some found =>
        cases found with
        | true => rfl
        | false =>
          refine ih.mpr fun before b after hsplit hbefore => ?_
          refine h (v :: before) b after (by rw [hsplit]; rfl) ?_
          exact List.forall_mem_cons.mpr ⟨htest, hbefore⟩

/-- Dually, a search for a branch that does not fit stops at the first that does not. -/
theorem allBranches_isSome {test : Value → Option Bool} {l : List Value} :
    (allBranches test l).isSome ↔ ∀ before b after, l = before ++ b :: after →
      (∀ x ∈ before, test x = some true) → (test b).isSome := by
  induction l with
  | nil => simp [allBranches]
  | cons v l ih =>
    rw [allBranches_cons]
    constructor
    -- The head is asked first, and the tail only if the head fits.
    · intro h before b after hsplit hbefore
      cases before with
      | nil =>
        obtain ⟨rfl, rfl⟩ := List.cons.inj hsplit
        cases hv : test v with
        | none => simp [hv] at h
        | some found => rfl
      | cons x before =>
        obtain ⟨rfl, rfl⟩ := List.cons.inj hsplit
        have hv : test v = some true := hbefore v List.mem_cons_self
        rw [hv] at h
        exact ih.mp h before b after rfl fun x hx => hbefore x (List.mem_cons_of_mem v hx)
    · intro h
      have hv := h [] v l rfl (by simp)
      cases htest : test v with
      | none => simp [htest] at hv
      | some found =>
        cases found with
        | false => rfl
        | true =>
          refine ih.mpr fun before b after hsplit hbefore => ?_
          refine h (v :: before) b after (by rw [hsplit]; rfl) ?_
          exact List.forall_mem_cons.mpr ⟨htest, hbefore⟩

/-- `allOf` compares every pair of branches, and only where the two lists differ. -/
theorem compareAllOf_isSome :
    (compareAllOf f orig upd).isSome ↔ ∀ old new, branches orig "allOf" = some old →
      branches upd "allOf" = some new → old ≠ new → ∀ a ∈ old, ∀ b ∈ new, (f a b).isSome := by
  unfold compareAllOf
  cases ho : branches orig "allOf" with
  | none => cases branches upd "allOf" <;> simp
  | some old =>
    cases hu : branches upd "allOf" with
    | none => simp
    | some new =>
      by_cases heq : old = new
      · simp [heq]
      · simp [heq, compareBranches_isSome]

/-- The three shapes of `anyOf` and `oneOf`: both sides with the same keyword, only the update, only
the original. Two different keywords are a change of their own and compare nothing. -/
theorem compareSum_isSome :
    (compareSum f orig upd).isSome ↔
      (∀ kind old new, sumOf orig = some (kind, old) → sumOf upd = some (kind, new) → old ≠ new →
        ∀ a ∈ old, ∀ b ∈ new, (f a b).isSome) ∧
      (∀ kind before b after, sumOf orig = none → sumOf upd = some (kind, before ++ b :: after) →
        (∀ x ∈ before, f orig x = some false) → (f orig b).isSome) ∧
      ∀ kind before a after, sumOf orig = some (kind, before ++ a :: after) → sumOf upd = none →
        (∀ x ∈ before, f x upd = some true) → (f a upd).isSome := by
  unfold compareSum
  rcases ho : sumOf orig with _ | ⟨oldKind, old⟩ <;> rcases hu : sumOf upd with _ | ⟨newKind, new⟩
  · simp
  -- Only the update has a sum: the original has to fit one of its branches.
  · have h : (anyBranch (fun branch => f orig branch) new).isSome ↔ _ := anyBranch_isSome
    simp only [reduceCtorEq, false_implies, implies_true, true_and, and_true, Option.some.injEq,
      Prod.mk.injEq, true_implies]
    constructor
    · rintro hsome kind before b after ⟨-, rfl⟩ hbefore
      refine h.mp ?_ before b after rfl hbefore
      cases hany : anyBranch (fun branch => f orig branch) (before ++ b :: after) with
      | none => simp [hany] at hsome
      | some found => rfl
    · intro hall
      have hany := h.mpr fun before b after hsplit hbefore =>
        hall newKind before b after ⟨rfl, hsplit⟩ hbefore
      obtain ⟨found, hfound⟩ := Option.isSome_iff_exists.mp hany
      simp [hfound]
  -- Only the original has one: each of its branches has to fit the update.
  · have h : (allBranches (fun branch => f branch upd) old).isSome ↔ _ := allBranches_isSome
    simp only [reduceCtorEq, false_implies, implies_true, true_and, Option.some.injEq,
      Prod.mk.injEq]
    constructor
    · rintro hsome kind before b after ⟨-, rfl⟩ - hbefore
      refine h.mp ?_ before b after rfl hbefore
      cases hall : allBranches (fun branch => f branch upd) (before ++ b :: after) with
      | none => simp [hall] at hsome
      | some found => rfl
    · intro hall
      have hsome := h.mpr fun before b after hsplit hbefore =>
        hall oldKind before b after ⟨rfl, hsplit⟩ trivial hbefore
      obtain ⟨found, hfound⟩ := Option.isSome_iff_exists.mp hsome
      simp [hfound]
  -- Both have one, and they are matched when the keyword is the same.
  · by_cases hkind : oldKind = newKind
    · subst hkind
      simp only [reduceCtorEq, false_implies, implies_true, and_true, Option.some.injEq,
        Prod.mk.injEq, ne_eq, not_true_eq_false, if_false]
      by_cases heq : old = new
      · simp only [heq, not_true_eq_false, if_false, Option.isSome_some, true_iff]
        rintro kind old' new' ⟨-, rfl⟩ ⟨-, rfl⟩ hne
        exact absurd rfl hne
      · rw [if_pos heq, compareBranches_isSome]
        constructor
        · rintro h kind old' new' ⟨-, rfl⟩ ⟨-, rfl⟩ -
          exact h
        · exact fun h => h oldKind old new ⟨rfl, rfl⟩ ⟨rfl, rfl⟩ heq
    · simp only [hkind, ne_eq, not_false_eq_true, if_true, Option.isSome_some, reduceCtorEq,
        false_implies, implies_true, and_true, Option.some.injEq, Prod.mk.injEq, true_iff]
      rintro kind old' new' ⟨rfl, -⟩ ⟨rfl, -⟩
      exact absurd rfl hkind

/-- `not` compares the two schemas the other way round, and only where they differ. -/
theorem compareNot_isSome :
    (compareNot f orig upd).isSome ↔ ∀ old new, orig.get "not" = some old →
      upd.get "not" = some new → old ≠ new → (f new old).isSome := by
  unfold compareNot
  cases ho : orig.get "not" with
  | none => cases upd.get "not" <;> simp
  | some old =>
    cases hu : upd.get "not" with
    | none => simp
    | some new =>
      by_cases heq : old = new
      · simp [heq]
      · cases hf : f new old <;> simp [heq, hf]

/-- The combinators are compared when every branch they call is. -/
theorem compareCombinators_isSome :
    (compareCombinators f orig upd).isSome ↔ ∀ a b, Calls f orig upd a b → (f a b).isSome := by
  have hsplit : (compareCombinators f orig upd).isSome ↔ (compareAllOf f orig upd).isSome ∧
      (compareSum f orig upd).isSome ∧ (compareNot f orig upd).isSome := by
    unfold compareCombinators
    cases compareAllOf f orig upd <;> cases compareSum f orig upd <;>
      cases compareNot f orig upd <;> simp
  rw [hsplit, compareAllOf_isSome, compareSum_isSome, compareNot_isSome]
  constructor
  · rintro ⟨hproduct, ⟨hsum, hany, hall⟩, hnot⟩ a b hcall
    cases hcall with
    | allOf ho hu hne ha hb => exact hproduct _ _ ho hu hne a ha b hb
    | sum ho hu hne ha hb => exact hsum _ _ _ ho hu hne a ha b hb
    | any ho hu hbefore => exact hany _ _ _ _ ho hu hbefore
    | all ho hu hbefore => exact hall _ _ _ _ ho hu hbefore
    | not ho hu hne => exact hnot _ _ ho hu hne
  · intro h
    refine ⟨?_, ⟨?_, ?_, ?_⟩, ?_⟩
    · exact fun old new ho hu hne a ha b hb => h a b (.allOf ho hu hne ha hb)
    · exact fun kind old new ho hu hne a ha b hb => h a b (.sum ho hu hne ha hb)
    · exact fun kind before b after ho hu hbefore => h _ _ (.any ho hu hbefore)
    · exact fun kind before a after ho hu hbefore => h _ _ (.all ho hu hbefore)
    · exact fun old new ho hu hne => h _ _ (.not ho hu hne)

/-- A branch of a sum lies inside its schema. -/
theorem inside_of_sumOf {v b : Value} {kind : String} {items : List Value}
    (h : sumOf v = some (kind, items)) (hb : b ∈ items) : Inside b v := by
  unfold sumOf at h
  split at h
  · rename_i hany
    cases h
    exact inside_of_branches hany hb
  · obtain ⟨value, hone, heq⟩ := Option.map_eq_some_iff.mp h
    cases heq
    exact inside_of_branches hone hb

end Combinators

/-! ## The walk -/

/-- One step of the walk: a pair of `$ref`s is followed, or two subschemas are compared. -/
inductive Next : Comparison → Comparison → Prop where
  | follow {ctx ctx' : Ctx} {orig upd o u : Value} {suffix : String} :
      compareRefs ctx orig upd = .follow ctx' suffix o u → Next ⟨ctx, orig, upd⟩ ⟨ctx', o, u⟩
  | recurse {ctx : Ctx} {orig upd a b : Value} {suffix : String} :
      NoRefs orig upd → .recurse suffix a b ∈ keywordSteps L orig upd →
      Next ⟨ctx, orig, upd⟩ ⟨ctx, a, b⟩

/-- The branches that the combinators of a compared pair call. -/
def CallsBranch (c : Comparison) (a b : Value) : Prop :=
  NoRefs c.orig c.upd ∧ Calls (fun a b => verdict L ⟨c.ctx.fresh, a, b⟩) c.orig c.upd a b

section Next

variable {L} {ctx ctx' : Ctx} {orig upd o u : Value} {suffix : String} {d : Comparison}

/-- A pair met before has no successor. -/
theorem next_stop (h : compareRefs ctx orig upd = .stop) : ¬ Next L ⟨ctx, orig, upd⟩ d := by
  intro hd
  cases hd with
  | follow h' => rw [h] at h'; cases h'
  | recurse hplain _ => rw [compareRefs_plain hplain] at h; cases h

/-- A pair of references has its targets as the only successor. -/
theorem next_follow (h : compareRefs ctx orig upd = .follow ctx' suffix o u) :
    Next L ⟨ctx, orig, upd⟩ d ↔ d = ⟨ctx', o, u⟩ := by
  constructor
  · intro hd
    cases hd with
    | follow h' => rw [h] at h'; cases h'; rfl
    | recurse hplain _ => rw [compareRefs_plain hplain] at h; cases h
  · rintro rfl
    exact .follow h

/-- A pair without references has the recursive steps of its keywords as successors. -/
theorem next_plain (h : NoRefs orig upd) :
    Next L ⟨ctx, orig, upd⟩ d ↔
      ∃ suffix a b, .recurse suffix a b ∈ keywordSteps L orig upd ∧ d = ⟨ctx, a, b⟩ := by
  constructor
  · intro hd
    cases hd with
    | follow h' => rw [compareRefs_plain h] at h'; cases h'
    | recurse _ hmem => exact ⟨_, _, _, hmem, rfl⟩
  · rintro ⟨suffix, a, b, hmem, rfl⟩
    exact .recurse h hmem

end Next

/-- What `compare_refs` follows: the pair was not marked, and each side is the target of its
`$ref` or as it was. -/
theorem compareRefs_follow {ctx ctx' : Ctx} {orig upd o u : Value} {suffix : String}
    (h : compareRefs ctx orig upd = .follow ctx' suffix o u) :
    ((refOf orig).getD "", (refOf upd).getD "") ∉ ctx.visited ∧
      ctx' = { ctx with
        visited := insert ((refOf orig).getD "", (refOf upd).getD "") ctx.visited } ∧
      o = (resolveRef orig ctx.origRoot ctx.origRefs).getD orig ∧
      u = (resolveRef upd ctx.updRoot ctx.updRefs).getD upd := by
  unfold compareRefs at h
  split at h
  · cases h
  · simp only at h
    split_ifs at h with hmem
    split at h
    · rename_i ho hu
      cases h
      exact ⟨hmem, rfl, by rw [ho]; rfl, by rw [hu]; rfl⟩
    · rename_i ho hu
      cases h
      exact ⟨hmem, rfl, by rw [ho]; rfl, by rw [hu]; rfl⟩
    · rename_i ho hu
      cases h
      exact ⟨hmem, rfl, by rw [ho]; rfl, by rw [hu]; rfl⟩
    · cases h

/-! ## The documents -/

/-- Every document that a comparison can meet. -/
def Ctx.docs (ctx : Ctx) : List Value :=
  ctx.origRoot :: ctx.updRoot :: (ctx.origRefs.map (·.2) ++ ctx.updRefs.map (·.2))

/-- A value that lies in one of the documents. -/
def Known (ctx : Ctx) (v : Value) : Prop := ∃ d ∈ ctx.docs, Value.Sub v d

/-- What lies inside a known schema is known. -/
theorem Known.inside {ctx : Ctx} {v a : Value} (h : Known ctx v) (ha : Inside a v) :
    Known ctx a := by
  obtain ⟨d, hd, hv⟩ := h
  exact ⟨d, hd, ha.sub.trans hv⟩

/-- A target lies in the root or is one of the references. -/
theorem resolveRef_some {schema root v : Value} {refs : RefMap}
    (h : resolveRef schema root refs = some v) :
    Value.Sub v root ∨ ∃ name, (name, v) ∈ refs := by
  unfold resolveRef at h
  split at h
  · cases h
  · split at h
    · exact .inl (Value.sub_of_pointer h)
    · exact .inr ⟨_, Value.lookup_mem h⟩

/-- The referenced schemas of the original belong to the documents. -/
theorem Ctx.mem_docs_orig {ctx : Ctx} {name : String} {v : Value} (h : (name, v) ∈ ctx.origRefs) :
    v ∈ ctx.docs := by
  simp only [Ctx.docs, List.mem_cons, List.mem_append, List.mem_map]
  exact .inr (.inr (.inl ⟨(name, v), h, rfl⟩))

/-- So do those of the update. -/
theorem Ctx.mem_docs_upd {ctx : Ctx} {name : String} {v : Value} (h : (name, v) ∈ ctx.updRefs) :
    v ∈ ctx.docs := by
  simp only [Ctx.docs, List.mem_cons, List.mem_append, List.mem_map]
  exact .inr (.inr (.inr ⟨(name, v), h, rfl⟩))

/-- A target is a place in one of the documents, so it is known. -/
theorem known_of_resolveOrig {ctx : Ctx} {schema v : Value}
    (h : resolveRef schema ctx.origRoot ctx.origRefs = some v) : Known ctx v := by
  rcases resolveRef_some h with hsub | ⟨name, hmem⟩
  · exact ⟨ctx.origRoot, by simp [Ctx.docs], hsub⟩
  · exact ⟨v, Ctx.mem_docs_orig hmem, .refl⟩

/-- The same on the update's side. -/
theorem known_of_resolveUpd {ctx : Ctx} {schema v : Value}
    (h : resolveRef schema ctx.updRoot ctx.updRefs = some v) : Known ctx v := by
  rcases resolveRef_some h with hsub | ⟨name, hmem⟩
  · exact ⟨ctx.updRoot, by simp [Ctx.docs], hsub⟩
  · exact ⟨v, Ctx.mem_docs_upd hmem, .refl⟩

/-- The same roots and references. -/
def SameDocs (ctx ctx' : Ctx) : Prop :=
  ctx'.origRoot = ctx.origRoot ∧ ctx'.updRoot = ctx.updRoot ∧ ctx'.origRefs = ctx.origRefs ∧
    ctx'.updRefs = ctx.updRefs

/-- Following references changes the marks only, so the documents stay. -/
theorem SameDocs.docs {ctx ctx' : Ctx} (h : SameDocs ctx ctx') : ctx'.docs = ctx.docs := by
  obtain ⟨h₁, h₂, h₃, h₄⟩ := h
  rw [Ctx.docs, Ctx.docs, h₁, h₂, h₃, h₄]

/-- And so does the fresh context. -/
theorem SameDocs.fresh {ctx ctx' : Ctx} (h : SameDocs ctx ctx') : ctx'.fresh = ctx.fresh := by
  obtain ⟨h₁, h₂, h₃, h₄⟩ := h
  simp only [Ctx.fresh, h₁, h₂, h₃, h₄]

/-- Two changes of marks are one. -/
theorem SameDocs.trans {a b c : Ctx} (hab : SameDocs a b) (hbc : SameDocs b c) : SameDocs a c :=
  ⟨hbc.1.trans hab.1, hbc.2.1.trans hab.2.1, hbc.2.2.1.trans hab.2.2.1,
    hbc.2.2.2.trans hab.2.2.2⟩

variable {L}

/-- One step keeps the documents. -/
theorem Next.sameDocs {c d : Comparison} (h : Next L c d) : SameDocs c.ctx d.ctx := by
  cases h with
  | follow h =>
    obtain ⟨-, rfl, -, -⟩ := compareRefs_follow h
    exact ⟨rfl, rfl, rfl, rfl⟩
  | recurse => exact ⟨rfl, rfl, rfl, rfl⟩

/-- Both sides of a comparison lie in the documents. -/
def Comparison.Known (c : Comparison) : Prop := Json.Known c.ctx c.orig ∧ Json.Known c.ctx c.upd

/-- One step goes to known schemas. -/
theorem Next.known {c d : Comparison} (h : Next L c d) (hc : c.Known) : d.Known := by
  have hdocs := h.sameDocs.docs
  unfold Comparison.Known Json.Known
  rw [hdocs]
  cases h with
  | @follow ctx ctx' orig upd o u suffix h =>
    obtain ⟨-, -, rfl, rfl⟩ := compareRefs_follow h
    constructor
    · cases hr : resolveRef orig ctx.origRoot ctx.origRefs with
      | none => exact hc.1
      | some v => exact known_of_resolveOrig hr
    · cases hr : resolveRef upd ctx.updRoot ctx.updRefs with
      | none => exact hc.2
      | some v => exact known_of_resolveUpd hr
  | recurse _ hmem =>
    obtain ⟨ha, hb⟩ := recurse_inside L hmem
    exact ⟨hc.1.inside ha, hc.2.inside hb⟩

/-! ## The walk is well-founded -/

mutual

/-- The values inside a value, itself included. -/
def Value.subvalues : Value → List Value
  | .array items => .array items :: subItems items
  | .object members => .object members :: subMembers members
  | v => [v]

def subItems : List Value → List Value
  | [] => []
  | v :: vs => v.subvalues ++ subItems vs

def subMembers : List (String × Value) → List Value
  | [] => []
  | (_, v) :: ms => v.subvalues ++ subMembers ms

end

/-- A part of an item is a part of the array. -/
private theorem mem_subItems {a v : Value} (ha : a ∈ v.subvalues) :
    ∀ {items : List Value}, v ∈ items → a ∈ subItems items := by
  intro items
  induction items with
  | nil => intro h; simp at h
  | cons x items ih =>
    intro h
    rw [subItems]
    rcases List.mem_cons.mp h with rfl | h
    · exact List.mem_append_left _ ha
    · exact List.mem_append_right _ (ih h)

/-- A part of a member is a part of the object. -/
private theorem mem_subMembers {a : Value} {m : String × Value} (ha : a ∈ m.2.subvalues) :
    ∀ {members : List (String × Value)}, m ∈ members → a ∈ subMembers members := by
  intro members
  induction members with
  | nil => intro h; simp at h
  | cons x members ih =>
    intro h
    obtain ⟨k, v⟩ := x
    rw [subMembers]
    rcases List.mem_cons.mp h with rfl | h
    · exact List.mem_append_left _ ha
    · exact List.mem_append_right _ (ih h)

/-- The list of parts is complete. -/
theorem Value.mem_subvalues {a v : Value} (h : Value.Sub a v) : a ∈ v.subvalues := by
  induction h with
  | refl => cases a <;> simp [Value.subvalues]
  | item hmem _ ih =>
    rw [Value.subvalues]
    exact List.mem_cons_of_mem _ (mem_subItems ih hmem)
  | member hmem _ ih =>
    rw [Value.subvalues]
    exact List.mem_cons_of_mem _ (mem_subMembers ih hmem)

/-- The `$ref`s of the documents, and the text that stands for none. -/
def Ctx.refStrings (ctx : Ctx) : Finset String :=
  insert "" ((ctx.docs.flatMap Value.subvalues).filterMap refOf).toFinset

/-- Every reference met on the way is one of the finitely many in the documents. -/
theorem mem_refStrings {ctx : Ctx} {v : Value} (h : Known ctx v) :
    (refOf v).getD "" ∈ ctx.refStrings := by
  obtain ⟨d, hd, hsub⟩ := h
  cases hr : refOf v with
  | none => exact Finset.mem_insert_self _ _
  | some ref =>
    apply Finset.mem_insert_of_mem
    rw [List.mem_toFinset, List.mem_filterMap]
    exact ⟨v, List.mem_flatMap.mpr ⟨d, hd, Value.mem_subvalues hsub⟩, hr⟩

/-- The pairs of `$ref`s that are not marked. -/
def Ctx.unmarked (ctx : Ctx) : ℕ := ((ctx.refStrings ×ˢ ctx.refStrings) \ ctx.visited).card

/-- Following a pair marks it; going inwards makes the schemas smaller. -/
noncomputable def Comparison.measure (c : Comparison) : ℕ ×ₗ ℕ := toLex (c.ctx.unmarked, sizeOf c.orig)

/-- A step without references makes the schemas smaller, and following a pair of references marks
it; a pair is marked once, so the number of unmarked pairs and the size together decrease. -/
theorem Next.measure_lt {c d : Comparison} (h : Next L c d) (hc : c.Known) :
    d.measure < c.measure := by
  rw [Comparison.measure, Comparison.measure, Prod.Lex.toLex_lt_toLex]
  cases h with
  | @follow ctx ctx' orig upd o u suffix h =>
    obtain ⟨hnew, rfl, -, -⟩ := compareRefs_follow h
    have hkey : ((refOf orig).getD "", (refOf upd).getD "") ∈ ctx.refStrings ×ˢ ctx.refStrings :=
      Finset.mem_product.mpr ⟨mem_refStrings hc.1, mem_refStrings hc.2⟩
    -- The pair that is marked was one of those that were not.
    have hlt : ((ctx.refStrings ×ˢ ctx.refStrings) \
        insert ((refOf orig).getD "", (refOf upd).getD "") ctx.visited).card < ctx.unmarked := by
      apply Finset.card_lt_card
      rw [Finset.ssubset_iff_of_subset
        (Finset.sdiff_subset_sdiff (Finset.Subset.refl _) (Finset.subset_insert _ _))]
      exact ⟨_, Finset.mem_sdiff.mpr ⟨hkey, hnew⟩, by simp⟩
    exact .inl hlt
  | recurse _ hmem => exact .inr ⟨rfl, (recurse_inside L hmem).1.size⟩

/-- Induction along the walk within the documents. -/
theorem next_induction {P : Comparison → Prop}
    (h : ∀ c, c.Known → (∀ d, Next L c d → P d) → P c) (c : Comparison) (hc : c.Known) : P c := by
  induction hm : c.measure using WellFoundedLT.induction generalizing c with
  | ind m ih =>
    subst hm
    exact h c hc fun d hd => ih d.measure (hd.measure_lt hc) d (hd.known hc) rfl

/-! ## Verdicts along the walk -/

/-- A walk, from its start on. -/
abbrev Reaches (L : DiffLibs) : Comparison → Comparison → Prop := ReflTransGen (Next L)

/-- A whole walk goes to known schemas. -/
theorem Reaches.known {c d : Comparison} (h : Reaches L c d) (hc : c.Known) : d.Known := by
  induction h with
  | refl => exact hc
  | tail _ hn ih => exact hn.known ih

/-- A whole walk keeps the documents. -/
theorem Reaches.sameDocs {c d : Comparison} (h : Reaches L c d) : SameDocs c.ctx d.ctx := by
  induction h with
  | refl => exact ⟨rfl, rfl, rfl, rfl⟩
  | tail _ hn ih => exact ih.trans hn.sameDocs

/-- What a compared pair reports by itself, and of its combinators, is compatible. -/
def LocallyOk (L : DiffLibs) (c : Comparison) : Prop :=
  (∃ combinators, compareCombinators (fun a b => verdict L ⟨c.ctx.fresh, a, b⟩) c.orig c.upd =
    some combinators ∧ ∀ s ∈ combinators, s.Ok fun a b => verdict L ⟨c.ctx, a, b⟩) ∧
  ∀ kind suffix, .report kind suffix ∈ keywordSteps L c.orig c.upd → isBackwardCompatible kind = true

/-- Acceptance, unfolded once: the place itself raises no objection, and every successor is
accepted. -/
theorem verdict_true_step {c : Comparison} :
    verdict L c = some true ↔
      (NoRefs c.orig c.upd → LocallyOk L c) ∧ ∀ d, Next L c d → verdict L d = some true := by
  obtain ⟨ctx, orig, upd⟩ := c
  rw [verdict_eq]
  cases hr : compareRefs ctx orig upd with
  | stop =>
    have hplain : ¬ NoRefs orig upd := not_plain (by rw [hr]; simp)
    simp [judge, hr, hplain, next_stop hr]
  | follow ctx' suffix o u =>
    have hplain : ¬ NoRefs orig upd := not_plain (by rw [hr]; simp)
    simp [judge, hr, hplain, next_follow hr]
  | noRefs =>
    have hplain := plain_of_noRefs hr
    rw [judge_plain_true hplain]
    -- A report is a step of the place itself, a recursion a successor.
    constructor
    · rintro ⟨hcomb, hsteps⟩
      refine ⟨fun _ => ⟨hcomb, fun kind suffix hmem => hsteps _ hmem⟩, fun d hd => ?_⟩
      obtain ⟨suffix, a, b, hmem, rfl⟩ := (next_plain hplain).mp hd
      exact hsteps _ hmem
    · rintro ⟨hlocal, hnext⟩
      refine ⟨(hlocal hplain).1, fun s hs => ?_⟩
      cases s with
      | report kind suffix => exact (hlocal hplain).2 kind suffix hs
      | recurse suffix a b => exact hnext _ (.recurse hplain hs)

/-- Two schemas are compatible exactly when every pair of the walk is, taken by itself. -/
theorem verdict_true_iff_reach {c : Comparison} (hc : c.Known) :
    verdict L c = some true ↔
      ∀ d, Reaches L c d → NoRefs d.orig d.upd → LocallyOk L d := by
  constructor
  · intro h d hd
    have hall : verdict L d = some true := by
      clear hc
      induction hd with
      | refl => exact h
      | tail _ hn ih => exact (verdict_true_step.mp ih).2 _ hn
    exact (verdict_true_step.mp hall).1
  · refine next_induction (L := L) (P := fun c =>
      (∀ d, Reaches L c d → NoRefs d.orig d.upd → LocallyOk L d) → verdict L c = some true) ?_ c hc
    intro c _ ih h
    refine verdict_true_step.mpr ⟨h c .refl, fun d hd => ?_⟩
    exact ih d hd fun e he => h e (.head hd he)

/-- One call has a verdict when the calls it makes have one. These are the calls of its combinators,
in a fresh context, and the steps of the walk. -/
theorem judge_isSome {f : Comparison → Option Bool} {c : Comparison} :
    (judge L f c).isSome ↔
      (NoRefs c.orig c.upd → ∀ a b, Calls (fun a b => f ⟨c.ctx.fresh, a, b⟩) c.orig c.upd a b →
        (f ⟨c.ctx.fresh, a, b⟩).isSome) ∧
      ∀ d, Next L c d → (f d).isSome := by
  obtain ⟨ctx, orig, upd⟩ := c
  -- The three outcomes of the references; only without any are the keywords compared.
  cases hr : compareRefs ctx orig upd with
  | stop =>
    have hplain : ¬ NoRefs orig upd := not_plain (by rw [hr]; simp)
    simp [judge, hr, hplain, next_stop hr]
  | follow ctx' suffix o u =>
    have hplain : ¬ NoRefs orig upd := not_plain (by rw [hr]; simp)
    simp [judge, hr, hplain, next_follow hr]
  | noRefs =>
    have hplain := plain_of_noRefs hr
    rw [judge_plain_isSome hplain, compareCombinators_isSome]
    constructor
    · rintro ⟨hcalls, hsteps⟩
      refine ⟨fun _ => hcalls, fun d hd => ?_⟩
      obtain ⟨suffix, a, b, hmem, rfl⟩ := (next_plain hplain).mp hd
      exact hsteps _ hmem
    · rintro ⟨hcalls, hnext⟩
      refine ⟨hcalls hplain, fun s hs => ?_⟩
      cases s with
      | report kind suffix => trivial
      | recurse suffix a b => exact hnext _ (.recurse hplain hs)

/-- Ending, unfolded once: the branches called end, and every successor does. -/
theorem verdict_isSome_step {c : Comparison} :
    (verdict L c).isSome ↔
      (∀ a b, CallsBranch L c a b → (verdict L ⟨c.ctx.fresh, a, b⟩).isSome) ∧
      ∀ d, Next L c d → (verdict L d).isSome := by
  rw [verdict_eq, judge_isSome]
  refine and_congr_left' ⟨fun h a b hcall => h hcall.1 a b hcall.2, ?_⟩
  exact fun h hplain a b hcall => h a b ⟨hplain, hcall⟩

/-- A walk ends exactly when the branches it starts do. -/
theorem ends_iff_calls {c : Comparison} (hc : c.Known) :
    (verdict L c).isSome ↔
      ∀ d, Reaches L c d → ∀ a b, CallsBranch L d a b → (verdict L ⟨c.ctx.fresh, a, b⟩).isSome := by
  constructor
  · intro h d hd a b hcall
    have hall : (verdict L d).isSome := by
      clear hc hcall
      induction hd with
      | refl => exact h
      | tail _ hn ih => exact (verdict_isSome_step.mp ih).2 _ hn
    rw [← hd.sameDocs.fresh]
    exact (verdict_isSome_step.mp hall).1 a b hcall
  · refine next_induction (L := L) (P := fun c => (∀ d, Reaches L c d → ∀ a b, CallsBranch L d a b →
      (verdict L ⟨c.ctx.fresh, a, b⟩).isSome) → (verdict L c).isSome) ?_ c hc
    intro c _ ih h
    refine verdict_isSome_step.mpr ⟨h c .refl, fun d hd => ?_⟩
    refine ih d hd fun e he a b hcall => ?_
    rw [hd.sameDocs.fresh]
    exact h e (.head hd he) a b hcall

/-! ## What the guard hides -/

/-- The pair of `$ref`s that guards a comparison. -/
def Comparison.key (c : Comparison) : String × String :=
  ((refOf c.orig).getD "", (refOf c.upd).getD "")

/-- What a comparison goes on with, apart from the guard. -/
def Comparison.targets (c : Comparison) : Option (Value × Value) :=
  match resolveRef c.orig c.ctx.origRoot c.ctx.origRefs,
    resolveRef c.upd c.ctx.updRoot c.ctx.updRefs with
  | some o, some u => some (o, u)
  | some o, none => some (o, c.upd)
  | none, some u => some (c.orig, u)
  | none, none => none

/-- The same documents with other pairs marked. -/
def Ctx.mark (ctx : Ctx) (marked : Finset (String × String)) : Ctx := { ctx with visited := marked }

/-- Without references there are no targets. -/
theorem Comparison.noRefs_of_targets {c : Comparison} (h : NoRefs c.orig c.upd) :
    c.targets = none := by
  unfold Comparison.targets
  simp [resolveRef, h.1, h.2]

/-- With targets there are references. -/
theorem Comparison.not_noRefs {c : Comparison} {p : Value × Value} (h : c.targets = some p) :
    ¬ NoRefs c.orig c.upd := by
  intro hplain
  rw [noRefs_of_targets hplain] at h
  cases h

/-- Contexts over the same documents agree once their marks do. -/
theorem SameDocs.mark {ctx ctx' : Ctx} (h : SameDocs ctx ctx') (marked : Finset (String × String)) :
    ctx'.mark marked = ctx.mark marked := by
  obtain ⟨h₁, h₂, h₃, h₄⟩ := h
  simp only [Ctx.mark, h₁, h₂, h₃, h₄]

/-- An unmarked pair is followed to its targets. -/
theorem compareRefs_targets {c : Comparison} {o u : Value} (h : c.targets = some (o, u))
    (hkey : c.key ∉ c.ctx.visited) :
    ∃ suffix, compareRefs c.ctx c.orig c.upd =
      .follow (c.ctx.mark (insert c.key c.ctx.visited)) suffix o u := by
  obtain ⟨ctx, orig, upd⟩ := c
  have hplain := Comparison.not_noRefs h
  simp only [Comparison.targets] at h
  simp only [Comparison.key] at hkey
  unfold compareRefs
  split
  · rename_i ho hu
    exact absurd ⟨ho, hu⟩ hplain
  · simp only [if_neg hkey]
    cases ho : resolveRef orig ctx.origRoot ctx.origRefs <;>
      cases hu : resolveRef upd ctx.updRoot ctx.updRefs <;> rw [ho, hu] at h <;> cases h
    all_goals exact ⟨_, rfl⟩

/-- A pair that is not marked yet is followed to its targets. -/
theorem next_targets {c : Comparison} {o u : Value} (h : c.targets = some (o, u))
    (hkey : c.key ∉ c.ctx.visited) :
    Next L c ⟨c.ctx.mark (insert c.key c.ctx.visited), o, u⟩ := by
  obtain ⟨suffix, hfollow⟩ := compareRefs_targets h hkey
  exact .follow hfollow

/-- What is followed is the pair of targets. -/
theorem targets_of_follow {ctx ctx' : Ctx} {orig upd o u : Value} {suffix : String}
    (h : compareRefs ctx orig upd = .follow ctx' suffix o u) :
    Comparison.targets ⟨ctx, orig, upd⟩ = some (o, u) := by
  unfold compareRefs at h
  unfold Comparison.targets
  split at h
  · cases h
  · simp only at h
    split_ifs at h
    split at h <;> cases h
    all_goals
      rename_i ho hu
      simp only [ho, hu]

/-- Where a pair of `$ref`s that comes again below itself has the same targets, the walk comes to
the targets of every pair it meets: a pair at which it stops is being followed already. -/
theorem reaches_targets {c : Comparison} (hstart : c.ctx.visited = ∅)
    (hkeys : ∀ d e, Reaches L c d → Reaches L d e → ∀ p, d.targets = some p → d.key = e.key →
      ¬ NoRefs e.orig e.upd → e.targets = some p)
    {d : Comparison} (hd : Reaches L c d) {o u : Value} (h : d.targets = some (o, u)) :
    ∃ marked, Reaches L c ⟨c.ctx.mark marked, o, u⟩ := by
  -- A pair is marked only on the way to its targets.
  have hmarked : ∀ e, Reaches L c e → ∀ key ∈ e.ctx.visited, ∃ e' o' u' marked, Reaches L c e' ∧
      Reaches L e' e ∧ e'.key = key ∧ e'.targets = some (o', u') ∧
      Reaches L c ⟨c.ctx.mark marked, o', u'⟩ := by
    intro e he
    induction he with
    | refl => simp [hstart]
    | @tail e f hprev hn ih =>
      have hbelow : ∀ key ∈ e.ctx.visited, ∃ e' o' u' marked, Reaches L c e' ∧
          Reaches L e' f ∧ e'.key = key ∧ e'.targets = some (o', u') ∧
          Reaches L c ⟨c.ctx.mark marked, o', u'⟩ := by
        intro key hkey
        obtain ⟨e', o', u', marked, he', hto, hrest⟩ := ih key hkey
        exact ⟨e', o', u', marked, he', hto.tail hn, hrest⟩
      cases hn with
      | @follow ctx ctx' orig upd o' u' suffix hr =>
        obtain ⟨-, rfl, -, -⟩ := compareRefs_follow hr
        have hreach := hprev.tail (Next.follow hr)
        intro key hkey
        rcases Finset.mem_insert.mp hkey with rfl | hold
        · refine ⟨⟨ctx, orig, upd⟩, o', u',
            insert ((refOf orig).getD "", (refOf upd).getD "") ctx.visited, hprev,
            .single (Next.follow hr), rfl, targets_of_follow hr, ?_⟩
          rw [← (Reaches.sameDocs hreach).mark]
          exact hreach
        · exact hbelow key hold
      | recurse _ _ => exact hbelow
  -- A pair that is marked was followed before, and its targets were reached then.
  by_cases hkey : d.key ∈ d.ctx.visited
  · obtain ⟨e, o', u', marked, he, hto, hsame, htargets, hreach⟩ := hmarked d hd _ hkey
    have heq := hkeys e d he hto _ htargets hsame (Comparison.not_noRefs h)
    rw [h] at heq
    cases heq
    exact ⟨marked, hreach⟩
  · have hreach := hd.tail (next_targets h hkey)
    rw [(Reaches.sameDocs hd).mark] at hreach
    exact ⟨_, hreach⟩

end KrabkaRegistry.Format.Json
