import KrabkaRegistry.Format.JsonAlike
import KrabkaRegistry.Format.JsonDropped
import KrabkaRegistry.Guarantees.JsonReflexive

/-!
# A Reader without Keywords

The reader `true` or `{}` has no keyword, and dropping a keyword is compatible, except for
combinators and conditionals: a schema that has them on one side only is reported as changed.

- `accepted_by_top`: the reader accepts exactly the writers without these keywords, and it stays
  so where the two stand as one property of schemas that are otherwise the same;
- `negation_not_accepted_by_top` is a writer that the reader `{}` does not accept.
-/

namespace KrabkaRegistry.Guarantees

open Format.Json
open Relation (ReflTransGen)

variable {L : DiffLibs} {w u : Value}

/-! ## Dropping every keyword -/

/-- The schema `true` or `{}`. -/
def Top (u : Value) : Prop := u = .bool true ∨ u = .object []

theorem Top.get (h : Top u) (key : String) : u.get key = none := by
  rcases h with rfl | rfl
  · rfl
  · rfl

theorem Top.refOf (h : Top u) : refOf u = none := by
  simp [Format.Json.refOf, h.get]

/-! ## The chain of references -/

/-- What the `$ref` of a schema names, the `$ref` of that, and so on. -/
def LeadsTo (root : Value) (refs : RefMap) : Value → Value → Prop :=
  ReflTransGen fun x y => resolveRef x root refs = some y

theorem compareRefs_top {ctx : Ctx} {x : Value} (hu : Top u) {ref : String}
    (hx : refOf x = some ref) :
    compareRefs ctx x u =
      if (ref, "") ∈ ctx.visited then .stop
      else
        match resolveRef x ctx.origRoot ctx.origRefs with
        | some y => .follow (ctx.mark (insert (ref, "") ctx.visited)) "" y u
        | none => .stop := by
  have hnone : resolveRef u ctx.updRoot ctx.updRefs = none := by simp [resolveRef, hu.refOf]
  unfold compareRefs
  rw [hx, hu.refOf, hnone]
  simp only [Option.getD_some, Option.getD_none]
  split_ifs
  · rfl
  · cases resolveRef x ctx.origRoot ctx.origRefs <;> rfl

/-- A walk against a schema without keywords only follows the references of the other. -/
theorem next_top {ctx : Ctx} {x : Value} {d : Comparison} (hu : Top u)
    (h : Next L ⟨ctx, x, u⟩ d) :
    ∃ y, resolveRef x ctx.origRoot ctx.origRefs = some y ∧
      ∃ marked, d = ⟨ctx.mark marked, y, u⟩ := by
  cases h with
  | follow hr =>
    cases href : refOf x with
    | none => rw [compareRefs_plain ⟨href, hu.refOf⟩] at hr; cases hr
    | some ref =>
      rw [compareRefs_top hu href] at hr
      split_ifs at hr
      cases hres : resolveRef x ctx.origRoot ctx.origRefs with
      | none => rw [hres] at hr; cases hr
      | some y =>
        rw [hres] at hr
        cases hr
        exact ⟨_, rfl, _, rfl⟩
  | recurse _ hmem => exact absurd hmem (recurse_dropped hu.get)

theorem reaches_top {ctx : Ctx} {d : Comparison} (hu : Top u) (h : Reaches L ⟨ctx, w, u⟩ d) :
    ∃ y, LeadsTo ctx.origRoot ctx.origRefs w y ∧ ∃ marked, d = ⟨ctx.mark marked, y, u⟩ := by
  induction h with
  | refl => exact ⟨w, .refl, ctx.visited, rfl⟩
  | tail _ hn ih =>
    obtain ⟨x, hx, marked, rfl⟩ := ih
    obtain ⟨y, hy, marked', rfl⟩ := next_top hu hn
    exact ⟨y, hx.tail hy, marked', rfl⟩

theorem targets_top {ctx : Ctx} {x : Value} (hu : Top u) :
    Comparison.targets ⟨ctx, x, u⟩ = (resolveRef x ctx.origRoot ctx.origRefs).map (·, u) := by
  have hnone : resolveRef u ctx.updRoot ctx.updRefs = none := by simp [resolveRef, hu.refOf]
  unfold Comparison.targets
  simp only [hnone]
  cases resolveRef x ctx.origRoot ctx.origRefs <;> rfl

/-- The walk comes to everything that the references lead to. -/
theorem leadsTo_reached {ctx : Ctx} (hstart : ctx.visited = ∅) (hu : Top u) {y : Value}
    (h : LeadsTo ctx.origRoot ctx.origRefs w y) :
    ∃ marked, Reaches L ⟨ctx, w, u⟩ ⟨ctx.mark marked, y, u⟩ := by
  induction h with
  | refl => exact ⟨ctx.visited, .refl⟩
  | @tail x y _ hxy ih =>
    obtain ⟨marked, hreach⟩ := ih
    have htargets : Comparison.targets ⟨ctx.mark marked, x, u⟩ = some (y, u) := by
      rw [targets_top hu]
      simp only [Ctx.mark, hxy, Option.map_some]
    refine reaches_targets (c := ⟨ctx, w, u⟩) hstart ?_ hreach htargets
    -- The text of a reference determines its target.
    intro d e hd hbelow p hp hkey hrefs
    obtain ⟨x₁, -, m₁, rfl⟩ := reaches_top hu hd
    obtain ⟨x₂, -, m₂, rfl⟩ := reaches_top hu (hd.trans hbelow)
    have hx₁ : refOf x₁ ≠ none := by
      intro hnone
      rw [Comparison.noRefs_of_targets ⟨hnone, hu.refOf⟩] at hp
      cases hp
    have hx₂ : refOf x₂ ≠ none := fun hnone => hrefs ⟨hnone, hu.refOf⟩
    obtain ⟨r₁, hr₁⟩ := Option.ne_none_iff_exists'.mp hx₁
    obtain ⟨r₂, hr₂⟩ := Option.ne_none_iff_exists'.mp hx₂
    simp only [Comparison.key, hr₁, hr₂, hu.refOf, Option.getD_some, Prod.mk.injEq] at hkey
    obtain ⟨rfl, -⟩ := hkey
    rw [targets_top hu] at hp ⊢
    simpa only [resolveRef, hr₁, hr₂, Ctx.mark] using hp

/-- A schema is compatible with one without keywords exactly when no schema that its references
lead to has combinators or conditionals. -/
theorem top_true_iff {ctx : Ctx} (hstart : ctx.visited = ∅) (hu : Top u)
    (hknown : Comparison.Known ⟨ctx, w, u⟩) :
    verdict L ⟨ctx, w, u⟩ = some true ↔
      ∀ y, LeadsTo ctx.origRoot ctx.origRefs w y → refOf y = none → WithoutCombinators y := by
  rw [verdict_true_iff_reach hknown]
  constructor
  · intro h y hy hplain
    obtain ⟨marked, hreach⟩ := leadsTo_reached (L := L) hstart hu hy
    exact (locallyOk_dropped hu.get).mp (h _ hreach ⟨hplain, hu.refOf⟩)
  · intro h d hd hplain
    obtain ⟨y, hy, marked, rfl⟩ := reaches_top hu hd
    exact (locallyOk_dropped hu.get).mpr (h y hy hplain.1)

/-! ## One property of otherwise equal schemas -/

section Property

variable (pre before after post : List (String × Value)) (p : String)

/-- A schema that declares the property `p` with a given schema, next to anything else. -/
def withProperty (x : Value) : Value :=
  .object (pre ++ ("properties", .object (before ++ (p, x) :: after)) :: post)

variable {pre before after post p}

/-- Two objects that differ in the value of one key. -/
theorem lookup_replaced {front back : List (String × Value)} {name key : String} (x y : Value)
    (hkey : key ≠ name) :
    (front ++ (name, x) :: back).lookup key = (front ++ (name, y) :: back).lookup key := by
  have hne : (key == name) = false := by simpa using hkey
  simp only [List.lookup_append, List.lookup_cons, hne]

theorem lookup_inserted {front back : List (String × Value)} {name : String} (x : Value)
    (h : name ∉ front.map (·.1)) : (front ++ (name, x) :: back).lookup name = some x := by
  have hfront : front.lookup name = none := by
    rw [List.lookup_eq_none_iff]
    intro m hm
    have hne : name ≠ m.1 := fun heq => h (heq ▸ List.mem_map_of_mem (f := Prod.fst) hm)
    simpa using hne
  simp [List.lookup_append, hfront]

theorem get_withProperty {key : String} (x y : Value) (hkey : key ≠ "properties") :
    (withProperty pre before after post p x).get key =
      (withProperty pre before after post p y).get key :=
  lookup_replaced _ _ hkey

theorem declared_withProperty (hpre : "properties" ∉ pre.map (·.1)) (x : Value) :
    declared (withProperty pre before after post p x) = before ++ (p, x) :: after := by
  unfold declared props withProperty
  simp [lookup_inserted _ hpre, Value.asObject]

/-- A replaced pair leaves its character behind. -/
theorem replacePair_eq_self {a b c : Char} {l : List Char}
    (h : c ∉ Value.replacePair a b c l) : Value.replacePair a b c l = l := by
  induction l using Value.replacePair.induct (a := a) (b := b) with
  | case1 x y rest hxy _ => simp [Value.replacePair, hxy] at h
  | case2 x y rest hxy ih =>
    simp only [Value.replacePair, hxy, if_false, List.mem_cons, not_or] at h ⊢
    rw [ih h.2]
  | case3 rest hrest => cases rest with
    | nil => rfl
    | cons x rest =>
      cases rest with
      | nil => rfl
      | cons y rest => exact absurd rfl (hrest x y rest)

/-- The token of a pointer that names `properties` is that text. -/
theorem token_properties {token : List Char}
    (h : Value.decodeToken token = "properties".toList) : token = "properties".toList := by
  unfold Value.decodeToken at h
  have houter := replacePair_eq_self (a := '~') (b := '0') (c := '~')
    (l := Value.replacePair '~' '1' '/' token) (by rw [h]; decide)
  rw [houter] at h
  have hinner := replacePair_eq_self (a := '~') (b := '1') (c := '/') (l := token)
    (by rw [h]; decide)
  rw [← hinner, h]

theorem Top.child (h : Top u) (token : List Char) : u.child token = none := by
  rcases h with rfl | rfl
  · rfl
  · rfl

/-- Two equal results, or none. -/
theorem none_or_same {a b : Option Value} (h : a = b) :
    b = none ∨ ∃ y, a = some y ∧ b = some y := by
  subst h
  cases a with
  | none => exact .inl rfl
  | some y => exact .inr ⟨y, rfl, rfl⟩

/-- What a pointer names in the two schemas, if it is not the object `properties` itself: nothing
in the second, the same value, the schemas, or what they declare for the property. -/
theorem pointer_withProperty (hpre : "properties" ∉ pre.map (·.1))
    (hbefore : p ∉ before.map (·.1)) (hu : Top u) {ptr : List Char}
    (hptr : ptr ≠ "/properties".toList) (w : Value) :
    let W := withProperty pre before after post p w
    let R := withProperty pre before after post p u
    R.pointer ptr = none ∨ (∃ y, W.pointer ptr = some y ∧ R.pointer ptr = some y) ∨
      (W.pointer ptr = some W ∧ R.pointer ptr = some R) ∨
      (W.pointer ptr = some w ∧ R.pointer ptr = some u) := by
  intro W R
  have hsame : ∀ {a b : Option Value}, a = b → b = none ∨ (∃ y, a = some y ∧ b = some y) ∨
      (a = some W ∧ b = some R) ∨ (a = some w ∧ b = some u) := by
    intro a b h
    exact (none_or_same h).imp_right .inl
  cases ptr with
  | nil => exact .inr (.inr (.inl ⟨rfl, rfl⟩))
  | cons c rest =>
    by_cases hc : c = '/'
    swap
    · exact .inl (Value.pointer_other hc)
    subst hc
    simp only [Value.pointer_slash]
    cases htokens : rest.splitOn '/' with
    | nil => exact absurd htokens (List.splitOn_ne_nil _ _)
    | cons first tokens =>
      simp only [Value.descend_cons]
      by_cases hfirst : String.ofList (Value.decodeToken first) = "properties"
      swap
      · exact hsame (congrArg (Option.bind · _) (lookup_replaced _ _ hfirst))
      -- The pointer goes through the declared properties.
      have hchild : ∀ x : Value, (withProperty pre before after post p x).child
          (Value.decodeToken first) = some (.object (before ++ (p, x) :: after)) := by
        intro x
        show List.lookup (String.ofList (Value.decodeToken first)) _ = _
        rw [hfirst]
        exact lookup_inserted _ hpre
      simp only [W, R, hchild, Option.bind_some]
      cases tokens with
      | nil =>
        have htoken : first = "properties".toList := by
          apply token_properties
          rw [← hfirst, String.toList_ofList]
        have hrest : rest = "properties".toList := by
          have hjoin : ['/'].intercalate (rest.splitOn '/') = rest := List.intercalate_splitOn '/'
          rw [htokens, List.intercalate_singleton] at hjoin
          rw [← hjoin, htoken]
        exact absurd (by rw [hrest]; rfl) hptr
      | cons second tokens =>
        simp only [Value.descend_cons]
        by_cases hsecond : String.ofList (Value.decodeToken second) = p
        swap
        · exact hsame (congrArg (Option.bind · _) (lookup_replaced _ _ hsecond))
        have hhole : ∀ x : Value, (Value.object (before ++ (p, x) :: after)).child
            (Value.decodeToken second) = some x := by
          intro x
          show List.lookup (String.ofList (Value.decodeToken second)) _ = _
          rw [hsecond]
          exact lookup_inserted _ hbefore
        simp only [hhole, Option.bind_some]
        cases tokens with
        | nil => exact .inr (.inr (.inr ⟨rfl, rfl⟩))
        | cons third tokens =>
          left
          rw [Value.descend_cons, hu.child]
          rfl

end Property

/-- The same value, or `w` in the place of `u`. -/
def Replaced (w u a b : Value) : Prop := a = b ∨ a = w ∧ b = u

theorem Replaced.refl (w u v : Value) : Replaced w u v v := .inl rfl

/-- Two documents that are the same but for one property, which is `w` in the first and `u` in
the second. -/
structure Twins (refs : RefMap) (w u W R : Value) : Prop where
  top : Top u
  get : ∀ key, key ≠ "properties" → W.get key = R.get key
  declared : MembersAlike (Replaced w u) (declared W) (declared R)
  resolve : ∀ {a b : Value}, refOf a = refOf b → refOf b ≠ some "#/properties" →
    resolveRef b R refs = none ∨
      (∃ y, resolveRef a W refs = some y ∧ resolveRef b R refs = some y) ∨
      (resolveRef a W refs = some W ∧ resolveRef b R refs = some R) ∨
      (resolveRef a W refs = some w ∧ resolveRef b R refs = some u)

theorem twins_withProperty {pre before after post : List (String × Value)} {p : String}
    {refs : RefMap} (hpre : "properties" ∉ pre.map (·.1)) (hbefore : p ∉ before.map (·.1))
    (hu : Top u) (w : Value) :
    Twins refs w u (withProperty pre before after post p w)
      (withProperty pre before after post p u) where
  top := hu
  get key hkey := get_withProperty _ _ hkey
  declared := by
    rw [declared_withProperty hpre, declared_withProperty hpre]
    refine List.rel_append (MembersAlike.refl (Replaced.refl w u) _) ?_
    exact .cons ⟨rfl, .inr ⟨rfl, rfl⟩⟩ (MembersAlike.refl (Replaced.refl w u) _)
  -- A pointer to somewhere else than the added property finds the same place.
  resolve := by
    intro a b hrefs hmap
    unfold resolveRef
    rw [hrefs]
    cases href : refOf b with
    | none => exact .inl rfl
    | some ref =>
      simp only
      split
      · rename_i ptr hptr
        refine pointer_withProperty hpre hbefore hu ?_ w
        rintro rfl
        apply hmap
        rw [href, ← String.ofList_toList (s := ref), hptr]
        rfl
      · exact (none_or_same rfl).imp_right .inl

section Twins

variable {refs : RefMap} {W R : Value} (h : Twins refs w u W R)

/-- Where a comparison of twins can be: at the documents, at a schema with itself, at what `w`
leads to, or at a reference that the second document does not resolve. -/
inductive Tracked (refs : RefMap) (w u W R : Value) : Value → Value → Prop where
  | roots : Tracked refs w u W R W R
  | same {x : Value} : SelfReaches R refs R x → Tracked refs w u W R x x
  | property {x : Value} : LeadsTo W refs w x → Tracked refs w u W R x u
  | idle {x y : Value} : refOf x ≠ none → resolveRef x R refs = none → Tracked refs w u W R y x

include h

/-- The steps of the documents are those of the second with itself, with `w` in its place. -/
theorem Twins.steps : StepsAlike (Replaced w u) Eq (keywordSteps L W R) (keywordSteps L R R) :=
  keywordSteps_alike L StepsAlike.compositional
    (keywordsAlike_of_properties L (Replaced.refl w u) h.get h.declared)

theorem Twins.refOf_eq : refOf W = refOf R := by
  unfold Format.Json.refOf
  rw [h.get _ (by decide)]

/-- A reference that both sides have leads to tracked schemas. -/
theorem Twins.follow {marked : Finset (String × String)} {a b o' u' : Value}
    (hrefs : refOf a = refOf b) (hmap : refOf b ≠ some "#/properties")
    (hreach : SelfReaches R refs R b)
    (htargets : Comparison.targets ⟨⟨W, R, refs, refs, marked⟩, a, b⟩ = some (o', u')) :
    Tracked refs w u W R o' u' := by
  have hne : refOf b ≠ none := fun hnone =>
    Comparison.not_noRefs htargets ⟨hrefs.trans hnone, hnone⟩
  simp only [Comparison.targets] at htargets
  -- A reference leads nowhere, to one schema of both, to the roots, or to the property.
  rcases h.resolve hrefs hmap with hnone | ⟨y, ha, hb⟩ | ⟨ha, hb⟩ | ⟨ha, hb⟩
  · rw [hnone] at htargets
    cases ha : resolveRef a W refs with
    | none => rw [ha] at htargets; cases htargets
    | some y =>
      rw [ha] at htargets
      cases htargets
      exact .idle hne hnone
  · rw [ha, hb] at htargets
    cases htargets
    exact .same (hreach.tail (.inl hb))
  · rw [ha, hb] at htargets
    cases htargets
    exact .roots
  · rw [ha, hb] at htargets
    cases htargets
    exact .property .refl

variable (hdocs : DistinctDocs R refs)
  (hmap : ∀ x, SelfReaches R refs R x → refOf x ≠ some "#/properties")
include hdocs hmap

theorem Twins.next {marked : Finset (String × String)} {a b : Value} {d : Comparison}
    (htracked : Tracked refs w u W R a b) (hn : Next L ⟨⟨W, R, refs, refs, marked⟩, a, b⟩ d) :
    ∃ marked' a' b', d = ⟨⟨W, R, refs, refs, marked'⟩, a', b'⟩ ∧ Tracked refs w u W R a' b' := by
  cases hn with
  -- References are followed to the same place on both sides, or to one below the added property.
  | follow hr =>
    have htargets := targets_of_follow hr
    obtain ⟨-, rfl, -, -⟩ := compareRefs_follow hr
    refine ⟨_, _, _, rfl, ?_⟩
    cases htracked with
    | roots => exact h.follow h.refOf_eq (hmap R .refl) .refl htargets
    | same hx => exact h.follow rfl (hmap _ hx) hx htargets
    | property hx =>
      rw [targets_top h.top] at htargets
      obtain ⟨y, hy, heq⟩ := Option.map_eq_some_iff.mp htargets
      cases heq
      exact .property (hx.tail hy)
    | idle hx hnone =>
      simp only [Comparison.targets, hnone] at htargets
      cases hy : resolveRef a W refs with
      | none => rw [hy] at htargets; cases htargets
      | some z =>
        rw [hy] at htargets
        cases htargets
        exact .idle hx hnone
  -- A step inwards starts from one of the four kinds of pairs.
  | recurse hplain hmem =>
    refine ⟨_, _, _, rfl, ?_⟩
    cases htracked with
    | roots =>
      obtain ⟨s', hs', halike⟩ := (h.steps (L := L)).mem hmem
      cases halike with
      | recurse ha hb =>
        subst hb
        rcases (keywordSteps_self L hdocs.1).1 _ hs' with ⟨suffix, y, hy, heq⟩ | ⟨-, heq⟩
        · obtain ⟨-, rfl, rfl⟩ := Step.recurse.inj heq
          -- At the roots: a subschema they share, or the property that was added.
          rcases ha with rfl | ⟨rfl, rfl⟩
          · exact .same (.single (.inr ⟨hplain.2, hy⟩))
          · exact .property .refl
        · cases heq
    | same hx =>
      rcases (keywordSteps_self L (selfReaches_distinct L hdocs hx)).1 _ hmem with
        ⟨suffix, y, hy, heq⟩ | ⟨-, heq⟩
      · obtain ⟨-, rfl, rfl⟩ := Step.recurse.inj heq
        exact .same (hx.tail (.inr ⟨hplain.1, hy⟩))
      · cases heq
    | property _ => exact absurd hmem (recurse_dropped h.top.get)
    | idle hx _ => exact absurd hplain.2 hx

theorem Twins.reaches {d : Comparison} (hd : Reaches L ⟨⟨W, R, refs, refs, ∅⟩, W, R⟩ d) :
    ∃ marked a b, d = ⟨⟨W, R, refs, refs, marked⟩, a, b⟩ ∧ Tracked refs w u W R a b := by
  induction hd with
  | refl => exact ⟨∅, W, R, rfl, .roots⟩
  | tail _ hn ih =>
    obtain ⟨marked, a, b, rfl, htracked⟩ := ih
    exact h.next hdocs hmap htracked hn

/-- Twins are compatible when the second document is with itself, and what `w` leads to has
neither combinators nor conditionals. -/
theorem Twins.verdict_true
    (hself : ∀ x, SelfReaches R refs R x → refOf x = none → ¬ MalformedItems x)
    (hw : ∀ y, LeadsTo W refs w y → refOf y = none → WithoutCombinators y) :
    verdict L ⟨⟨W, R, refs, refs, ∅⟩, W, R⟩ = some true := by
  have hknown : Comparison.Known ⟨⟨W, R, refs, refs, ∅⟩, W, R⟩ :=
    ⟨⟨W, by simp [Ctx.docs], .refl⟩, ⟨R, by simp [Ctx.docs], .refl⟩⟩
  rw [verdict_true_iff_reach hknown]
  intro d hd hplain
  obtain ⟨marked, a, b, rfl, htracked⟩ := h.reaches hdocs hmap hd
  cases htracked with
  | roots =>
    have hbranches : ∀ key, key ≠ "properties" → branches W key = branches R key := by
      intro key hkey
      unfold branches
      rw [h.get key hkey]
    have hsum : sumOf W = sumOf R := by
      unfold sumOf
      rw [hbranches _ (by decide), hbranches "oneOf" (by decide)]
    refine ⟨⟨[], compareCombinators_same _ (hbranches _ (by decide)) hsum (h.get _ (by decide)),
      by simp⟩, fun kind suffix hmem => ?_⟩
    -- What is reported of the documents is reported of the second with itself.
    obtain ⟨s', hs', halike⟩ := (h.steps (L := L)).mem hmem
    cases halike with
    | report =>
      rcases (keywordSteps_self L hdocs.1).1 _ hs' with ⟨_, y, -, heq⟩ | ⟨hbad, -⟩
      · cases heq
      · exact absurd hbad (hself R .refl hplain.2)
  | same hx => exact (locallyOk_self (selfReaches_distinct L hdocs hx)).mpr (hself _ hx hplain.1)
  | property hx => exact (locallyOk_dropped h.top.get).mpr (hw _ hx hplain.1)
  | idle hx _ => exact absurd hplain.2 hx

end Twins

/-! ## The check -/

/-- **A reader without keywords.**  For the reader `true` or `{}` and every writer that parses, the
check accepts exactly when no schema that the writer's references lead to, the writer itself
included, has combinators or conditionals.  Where the two stand as the schema of one declared
property in documents that are otherwise the same, and that are compatible with themselves, the
check accepts when nothing that the property's references lead to has them, as long as no `$ref`
names the object `properties` itself. -/
theorem accepted_by_top (hmaps : ReadsMaps L.serdeJson) (hu : Top u) (w : Value) :
    (∀ reader writer readerRefs writerRefs readerDocs writerDocs,
      Parses L reader readerRefs ⟨u, readerDocs⟩ → Parses L writer writerRefs ⟨w, writerDocs⟩ →
      (Accepts L reader writer readerRefs writerRefs ↔
        ∀ y, LeadsTo w writerDocs w y → refOf y = none → WithoutCombinators y)) ∧
    ∀ pre before after post p reader writer refs docs,
      Parses L reader refs ⟨withProperty pre before after post p u, docs⟩ →
      Parses L writer refs ⟨withProperty pre before after post p w, docs⟩ →
      Accepts L reader reader refs refs →
      (∀ x, SelfReaches (withProperty pre before after post p u) docs
        (withProperty pre before after post p u) x → refOf x ≠ some "#/properties") →
      (∀ y, LeadsTo (withProperty pre before after post p w) docs w y → refOf y = none →
        WithoutCombinators y) →
      Accepts L reader writer refs refs := by
  constructor
  · intro reader writer readerRefs writerRefs readerDocs writerDocs hr hw
    rw [accepts_iff hr hw]
    refine top_true_iff rfl hu ⟨⟨w, ?_, .refl⟩, ⟨u, ?_, .refl⟩⟩
    · simp [Ctx.docs]
    · simp [Ctx.docs]
  · intro pre before after post p reader writer refs docs hr hw hself hmap hcomb
    have hdocs := Parses.distinctDocs hr hmaps
    -- Objects have distinct keys, so the first `properties` is the one, and so is `p` in it.
    have hroot : ((pre ++ ("properties", .object (before ++ (p, u) :: after)) :: post).map
        (·.1)).Nodup := hdocs.1 _ .refl
    have hinner : ((before ++ (p, u) :: after).map (·.1)).Nodup :=
      hdocs.1 _ (.member (m := ("properties", .object (before ++ (p, u) :: after)))
        (by simp) .refl)
    have hpre : "properties" ∉ pre.map (·.1) := by
      rw [List.map_append, List.map_cons, List.nodup_append] at hroot
      exact fun hmem => hroot.2.2 _ hmem _ List.mem_cons_self rfl
    have hbefore : p ∉ before.map (·.1) := by
      rw [List.map_append, List.map_cons, List.nodup_append] at hinner
      exact fun hmem => hinner.2.2 _ hmem _ List.mem_cons_self rfl
    rw [accepts_iff hr hr] at hself
    rw [accepts_iff hr hw]
    exact (twins_withProperty hpre hbefore hu w).verdict_true hdocs hmap
      ((diagonal_true_iff hdocs).mp hself) hcomb

/-! ### Three writers -/

/-- The reader `{}` accepts `{"type":"string"}`, as documents and as the property `name`. -/
theorem text_accepted_by_top :
    Accepts .compact "\x7b\x7d" "\x7b\"type\":\"string\"\x7d" [] [] ∧
      Accepts .compact "\x7b\"properties\":\x7b\"name\":\x7b\x7d\x7d\x7d"
        "\x7b\"properties\":\x7b\"name\":\x7b\"type\":\"string\"\x7d\x7d\x7d" [] [] := by
  let text : Value := .object [("type", .string "string")]
  let reader : Value := .object [("properties", .object [("name", .object [])])]
  obtain ⟨hroot, hproperty⟩ :=
    accepted_by_top (L := .compact) compact_readsMaps (u := .object []) (.inr rfl) text
  have hplain : WithoutCombinators text := ⟨rfl, rfl, rfl, rfl⟩
  -- The writer is no reference, so it leads only to itself.
  have hlead : ∀ root y, LeadsTo root [] text y → y = text := by
    intro root y hy
    induction hy with
    | refl => rfl
    | tail _ hstep ih =>
      subst ih
      cases hstep
  have hreach : ∀ x, SelfReaches reader [] reader x → x = reader ∨ x = .object [] := by
    intro x hx
    induction hx with
    | refl => exact .inl rfl
    | tail _ hstep ih =>
      rcases ih with rfl | rfl
      · rcases hstep with hres | ⟨-, hy⟩
        · cases hres
        · exact .inr (List.mem_singleton.mp hy)
      · rcases hstep with hres | ⟨-, hy⟩
        · cases hres
        · cases hy
  have hr : Parses .compact "\x7b\"properties\":\x7b\"name\":\x7b\x7d\x7d\x7d" []
      ⟨reader, []⟩ := compact_parses (by decide +kernel) rfl
  constructor
  · refine (hroot _ _ _ _ [] [] (compact_parses (by decide +kernel) rfl)
      (compact_parses (by decide +kernel) rfl)).mpr fun y hy _ => ?_
    rw [hlead _ y hy]
    exact hplain
  · refine hproperty [] [] [] [] "name" _ _ [] [] hr (compact_parses (by decide +kernel) rfl)
      ((accepts_iff hr hr).mpr (verdict_of_run 3 (by decide +kernel))) ?_ ?_
    · intro x hx
      rcases hreach x hx with rfl | rfl <;> exact fun heq => nomatch heq
    · intro y hy _
      rw [hlead _ y hy]
      exact hplain

/-- It does not accept `{"not":{"type":"string"}}`. -/
theorem negation_not_accepted_by_top :
    Parses .compact "\x7b\"not\":\x7b\"type\":\"string\"\x7d\x7d" []
        ⟨.object [("not", .object [("type", .string "string")])], []⟩ ∧
      Rejects .compact "\x7b\x7d" "\x7b\"not\":\x7b\"type\":\"string\"\x7d\x7d" [] [] ∧
      ¬ Accepts .compact "\x7b\x7d" "\x7b\"not\":\x7b\"type\":\"string\"\x7d\x7d" [] [] := by
  have hr : Parses .compact "\x7b\x7d" [] ⟨.object [], []⟩ :=
    compact_parses (by decide +kernel) rfl
  have hw : Parses .compact "\x7b\"not\":\x7b\"type\":\"string\"\x7d\x7d" []
      ⟨.object [("not", .object [("type", .string "string")])], []⟩ :=
    compact_parses (by decide +kernel) rfl
  have hrejects : Rejects .compact "\x7b\x7d"
      "\x7b\"not\":\x7b\"type\":\"string\"\x7d\x7d" [] [] :=
    (rejects_iff hr hw).mpr (verdict_of_run 2 (by decide +kernel))
  exact ⟨hw, hrejects, not_accepts_of_rejects hr hw hrejects⟩

end KrabkaRegistry.Guarantees
