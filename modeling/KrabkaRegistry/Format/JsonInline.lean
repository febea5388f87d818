import KrabkaRegistry.Format.JsonBasic
import KrabkaRegistry.Format.JsonExpand

/-!
# Comparing Expansions

A comparison follows a `$ref` when it comes to one, and so compares what the expansions say, except
where the source looks at a schema without following its `$ref`: at the branches of combinators and
conditionals, at the kind of value that a keyword has, and at whether a property is empty or has a
default.  Below `not` it follows the `$ref`s in the document of the other side.

- `Inlines` and `SameTargets` say that these places agree at one pair of schemas;
- `expand_verdict`: the verdict on two schemas is that on their expansions, when they agree at
  every pair that the comparison comes to.
-/

namespace KrabkaRegistry.Format.Json

open Relation (ReflTransGen)
open KrabkaRegistry.Library.Related (forall₂_mem_left optionRel_imp)

variable {L : DiffLibs}

/-! ## Where a comparison is -/

/-- The same context with the documents of the two sides exchanged. -/
def Ctx.swap (ctx : Ctx) : Ctx :=
  { ctx with
    origRoot := ctx.updRoot
    updRoot := ctx.origRoot
    origRefs := ctx.updRefs
    updRefs := ctx.origRefs }

/-- A comparison, and the documents that the `$ref`s of its two schemas were written in.  They are
those of the context, but for the swap of the sides below `not`. -/
structure Placed extends Comparison where
  home : Ctx

/-- The comparison of two documents without registry references. -/
def Placed.ofDocuments (reader writer : Value) : Placed :=
  let start := Comparison.ofSchemas ⟨reader, []⟩ ⟨writer, []⟩
  ⟨start, start.ctx⟩

/-- The `$ref`s of the two schemas resolve in the context as in the documents that they were
written in. -/
structure SameTargets (p : Placed) : Prop where
  orig : resolveRef p.orig p.ctx.origRoot p.ctx.origRefs =
    resolveRef p.orig p.home.origRoot p.home.origRefs
  upd : resolveRef p.upd p.ctx.updRoot p.ctx.updRefs =
    resolveRef p.upd p.home.updRoot p.home.updRefs

/-- One comparison that another makes: a step of its walk, or branches of its combinators.  The
search through the branches of one side goes on while it is undecided. -/
inductive Compared (L : DiffLibs) : Placed → Placed → Prop where
  | next {c d : Comparison} {home : Ctx} : Next L c d → Compared L ⟨c, home⟩ ⟨d, home⟩
  | both {ctx home : Ctx} {o u a b : Value} {kind : String} {old new : List Value} :
      NoRefs o u → ComparedLists kind o u old new → old ≠ new → a ∈ old → b ∈ new →
      Compared L ⟨⟨ctx, o, u⟩, home⟩ ⟨⟨ctx.fresh, a, b⟩, home⟩
  | any {ctx home : Ctx} {o u b : Value} {kind : String} {before after : List Value} :
      NoRefs o u → sumOf o = none → sumOf u = some (kind, before ++ b :: after) →
      (∀ x ∈ before, verdict L ⟨ctx.fresh, o, x⟩ = some false) →
      Compared L ⟨⟨ctx, o, u⟩, home⟩ ⟨⟨ctx.fresh, o, b⟩, home⟩
  | all {ctx home : Ctx} {o u a : Value} {kind : String} {before after : List Value} :
      NoRefs o u → sumOf o = some (kind, before ++ a :: after) → sumOf u = none →
      (∀ x ∈ before, verdict L ⟨ctx.fresh, x, u⟩ = some true) →
      Compared L ⟨⟨ctx, o, u⟩, home⟩ ⟨⟨ctx.fresh, a, u⟩, home⟩
  -- The sides are swapped here, and with them the documents that they were written in.
  | not {ctx home : Ctx} {o u a b : Value} :
      NoRefs o u → o.get "not" = some a → u.get "not" = some b → a ≠ b →
      Compared L ⟨⟨ctx, o, u⟩, home⟩ ⟨⟨ctx.fresh, b, a⟩, home.swap⟩

/-- Every comparison that a comparison comes to. -/
abbrev ComesTo (L : DiffLibs) : Placed → Placed → Prop := ReflTransGen (Compared L)

/-! ## Where `$ref`s are not followed -/

/-- An expansion, with some fuel. -/
def ExpandsAt (resolve : Resolver) (doc : Value) (pos : Position) (v v' : Value) : Prop :=
  ∃ fuel, expand resolve fuel doc pos v = some v'

/-- An expansion on the side of the original. -/
abbrev OrigAt (home : Ctx) : Position → Value → Value → Prop :=
  ExpandsAt (byRoot home.origRefs) home.origRoot

/-- An expansion on the side of the update. -/
abbrev UpdAt (home : Ctx) : Position → Value → Value → Prop :=
  ExpandsAt (byRoot home.updRefs) home.updRoot

/-- No `items` of a schema, or below it, is malformed, so that the schema is compatible with
itself. -/
def WellFormedItems (v : Value) : Prop :=
  ∀ x, ReflTransGen (fun x y => y ∈ subschemas x) v x → ¬ MalformedItems x

/-- The keywords that hold one schema, or `false`. -/
def additionalKeywords : List String := ["additionalProperties", "additionalItems"]

/-- A `$ref` under `additionalProperties` leads to an object, so that the content model stays. -/
def KeepsContent (at' : Position → Value → Value → Prop) (v : Value) : Prop :=
  ∀ x x', v.get "additionalProperties" = some x → at' .schema x x' → x.isObject = true →
    x'.isObject = true

/-- The places of a compared pair at which a `$ref` is not followed. -/
structure Inlines (L : DiffLibs) (p : Placed) : Prop where
  /-- The content model of a side counts where the other declares a property that it does not. -/
  contentO : (∃ m ∈ declared p.upd, (declared p.orig).lookup m.1 = none) →
    KeepsContent (OrigAt p.home) p.orig
  contentU : (∃ m ∈ declared p.orig, (declared p.upd).lookup m.1 = none) →
    KeepsContent (UpdAt p.home) p.upd
  /-- These keywords narrow where their expansions do, and two schemas do not lead to a boolean and
  an object. -/
  additional : ∀ key ∈ additionalKeywords, ∀ a' b',
    Option.Rel (OrigAt p.home .schema) (p.orig.get key) a' →
    Option.Rel (UpdAt p.home .schema) (p.upd.get key) b' →
    narrows (p.orig.get key) (p.upd.get key) = narrows a' b' ∧
      (isSchemaValued (p.orig.get key) = true → isSchemaValued (p.upd.get key) = true →
        booleanAgainstObject a' b' = false)
  /-- Where both sides have a schema under `items`, both lead to objects. -/
  items : ∀ a b a' b', p.orig.get "items" = some a → p.upd.get "items" = some b →
    OrigAt p.home .items a a' → UpdAt p.home .items b b' → a.isObject = true →
    b.isObject = true → a'.isObject = true ∧ b'.isObject = true
  /-- A dependency that both sides have. -/
  dependency : ∀ m ∈ dependencies p.orig, ∀ b, (dependencies p.upd).lookup m.1 = some b →
    ∀ a' b', OrigAt p.home .schema m.2 a' → UpdAt p.home .schema b b' →
    SameDependency m.2 b a' b'
  /-- Where it decides, a property does not lead to `{}`, unless it is `{}`. -/
  empty : ∀ m ∈ declared p.upd, EmptyDecides p.orig p.upd m.1 →
    ∀ x', UpdAt p.home .schema m.2 x' → x'.asObject = some [] → m.2.asObject = some []
  /-- Where it decides, a property has a default exactly when what it leads to has one. -/
  default : ∀ m ∈ declared p.upd, DefaultDecides p.orig p.upd m.1 →
    ∀ x', UpdAt p.home .schema m.2 x' → (m.2.get "default").isSome = (x'.get "default").isSome
  /-- Branches that are the same text say the same, and branches that say the same without being
  the same text say it in a form that is compatible with itself. -/
  lists : ∀ kind old new old' new', ComparedLists kind p.orig p.upd old new →
    List.Forall₂ (OrigAt p.home .schema) old old' →
    List.Forall₂ (UpdAt p.home .schema) new new' →
    (old = new → old' = new') ∧ (old ≠ new → old' = new' → ∀ b ∈ old', WellFormedItems b)
  /-- So do the values of `not`. -/
  not : ∀ a b a' b', p.orig.get "not" = some a → p.upd.get "not" = some b →
    OrigAt p.home .schema a a' → UpdAt p.home .schema b b' →
    (a = b → a' = b') ∧ (a ≠ b → a' = b' → WellFormedItems a')
  /-- Conditionals are the same text exactly when they say the same. -/
  conditionals : ∀ key ∈ conditionalKeywords, ∀ a b a' b', p.orig.get key = some a →
    p.upd.get key = some b → OrigAt p.home .schema a a' → UpdAt p.home .schema b b' →
    (canonicalValue L a = canonicalValue L b ↔ canonicalValue L a' = canonicalValue L b')

/-! ## One schema and its expansion -/

/-- The expansion with the fuel that is left. -/
abbrev ExpandsTo (resolve : Resolver) (doc : Value) (fuel : ℕ) (a a' : Value) : Prop :=
  expand resolve fuel doc .schema a = some a'

/-- A part of a schema and its expansion, which lies inside the expansion of the schema. -/
structure Part (resolve : Resolver) (doc : Value) (fuel : ℕ) (v' a a' : Value) : Prop where
  expands : ExpandsTo resolve doc fuel a a'
  inside : Inside a' v'

theorem Part.replacesObjects (resolve : Resolver) (doc : Value) (fuel : ℕ) (v' : Value) :
    ReplacesObjects (Part resolve doc fuel v') where
  other h := expand_same h.expands
  object h := expand_kind h.expands

/-- What is related element by element is related to an element of the list. -/
theorem forall₂_and_mem {α β : Type} {P : α → β → Prop} {l : List α} {r : List β}
    (h : List.Forall₂ P l r) : List.Forall₂ (fun a b => P a b ∧ b ∈ r) l r := by
  induction h with
  | nil => exact .nil
  | cons ha _ ih =>
    exact .cons ⟨ha, List.mem_cons_self⟩ (ih.imp fun a b h => ⟨h.1, List.mem_cons_of_mem _ h.2⟩)

section Side

variable {resolve : Resolver} {doc v v' : Value} {fuel : ℕ} (hv : refOf v = none)
  (h : expand resolve (fuel + 1) doc .schema v = some v')

include hv h

theorem expand_samePlain : SamePlain v v' := by
  have hdata : ∀ key ∈ plainKeywords, positionOf key = .data := by decide
  exact fun key hkey => expand_get_data hv h (hdata key hkey)

theorem expand_requiredSet : requiredSet v = requiredSet v' := by
  unfold requiredSet
  rw [expand_get_data hv h (by decide)]

theorem expand_uniqueItems : uniqueItems v = uniqueItems v' := by
  unfold uniqueItems
  rw [expand_get_data hv h (by decide)]

theorem expand_hasPatterns : hasPatterns v = hasPatterns v' := by
  have hrel := expand_get hv h "patternProperties"
  have hpos : positionOf "patternProperties" = .map := by decide
  rw [hpos] at hrel
  unfold hasPatterns
  revert hrel
  generalize v.get "patternProperties" = a
  generalize v'.get "patternProperties" = a'
  intro hrel
  cases hrel with
  | none => rfl
  | @some a a' hrel =>
    cases fuel with
    | zero => cases hrel
    | succ fuel =>
      cases a with
      | object members =>
        obtain ⟨members', rfl, -⟩ := expand_map.mp hrel
        rfl
      | _ =>
        cases hrel
        rfl

/-- The schema under a keyword. -/
theorem part_schema {key : String} (hkey : positionOf key = .schema) :
    OptionAlike (Part resolve doc fuel v') (v.get key) (v'.get key) := by
  have hrel := expand_get hv h key
  rw [hkey] at hrel
  have hinside : ∀ x, v'.get key = some x → Inside x v' := fun x hx => .of_get hx
  revert hrel hinside
  generalize v.get key = a
  generalize v'.get key = a'
  intro hrel hinside
  cases hrel with
  | none => exact .none
  | some hx => exact .some ⟨hx, hinside _ rfl⟩

/-- The schemas under names. -/
theorem part_members {key : String} (hkey : positionOf key = .map) :
    MembersAlike (Part resolve doc fuel v') (((v.get key).bind Value.asObject).getD [])
      (((v'.get key).bind Value.asObject).getD []) :=
  (forall₂_and_mem (expand_members hv h hkey)).imp fun _ _ hm =>
    ⟨hm.1.1, hm.1.2, inside_of_keyword hm.2⟩

/-- The branches of a combinator. -/
theorem part_branches : ∀ key ∈ branchKeywords,
    Option.Rel (List.Forall₂ (Part resolve doc fuel v')) (branches v key) (branches v' key) := by
  intro key hkey
  have hpos : ∀ k ∈ branchKeywords, positionOf k = .list := by decide
  have hrel := expand_branches hv h (hpos key hkey)
  have hinside : ∀ l, branches v' key = some l → ∀ b ∈ l, Inside b v' :=
    fun l hl b hb => inside_of_branches hl hb
  revert hrel hinside
  generalize branches v key = a
  generalize branches v' key = a'
  intro hrel hinside
  cases hrel with
  | none => exact .none
  | some hall => exact .some ((forall₂_and_mem hall).imp fun b b' hb => ⟨hb.1, hinside _ rfl b' hb.2⟩)

/-- What stands under `items`. -/
theorem part_items :
    Option.Rel (ItemsFrom (Part resolve doc fuel v')) (v.get "items") (v'.get "items") := by
  have hrel := expand_get hv h "items"
  have hpos : positionOf "items" = .items := by decide
  rw [hpos] at hrel
  have hinside : ∀ x, v'.get "items" = some x → Inside x v' := fun x hx => .of_get hx
  -- The two values of `items` become variables: absent, a list of schemas, or one schema.
  revert hrel hinside
  generalize v.get "items" = a
  generalize v'.get "items" = a'
  intro hrel hinside
  cases hrel with
  | none => exact .none
  | @some a a' hrel =>
    have ha' := hinside a' rfl
    refine .some ?_
    cases fuel with
    | zero => cases hrel
    | succ fuel =>
      cases harray : a.isArray with
      | true =>
        cases a with
        | array items =>
          rw [expand_items_eq] at hrel
          obtain ⟨items', rfl, hitems⟩ := expand_list.mp hrel
          exact .list ((forall₂_and_mem hitems).imp fun x x' hx =>
            ⟨expand_succ hx.1, ha'.item rfl hx.2⟩)
        | _ => cases harray
      | false =>
        have hschema : expand resolve fuel doc .schema a = some a' := by
          cases a with
          | array items => cases harray
          | _ => exact hrel
        exact .schema harray ⟨expand_succ hschema, ha'⟩

/-- The content model, where a `$ref` under `additionalProperties` leads to an object. -/
theorem part_cover (hkeeps : KeepsContent (ExpandsAt resolve doc) v) :
    CoverAlike (Part resolve doc fuel v') v v' := by
  refine ⟨contentModel_alike ?_ (expand_hasPatterns hv h), part_members hv h (by decide)⟩
  have hrel := part_schema hv h (show positionOf "additionalProperties" = .schema by decide)
  have hkind := hkeeps
  unfold KeepsContent at hkind
  unfold SchemaAlike
  revert hrel hkind
  generalize v.get "additionalProperties" = a
  generalize v'.get "additionalProperties" = a'
  intro hrel hkind
  cases hrel with
  | none => exact .none
  | @some a a' hrel =>
    refine .some ?_
    cases hobject : a.isObject with
    -- An object stays one by `hkeeps`, so the content model stays schema-valued.
    | true =>
      have hobject' := hkind a a' rfl ⟨fuel, hrel.expands⟩ hobject
      have hboolean : ∀ {x : Value}, x.isObject = true → x.isBoolean = false := by
        intro x hx
        cases x with
        | bool b => cases hx
        | _ => rfl
      exact .schema (hboolean hobject) (hboolean hobject') (by rw [hobject, hobject']) hrel
    | false =>
      obtain rfl := expand_same hrel.expands hobject
      cases a' with
      | bool b => exact .bool b
      | _ => exact .schema rfl rfl rfl hrel

end Side

/-! ## Two schemas and their expansions -/

/-- An expansion on the side of the original, with its fuel. -/
abbrev ExpandsOrig (home : Ctx) : ℕ → Value → Value → Prop :=
  ExpandsTo (byRoot home.origRefs) home.origRoot

/-- An expansion on the side of the update, with its fuel. -/
abbrev ExpandsUpd (home : Ctx) : ℕ → Value → Value → Prop :=
  ExpandsTo (byRoot home.updRefs) home.updRoot

/-- A part of the original. -/
abbrev PartOrig (home : Ctx) : ℕ → Value → Value → Value → Prop :=
  Part (byRoot home.origRefs) home.origRoot

/-- A part of the update. -/
abbrev PartUpd (home : Ctx) : ℕ → Value → Value → Value → Prop :=
  Part (byRoot home.updRefs) home.updRoot

section Pair

variable {ctx home : Ctx} {o u o' u' : Value} {fuelO fuelU : ℕ}

variable (hplain : NoRefs o u) (ho : ExpandsOrig home (fuelO + 1) o o')
  (hu : ExpandsUpd home (fuelU + 1) u u') (hd : Inlines L ⟨⟨ctx, o, u⟩, home⟩)
include hplain hu hd

theorem expand_properties :
    List.Forall₂ (PropertyAlike (PartUpd home fuelU u') o u) (declared u) (declared u') := by
  have hmembers : MembersAlike (PartUpd home fuelU u') (declared u) (declared u') :=
    part_members hplain.2 hu (by decide)
  have hempty := hd.empty
  have hdefault := hd.default
  simp only at hempty hdefault
  revert hempty hdefault
  generalize declared u = ms at hmembers
  generalize declared u' = ms' at hmembers
  intro hempty hdefault
  induction hmembers with
  | nil => exact .nil
  | @cons m m' ms ms' hm _ ih =>
    obtain ⟨hkey, hexp, hinside⟩ := hm
    refine .cons ⟨hkey, ⟨hexp, hinside⟩, fun hdecides => ⟨fun hnil => ?_, ?_⟩, fun hdecides => ?_⟩
      (ih (fun x hx => hempty x (List.mem_cons_of_mem _ hx))
        fun x hx => hdefault x (List.mem_cons_of_mem _ hx))
    · -- The empty schema is its own expansion.
      obtain ⟨k, x⟩ := m
      cases x with
      | object members =>
        obtain rfl : members = [] := by simpa [Value.asObject] using hnil
        cases fuelU with
        | zero => cases hexp
        | succ fuelU =>
          obtain ⟨members', heq, hms⟩ := (expand_plain rfl).mp hexp
          cases hms
          rw [heq]
          rfl
      | _ => simp [Value.asObject] at hnil
    · exact hempty m List.mem_cons_self hdecides m'.2 ⟨fuelU, hexp⟩
    · exact hdefault m List.mem_cons_self hdecides m'.2 ⟨fuelU, hexp⟩

include ho

theorem expand_conditionals :
    ConditionalsAlike L (PartOrig home fuelO o') (PartUpd home fuelU u') o u o' u' := by
  have hpos : ∀ k ∈ conditionalKeywords, positionOf k = .schema := by decide
  have horig := fun key (hkey : key ∈ conditionalKeywords) =>
    part_schema hplain.1 ho (hpos key hkey)
  have hupd := fun key (hkey : key ∈ conditionalKeywords) =>
    part_schema hplain.2 hu (hpos key hkey)
  refine ⟨horig, hupd, fun key hkey a b a' b' ha hb ha' hb' => ?_⟩
  have hoa : OptionAlike (PartOrig home fuelO o') (some a) (some a') := ha ▸ ha' ▸ horig key hkey
  have hub : OptionAlike (PartUpd home fuelU u') (some b) (some b') := hb ▸ hb' ▸ hupd key hkey
  cases hoa with
  | some hoa =>
    cases hub with
    | some hub =>
      exact hd.conditionals key hkey a b a' b' ha hb ⟨fuelO, hoa.expands⟩ ⟨fuelU, hub.expands⟩

/-- The schemas under `additionalProperties` or `additionalItems`. -/
theorem expand_additional {key : String} (hkey : key ∈ additionalKeywords) :
    OptionAlike (PartOrig home fuelO o') (o.get key) (o'.get key) ∧
      OptionAlike (PartUpd home fuelU u') (u.get key) (u'.get key) ∧
      narrows (o.get key) (u.get key) = narrows (o'.get key) (u'.get key) ∧
      (isSchemaValued (o.get key) = true → isSchemaValued (u.get key) = true →
        booleanAgainstObject (o'.get key) (u'.get key) = false) := by
  have hpos : ∀ k ∈ additionalKeywords, positionOf k = .schema := by decide
  have horig := part_schema hplain.1 ho (hpos key hkey)
  have hupd := part_schema hplain.2 hu (hpos key hkey)
  refine ⟨horig, hupd, hd.additional key hkey _ _ ?_ ?_⟩
  · exact optionRel_imp (fun _ _ h => ⟨fuelO, h.expands⟩) horig
  · exact optionRel_imp (fun _ _ h => ⟨fuelU, h.expands⟩) hupd

variable {f g : Value → Value → Option Bool}
  (hbelow : AnsweredAlike f g (PartOrig home fuelO o') (PartUpd home fuelU u') (keywordSteps L o u))
  (hother : ∀ a b : Value, a.isObject = false → b.isObject = false → g a b = some true)
include hbelow hother

/-- All keywords but the combinators have one outcome in the schemas and in their expansions. `hd`
says what an expansion leaves alone where a keyword looks at a value itself; the rest is one lemma
for each keyword, with `hbelow` for the pairs that it compares. -/
theorem expand_keywordsAlike : KeywordsAlike L (SameCheck f g) o u o' u' := by
  obtain ⟨hinP, hinAP, hinI, hinAI, hinD, hinC⟩ := subset_keywordSteps (L := L) o u
  have hO := Part.replacesObjects (byRoot home.origRefs) home.origRoot fuelO o'
  have hU := Part.replacesObjects (byRoot home.updRefs) home.updRoot fuelU u'
  have hop : MembersAlike (PartOrig home fuelO o') (declared o) (declared o') :=
    part_members hplain.1 ho (by decide)
  have hup := expand_properties hplain hu hd
  -- `additionalProperties` and `additionalItems` go through one body.
  have hadditional : ∀ (kinds : AdditionalKinds), kinds.Graded → ∀ key ∈ additionalKeywords,
      ∀ suffix, additionalSteps kinds suffix (o.get key) (u.get key) ⊆ keywordSteps L o u →
      SameCheck f g (additionalSteps kinds suffix (o.get key) (u.get key))
        (additionalSteps kinds suffix (o'.get key) (u'.get key)) := by
    intro kinds hkinds key hkey suffix hsub
    obtain ⟨horig, hupd, hnarrows, hbooleans⟩ := expand_additional hplain ho hu hd hkey
    exact additionalSteps_checked hO hU hother hkinds suffix horig hupd hnarrows hbooleans
      (hbelow.mono hsub)
  -- Two schemas under `items` lead to schemas, which `hd` grants for what they lead to.
  have hitems : ∀ a b a' b', o.get "items" = some a → u.get "items" = some b →
      o'.get "items" = some a' → u'.get "items" = some b' → a.isObject = true →
      b.isObject = true → a'.isObject = true ∧ b'.isObject = true := by
    intro a b a' b' ha hb ha' hb'
    have horig := expand_get hplain.1 ho "items"
    have hupd := expand_get hplain.2 hu "items"
    rw [ha, ha', show positionOf "items" = .items by decide] at horig
    rw [hb, hb', show positionOf "items" = .items by decide] at hupd
    cases horig with
    | some horig =>
      cases hupd with
      | some hupd => exact hd.items a b a' b' ha hb ⟨fuelO, horig⟩ ⟨fuelU, hupd⟩
  exact
    { plainO := expand_samePlain hplain.1 ho
      plainU := expand_samePlain hplain.2 hu
      properties := compareProperties_checked (fun hnew => part_cover hplain.1 ho (hd.contentO hnew))
        (fun hgone => part_cover hplain.2 hu (hd.contentU hgone))
        (expand_requiredSet hplain.2 hu) hop hup (hbelow.mono hinP)
      required := compareRequired_declared (expand_requiredSet hplain.1 ho)
        (expand_requiredSet hplain.2 hu) hop hup
      additionalProperties := hadditional _ propertiesKinds_graded _ (by decide) _ hinAP
      items := compareItems_checked hO hU (part_items hplain.1 ho) (part_items hplain.2 hu) hitems
        (hbelow.mono hinI)
      additionalItems := by
        rw [compareAdditionalItems_eq] at hinAI
        rw [compareAdditionalItems_eq, compareAdditionalItems_eq]
        exact hadditional _ itemsKinds_graded _ (by decide) _ hinAI
      uniqueItems := by
        unfold compareUniqueItems
        rw [expand_uniqueItems hplain.1 ho, expand_uniqueItems hplain.2 hu]
      dependencies := compareDependencies_checked hO hU hother
        (part_members hplain.1 ho (by decide)) (part_members hplain.2 hu (by decide))
        (fun m hm b hb a' b' ha' hb' => hd.dependency m hm b hb a' b' ⟨fuelO, ha'.expands⟩
          ⟨fuelU, hb'.expands⟩)
        (hbelow.mono hinD)
      conditionals := .of_alike (compareConditionals_alike L (expand_conditionals hplain ho hu hd))
        (hbelow.mono hinC) }

end Pair

/-! ## Following `$ref`s -/

/-- No reference document goes by the empty name, which marks a side without `$ref`. -/
structure NoEmptyName (ctx : Ctx) : Prop where
  orig : ctx.origRefs.lookup "" = none
  upd : ctx.updRefs.lookup "" = none

/-- The marked references are not met again: they take more fuel to expand. -/
def Unmarked (visited : Finset (String × String)) (home : Ctx) (fuelO fuelU : ℕ) : Prop :=
  ∀ key ∈ visited,
    (∀ v w, refOf v = some key.1 → ¬ ExpandsOrig home fuelO v w) ∧
      ∀ v w, refOf v = some key.2 → ¬ ExpandsUpd home fuelU v w

theorem Unmarked.anti {visited : Finset (String × String)} {home : Ctx}
    {fuelO fuelU fuelO' fuelU' : ℕ} (h : Unmarked visited home fuelO fuelU) (hO : fuelO' ≤ fuelO)
    (hU : fuelU' ≤ fuelU) : Unmarked visited home fuelO' fuelU' := by
  intro key hkey
  obtain ⟨hkO, hkU⟩ := h key hkey
  exact ⟨fun v w hv hexp => hkO v w hv (expand_mono hexp hO),
    fun v w hv hexp => hkU v w hv (expand_mono hexp hU)⟩

theorem unmarked_empty (home : Ctx) (fuelO fuelU : ℕ) : Unmarked ∅ home fuelO fuelU := by
  intro key hkey
  exact absurd hkey (Finset.notMem_empty key)

section Refs

variable {refs : RefMap} {root v w : Value} {fuel : ℕ}

/-- The expansion of a reference is that of its target. -/
theorem expand_target {ref : String} (hv : refOf v = some ref)
    (h : ExpandsTo (byRoot refs) root (fuel + 1) v w) :
    ∃ target, resolveRef v root refs = some target ∧
      ExpandsTo (byRoot refs) root fuel target w := by
  rw [ExpandsTo, expand_ref hv] at h
  obtain ⟨target, htarget, h⟩ := Option.bind_eq_some_iff.mp h
  obtain ⟨t, ht, rfl⟩ := Option.map_eq_some_iff.mp (Option.eq_some_of_filter_eq_some htarget)
  exact ⟨t, ht, h⟩

/-- The text of a reference determines its expansion. -/
theorem expand_sameRef {v' : Value} {ref : String} (hv : refOf v = some ref)
    (hv' : refOf v' = some ref) :
    expand (byRoot refs) fuel root .schema v = expand (byRoot refs) fuel root .schema v' := by
  cases fuel with
  | zero => rfl
  | succ fuel =>
    rw [expand_ref hv, expand_ref hv']
    simp only [schemaTarget, byRoot, resolveRef, hv, hv']

theorem not_expands_of_empty (hname : refs.lookup "" = none) (hv : refOf v = some "") :
    ¬ ExpandsTo (byRoot refs) root fuel v w := by
  intro h
  cases fuel with
  | zero => cases h
  | succ fuel =>
    obtain ⟨target, htarget, -⟩ := expand_target hv h
    have hnone : resolveRef v root refs = refs.lookup "" := by
      unfold resolveRef
      rw [hv]
      rfl
    rw [hnone, hname] at htarget
    cases htarget

/-- A schema that expands, with the least fuel; or the target of its reference, with less. -/
theorem least_expansion (h : ExpandsTo (byRoot refs) root fuel v w)
    (hname : refs.lookup "" = none) :
    ∃ least ≤ fuel, ExpandsTo (byRoot refs) root least v w ∧
      ∃ left target, target = (resolveRef v root refs).getD v ∧
        ExpandsTo (byRoot refs) root left target w ∧ left ≤ least ∧
        (refOf v ≠ none → left < least ∧ (resolveRef v root refs).isSome) ∧
        ∀ x y, refOf x = some ((refOf v).getD "") → ¬ ExpandsTo (byRoot refs) root left x y := by
  have hexists : ∃ n, ExpandsTo (byRoot refs) root n v w := ⟨fuel, h⟩
  classical
  let least := Nat.find hexists
  have hleast : ExpandsTo (byRoot refs) root least v w := Nat.find_spec hexists
  refine ⟨least, Nat.find_min' hexists h, hleast, ?_⟩
  cases href : refOf v with
  | none =>
    have hnone : resolveRef v root refs = none := by simp [resolveRef, href]
    refine ⟨least, v, by rw [hnone]; rfl, hleast, le_refl least, by simp, fun x y hx => ?_⟩
    exact not_expands_of_empty hname (by simpa using hx)
  | some ref =>
    cases hl : least with
    | zero => rw [hl] at hleast; cases hleast
    | succ left =>
      rw [hl] at hleast
      obtain ⟨target, htarget, hexp⟩ := expand_target href hleast
      refine ⟨left, target, by rw [htarget]; rfl, hexp, Nat.le_succ left,
        fun _ => ⟨Nat.lt_succ_self left, by rw [htarget]; rfl⟩, fun x y hx hexp' => ?_⟩
      -- With less fuel than the least, the reference would expand as well.
      have hsame : expand (byRoot refs) left root .schema x = expand (byRoot refs) left root .schema v :=
        expand_sameRef hx href
      rw [ExpandsTo, hsame] at hexp'
      obtain rfl := expand_unique hexp' hleast
      exact Nat.find_min hexists (show left < least by omega) hexp'

end Refs

/-! ## One comparison and its expansion -/

/-- A comparison whose schemas have expansions, where `$ref`s are followed as far as it matters. -/
structure Expands (L : DiffLibs) (p : Placed) (fuelO fuelU : ℕ) (o' u' : Value) : Prop where
  orig : ExpandsOrig p.home fuelO p.orig o'
  upd : ExpandsUpd p.home fuelU p.upd u'
  distinctO : o'.Distinct
  distinctU : u'.Distinct
  names : NoEmptyName p.home
  unmarked : Unmarked p.ctx.visited p.home fuelO fuelU
  targets : ∀ q, ComesTo L p q → SameTargets q
  inlines : ∀ q, ComesTo L p q → NoRefs q.orig q.upd → Inlines L q

/-- The comparison of the expansions ends, with the verdict of the other. -/
abbrev SameVerdict (L : DiffLibs) (c c' : Comparison) : Prop :=
  SameAnswer (verdict L c) (verdict L c')

/-- A schema without `$ref`s is compatible with itself when its `items` are well formed. -/
theorem verdict_wellFormed {resolve : Resolver} {ctx : Ctx} (n : ℕ) : ∀ {v : Value}, sizeOf v ≤ n →
    v.Distinct → Expanded resolve v → WellFormedItems v → verdict L ⟨ctx, v, v⟩ = some true := by
  induction n with
  | zero =>
    intro v hle
    cases v <;> simp at hle
  | succ n ih =>
    intro v hle hdistinct hexp hgood
    have hplain : NoRefs v v := ⟨hexp.refOf, hexp.refOf⟩
    refine verdict_true_step.mpr ⟨fun _ => (locallyOk_self hdistinct).mpr (hgood v .refl),
      fun d hd => ?_⟩
    obtain ⟨suffix, a, b, hmem, rfl⟩ := (next_plain hplain).mp hd
    obtain ⟨hinside, -⟩ := recurse_inside L hmem
    rcases (keywordSteps_self L hdistinct).1 _ hmem with ⟨suffix', y, hy, heq⟩ | ⟨-, heq⟩
    · obtain ⟨-, rfl, rfl⟩ := Step.recurse.inj heq
      have hlt := hinside.size
      exact ih (by omega) (hdistinct.sub hinside.sub) (hexp.subschemas hy)
        fun x hx => hgood x (.head hy hx)
    · cases heq

/-- Branches whose expansions are the same well-formed lists are compatible one by one. -/
theorem matched_of_wellFormed {O U : Value → Value → Prop} {f : Value → Value → Option Bool}
    {old new l : List Value} (hold : List.Forall₂ O old l) (hnew : List.Forall₂ U new l)
    (hsome : ∀ a b, a ∈ old → b ∈ new → (f a b).isSome)
    (htrue : ∀ a b c, a ∈ old → b ∈ new → c ∈ l → O a c → U b c → f a b = some true) :
    Matched f old new := by
  refine ⟨fun a ha b hb => hsome a b ha hb, ?_⟩
  clear hsome
  induction hold generalizing new with
  | nil =>
    cases hnew
    exact .nil
  | @cons a c old l ha _ ih =>
    cases hnew with
    | cons hb hnew =>
      refine .cons (htrue _ _ c List.mem_cons_self List.mem_cons_self List.mem_cons_self ha hb)
        (ih hnew fun x y z hx hy hz => ?_)
      exact htrue x y z (List.mem_cons_of_mem _ hx) (List.mem_cons_of_mem _ hy)
        (List.mem_cons_of_mem _ hz)

section Plain

variable {ctx ctx' home : Ctx} {o u o' u' : Value} {fuelO fuelU : ℕ} (hplain : NoRefs o u)
  (hp : Expands L ⟨⟨ctx, o, u⟩, home⟩ (fuelO + 1) (fuelU + 1) o' u')
  (ih : ∀ {p : Placed} {nO nU : ℕ} {a' b' : Value},
    sizeOf a' + sizeOf b' < sizeOf o' + sizeOf u' → Expands L p nO nU a' b' →
    ∀ ctx' : Ctx, SameVerdict L p.toComparison ⟨ctx', a', b'⟩)
include hplain hp ih

/-- The comparisons below have the verdicts of their expansions. -/
theorem sameVerdict_recurse {suffix : String} {a b a' b' : Value}
    (hmem : .recurse suffix a b ∈ keywordSteps L o u) (ha : PartOrig home fuelO o' a a')
    (hb : PartUpd home fuelU u' b b') : SameVerdict L ⟨ctx, a, b⟩ ⟨ctx', a', b'⟩ := by
  have hsa := ha.inside.size
  have hsb := hb.inside.size
  have hstep : Compared L ⟨⟨ctx, o, u⟩, home⟩ ⟨⟨ctx, a, b⟩, home⟩ := .next (.recurse hplain hmem)
  have hbelow : Expands L ⟨⟨ctx, a, b⟩, home⟩ fuelO fuelU a' b' :=
    { orig := ha.expands
      upd := hb.expands
      distinctO := hp.distinctO.sub ha.inside.sub
      distinctU := hp.distinctU.sub hb.inside.sub
      names := hp.names
      unmarked := hp.unmarked.anti (Nat.le_succ _) (Nat.le_succ _)
      targets := fun q hq => hp.targets q (.head hstep hq)
      inlines := fun q hq => hp.inlines q (.head hstep hq) }
  exact ih (by omega) hbelow ctx'

/-- A call of a branch has the verdict of the expanded call. The expanded branches are smaller than
the expanded schemas, which is what the induction behind `ih` is on. -/
theorem sameVerdict_branch {a b a' b' : Value}
    (hcall : CallsTo (fun a b => verdict L ⟨ctx.fresh, a, b⟩) (PartOrig home fuelO o')
      (PartUpd home fuelU u') o u o' u' a b a' b') :
    SameVerdict L ⟨ctx.fresh, a, b⟩ ⟨ctx', a', b'⟩ := by
  -- With nothing marked, only what the two sides expand to and what they come to is needed.
  have hfresh : ∀ {x y x' y' : Value} {home' : Ctx} {nO nU : ℕ},
      Compared L ⟨⟨ctx, o, u⟩, home⟩ ⟨⟨ctx.fresh, x, y⟩, home'⟩ → NoEmptyName home' →
      ExpandsOrig home' nO x x' → ExpandsUpd home' nU y y' → x'.Distinct → y'.Distinct →
      Expands L ⟨⟨ctx.fresh, x, y⟩, home'⟩ nO nU x' y' :=
    fun hstep hnames hx hy hx' hy' =>
      { orig := hx
        upd := hy
        distinctO := hx'
        distinctU := hy'
        names := hnames
        unmarked := unmarked_empty _ _ _
        targets := fun q hq => hp.targets q (.head hstep hq)
        inlines := fun q hq => hp.inlines q (.head hstep hq) }
  cases hcall with
  | both hlists hne hmem hmem' ha hb =>
    have hsa := ha.inside.size
    have hsb := hb.inside.size
    exact ih (by omega) (hfresh (.both hplain hlists hne hmem hmem') hp.names ha.expands hb.expands
      (hp.distinctO.sub ha.inside.sub) (hp.distinctU.sub hb.inside.sub)) ctx'
  | any hold hnew hbefore hb =>
    have hsb := hb.inside.size
    exact ih (by omega) (hfresh (.any hplain hold hnew hbefore) hp.names hp.orig hb.expands
      hp.distinctO (hp.distinctU.sub hb.inside.sub)) ctx'
  | all hold hnew hbefore ha =>
    have hsa := ha.inside.size
    exact ih (by omega) (hfresh (.all hplain hold hnew hbefore) hp.names ha.expands hp.upd
      (hp.distinctO.sub ha.inside.sub) hp.distinctU) ctx'
  | not hold hnew hne ha hb =>
    -- Each side is expanded where it was written, which is the other side now.
    have hsa := ha.inside.size
    have hsb := hb.inside.size
    exact ih (by omega) (hfresh (.not hplain hold hnew hne) ⟨hp.names.upd, hp.names.orig⟩ hb.expands
      ha.expands (hp.distinctU.sub hb.inside.sub) (hp.distinctO.sub ha.inside.sub)) ctx'

/-- The combinators of two schemas without `$ref`s and of their expansions correspond. Where two
lists have become equal by expanding, the source stops comparing; as every branch accepts itself,
comparing them would have found the same. -/
theorem combinatorsAlike_expand :
    CombinatorsAlike (PartOrig home fuelO o') (PartUpd home fuelU u')
      (fun a b => verdict L ⟨ctx.fresh, a, b⟩) o u o' u' := by
  have hd : Inlines L ⟨⟨ctx, o, u⟩, home⟩ := hp.inlines _ .refl hplain
  have hcalls : ∀ {a b a' b'}, CallsTo (fun a b => verdict L ⟨ctx.fresh, a, b⟩)
      (PartOrig home fuelO o') (PartUpd home fuelU u') o u o' u' a b a' b' →
      SameVerdict L ⟨ctx.fresh, a, b⟩ ⟨ctx, a', b'⟩ := fun hcall =>
    sameVerdict_branch hplain hp ih hcall
  have hnotO := part_schema hplain.1 hp.orig (show positionOf "not" = .schema by decide)
  have hnotU := part_schema hplain.2 hp.upd (show positionOf "not" = .schema by decide)
  -- An expansion that is well formed is compatible with itself.
  have hself : ∀ {x x' : Value}, PartOrig home fuelO o' x x' → WellFormedItems x' →
      verdict L ⟨ctx, x', x'⟩ = some true := fun hx hgood =>
    verdict_wellFormed _ le_rfl (hp.distinctO.sub hx.inside.sub) ⟨_, fuelO, _, hx.expands⟩ hgood
  refine ⟨part_branches hplain.1 hp.orig, part_branches hplain.2 hp.upd, hnotO, hnotU, ?_, ?_⟩
  · intro kind old new old' new' hlists _ hold hnew
    obtain ⟨hequal, hgood⟩ := hd.lists kind old new old' new' hlists
      (hold.imp fun _ _ h => ⟨fuelO, h.expands⟩) (hnew.imp fun _ _ h => ⟨fuelU, h.expands⟩)
    refine ⟨hequal, fun hne hsame => ?_⟩
    subst hsame
    apply matched_of_wellFormed hold hnew
    · intro a b ha hb
      obtain ⟨a', -, haa'⟩ := forall₂_mem_left hold ha
      obtain ⟨b', -, hbb'⟩ := forall₂_mem_left hnew hb
      obtain ⟨heq, hsome⟩ := hcalls (.both hlists hne ha hb haa' hbb')
      rw [heq]
      exact hsome
    · intro a b x ha hb hx hax hbx
      rw [(hcalls (.both hlists hne ha hb hax hbx)).eq]
      exact hself hax (hgood hne rfl x hx)
  · intro a b a' b' ha hb ha' hb'
    simp only [ha, ha'] at hnotO
    simp only [hb, hb'] at hnotU
    cases hnotO with
    | some haa' =>
      cases hnotU with
      | some hbb' =>
        obtain ⟨hequal, hgood⟩ :=
          hd.not a b a' b' ha hb ⟨fuelO, haa'.expands⟩ ⟨fuelU, hbb'.expands⟩
        refine ⟨hequal, fun hne hsame => ?_⟩
        subst hsame
        rw [(hcalls (.not ha hb hne haa' hbb')).eq]
        exact hself haa' (hgood hne rfl)

/-- Without `$ref`s at the top, the verdict is that of the expansions if it is below. -/
theorem sameVerdict_plain (ctx' : Ctx) : SameVerdict L ⟨ctx, o, u⟩ ⟨ctx', o', u'⟩ := by
  have hd : Inlines L ⟨⟨ctx, o, u⟩, home⟩ := hp.inlines _ .refl hplain
  have hplain' : NoRefs o' u' := ⟨expand_refOf hp.orig, expand_refOf hp.upd⟩
  have hcombinators := combinatorsAlike_expand hplain hp ih
  have hcalls : ∀ a b a' b', CallsTo (fun a b => verdict L ⟨ctx.fresh, a, b⟩)
      (PartOrig home fuelO o') (PartUpd home fuelU u') o u o' u' a b a' b' →
      SameVerdict L ⟨ctx.fresh, a, b⟩ ⟨ctx'.fresh, a', b'⟩ :=
    fun a b a' b' => sameVerdict_branch hplain hp ih
  have hbelow : AnsweredAlike (fun a b => verdict L ⟨ctx, a, b⟩) (fun a b => verdict L ⟨ctx', a, b⟩)
      (PartOrig home fuelO o') (PartUpd home fuelU u') (keywordSteps L o u) :=
    fun suffix a b hmem a' b' ha hb => sameVerdict_recurse hplain hp ih hmem ha hb
  have hsteps := keywordSteps_alike L SameCheck.compositional
    (expand_keywordsAlike hplain hp.orig hp.upd hd hbelow fun a b ha hb => verdict_others ha hb ctx')
  have hreports := compareCombinators_alike hcombinators fun a b a' b' h => (hcalls a b a' b' h).eq
  refine ⟨?_, ?_⟩
  · rw [verdict_eq, verdict_eq L ⟨ctx', o', u'⟩]
    exact judge_alike L hplain hplain' hreports hsteps.eq
  · -- Each call of the schemas has an answer, and the expansions make the calls in their place.
    rw [verdict_eq, judge_plain_isSome hplain', ← checkSteps_isSome]
    refine ⟨hreports.isSome.mp (compareCombinators_isSome.mpr fun a b hcall => ?_), hsteps.ends⟩
    obtain ⟨a', b', hcall'⟩ := Calls.callsTo hcombinators.origLists hcombinators.updLists
      hcombinators.origNot hcombinators.updNot hcall
    obtain ⟨heq, hsome⟩ := hcalls a b a' b' hcall'
    rw [heq]
    exact hsome

end Plain

/-! ## The whole comparison -/

/-- Where a `$ref` is followed, its target has the same expansion, and less fuel is left. The pair
is marked on the way, with the least fuel that expands it; what comes later has less, so it never
meets the mark. -/
theorem Expands.follow {ctx home : Ctx} {o u o' u' : Value} {fuelO fuelU : ℕ}
    (hp : Expands L ⟨⟨ctx, o, u⟩, home⟩ fuelO fuelU o' u') (hplain : ¬ NoRefs o u) :
    ∃ (p : Placed) (nO nU : ℕ), nO + nU < fuelO + fuelU ∧ Expands L p nO nU o' u' ∧
      verdict L ⟨ctx, o, u⟩ = verdict L p.toComparison := by
  obtain ⟨htargetO, htargetU⟩ := hp.targets _ .refl
  obtain ⟨leastO, hleO, hleastO, leftO, tO, rfl, htO, hltO, hrefO, hnotO⟩ :=
    least_expansion hp.orig hp.names.orig
  obtain ⟨leastU, hleU, hleastU, leftU, tU, rfl, htU, hltU, hrefU, hnotU⟩ :=
    least_expansion hp.upd hp.names.upd
  simp only at *
  rw [← htargetO] at htO hrefO
  rw [← htargetU] at htU hrefU
  -- The pair is not marked, since one of its references expands with this fuel.
  have hkey : Comparison.key ⟨ctx, o, u⟩ ∉ ctx.visited := by
    intro hmem
    obtain ⟨hkO, hkU⟩ := hp.unmarked _ hmem
    simp only [Comparison.key] at hkO hkU
    by_cases hro : refOf o = none
    · have hru : refOf u ≠ none := fun hru => hplain ⟨hro, hru⟩
      obtain ⟨ref, href⟩ := Option.ne_none_iff_exists'.mp hru
      exact hkU u u' (by simp [href]) hp.upd
    · obtain ⟨ref, href⟩ := Option.ne_none_iff_exists'.mp hro
      exact hkO o o' (by simp [href]) hp.orig
  have htargets : Comparison.targets ⟨ctx, o, u⟩ =
      some ((resolveRef o ctx.origRoot ctx.origRefs).getD o,
        (resolveRef u ctx.updRoot ctx.updRefs).getD u) := by
    unfold Comparison.targets
    cases hrO : resolveRef o ctx.origRoot ctx.origRefs with
    | some target => cases resolveRef u ctx.updRoot ctx.updRefs <;> rfl
    | none =>
      cases hrU : resolveRef u ctx.updRoot ctx.updRefs with
      | some target => rfl
      | none =>
        refine absurd ⟨?_, ?_⟩ hplain
        · by_contra hne
          have hsome := (hrefO hne).2
          rw [hrO] at hsome
          cases hsome
        · by_contra hne
          have hsome := (hrefU hne).2
          rw [hrU] at hsome
          cases hsome
  obtain ⟨suffix, hfollow⟩ := compareRefs_targets htargets hkey
  have hstep : Compared L ⟨⟨ctx, o, u⟩, home⟩ ⟨⟨ctx.mark (insert (Comparison.key ⟨ctx, o, u⟩)
      ctx.visited), (resolveRef o ctx.origRoot ctx.origRefs).getD o,
      (resolveRef u ctx.updRoot ctx.updRefs).getD u⟩, home⟩ := .next (.follow hfollow)
  have hverdict : verdict L ⟨ctx, o, u⟩ = verdict L ⟨ctx.mark (insert (Comparison.key ⟨ctx, o, u⟩)
      ctx.visited), (resolveRef o ctx.origRoot ctx.origRefs).getD o,
      (resolveRef u ctx.updRoot ctx.updRefs).getD u⟩ := by
    rw [verdict_eq, judge, hfollow]
  refine ⟨⟨⟨_, _, _⟩, home⟩, leftO, leftU, ?_, ?_, hverdict⟩
  · have hlt : leftO < leastO ∨ leftU < leastU := by
      by_cases hro : refOf o = none
      · have hru : refOf u ≠ none := fun hru => hplain ⟨hro, hru⟩
        exact .inr (hrefU hru).1
      · exact .inl (hrefO hro).1
    omega
  · refine
      { orig := htO
        upd := htU
        distinctO := hp.distinctO
        distinctU := hp.distinctU
        names := hp.names
        unmarked := ?_
        targets := fun q hq => hp.targets q (.head hstep hq)
        inlines := fun q hq => hp.inlines q (.head hstep hq) }
    intro key hmem
    rcases Finset.mem_insert.mp hmem with rfl | hold
    · exact ⟨fun v w hv => hnotO v w hv, fun v w hv => hnotU v w hv⟩
    · exact (hp.unmarked.anti (hltO.trans hleO) (hltU.trans hleU)) key hold

/-- **Expanding changes no verdict.**  A comparison has the verdict of the comparison of the
expansions, by induction on their size, and on the fuel while `$ref`s are followed. -/
theorem expand_verdict (size : ℕ) : ∀ (total : ℕ) {p : Placed} {fuelO fuelU : ℕ}
    {o' u' : Value}, sizeOf o' + sizeOf u' ≤ size → fuelO + fuelU ≤ total →
    Expands L p fuelO fuelU o' u' → ∀ ctx' : Ctx, SameVerdict L p.toComparison ⟨ctx', o', u'⟩ := by
  -- The size falls where the walk goes inwards, the fuel where it follows references.
  induction size with
  | zero =>
    intro total p fuelO fuelU o' u' hsize
    cases o' <;> simp at hsize
  | succ size ihSize =>
    intro total
    induction total with
    | zero =>
      intro p fuelO fuelU o' u' _ htotal hp
      obtain rfl : fuelO = 0 := by omega
      cases hp.orig
    | succ total ihTotal =>
      rintro ⟨⟨ctx, o, u⟩, home⟩ fuelO fuelU o' u' hsize htotal hp ctx'
      -- A pair without references is judged by what it compares below; one with references by its
      -- targets.
      by_cases hplain : NoRefs o u
      · cases fuelO with
        | zero => cases hp.orig
        | succ fuelO =>
          cases fuelU with
          | zero => cases hp.upd
          | succ fuelU =>
            exact sameVerdict_plain hplain hp
              (fun hlt hbelow ctx' => ihSize _ (by omega) le_rfl hbelow ctx') ctx'
      · obtain ⟨p, nO, nU, hlt, hnext, heq⟩ := hp.follow hplain
        obtain ⟨hsame, hsome⟩ := ihTotal hsize (by omega) hnext ctx'
        exact ⟨heq.trans hsame, hsome⟩

/-! ## Schemas with few keywords -/

/-- Where only properties hold schemas, it matters only whether a new one leads to `{}`. A basic
schema has no other keyword under which an expansion could change what is compared. -/
theorem Basic.inlines {ctx home : Ctx} {o u : Value} (ho : Basic o) (hu : Basic u)
    (hempty : ∀ m ∈ declared u, (declared o).lookup m.1 = none →
      ∀ x', UpdAt home .schema m.2 x' → x'.asObject = some [] → m.2.asObject = some []) :
    Inlines L ⟨⟨ctx, o, u⟩, home⟩ := by
  -- Without `additionalProperties` the content model is open on both sides.
  have hkeeps : ∀ {v}, Basic v → ∀ at', KeepsContent at' v := by
    intro v hv at' x x' hx
    rw [hv "additionalProperties" (by decide)] at hx
    cases hx
  have hsub : ∀ {keys : List String}, (∀ k ∈ keys, k ∉ ["type", "properties", "$defs", "$ref"]) →
      ∀ {v}, Basic v → ∀ key ∈ keys, v.get key = none := fun hkeys _ hv key hkey =>
    hv key (hkeys key hkey)
  refine
    { contentO := fun _ => hkeeps ho _
      contentU := fun _ => hkeeps hu _
      additional := ?_
      items := ?_
      dependency := ?_
      empty := fun m hm hdecides => hempty m hm hdecides.2.1
      default := ?_
      lists := ?_
      not := ?_
      conditionals := ?_ }
  -- Every other clause is about a keyword that a basic schema does not have.
  · intro key hkey a' b' ha hb
    rw [hsub (by decide) ho key hkey] at ha ⊢
    rw [hsub (by decide) hu key hkey] at hb ⊢
    cases ha
    cases hb
    exact ⟨rfl, fun h => by cases h⟩
  · intro a b a' b' ha
    rw [ho "items" (by decide)] at ha
    cases ha
  · intro m hm
    simp [dependencies, ho "dependencies" (by decide)] at hm
  · intro m _ hdecides
    have hrequired := hdecides.1
    simp [hu.requiredSet] at hrequired
  · intro kind old new old' new' hlists
    rcases hlists with ⟨rfl, hold, -⟩ | ⟨hold, -⟩
    · rw [ho.branches (by decide)] at hold
      cases hold
    · rw [ho.sumOf] at hold
      cases hold
  · intro a b a' b' ha
    rw [ho.combinators "not" (by decide)] at ha
    cases ha
  · intro key hkey a b a' b' ha
    rw [hsub (by decide) ho key hkey] at ha
    cases ha

/-- Nothing but the walk is compared of two schemas without combinators. -/
theorem Compared.next_of_basic {c : Comparison} {home : Ctx} {q : Placed} (ho : Basic c.orig)
    (hu : Basic c.upd) (h : Compared L ⟨c, home⟩ q) : Next L c q.toComparison ∧ q.home = home := by
  cases h with
  | next hnext => exact ⟨hnext, rfl⟩
  | both _ hlists =>
    rcases hlists with ⟨rfl, hold, -⟩ | ⟨hold, -⟩
    · rw [ho.branches (by decide)] at hold
      cases hold
    · rw [ho.sumOf] at hold
      cases hold
  | any _ _ hnew =>
    rw [hu.sumOf] at hnew
    cases hnew
  | all _ hold =>
    rw [ho.sumOf] at hold
    cases hold
  | not _ hold =>
    rw [ho.combinators "not" (by decide)] at hold
    cases hold

end KrabkaRegistry.Format.Json
