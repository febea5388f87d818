import KrabkaRegistry.Format.JsonInline
import KrabkaRegistry.Guarantees.JsonReflexive

/-!
# Inlining a Definition

A document whose `$ref`s are local can be written without them: each object with a `$ref` is
replaced by the schema that its pointer names, expanded in turn.  The check answers the same for
both forms, unless a `$ref` stands where the comparison does not follow it.

- `inlining_keeps_verdict`: the condition under which the two forms have one verdict;
- `reference_in_allOf_hidden` is a pair of documents on which the forms differ.
-/

namespace KrabkaRegistry.Guarantees

open Format.Json

variable {L : DiffLibs}

/-- **Inlining.**  Let the `$ref`s of reader and writer be local, resolvable and acyclic, so that the
documents have expansions.  If at every pair of schemas that the comparison comes to the `$ref`s are
resolved as in the documents that they were written in, and every pair without `$ref`s agrees with
its expansions where `$ref`s are not followed, then the check ends for the documents and for their
expansions, and answers the same. -/
theorem inlining_keeps_verdict (hmaps : ReadsMaps L.serdeJson)
    {reader writer reader' writer' : String} {r w r' w' : Value} {fuelR fuelW : ℕ}
    (hr : Parses L reader [] ⟨r, []⟩) (hw : Parses L writer [] ⟨w, []⟩)
    (hr' : Parses L reader' [] ⟨r', []⟩) (hw' : Parses L writer' [] ⟨w', []⟩)
    (hexpR : expand (byRoot []) fuelR r .schema r = some r')
    (hexpW : expand (byRoot []) fuelW w .schema w = some w')
    (hinlines : ∀ p, ComesTo L (.ofDocuments r w) p →
      SameTargets p ∧ (NoRefs p.orig p.upd → Inlines L p)) :
    (Accepts L reader writer [] [] ∨ Rejects L reader writer [] []) ∧
      (Accepts L reader writer [] [] ↔ Accepts L reader' writer' [] []) ∧
      (Rejects L reader writer [] [] ↔ Rejects L reader' writer' [] []) := by
  -- No mark is set at the start, and the roots of both documents are their own.
  have hexpands : Expands L (.ofDocuments r w) fuelW fuelR w' r' :=
    { orig := hexpW
      upd := hexpR
      distinctO := (Parses.distinctDocs hw' hmaps).1
      distinctU := (Parses.distinctDocs hr' hmaps).1
      names := ⟨rfl, rfl⟩
      unmarked := by
        intro key hkey
        exact absurd hkey (Finset.notMem_empty key)
      targets := fun p hp => (hinlines p hp).1
      inlines := fun p hp => (hinlines p hp).2 }
  obtain ⟨hverdict, hsome⟩ := expand_verdict _ _ le_rfl le_rfl hexpands ⟨w', r', [], [], ∅⟩
  have hverdict' : verdict L (.ofSchemas ⟨r, []⟩ ⟨w, []⟩) =
      verdict L (.ofSchemas ⟨r', []⟩ ⟨w', []⟩) := hverdict
  rw [accepts_iff hr hw, accepts_iff hr' hw', rejects_iff hr hw, rejects_iff hr' hw', hverdict']
  refine ⟨?_, Iff.rfl, Iff.rfl⟩
  obtain ⟨b, hb⟩ := Option.isSome_iff_exists.mp hsome
  cases b with
  | true => exact .inl hb
  | false => exact .inr hb

/-! ## Two pairs of documents -/

def primitive (name : String) : Value := .object [("type", .string name)]

def referenceTo (name : String) : Value := .object [("$ref", .string ("#/$defs/" ++ name))]

/-- A definition `T` of a type, and a property `a`. -/
def propertyDocument (name : String) (property : Value) : Value :=
  .object [("$defs", .object [("T", primitive name)]), ("properties", .object [("a", property)])]

/-- The walk goes from the documents to the two references and from there to their targets, and no
property is added on the way. -/
theorem propertyDocument_inlines (p : Placed)
    (hp : ComesTo .compact (.ofDocuments (propertyDocument "number" (referenceTo "T"))
      (propertyDocument "integer" (referenceTo "T"))) p) :
    SameTargets p ∧ (NoRefs p.orig p.upd → Inlines .compact p) := by
  let w := propertyDocument "integer" (referenceTo "T")
  let r := propertyDocument "number" (referenceTo "T")
  let start := Placed.ofDocuments r w
  have hbasic : ∀ v, v ∈ [w, r, referenceTo "T", primitive "integer", primitive "number"] → Basic v := by
    intro v hv key hkey
    simp only [List.mem_cons, List.not_mem_nil, or_false] at hv hkey
    simp only [not_or] at hkey
    obtain ⟨hk₁, hk₂, hk₃, hk₄⟩ := hkey
    rcases hv with rfl | rfl | rfl | rfl | rfl <;>
      simp [w, r, propertyDocument, referenceTo, primitive, List.lookup, beq_eq_false_iff_ne.mpr, hk₁,
        hk₂, hk₃, hk₄]
  -- The walk meets three pairs and no others: the documents, the references and their targets.
  let pairs := [(w, r), (referenceTo "T", referenceTo "T"), (primitive "integer", primitive "number")]
  have hboth : ∀ o u, (o, u) ∈ pairs → Basic o ∧ Basic u := by
    intro o u hmem
    simp only [pairs, List.mem_cons, Prod.mk.injEq, List.not_mem_nil, or_false] at hmem
    rcases hmem with ⟨rfl, rfl⟩ | ⟨rfl, rfl⟩ | ⟨rfl, rfl⟩ <;>
      exact ⟨hbasic _ (by simp), hbasic _ (by simp)⟩
  have hreach : SameDocs start.ctx p.ctx ∧ p.home = start.ctx ∧ (p.orig, p.upd) ∈ pairs := by
    induction hp with
    | refl => exact ⟨⟨rfl, rfl, rfl, rfl⟩, rfl, List.mem_cons_self⟩
    | @tail p q _ hstep ih =>
      obtain ⟨hdocs, hhome, hmem⟩ := ih
      obtain ⟨⟨ctx, o, u⟩, home⟩ := p
      obtain ⟨d, home'⟩ := q
      obtain ⟨ho, hu⟩ := hboth o u hmem
      obtain ⟨hnext, hstays⟩ := hstep.next_of_basic ho hu
      refine ⟨hdocs.trans hnext.sameDocs, hstays.trans hhome, ?_⟩
      simp only at hnext
      -- A step from one of the three leads to one of the three.
      cases hnext with
      | follow hfollow =>
        obtain ⟨-, -, rfl, rfl⟩ := compareRefs_follow hfollow
        obtain ⟨hrootO, hrootU, hrefsO, hrefsU⟩ := hdocs
        simp only [start, Placed.ofDocuments] at hrootO hrootU hrefsO hrefsU
        simp only [hrootO, hrootU, hrefsO, hrefsU]
        simp only [pairs, List.mem_cons, Prod.mk.injEq, List.not_mem_nil, or_false] at hmem
        rcases hmem with ⟨rfl, rfl⟩ | ⟨rfl, rfl⟩ | ⟨rfl, rfl⟩
        · decide +kernel
        · decide +kernel
        · decide +kernel
      | recurse _ hrec =>
        obtain ⟨name, hdeclared, hlookup⟩ := Basic.recurse ho hu hrec
        simp only [pairs, List.mem_cons, Prod.mk.injEq, List.not_mem_nil, or_false] at hmem
        rcases hmem with ⟨rfl, rfl⟩ | ⟨rfl, rfl⟩ | ⟨rfl, rfl⟩
        · obtain ⟨rfl, rfl⟩ := Prod.mk.inj (List.mem_singleton.mp hdeclared)
          obtain rfl := Option.some.inj hlookup
          simp [pairs]
        · cases hdeclared
        · cases hdeclared
  obtain ⟨⟨hrootO, hrootU, hrefsO, hrefsU⟩, hhome, hmem⟩ := hreach
  refine ⟨⟨by rw [hhome, hrootO, hrefsO], by rw [hhome, hrootU, hrefsU]⟩, fun _ => ?_⟩
  obtain ⟨⟨ctx, o, u⟩, home⟩ := p
  obtain ⟨ho, hu⟩ := hboth o u hmem
  apply Basic.inlines ho hu
  -- Both sides declare the same property, so none is new.
  intro m hm hnew
  simp only [pairs, List.mem_cons, Prod.mk.injEq, List.not_mem_nil, or_false] at hmem
  rcases hmem with ⟨rfl, rfl⟩ | ⟨rfl, rfl⟩ | ⟨rfl, rfl⟩
  · obtain rfl := List.mem_singleton.mp hm
    cases hnew
  · cases hm
  · cases hm

/-- A dependency on `a`, next to a definition `B` that allows everything. -/
def dependencyDocument (dependency : Value) : Value :=
  .object [("$defs", .object [("B", .bool true)]), ("dependencies", .object [("a", dependency)]),
    ("type", .string "integer")]

/-- Two branches, of which the first is `{}`. -/
def branchDocument (additional : Value) : Value :=
  .object [("$defs", .object [("B", .bool true)]),
    ("anyOf", .array [.object [], .object [("additionalProperties", additional)]])]

/-- The reader has no dependencies, and its first branch takes the writer, so that neither reference
is looked at. -/
theorem dependencyDocument_inlines (p : Placed)
    (hp : ComesTo .compact (.ofDocuments (branchDocument (referenceTo "B"))
      (dependencyDocument (referenceTo "B"))) p) :
    SameTargets p ∧ (NoRefs p.orig p.upd → Inlines .compact p) := by
  let w := dependencyDocument (referenceTo "B")
  let r := branchDocument (referenceTo "B")
  let second : Value := .object [("additionalProperties", referenceTo "B")]
  let start := Placed.ofDocuments r w
  have hany : sumOf r = some ("anyOf", [.object [], second]) := rfl
  -- What is compared below is nothing, beside the first branch.
  have hsteps : ∀ u ∈ [r, .object []], ∀ suffix a b,
      .recurse suffix a b ∉ keywordSteps .compact w u := by
    have hreports : ∀ u ∈ [r, .object []], keywordSteps .compact w u =
        [.report .typeExtended "", .report .dependencySchemaRemoved "/dependencies/a"] := by
      decide +kernel
    intro u hu suffix a b hmem
    rw [hreports u hu] at hmem
    simp at hmem
  have hfirst : verdict .compact ⟨start.ctx.fresh, w, .object []⟩ = some true :=
    (compareSchema_verdict .compact).mpr ⟨3, by decide +kernel⟩
  have hreach : p = start ∨ p = ⟨⟨start.ctx.fresh, w, .object []⟩, start.ctx⟩ := by
    induction hp with
    | refl => exact .inl rfl
    | @tail p q _ hstep ih =>
      have hplace : p = ⟨⟨start.ctx, w, r⟩, start.ctx⟩ ∨
          p = ⟨⟨start.ctx.fresh, w, .object []⟩, start.ctx⟩ := ih
      rcases hplace with rfl | rfl
      · cases hstep with
        | next hnext =>
          obtain ⟨suffix, a, b, hmem, -⟩ := (next_plain ⟨rfl, rfl⟩).mp hnext
          exact absurd hmem (hsteps r (by simp) suffix a b)
        | both _ hlists =>
          rcases hlists with ⟨rfl, hold, -⟩ | ⟨hold, -⟩
          · cases hold
          · cases hold
        | @any _ _ _ _ b kind before after _ _ hnew hbefore =>
          rw [hany] at hnew
          obtain ⟨-, hsplit⟩ := Prod.mk.inj (Option.some.inj hnew)
          cases before with
          | nil =>
            obtain ⟨rfl, -⟩ := List.cons.inj hsplit
            exact .inr rfl
          | cons x before =>
            -- The search ends with the first branch.
            obtain ⟨rfl, -⟩ := List.cons.inj hsplit
            have hfalse := hbefore _ List.mem_cons_self
            rw [hfirst] at hfalse
            cases hfalse
        | all _ hold => cases hold
        | not _ hold => cases hold
      · cases hstep with
        | next hnext =>
          obtain ⟨suffix, a, b, hmem, -⟩ := (next_plain ⟨rfl, rfl⟩).mp hnext
          exact absurd hmem (hsteps _ (by simp) suffix a b)
        | both _ hlists =>
          rcases hlists with ⟨rfl, hold, -⟩ | ⟨hold, -⟩
          · cases hold
          · cases hold
        | any _ _ hnew => cases hnew
        | all _ hold => cases hold
        | not _ hold => cases hold
  have hplaces : ∃ ctx u, p = ⟨⟨ctx, w, u⟩, start.ctx⟩ ∧ SameDocs start.ctx ctx ∧
      u ∈ [r, .object []] := by
    rcases hreach with rfl | rfl
    · exact ⟨start.ctx, r, rfl, ⟨rfl, rfl, rfl, rfl⟩, by simp⟩
    · exact ⟨start.ctx.fresh, .object [], rfl, ⟨rfl, rfl, rfl, rfl⟩, by simp⟩
  obtain ⟨ctx, u, rfl, ⟨hrootO, hrootU, hrefsO, hrefsU⟩, hu⟩ := hplaces
  refine ⟨⟨by simp only [hrootO, hrefsO], by simp only [hrootU, hrefsU]⟩, fun _ => ?_⟩
  have hnone : declared w = [] ∧ declared u = [] ∧ dependencies u = [] := by
    simp only [List.mem_cons, List.not_mem_nil, or_false] at hu
    rcases hu with rfl | rfl <;> exact ⟨rfl, rfl, rfl⟩
  have hget : ∀ key ∈ additionalKeywords, w.get key = none ∧ u.get key = none := by
    simp only [List.mem_cons, List.not_mem_nil, or_false] at hu
    rcases hu with rfl | rfl <;> decide +kernel
  have hconditionals : ∀ key ∈ conditionalKeywords, w.get key = none := by decide +kernel
  obtain ⟨hdeclared, hdeclared', hdependencies⟩ := hnone
  refine
    { contentO := by simp [hdeclared']
      contentU := by simp [hdeclared]
      additional := ?_
      items := fun _ _ _ _ ha => by cases ha
      dependency := by simp [hdependencies]
      empty := by simp [hdeclared']
      default := by simp [hdeclared']
      lists := ?_
      not := fun _ _ _ _ ha => by cases ha
      conditionals := ?_ }
  · intro key hkey a' b' ha hb
    simp only [(hget key hkey).1, (hget key hkey).2] at ha hb ⊢
    cases ha
    cases hb
    exact ⟨rfl, fun h => by cases h⟩
  · intro kind old new old' new' hlists
    rcases hlists with ⟨rfl, hold, -⟩ | ⟨hold, -⟩
    · cases hold
    · cases hold
  · intro key hkey a b a' b' ha
    simp only [hconditionals key hkey] at ha
    cases ha

/-- The writer `{"$defs":{"T":{"type":"integer"}},"properties":{"a":{"$ref":"#/$defs/T"}}}` and the
same reader with `number` compare as `{"type":"integer"}` and `{"type":"number"}` do in their
place.  A writer with a reference under `dependencies`, and a reader with one in its second branch,
compare as with `true` in both places. -/
theorem references_inlined :
    (Accepts .compact
        "\x7b\"$defs\":\x7b\"T\":\x7b\"type\":\"number\"\x7d\x7d,\"properties\":\x7b\"a\":\x7b\"$ref\":\"#/$defs/T\"\x7d\x7d\x7d"
        "\x7b\"$defs\":\x7b\"T\":\x7b\"type\":\"integer\"\x7d\x7d,\"properties\":\x7b\"a\":\x7b\"$ref\":\"#/$defs/T\"\x7d\x7d\x7d"
        [] [] ↔
      Accepts .compact
        "\x7b\"$defs\":\x7b\"T\":\x7b\"type\":\"number\"\x7d\x7d,\"properties\":\x7b\"a\":\x7b\"type\":\"number\"\x7d\x7d\x7d"
        "\x7b\"$defs\":\x7b\"T\":\x7b\"type\":\"integer\"\x7d\x7d,\"properties\":\x7b\"a\":\x7b\"type\":\"integer\"\x7d\x7d\x7d"
        [] []) ∧
    (Accepts .compact
        "\x7b\"anyOf\":[\x7b\x7d,\x7b\"additionalProperties\":\x7b\"$ref\":\"#/$defs/B\"\x7d\x7d],\"$defs\":\x7b\"B\":true\x7d\x7d"
        "\x7b\"$defs\":\x7b\"B\":true\x7d,\"type\":\"integer\",\"dependencies\":\x7b\"a\":\x7b\"$ref\":\"#/$defs/B\"\x7d\x7d\x7d"
        [] [] ↔
      Accepts .compact
        "\x7b\"anyOf\":[\x7b\x7d,\x7b\"additionalProperties\":true\x7d],\"$defs\":\x7b\"B\":true\x7d\x7d"
        "\x7b\"$defs\":\x7b\"B\":true\x7d,\"type\":\"integer\",\"dependencies\":\x7b\"a\":true\x7d\x7d"
        [] []) := by
  -- The two pairs of documents and their expansions.
  have hexpR : expand (byRoot []) 6 (propertyDocument "number" (referenceTo "T")) .schema
      (propertyDocument "number" (referenceTo "T")) =
      some (propertyDocument "number" (primitive "number")) := by decide +kernel
  have hexpW : expand (byRoot []) 6 (propertyDocument "integer" (referenceTo "T")) .schema
      (propertyDocument "integer" (referenceTo "T")) =
      some (propertyDocument "integer" (primitive "integer")) := by decide +kernel
  have hexpR' : expand (byRoot []) 6 (branchDocument (referenceTo "B")) .schema
      (branchDocument (referenceTo "B")) = some (branchDocument (.bool true)) := by decide +kernel
  have hexpW' : expand (byRoot []) 6 (dependencyDocument (referenceTo "B")) .schema
      (dependencyDocument (referenceTo "B")) = some (dependencyDocument (.bool true)) := by
    decide +kernel
  -- A property that is a reference in both documents; then a dependency of one side beside a branch
  -- that the search does not reach.
  constructor
  · exact (inlining_keeps_verdict compact_readsMaps
      (compact_parses (by decide +kernel) rfl) (compact_parses (by decide +kernel) rfl)
      (compact_parses (by decide +kernel) rfl) (compact_parses (by decide +kernel) rfl)
      hexpR hexpW propertyDocument_inlines).2.1
  · exact (inlining_keeps_verdict compact_readsMaps
      (compact_parses (by decide +kernel) rfl) (compact_parses (by decide +kernel) rfl)
      (compact_parses (by decide +kernel) rfl) (compact_parses (by decide +kernel) rfl)
      hexpR' hexpW' dependencyDocument_inlines).2.1

/-- The writer `{"$defs":{"T":{"type":"integer"}},"allOf":[{"$ref":"#/$defs/T"}]}` and the same
reader with `string`: the branches are one text, so that nothing is compared.  Their expansions
have branches that differ. -/
theorem reference_in_allOf_hidden :
    let typed : String → Value := fun name => .object [("type", .string name)]
    let document : String → Value → Value := fun name branch =>
      .object [("$defs", .object [("T", typed name)]), ("allOf", .array [branch])]
    let r := document "string" (.object [("$ref", .string "#/$defs/T")])
    let w := document "integer" (.object [("$ref", .string "#/$defs/T")])
    let r' := document "string" (typed "string")
    let w' := document "integer" (typed "integer")
    expand (byRoot []) 6 r .schema r = some r' ∧ expand (byRoot []) 6 w .schema w = some w' ∧
      (∃ reader writer, Parses .compact reader [] ⟨r, []⟩ ∧ Parses .compact writer [] ⟨w, []⟩ ∧
        Accepts .compact reader writer [] []) ∧
      ∃ reader writer, Parses .compact reader [] ⟨r', []⟩ ∧ Parses .compact writer [] ⟨w', []⟩ ∧
        Rejects .compact reader writer [] [] ∧ ¬ Accepts .compact reader writer [] [] := by
  intro typed document r w r' w'
  -- The texts of the four documents.
  have hr : Parses .compact
      "\x7b\"$defs\":\x7b\"T\":\x7b\"type\":\"string\"\x7d\x7d,\"allOf\":[\x7b\"$ref\":\"#/$defs/T\"\x7d]\x7d"
      [] ⟨r, []⟩ := compact_parses (by decide +kernel) rfl
  have hw : Parses .compact
      "\x7b\"$defs\":\x7b\"T\":\x7b\"type\":\"integer\"\x7d\x7d,\"allOf\":[\x7b\"$ref\":\"#/$defs/T\"\x7d]\x7d"
      [] ⟨w, []⟩ := compact_parses (by decide +kernel) rfl
  have hr' : Parses .compact
      "\x7b\"$defs\":\x7b\"T\":\x7b\"type\":\"string\"\x7d\x7d,\"allOf\":[\x7b\"type\":\"string\"\x7d]\x7d"
      [] ⟨r', []⟩ := compact_parses (by decide +kernel) rfl
  have hw' : Parses .compact
      "\x7b\"$defs\":\x7b\"T\":\x7b\"type\":\"integer\"\x7d\x7d,\"allOf\":[\x7b\"type\":\"integer\"\x7d]\x7d"
      [] ⟨w', []⟩ := compact_parses (by decide +kernel) rfl
  have hrejects := (rejects_iff hr' hw').mpr (verdict_of_run 4 (by decide +kernel))
  exact ⟨by decide +kernel, by decide +kernel,
    ⟨_, _, hr, hw, (accepts_iff hr hw).mpr (verdict_of_run 4 (by decide +kernel))⟩,
    ⟨_, _, hr', hw', hrejects, not_accepts_of_rejects hr' hw' hrejects⟩⟩

end KrabkaRegistry.Guarantees
