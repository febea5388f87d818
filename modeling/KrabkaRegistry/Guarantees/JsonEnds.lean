import KrabkaRegistry.Format.JsonSample
import KrabkaRegistry.Format.JsonTermination
import KrabkaRegistry.Library.CallGraph

/-!
# JSON Schema Comparisons That End

The guard against cycles of `$ref`s makes every walk end.  The branches of combinators are
compared with nothing marked, so a pair of branches that comes to be compared below itself is
compared for ever.

- `comparison_ends_iff`: a comparison ends exactly when no pair of branches that it starts leads
  back to itself;
- `growing_anyOf_never_ends` is a pair of documents that the comparison does not finish with.
-/

namespace KrabkaRegistry.Guarantees

open Format.Json Library.CallGraph
open Library.Fuel (outcome_induct)
open Relation (ReflTransGen TransGen)

variable {L : DiffLibs}

/-! ## What a comparison starts -/

/-- A comparison of `p` with nothing marked comes to combinators that compare the branches `q`.
`any` and `all` go through the branches of one side in order, so that one is compared only if
the ones before it did not decide. -/
def Starts (L : DiffLibs) (ctx : Ctx) (p q : Value × Value) : Prop :=
  ∃ d, Reaches L ⟨ctx.fresh, p.1, p.2⟩ d ∧ CallsBranch L d q.1 q.2

/-- The same, whatever the branches before it are. -/
def MayStart (L : DiffLibs) (ctx : Ctx) (p q : Value × Value) : Prop :=
  ∃ d, Reaches L ⟨ctx.fresh, p.1, p.2⟩ d ∧ NoRefs d.orig d.upd ∧
    ∃ f, Calls f d.orig d.upd q.1 q.2

theorem Starts.mayStart {ctx : Ctx} {p q : Value × Value} (h : Starts L ctx p q) :
    MayStart L ctx p q := by
  obtain ⟨d, hd, hplain, hcall⟩ := h
  exact ⟨d, hd, hplain, _, hcall⟩

/-- The branches that are called lie in the documents. -/
theorem calls_known {f : Value → Value → Option Bool} {ctx : Ctx} {orig upd a b : Value}
    (h : Calls f orig upd a b) (ho : Known ctx orig) (hu : Known ctx upd) :
    Known ctx a ∧ Known ctx b := by
  cases h with
  | allOf hold hnew _ ha hb =>
    exact ⟨ho.inside (inside_of_branches hold ha), hu.inside (inside_of_branches hnew hb)⟩
  | sum hold hnew _ ha hb =>
    exact ⟨ho.inside (inside_of_sumOf hold ha), hu.inside (inside_of_sumOf hnew hb)⟩
  | any _ hnew _ => exact ⟨ho, hu.inside (inside_of_sumOf hnew (by simp))⟩
  | all hold _ _ => exact ⟨ho.inside (inside_of_sumOf hold (by simp)), hu⟩
  | not hold hnew _ => exact ⟨hu.inside (.of_get hnew), ho.inside (.of_get hold)⟩

/-- Both values lie in the documents. -/
def KnownPair (ctx : Ctx) (p : Value × Value) : Prop := Known ctx p.1 ∧ Known ctx p.2

theorem KnownPair.comparison {ctx : Ctx} {p : Value × Value} (h : KnownPair ctx p) :
    Comparison.Known ⟨ctx.fresh, p.1, p.2⟩ := h

theorem Starts.known {ctx : Ctx} {p q : Value × Value} (h : Starts L ctx p q)
    (hp : KnownPair ctx p) : KnownPair ctx q := by
  obtain ⟨d, hd, -, hcall⟩ := h
  have hdocs : d.ctx.docs = ctx.docs := (Reaches.sameDocs hd).docs
  obtain ⟨ho, hu⟩ := Reaches.known hd hp.comparison
  have hq := calls_known hcall ho hu
  unfold KnownPair Known
  rw [← hdocs]
  exact hq

/-- The documents hold finitely many pairs of values. -/
theorem knownPairs_finite (ctx : Ctx) : {p | KnownPair ctx p}.Finite := by
  let values := ctx.docs.flatMap Value.subvalues
  have hmem : ∀ v, Known ctx v → v ∈ values := by
    rintro v ⟨d, hd, hv⟩
    exact List.mem_flatMap.mpr ⟨d, hd, Value.mem_subvalues hv⟩
  apply ((List.finite_toSet values).prod (List.finite_toSet values)).subset
  intro p hp
  exact ⟨hmem p.1 hp.1, hmem p.2 hp.2⟩

/-! ## Fewer answers call no other branches -/

section Calls

variable {f g : Value → Value → Option Bool} {orig upd a b : Value}

/-- Where the search through branches ends, the branches before one that is called answer alike. -/
theorem answers_of_search {test test' : Value → Option Bool} {l : List Value} {answer : Bool}
    (hext : ∀ x found, test x = some found → test' x = some found)
    (hsearch : ∀ before b after, l = before ++ b :: after →
      (∀ x ∈ before, test x = some answer) → (test b).isSome)
    {before after : List Value} (hl : l = before ++ after)
    (hbefore : ∀ x ∈ before, test' x = some answer) : ∀ x ∈ before, test x = some answer := by
  induction before using List.reverseRecOn generalizing after with
  | nil => simp
  | append_singleton before y ih =>
    have hprev := ih (by rw [hl, List.append_assoc]) fun x hx =>
      hbefore x (List.mem_append_left _ hx)
    intro x hx
    rcases List.mem_append.mp hx with hx | hx
    · exact hprev x hx
    · obtain rfl := List.mem_singleton.mp hx
      have hsome := hsearch before x after (by rw [hl, List.append_assoc]; rfl) hprev
      obtain ⟨found, hfound⟩ := Option.isSome_iff_exists.mp hsome
      rw [hfound, ← hext x found hfound]
      exact hbefore x (by simp)

/-- The calls of a comparison that ends are those of any function with the same answers. -/
theorem Calls.of_extends (hext : ∀ x y found, f x y = some found → g x y = some found)
    (hsome : (compareCombinators f orig upd).isSome) (h : Calls g orig upd a b) :
    Calls f orig upd a b := by
  have hcalls := compareCombinators_isSome.mp hsome
  cases h with
  | allOf ho hu hne ha hb => exact .allOf ho hu hne ha hb
  | sum ho hu hne ha hb => exact .sum ho hu hne ha hb
  | not ho hu hne => exact .not ho hu hne
  | @any kind before after _ ho hu hbefore =>
    have hsearch : ∀ before' b' after', before ++ b :: after = before' ++ b' :: after' →
        (∀ x ∈ before', f orig x = some false) → (f orig b').isSome :=
      fun before' b' after' hl hprev => hcalls _ _ (.any ho (hl ▸ hu) hprev)
    exact .any ho hu (answers_of_search (fun x found => hext orig x found) hsearch rfl hbefore)
  | @all kind before after _ ho hu hbefore =>
    have hsearch : ∀ before' a' after', before ++ a :: after = before' ++ a' :: after' →
        (∀ x ∈ before', f x upd = some true) → (f a' upd).isSome :=
      fun before' a' after' hl hprev => hcalls _ _ (.all (hl ▸ ho) hu hprev)
    exact .all ho hu (answers_of_search (fun x found => hext x upd found) hsearch rfl hbefore)

end Calls

/-! ## Ending is well-foundedness -/

/-- Every branch that the walk of `c` calls ends. -/
def EndingCalls (L : DiffLibs) (c : Comparison) : Prop :=
  ∀ d, Reaches L c d → ∀ a b, CallsBranch L d a b → Acc (flip (Starts L c.ctx)) (a, b)

theorem starts_fresh (ctx : Ctx) : Starts L ctx.fresh = Starts L ctx := rfl

theorem acc_of_endingCalls {ctx : Ctx} {a b : Value} (h : EndingCalls L ⟨ctx.fresh, a, b⟩) :
    Acc (flip (Starts L ctx)) (a, b) := by
  refine ⟨_, fun q hq => ?_⟩
  obtain ⟨d, hd, hcall⟩ := hq
  exact h d hd q.1 q.2 hcall

theorem endingCalls_of_verdict {c : Comparison} {answer : Bool} (h : verdict L c = some answer) :
    EndingCalls L c := by
  refine outcome_induct (judge_finitary L) (P := fun c _ => EndingCalls L c) ?_ h
  intro f hf c answer hjudge d hd a b hcall
  have hsome : (judge L f c).isSome := by rw [hjudge]; rfl
  obtain ⟨hcalls, hnext⟩ := judge_isSome.mp hsome
  -- The branches are those of the pair itself, or the walk goes on from a step.
  rcases Relation.ReflTransGen.cases_head hd with rfl | ⟨e, hn, he⟩
  · have hends := (judge_plain_isSome hcall.1).mp hsome
    have hcall' := Calls.of_extends (fun x y found hfound => (hf _ _ hfound).1) hends.1 hcall.2
    obtain ⟨found, hfound⟩ := Option.isSome_iff_exists.mp (hcalls hcall.1 a b hcall')
    exact acc_of_endingCalls (hf _ _ hfound).2
  · obtain ⟨found, hfound⟩ := Option.isSome_iff_exists.mp (hnext e hn)
    have hacc := (hf _ _ hfound).2 d he a b hcall
    rwa [← starts_fresh, hn.sameDocs.fresh, starts_fresh] at hacc

theorem verdict_of_acc {ctx : Ctx} {p : Value × Value} (h : Acc (flip (Starts L ctx)) p)
    (hp : KnownPair ctx p) : (verdict L ⟨ctx.fresh, p.1, p.2⟩).isSome := by
  induction h with
  | intro p _ ih =>
    rw [ends_iff_calls hp.comparison]
    intro d hd a b hcall
    have hstarts : Starts L ctx p (a, b) := ⟨d, hd, hcall⟩
    exact ih (a, b) hstarts (hstarts.known hp)

/-- A comparison with nothing marked ends exactly when what it starts has no cycle. -/
theorem verdict_isSome_iff_acyclic {ctx : Ctx} {p : Value × Value} (hp : KnownPair ctx p) :
    (verdict L ⟨ctx.fresh, p.1, p.2⟩).isSome ↔ Acyclic (Starts L ctx) p := by
  constructor
  · intro h
    obtain ⟨answer, hanswer⟩ := Option.isSome_iff_exists.mp h
    exact acyclic_of_acc (acc_of_endingCalls (endingCalls_of_verdict hanswer))
  · intro h
    refine verdict_of_acc (acc_of_acyclic ?_ h) hp
    refine (knownPairs_finite ctx).subset fun q hq => ?_
    induction hq with
    | refl => exact hp
    | tail _ hstarts ih => exact hstarts.known ih

/-! ## The check -/

/-- The documents of two schemas, with nothing marked. -/
def docsOf (reader writer : JsonSchema) : Ctx :=
  ⟨writer.value, reader.value, writer.refs, reader.refs, ∅⟩

theorem roots_known (reader writer : JsonSchema) :
    KnownPair (docsOf reader writer) (writer.value, reader.value) :=
  ⟨⟨writer.value, by simp [docsOf, Ctx.docs], .refl⟩, ⟨reader.value, by simp [docsOf, Ctx.docs], .refl⟩⟩

theorem compareWithRefs_ends (reader writer : JsonSchema) :
    (∃ fuel diffs,
        compareWithRefs L fuel writer.value reader.value writer.refs reader.refs = some diffs) ↔
      (verdict L (.ofSchemas reader writer)).isSome := by
  simp only [Option.isSome_iff_exists, Comparison.ofSchemas, compareSchema_verdict]
  constructor
  · rintro ⟨fuel, diffs, h⟩
    exact ⟨allCompatible diffs, fuel, by rw [← compareWithRefs, h]; rfl⟩
  · rintro ⟨answer, fuel, h⟩
    obtain ⟨diffs, hdiffs, -⟩ := Option.map_eq_some_iff.mp h
    exact ⟨fuel, diffs, hdiffs⟩

theorem check_ends {reader writer : String} {readerRefs writerRefs : List ResolvedReference}
    {readerS writerS : JsonSchema} (hr : Parses L reader readerRefs readerS)
    (hw : Parses L writer writerRefs writerS) :
    (∃ fuel result, check L fuel reader writer readerRefs writerRefs = some result) ↔
      (verdict L (.ofSchemas readerS writerS)).isSome := by
  rw [← compareWithRefs_ends]
  unfold Parses at hr hw
  simp only [check, hr, hw, checkParsed]
  constructor
  · rintro ⟨fuel, result, h⟩
    obtain ⟨diffs, hdiffs, -⟩ := Option.bind_eq_some_iff.mp h
    exact ⟨fuel, diffs, hdiffs⟩
  · rintro ⟨fuel, diffs, h⟩
    exact ⟨fuel, _, by rw [h]; rfl⟩

/-- **Termination.**  For all documents and reference maps, the comparison ends exactly when no
pair of branches that it starts leads back to itself; it always ends when no pair of branches in
its reach does, whether it would be started or not.  `json::check` ends on texts that parse
exactly when the comparison of their documents does. -/
theorem comparison_ends_iff (L : DiffLibs) (reader writer : JsonSchema) :
    ((∃ fuel diffs,
        compareWithRefs L fuel writer.value reader.value writer.refs reader.refs = some diffs) ↔
      Acyclic (Starts L (docsOf reader writer)) (writer.value, reader.value)) ∧
    (Acyclic (MayStart L (docsOf reader writer)) (writer.value, reader.value) →
      ∃ fuel diffs,
        compareWithRefs L fuel writer.value reader.value writer.refs reader.refs = some diffs) ∧
    ∀ readerText writerText readerRefs writerRefs, Parses L readerText readerRefs reader →
      Parses L writerText writerRefs writer →
      ((∃ fuel result, check L fuel readerText writerText readerRefs writerRefs = some result) ↔
        Acyclic (Starts L (docsOf reader writer)) (writer.value, reader.value)) := by
  have hacyclic : (verdict L (.ofSchemas reader writer)).isSome ↔
      Acyclic (Starts L (docsOf reader writer)) (writer.value, reader.value) :=
    verdict_isSome_iff_acyclic (roots_known reader writer)
  refine ⟨?_, ?_, ?_⟩
  · rw [compareWithRefs_ends, hacyclic]
  · intro h
    rw [compareWithRefs_ends, hacyclic]
    exact h.mono fun p q hstarts => hstarts.mayStart
  · intro readerText writerText readerRefs writerRefs hr hw
    rw [check_ends hr hw, hacyclic]

/-! ### Two pairs of documents -/

/-- The check of `{"anyOf":[{"type":"string"},{"$ref":"#"}]}` against
`{"anyOf":[{"type":"string"}]}` ends. -/
theorem shrinking_anyOf_ends :
    ∃ fuel result, check .compact fuel
      "\x7b\"anyOf\":[\x7b\"type\":\"string\"\x7d,\x7b\"$ref\":\"#\"\x7d]\x7d"
      "\x7b\"anyOf\":[\x7b\"type\":\"string\"\x7d]\x7d" [] [] = some result := by
  let text : Value := .object [("type", .string "string")]
  let reader : Value := .object [("anyOf", .array [text, .object [("$ref", .string "#")]])]
  let writer : Value := .object [("anyOf", .array [text])]
  have hr : Parses .compact
      "\x7b\"anyOf\":[\x7b\"type\":\"string\"\x7d,\x7b\"$ref\":\"#\"\x7d]\x7d" []
      ⟨reader, []⟩ := compact_parses (by decide +kernel) rfl
  have hw : Parses .compact "\x7b\"anyOf\":[\x7b\"type\":\"string\"\x7d]\x7d" [] ⟨writer, []⟩ :=
    compact_parses (by decide +kernel) rfl
  obtain ⟨hends, -, hcheck⟩ := comparison_ends_iff .compact ⟨reader, []⟩ ⟨writer, []⟩
  have hrun : (compareWithRefs .compact 5 writer reader [] []).map allCompatible = some true := by
    decide +kernel
  obtain ⟨diffs, hdiffs, -⟩ := Option.map_eq_some_iff.mp hrun
  exact (hcheck _ _ _ _ hr hw).mpr (hends.mp ⟨5, diffs, hdiffs⟩)

/-- The check of `{"anyOf":[{"$ref":"#"},{}]}` against `{"anyOf":[{"$ref":"#"}]}` never does: to
compare the documents is to compare their first branches, and those stand for the documents. -/
theorem growing_anyOf_never_ends :
    let reader : Value := .object [("anyOf", .array [.object [("$ref", .string "#")], .object []])]
    let writer : Value := .object [("anyOf", .array [.object [("$ref", .string "#")]])]
    (∀ fuel, compareWithRefs .compact fuel writer reader [] [] = none) ∧
      Parses .compact "\x7b\"anyOf\":[\x7b\"$ref\":\"#\"\x7d,\x7b\x7d]\x7d" [] ⟨reader, []⟩ ∧
      Parses .compact "\x7b\"anyOf\":[\x7b\"$ref\":\"#\"\x7d]\x7d" [] ⟨writer, []⟩ ∧
      ∀ fuel, check .compact fuel "\x7b\"anyOf\":[\x7b\"$ref\":\"#\"\x7d,\x7b\x7d]\x7d"
        "\x7b\"anyOf\":[\x7b\"$ref\":\"#\"\x7d]\x7d" [] [] = none := by
  intro reader writer
  let ref : Value := .object [("$ref", .string "#")]
  have hr : Parses .compact "\x7b\"anyOf\":[\x7b\"$ref\":\"#\"\x7d,\x7b\x7d]\x7d" []
      ⟨reader, []⟩ := compact_parses (by decide +kernel) rfl
  have hw : Parses .compact "\x7b\"anyOf\":[\x7b\"$ref\":\"#\"\x7d]\x7d" [] ⟨writer, []⟩ :=
    compact_parses (by decide +kernel) rfl
  let ctx := docsOf ⟨reader, []⟩ ⟨writer, []⟩
  -- Wherever the documents are compared, their first branches are.
  have hcalls : ∀ d : Comparison, d.orig = writer → d.upd = reader →
      CallsBranch .compact d ref ref := by
    rintro ⟨ctx, _, _⟩ rfl rfl
    have hold : sumOf writer = some ("anyOf", [ref]) := rfl
    have hnew : sumOf reader = some ("anyOf", [ref, .object []]) := rfl
    exact ⟨⟨rfl, rfl⟩, .sum hold hnew (by decide) (by simp) (by simp)⟩
  have hfollow : Next .compact ⟨ctx.fresh, ref, ref⟩
      ⟨{ ctx.fresh with visited := {("#", "#")} }, writer, reader⟩ := by
    apply Next.follow
    show compareRefs ctx.fresh ref ref = .follow _ "/$ref" writer reader
    rfl
  have hstart : Starts .compact ctx (writer, reader) (ref, ref) :=
    ⟨_, .refl, hcalls _ rfl rfl⟩
  have hcycle : Starts .compact ctx (ref, ref) (ref, ref) :=
    ⟨_, .single hfollow, hcalls _ rfl rfl⟩
  have hnone : ¬ (verdict .compact (.ofSchemas ⟨reader, []⟩ ⟨writer, []⟩)).isSome := by
    intro h
    have hacyclic := (verdict_isSome_iff_acyclic (roots_known ⟨reader, []⟩ ⟨writer, []⟩)).mp h
    exact hacyclic (ref, ref) (.single hstart) (.single hcycle)
  refine ⟨fun fuel => ?_, hr, hw, fun fuel => ?_⟩
  · by_contra hsome
    obtain ⟨diffs, hdiffs⟩ := Option.ne_none_iff_exists'.mp hsome
    exact hnone ((compareWithRefs_ends ⟨reader, []⟩ ⟨writer, []⟩).mp ⟨fuel, diffs, hdiffs⟩)
  · by_contra hsome
    obtain ⟨result, hresult⟩ := Option.ne_none_iff_exists'.mp hsome
    exact hnone ((check_ends hr hw).mp ⟨fuel, result, hresult⟩)

end KrabkaRegistry.Guarantees
