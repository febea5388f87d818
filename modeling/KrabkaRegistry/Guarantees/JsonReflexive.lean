import KrabkaRegistry.Format.JsonSample
import KrabkaRegistry.Format.JsonSelf

/-!
# A JSON Schema and Itself

A schema is compatible with itself, unless a schema that the comparison reaches has `items` that
is neither a schema object nor a list, such as `true`: the comparison takes it for a change of
type.

- `accepts_itself_iff`: the comparison of a schema with itself ends, and accepts it exactly when
  no schema it reaches has such `items`;
- `boolean_items_rejected` is a schema that is not compatible with itself.
-/

namespace KrabkaRegistry.Guarantees

open Format.Json
open Relation (ReflTransGen)

variable {L : DiffLibs}

/-- Objects are read as maps, so that no object of a document has a key twice. -/
def ReadsMaps (J : SerdeJson) : Prop := ∀ text v, J.fromStr text = .ok v → v.Distinct

/-- One step of the comparison of a document with itself: to the target of a `$ref`, or to a
subschema. -/
def SelfStep (root : Value) (refs : RefMap) (x y : Value) : Prop :=
  resolveRef x root refs = some y ∨ refOf x = none ∧ y ∈ subschemas x

/-- What a document compared with itself reaches. -/
def SelfReaches (root : Value) (refs : RefMap) : Value → Value → Prop :=
  ReflTransGen (SelfStep root refs)

/-! ## The walk stays on the diagonal -/

variable {root : Value} {refs : RefMap} {marked : Finset (String × String)} {x y : Value}

/-- The comparison of a schema of one document with itself. -/
def diagonal (root : Value) (refs : RefMap) (marked : Finset (String × String)) (x : Value) :
    Comparison := ⟨⟨root, root, refs, refs, marked⟩, x, x⟩

theorem compareRefs_diagonal {ref : String} (hx : refOf x = some ref) :
    compareRefs ⟨root, root, refs, refs, marked⟩ x x =
      if (ref, ref) ∈ marked then .stop
      else
        match resolveRef x root refs with
        | some y => .follow ⟨root, root, refs, refs, insert (ref, ref) marked⟩ "/$ref" y y
        | none => .stop := by
  unfold compareRefs
  rw [hx]
  simp only [Option.getD_some]
  split_ifs
  · rfl
  · cases resolveRef x root refs <;> rfl

/-- The walk goes from a schema with itself to a schema with itself. -/
theorem next_diagonal {d : Comparison} (hx : x.Distinct)
    (h : Next L (diagonal root refs marked x) d) :
    ∃ marked' y, d = diagonal root refs marked' y ∧ SelfStep root refs x y ∧
      (marked' = marked ∨
        ∃ ref, refOf x = some ref ∧ resolveRef x root refs = some y ∧
          marked' = insert (ref, ref) marked) := by
  cases h with
  | @follow _ ctx' _ _ o u suffix hr =>
    cases href : refOf x with
    | none => rw [compareRefs_plain ⟨href, href⟩] at hr; cases hr
    | some ref =>
      rw [compareRefs_diagonal href] at hr
      split_ifs at hr
      cases hres : resolveRef x root refs with
      | none => rw [hres] at hr; cases hr
      | some target =>
        rw [hres] at hr
        cases hr
        exact ⟨insert (ref, ref) marked, o, rfl, .inl hres, .inr ⟨ref, rfl, rfl, rfl⟩⟩
  -- The keywords go from a schema into the same subschema on both sides.
  | recurse hplain hmem =>
    rcases (keywordSteps_self L hx).1 _ hmem with ⟨suffix', z, hz, heq⟩ | ⟨-, heq⟩
    · obtain ⟨-, rfl, rfl⟩ := Step.recurse.inj heq
      exact ⟨marked, _, rfl, .inr ⟨hplain.1, hz⟩, .inl rfl⟩
    · cases heq

/-- Each step of the document is a step of the walk, unless its `$ref` is marked. -/
theorem next_of_selfStep (hx : x.Distinct) (h : SelfStep root refs x y) :
    (∃ marked', Next L (diagonal root refs marked x) (diagonal root refs marked' y)) ∨
      ∃ ref, refOf x = some ref ∧ (ref, ref) ∈ marked ∧ resolveRef x root refs = some y := by
  rcases h with hres | ⟨hplain, hy⟩
  · cases href : refOf x with
    | none => simp [resolveRef, href] at hres
    | some ref =>
      by_cases hmarked : (ref, ref) ∈ marked
      · exact .inr ⟨ref, rfl, hmarked, hres⟩
      · have hfollow : compareRefs ⟨root, root, refs, refs, marked⟩ x x =
            .follow ⟨root, root, refs, refs, insert (ref, ref) marked⟩ "/$ref" y y := by
          rw [compareRefs_diagonal href, if_neg hmarked, hres]
        exact .inl ⟨insert (ref, ref) marked, .follow hfollow⟩
  · obtain ⟨suffix, hmem⟩ := (keywordSteps_self L hx).2.1 y hy
    exact .inl ⟨marked, .recurse ⟨hplain, hplain⟩ hmem⟩

/-! ## The whole walk -/

/-- The documents that a comparison of a document with itself can meet have distinct keys. -/
def DistinctDocs (root : Value) (refs : RefMap) : Prop :=
  root.Distinct ∧ ∀ p ∈ refs, p.2.Distinct

theorem DistinctDocs.known (h : DistinctDocs root refs)
    (hx : Known ⟨root, root, refs, refs, marked⟩ x) : x.Distinct := by
  obtain ⟨d, hd, hsub⟩ := hx
  simp only [Ctx.docs, List.mem_cons, List.mem_append, List.mem_map] at hd
  have hdistinct : d.Distinct := by
    rcases hd with rfl | rfl | ⟨p, hp, rfl⟩ | ⟨p, hp, rfl⟩
    · exact h.1
    · exact h.1
    · exact h.2 p hp
    · exact h.2 p hp
  exact hdistinct.sub hsub

/-- Where the walk from the root can be: on the diagonal, at a schema that the document reaches. -/
theorem reaches_diagonal (hdocs : DistinctDocs root refs) {d : Comparison}
    (h : Reaches L (diagonal root refs ∅ root) d) :
    ∃ marked x, d = diagonal root refs marked x ∧ x.Distinct ∧ SelfReaches root refs root x := by
  have hknown : (diagonal root refs ∅ root).Known :=
    ⟨⟨root, by simp [diagonal, Ctx.docs], .refl⟩, ⟨root, by simp [diagonal, Ctx.docs], .refl⟩⟩
  induction h with
  | refl => exact ⟨∅, root, rfl, hdocs.1, .refl⟩
  | tail hprev hn ih =>
    obtain ⟨marked, x, rfl, hx, hreach⟩ := ih
    obtain ⟨marked', y, rfl, hstep, -⟩ := next_diagonal hx hn
    have hy := (Reaches.known (hprev.tail hn) hknown).1
    exact ⟨marked', y, rfl, hdocs.known hy, hreach.tail hstep⟩

/-- The walk comes to every schema that the document reaches: where it stops at a marked `$ref`,
it has been at the target. -/
theorem walk_covers (hdocs : DistinctDocs root refs) {x : Value}
    (h : SelfReaches root refs root x) :
    ∃ marked, Reaches L (diagonal root refs ∅ root) (diagonal root refs marked x) := by
  let been : Value → Prop := fun y =>
    ∃ marked, Reaches L (diagonal root refs ∅ root) (diagonal root refs marked y)
  -- A `$ref` is marked only on the way to its target.
  have htargets : ∀ d, Reaches L (diagonal root refs ∅ root) d →
      ∀ ref, (ref, ref) ∈ d.ctx.visited → ∀ z y, refOf z = some ref →
        resolveRef z root refs = some y → been y := by
    intro d hd
    induction hd with
    | refl => intro ref hmem; simp [diagonal] at hmem
    | tail hprev hn ih =>
      obtain ⟨marked, x, rfl, hx, -⟩ := reaches_diagonal hdocs hprev
      obtain ⟨marked', y', rfl, -, hmarked⟩ := next_diagonal hx hn
      intro ref hmem z y hz hres
      rcases hmarked with rfl | ⟨ref', hx', hres', rfl⟩
      · exact ih ref hmem z y hz hres
      · rcases Finset.mem_insert.mp hmem with heq | hold
        · obtain rfl : ref = ref' := (Prod.mk.inj heq).1
          have hsame : resolveRef z root refs = resolveRef x root refs := by
            simp only [resolveRef, hz, hx']
          rw [hsame, hres'] at hres
          obtain rfl := Option.some.inj hres
          exact ⟨_, hprev.tail hn⟩
        · exact ih ref hold z y hz hres
  induction h with
  | refl => exact ⟨∅, .refl⟩
  | tail _ hstep ih =>
    obtain ⟨marked, hreach⟩ := ih
    obtain ⟨marked₀, x₀, heq, hx, -⟩ := reaches_diagonal hdocs hreach
    cases heq
    have hcases : (∃ marked', Next L (diagonal root refs marked _) (diagonal root refs marked' _)) ∨
        ∃ ref, _ := next_of_selfStep hx hstep
    rcases hcases with ⟨marked', hn⟩ | ⟨ref, href, hmem, hres⟩
    · exact ⟨marked', hreach.tail hn⟩
    · exact htargets _ hreach ref hmem _ _ href hres

theorem selfReaches_distinct (L : DiffLibs) (hdocs : DistinctDocs root refs) {x : Value}
    (h : SelfReaches root refs root x) : x.Distinct := by
  obtain ⟨marked, hreach⟩ := walk_covers (L := L) hdocs h
  obtain ⟨marked₀, x₀, heq, hdistinct, -⟩ := reaches_diagonal hdocs hreach
  cases heq
  exact hdistinct

/-- Nothing is called as a branch on the diagonal. -/
theorem diagonal_ends (hdocs : DistinctDocs root refs) :
    (verdict L (diagonal root refs ∅ root)).isSome := by
  have hknown : (diagonal root refs ∅ root).Known :=
    ⟨⟨root, by simp [diagonal, Ctx.docs], .refl⟩, ⟨root, by simp [diagonal, Ctx.docs], .refl⟩⟩
  rw [ends_iff_calls hknown]
  intro d hd a b hcall
  obtain ⟨marked, x, rfl, -, -⟩ := reaches_diagonal hdocs hd
  cases hcall.2 with
  | allOf ho hu hne => exact absurd (Option.some.inj (ho.symm.trans hu)) hne
  | sum ho hu hne => exact absurd (Prod.mk.inj (Option.some.inj (ho.symm.trans hu))).2 hne
  | any ho hu => cases ho.symm.trans hu
  | all ho hu => cases hu.symm.trans ho
  | not ho hu hne => exact absurd (Option.some.inj (ho.symm.trans hu)) hne

theorem diagonal_true_iff (hdocs : DistinctDocs root refs) :
    verdict L (diagonal root refs ∅ root) = some true ↔
      ∀ x, SelfReaches root refs root x → refOf x = none → ¬ MalformedItems x := by
  have hknown : (diagonal root refs ∅ root).Known :=
    ⟨⟨root, by simp [diagonal, Ctx.docs], .refl⟩, ⟨root, by simp [diagonal, Ctx.docs], .refl⟩⟩
  rw [verdict_true_iff_reach hknown]
  constructor
  · intro h x hx hplain
    obtain ⟨marked, hreach⟩ := walk_covers (L := L) hdocs hx
    exact (locallyOk_self (selfReaches_distinct L hdocs hx)).mp (h _ hreach ⟨hplain, hplain⟩)
  · intro h d hd hplain
    obtain ⟨marked, x, rfl, hdistinct, hreach⟩ := reaches_diagonal hdocs hd
    exact (locallyOk_self hdistinct).mpr (h x hreach hplain.1)

/-! ## The check -/

/-- What `json::parse` yields was read by `serde_json`. -/
theorem Parses.distinctDocs {text : String} {refs : List ResolvedReference} {schema : JsonSchema}
    (h : Parses L text refs schema) (hmaps : ReadsMaps L.serdeJson) :
    DistinctDocs schema.value schema.refs := by
  have hparse := h
  unfold Parses parse at hparse
  split at hparse
  · cases hparse
  · rename_i value hvalue
    split at hparse
    case' h_1 => cases hparse
    case' h_2 => cases hparse
    case' h_3 => cases hparse
    all_goals
      refine ⟨hmaps _ _ hvalue, ?_⟩
      intro p hp
      obtain ⟨r, -, hr⟩ := List.mem_filterMap.mp hp
      split at hr
      · rename_i v hv
        cases hr
        exact hmaps _ _ hv
      · cases hr

/-- **A schema and itself.**  For every text that parses, with every list of references, the check
of the text against itself ends; it accepts exactly when no schema that the comparison reaches
has `items` that is neither an object nor a list. -/
theorem accepts_itself_iff (hmaps : ReadsMaps L.serdeJson) {text : String}
    {refs : List ResolvedReference} {schema : JsonSchema} (hparse : Parses L text refs schema) :
    (Accepts L text text refs refs ∨ Rejects L text text refs refs) ∧
    (Accepts L text text refs refs ↔
      ∀ x, SelfReaches schema.value schema.refs schema.value x → refOf x = none →
        ¬ MalformedItems x) := by
  have hdocs := Parses.distinctDocs hparse hmaps
  rw [accepts_iff hparse hparse, rejects_iff hparse hparse]
  refine ⟨?_, diagonal_true_iff hdocs⟩
  obtain ⟨b, hb⟩ := Option.isSome_iff_exists.mp (diagonal_ends (L := L) hdocs)
  cases b with
  | true => exact .inl hb
  | false => exact .inr hb

/-! ### Two schemas -/

theorem compact_readsMaps : ReadsMaps SerdeJson.compact := fun _ _ h => compact_distinct h

/-- `{"properties":{"next":{"$ref":"#"}}}` is compatible with itself. -/
theorem recursive_accepts_itself :
    Accepts .compact "\x7b\"properties\":\x7b\"next\":\x7b\"$ref\":\"#\"\x7d\x7d\x7d"
      "\x7b\"properties\":\x7b\"next\":\x7b\"$ref\":\"#\"\x7d\x7d\x7d" [] [] := by
  let next : Value := .object [("$ref", .string "#")]
  let document : Value := .object [("properties", .object [("next", next)])]
  have hparse : Parses .compact
      "\x7b\"properties\":\x7b\"next\":\x7b\"$ref\":\"#\"\x7d\x7d\x7d" [] ⟨document, []⟩ :=
    compact_parses (by decide +kernel) rfl
  rw [(accepts_itself_iff compact_readsMaps hparse).2]
  -- Only the document and the reference to it are reached.
  have hreach : ∀ x, SelfReaches document [] document x → x = document ∨ x = next := by
    intro x hx
    induction hx with
    | refl => exact .inl rfl
    | tail _ hstep ih =>
      rcases ih with rfl | rfl
      · rcases hstep with hres | ⟨-, hy⟩
        · simp [resolveRef, refOf, document, List.lookup] at hres
        · exact .inr (List.mem_singleton.mp hy)
      · rcases hstep with hres | ⟨hplain, -⟩
        · exact .inl (Option.some.inj hres).symm
        · simp [refOf, next, List.lookup, Value.asStr] at hplain
  intro x hx hplain hbad
  obtain ⟨items, hitems, -, -⟩ := hbad
  rcases hreach x hx with rfl | rfl
  · simp [document, List.lookup] at hitems
  · simp [next, List.lookup] at hitems

/-- `{"items":true}`, whose items may be anything, is not. -/
theorem boolean_items_rejected :
    Parses .compact "\x7b\"items\":true\x7d" [] ⟨.object [("items", .bool true)], []⟩ ∧
      Rejects .compact "\x7b\"items\":true\x7d" "\x7b\"items\":true\x7d" [] [] ∧
      ¬ Accepts .compact "\x7b\"items\":true\x7d" "\x7b\"items\":true\x7d" [] [] := by
  have hparse : Parses .compact "\x7b\"items\":true\x7d" [] ⟨.object [("items", .bool true)], []⟩ :=
    compact_parses (by decide +kernel) rfl
  have hrejects : Rejects .compact "\x7b\"items\":true\x7d" "\x7b\"items\":true\x7d" [] [] :=
    (rejects_iff hparse hparse).mpr (verdict_of_run 2 (by decide +kernel))
  exact ⟨hparse, hrejects, not_accepts_of_rejects hparse hparse hrejects⟩

end KrabkaRegistry.Guarantees
