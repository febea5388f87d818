import KrabkaRegistry.Format.JsonSample
import KrabkaRegistry.Format.JsonTruncate

/-!
# Recursive Schemas

Documents of `type`, `properties`, `$defs` and `$ref` may refer to themselves.  The comparison
follows a pair of `$ref`s once, and takes it for compatible when it comes again below itself.

- `accepts_of_truncations`: this finds no difference that the truncations do not have;
- `accepts_iff_truncations`: where the guard is exact it hides none, so that recursive documents
  are compatible exactly when their truncations at every depth are;
- `guardExact_of_both`: the guard is exact where a `$ref` is only compared with a `$ref`.
-/

namespace KrabkaRegistry.Guarantees

open KrabkaRegistry.Format
open KrabkaRegistry.Format.Json

variable {L : DiffLibs} {c : Comparison} {fuel : ℕ}

/-- Every chain of `$ref`s that matters comes to a schema without one, and a new property that
comes to the empty schema is written as it. -/
structure Grounded (c : Comparison) (fuel : ℕ) : Prop where
  settles : Settles c fuel
  added : ∀ o u, Paired c o u → NoRefs o u → ∀ p ∈ declared u, (declared o).lookup p.1 = none →
    ∃ t, c.settleUpd fuel p.2 = some t ∧ (t.asObject = some [] → p.2.asObject = some [])

/-! ## Guards -/

theorem exists_refs_of_both {o u : Value} (h : (refOf o).isSome = (refOf u).isSome)
    (hrefs : ¬ NoRefs o u) : ∃ r r', refOf o = some r ∧ refOf u = some r' := by
  unfold NoRefs at hrefs
  cases ho : refOf o with
  | none =>
    cases hu : refOf u with
    | none => exact absurd ⟨ho, hu⟩ hrefs
    | some r' => simp [ho, hu] at h
  | some r =>
    cases hu : refOf u with
    | none => simp [ho, hu] at h
    | some r' => exact ⟨r, r', rfl, rfl⟩

/-- Where every pair has `$ref`s on both sides or on neither, the pair of `$ref`s says what is
compared. -/
theorem guardExact_of_both (hsettles : Settles c fuel)
    (h : ∀ o u, Paired c o u → (refOf o).isSome = (refOf u).isSome) : GuardExact c := by
  intro o u o' u' hpair hbelow hrefs' hkey p hp
  have hrefs : ¬ NoRefs o u := by
    intro hplain
    rw [Comparison.noRefs_of_targets hplain] at hp
    cases hp
  -- Both sides are references, and what they name depends on their text alone.
  obtain ⟨r, r', hr, hr'⟩ := exists_refs_of_both (h o u hpair) hrefs
  obtain ⟨q, q', hq, hq'⟩ := exists_refs_of_both (h o' u' (hpair.trans hbelow)) hrefs'
  simp only [Comparison.key, hr, hr', hq, hq', Option.getD_some, Prod.mk.injEq] at hkey
  obtain ⟨rfl, rfl⟩ := hkey
  obtain ⟨s, hs⟩ := Option.isSome_iff_exists.mp (hsettles o u hpair).1
  obtain ⟨t, ht⟩ := Option.isSome_iff_exists.mp (hsettles o u hpair).2
  obtain ⟨hro, _⟩ | ⟨_, x, _, hx, _⟩ := settle_cases hs
  · rw [hr] at hro
    cases hro
  obtain ⟨hru, _⟩ | ⟨_, y, _, hy, _⟩ := settle_cases ht
  · rw [hr'] at hru
    cases hru
  have hx' : resolveRef o' c.ctx.origRoot c.ctx.origRefs = some x := by
    rw [resolveRef, hq, ← hx, resolveRef, hr]
  have hy' : resolveRef u' c.ctx.updRoot c.ctx.updRefs = some y := by
    rw [resolveRef, hq', ← hy, resolveRef, hr']
  simp only [Comparison.targets, hx, hy] at hp
  simp only [Comparison.targets, hx', hy', hp]

/-! ## Truncations -/

/-- A truncation that is not at the bottom is empty where the schema leads to the empty one. -/
theorem asObject_truncate {root v s : Value} {refs : RefMap}
    (h : settle root refs fuel v = some s) (n : ℕ) :
    (truncate root refs fuel (n + 1) v).asObject = some [] ↔ s.asObject = some [] := by
  rw [truncate_succ h, asObject_shape_eq_nil]

theorem truncate_empty {root v : Value} {refs : RefMap} (h : v.asObject = some []) (n : ℕ) :
    (truncate root refs fuel n v).asObject = some [] := by
  obtain rfl : v = .object [] := by
    cases v with
    | object members => exact congrArg Value.object (Option.some.inj h)
    | _ => cases h
  cases n with
  | zero => rfl
  | succ n => exact (asObject_truncate (settle_plain rfl) n).mpr rfl

/-- The guard invents nothing: what the truncations do not differ in, the documents do not. -/
theorem verdict_of_truncations (hknown : c.Known) (hbasic : PairedBasic c)
    (hground : Grounded c fuel)
    (h : ∀ n, verdict L (c.truncated fuel n) = some true) : verdict L c = some true := by
  rw [verdict_true_iff_reach hknown]
  intro d hd hplain
  have hpair := paired_of_reaches hbasic hd
  obtain ⟨ho, hu⟩ := hbasic _ _ hpair
  refine (Basic.locallyOk_iff ho hu).mpr ?_
  obtain ⟨k, hk⟩ := hpair.exists_settled hground.settles (settle_plain hplain.1)
    (settle_plain hplain.2)
  -- One level more than the pair needs shows which properties are empty.
  have hshapes := (verdict_truncated_iff hbasic hground.settles (k + 1 + 1)).mp (h _) k 1 _ _
    rfl hk
  obtain ⟨htype, hnew⟩ := (reportsOk_shape_iff ho hu).mp hshapes
  refine (reportsOk_iff ho hu).mpr ⟨htype, fun p hp hlookup => ?_⟩
  obtain ⟨t, ht, hempty⟩ := hground.added _ _ hpair hplain p hp hlookup
  exact hempty ((asObject_truncate ht 0).mp (hnew p hp hlookup))

/-- Under an exact guard the truncations have no difference that the documents do not have. -/
theorem truncations_of_verdict (hknown : c.Known) (hstart : c.ctx.visited = ∅)
    (hbasic : PairedBasic c) (hguard : GuardExact c) (hsettles : Settles c fuel)
    (h : verdict L c = some true) (n : ℕ) : verdict L (c.truncated fuel n) = some true := by
  rw [verdict_truncated_iff hbasic hsettles]
  rintro k more s t rfl hsettled
  obtain ⟨hpair, hplain⟩ := hsettled.paired
  obtain ⟨ho, hu⟩ := hbasic s t hpair
  have hok := (verdict_paired_iff hknown hstart hbasic hguard).mp h s t hpair hplain
  obtain ⟨htype, hnew⟩ := (reportsOk_iff ho hu).mp hok
  refine (reportsOk_shape_iff ho hu).mpr ⟨htype, fun p hp hlookup => ?_⟩
  exact truncate_empty (hnew p hp hlookup) more

/-! ## Checks -/

section Checks

variable {reader writer : String} {readerRefs writerRefs : List ResolvedReference}
  {readerS writerS : JsonSchema}

theorem known_ofSchemas (readerS writerS : JsonSchema) :
    (Comparison.ofSchemas readerS writerS).Known :=
  ⟨⟨_, by simp [Comparison.ofSchemas, Ctx.docs], .refl⟩,
    ⟨_, by simp [Comparison.ofSchemas, Ctx.docs], .refl⟩⟩

/-- Documents whose truncations are all compatible are accepted, whatever the guard skips. -/
theorem accepts_of_truncations (hr : Parses L reader readerRefs readerS)
    (hw : Parses L writer writerRefs writerS)
    (hbasic : PairedBasic (.ofSchemas readerS writerS))
    (hground : Grounded (.ofSchemas readerS writerS) fuel)
    (h : ∀ n, verdict L ((Comparison.ofSchemas readerS writerS).truncated fuel n) = some true) :
    Accepts L reader writer readerRefs writerRefs :=
  (accepts_iff hr hw).mpr
    (verdict_of_truncations (known_ofSchemas readerS writerS) hbasic hground h)

/-- **The guard against cycles is transparent.**  Recursive documents are compatible exactly when
their truncations are, at every depth. -/
theorem accepts_iff_truncations (hr : Parses L reader readerRefs readerS)
    (hw : Parses L writer writerRefs writerS)
    (hbasic : PairedBasic (.ofSchemas readerS writerS))
    (hground : Grounded (.ofSchemas readerS writerS) fuel)
    (hguard : GuardExact (.ofSchemas readerS writerS)) :
    Accepts L reader writer readerRefs writerRefs ↔
      ∀ n, verdict L ((Comparison.ofSchemas readerS writerS).truncated fuel n) = some true := by
  constructor
  · intro h
    exact truncations_of_verdict (known_ofSchemas readerS writerS) rfl hbasic hguard
      hground.settles ((accepts_iff hr hw).mp h)
  · exact accepts_of_truncations hr hw hbasic hground

end Checks

/-! ## A list -/

/-- `{"$ref":"#/$defs/node"}`. -/
def nodeRef : Value := .object [("$ref", .string "#/$defs/node")]

/-- A node of a list: an object whose `next` is a node. -/
def listNode : Value :=
  .object [("properties", .object [("next", nodeRef)]), ("type", .string "object")]

/-- A document that is a node. -/
def listDocument : Value :=
  .object [("$defs", .object [("node", listNode)]), ("$ref", .string "#/$defs/node")]

/-- The text of the document. -/
def listText : String :=
  "\x7b\"$defs\":\x7b\"node\":\x7b\"properties\":\x7b\"next\":\x7b\"$ref\":" ++
    "\"#/$defs/node\"\x7d\x7d,\"type\":\"object\"\x7d\x7d,\"$ref\":\"#/$defs/node\"\x7d"

theorem listNode_paired {o u : Value}
    (h : Paired (.ofSchemas ⟨listDocument, []⟩ ⟨listDocument, []⟩) o u) :
    o = u ∧ o ∈ [listDocument, nodeRef, listNode] := by
  induction h with
  | start => exact ⟨rfl, List.mem_cons_self⟩
  | follow _ htargets ih =>
    obtain ⟨rfl, hmem⟩ := ih
    obtain ⟨rfl, rfl⟩ := targets_getD htargets
    refine ⟨rfl, ?_⟩
    simp only [List.mem_cons, List.not_mem_nil, or_false] at hmem
    rcases hmem with rfl | rfl | rfl <;> decide +kernel
  | property _ _ ha hb ih =>
    obtain ⟨rfl, hmem⟩ := ih
    simp only [List.mem_cons, List.not_mem_nil, or_false] at hmem
    rcases hmem with rfl | rfl | rfl
    · cases hb
    · cases hb
    · obtain ⟨rfl, rfl⟩ := Prod.mk.inj (List.mem_singleton.mp hb)
      obtain rfl := Option.some.inj ha
      exact ⟨rfl, by simp⟩

/-- Two lists are compatible, as all their truncations are. -/
theorem lists_accepted :
    Accepts .compact listText listText [] [] ↔
      ∀ n, verdict .compact
        ((Comparison.ofSchemas ⟨listDocument, []⟩ ⟨listDocument, []⟩).truncated 1 n) =
          some true := by
  have hparse : Parses .compact listText [] ⟨listDocument, []⟩ :=
    compact_parses (by decide +kernel) rfl
  have hbasic : ∀ v ∈ [listDocument, nodeRef, listNode], Basic v := by
    intro v hv key hkey
    simp only [List.mem_cons, List.not_mem_nil, or_false, not_or] at hv hkey
    obtain ⟨hk₁, hk₂, hk₃, hk₄⟩ := hkey
    rcases hv with rfl | rfl | rfl <;>
      simp [listDocument, nodeRef, listNode, List.lookup, beq_eq_false_iff_ne.mpr, hk₁, hk₂, hk₃,
        hk₄]
  have hsettles : Settles (.ofSchemas ⟨listDocument, []⟩ ⟨listDocument, []⟩) 1 := by
    intro o u h
    obtain ⟨rfl, hmem⟩ := listNode_paired h
    simp only [List.mem_cons, List.not_mem_nil, or_false] at hmem
    rcases hmem with rfl | rfl | rfl <;> decide +kernel
  refine accepts_iff_truncations hparse hparse ?_ ⟨hsettles, ?_⟩ ?_
  · intro o u h
    obtain ⟨rfl, hmem⟩ := listNode_paired h
    exact ⟨hbasic _ hmem, hbasic _ hmem⟩
  · -- Nothing is new: both sides are one schema.
    intro o u h _ p hp hnew
    obtain ⟨rfl, _⟩ := listNode_paired h
    rw [List.lookup_eq_none_iff] at hnew
    exact absurd (hnew p hp) (by simp)
  · refine guardExact_of_both hsettles fun o u h => ?_
    obtain ⟨rfl, _⟩ := listNode_paired h
    rfl

end KrabkaRegistry.Guarantees
