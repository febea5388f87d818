import KrabkaRegistry.Format.Avro
import KrabkaRegistry.Library.Related

/-!
# Named Types of Avro

Which types a schema defines and which it refers to, with names read in their namespaces as the
specification of Avro has it; and that the reader's rules change neither in the reader.
-/

namespace KrabkaRegistry.Format.Avro

open KrabkaRegistry.Format.Json (Value)
open KrabkaRegistry.Library.Related
open Relation (ReflTransGen)

/-! ## Names -/

def primitiveTypes : List String :=
  ["null", "boolean", "int", "long", "float", "double", "bytes", "string"]

/-- The types that define a name. -/
def namedTypes : List String := ["record", "enum", "fixed"]

def complexTypes : List String := namedTypes ++ ["array", "map"]

/-- A name as it is meant in a namespace. -/
def qualify (ns name : String) : String :=
  if '.' ∈ name.toList ∨ ns = "" then name else ns ++ "." ++ name

/-- What stands before the last dot. -/
def namespaceOf (name : String) : String :=
  String.ofList (name.toList.reverse.dropWhile (· ≠ '.')).tail.reverse

/-- The full name of the type that the members define in the namespace. -/
def definitionName (ns : String) (members : Members) : Option String :=
  if (getStr "type" members).any fun type => type ∈ namedTypes then
    (getStr "name" members).map (qualify ((getStr "namespace" members).getD ns))
  else none

/-! ## The schemas inside a schema -/

/-- The key of the items of an array or the values of a map. -/
def elementKey (members : Members) : Option String :=
  if getStr "type" members = some "array" then some "items"
  else if getStr "type" members = some "map" then some "values"
  else none

/-- A schema directly inside a schema, each with the namespace that encloses it. -/
inductive Child : String × Value → String × Value → Prop where
  | branch {ns : String} {items : List Value} {v : Value} :
    v ∈ items → Child (ns, .array items) (ns, v)
  | field {ns full : String} {members : Members} {fields : List Value} {f t : Value} :
    getStr "type" members = some "record" → definitionName ns members = some full →
    getArray "fields" members = some fields → f ∈ fields → f.get "type" = some t →
    Child (ns, .object members) (namespaceOf full, t)
  | element {ns key : String} {members : Members} {v : Value} :
    elementKey members = some key → members.lookup key = some v →
    Child (ns, .object members) (ns, v)
  | type {ns : String} {members : Members} {t : Value} :
    members.lookup "type" = some t → (∀ s ∈ t.asStr, s ∉ complexTypes) →
    Child (ns, .object members) (ns, t)

/-- In the namespace, the schema refers to the type of that name. -/
def Refers (ns : String) (v : Value) (name : String) : Prop :=
  ∃ ns' s, ReflTransGen Child (ns, v) (ns', .string s) ∧ s ∉ primitiveTypes ∧
    qualify ns' s = name

/-- In the namespace, the schema defines a type of that name. -/
def Defines (ns : String) (v : Value) (name : String) : Prop :=
  ∃ ns' members, ReflTransGen Child (ns, v) (ns', .object members) ∧
    definitionName ns' members = some name

/-- Every type that the schema refers to is defined in it. -/
def NamesResolve (v : Value) : Prop := ∀ name, Refers "" v name → Defines "" v name

/-- Where each step can be followed, so can each walk. -/
theorem follow_walk {α β : Type} {S : α → α → Prop} {T : β → β → Prop} {R : α → β → Prop}
    (hstep : ∀ {a b a'}, R a b → S a a' → ∃ b', T b b' ∧ R a' b') {a a' : α} {b : β}
    (hab : R a b) (ha : ReflTransGen S a a') : ∃ b', ReflTransGen T b b' ∧ R a' b' := by
  induction ha with
  | refl => exact ⟨b, .refl, hab⟩
  | tail _ hlast ih =>
    obtain ⟨b', hb', hR⟩ := ih
    obtain ⟨b'', hb'', hR'⟩ := hstep hR hlast
    exact ⟨b'', hb'.tail hb'', hR'⟩

/-! ## What a rule leaves alone -/

theorem getStr_congr {key : String} {members members' : Members}
    (h : members'.lookup key = members.lookup key) : getStr key members' = getStr key members := by
  rw [getStr, getStr, h]

theorem definitionName_congr {members members' : Members} (ns : String)
    (h : ∀ key ∈ ["type", "name", "namespace"], members'.lookup key = members.lookup key) :
    definitionName ns members' = definitionName ns members := by
  simp only [List.forall_mem_cons, List.not_mem_nil, false_imp_iff, implies_true, and_true] at h
  rw [definitionName, definitionName, getStr_congr h.1, getStr_congr h.2.1, getStr_congr h.2.2]

theorem elementKey_congr {members members' : Members}
    (h : members'.lookup "type" = members.lookup "type") :
    elementKey members' = elementKey members := by
  rw [elementKey, elementKey, getStr_congr h]

theorem elementKey_cases {members : Members} {key : String} (h : elementKey members = some key) :
    key = "items" ∨ key = "values" := by
  unfold elementKey at h
  split at h
  · exact .inl (Option.some.inj h).symm
  split at h
  · exact .inr (Option.some.inj h).symm
  · cases h

/-! ## Schemas of one shape -/

section Shape

variable {R : Value → Value → Prop}

/-- Two sets of members that differ in symbols, and in what `R` allows in the types of fields. -/
structure MembersAgree (R : Value → Value → Prop) (members members' : Members) : Prop where
  lookup : ∀ key, key ≠ "fields" → key ≠ "symbols" → members'.lookup key = members.lookup key
  fields : Option.Rel (List.Forall₂ fun f f' => Option.Rel R (f.get "type") (f'.get "type"))
    (getArray "fields" members) (getArray "fields" members')

/-- Two schemas that differ in symbols, and in what `R` allows one step inside. -/
inductive Shape (R : Value → Value → Prop) : Value → Value → Prop where
  | refl (v : Value) : Shape R v v
  | array {items items' : List Value} : List.Forall₂ R items items' →
    Shape R (.array items) (.array items')
  | object {members members' : Members} : MembersAgree R members members' →
    Shape R (.object members) (.object members')

theorem Shape.flip {v v' : Value} (h : Shape R v v') : Shape (Function.swap R) v' v := by
  cases h with
  | refl => exact .refl v
  | array hitems => exact .array hitems.flip
  | object hm =>
    refine .object ⟨fun key hf hs => (hm.lookup key hf hs).symm, ?_⟩
    refine optionRel_flip (fun _ _ hall => (hall.imp fun f f' hf => ?_).flip) hm.fields
    exact optionRel_flip (fun _ _ h => h) hf

namespace MembersAgree

variable {members members' : Members}

theorem definitionName (h : MembersAgree R members members') (ns : String) :
    definitionName ns members' = definitionName ns members := by
  apply definitionName_congr
  intro key hkey
  apply h.lookup key
  · rintro rfl
    revert hkey
    decide
  · rintro rfl
    revert hkey
    decide

theorem type (h : MembersAgree R members members') :
    members'.lookup "type" = members.lookup "type" := h.lookup "type" (by decide) (by decide)

end MembersAgree

/-- A step inside one of two schemas of one shape can be made inside the other. -/
theorem Shape.follow (hrefl : ∀ v, R v v) {ns ns' : String} {v v' u : Value} (h : Shape R v v')
    (hc : Child (ns, v) (ns', u)) : ∃ u', Child (ns, v') (ns', u') ∧ R u u' := by
  cases h with
  | refl => exact ⟨u, hc, hrefl u⟩
  | array hitems =>
    cases hc with
    | branch hmem =>
      obtain ⟨u', hu', hR⟩ := forall₂_mem_left hitems hmem
      exact ⟨u', .branch hu', hR⟩
  | object hm =>
    cases hc with
    | field htype hname hfields hf ht =>
      obtain ⟨fields', hfields', hall⟩ := optionRel_left hm.fields hfields
      obtain ⟨f', hf', htypes⟩ := forall₂_mem_left hall hf
      obtain ⟨t', ht', hR⟩ := optionRel_left htypes ht
      refine ⟨t', .field ?_ ((hm.definitionName ns).trans hname) hfields' hf' ht', hR⟩
      rwa [getStr, hm.type, ← getStr]
    | element hkey hv =>
      refine ⟨u, .element ((elementKey_congr hm.type).trans hkey) ?_, hrefl u⟩
      rw [← hv]
      rcases elementKey_cases hkey with rfl | rfl <;> exact hm.lookup _ (by decide) (by decide)
    | type ht hother => exact ⟨u, .type (hm.type.trans ht) hother, hrefl u⟩

/-- In one namespace, two related schemas. -/
def SamePlace (R : Value → Value → Prop) (p p' : String × Value) : Prop :=
  p'.1 = p.1 ∧ R p.2 p'.2

theorem SamePlace.follow (hrefl : ∀ v, R v v) (hshape : ∀ {v v'}, R v v' → Shape R v v')
    {p p' q : String × Value} (h : SamePlace R p p') (hc : Child p q) :
    ∃ q', Child p' q' ∧ SamePlace R q q' := by
  obtain ⟨ns, v⟩ := p
  obtain ⟨_, v'⟩ := p'
  obtain ⟨rfl, hR⟩ := h
  obtain ⟨u', hu', hR'⟩ := (hshape hR).follow hrefl hc
  exact ⟨(q.1, u'), hu', rfl, hR'⟩

/-- Two schemas of one shape, at every depth, have the same names. -/
theorem names_agree (hrefl : ∀ v, R v v) (hshape : ∀ {v v'}, R v v' → Shape R v v')
    {ns name : String} {v v' : Value} (h : R v v') :
    (Refers ns v name → Refers ns v' name) ∧ (Defines ns v name → Defines ns v' name) := by
  have hstart : SamePlace R (ns, v) (ns, v') := ⟨rfl, h⟩
  constructor
  · rintro ⟨ns', s, hwalk, hs, hname⟩
    obtain ⟨⟨_, u⟩, hwalk', rfl, hR⟩ := follow_walk (SamePlace.follow hrefl hshape) hstart hwalk
    cases hshape hR with
    | refl => exact ⟨_, s, hwalk', hs, hname⟩
  · rintro ⟨ns', members, hwalk, hname⟩
    obtain ⟨⟨_, u⟩, hwalk', rfl, hR⟩ := follow_walk (SamePlace.follow hrefl hshape) hstart hwalk
    cases hshape hR with
    | refl => exact ⟨_, members, hwalk', hname⟩
    | object hm => exact ⟨_, _, hwalk', (hm.definitionName _).trans hname⟩

end Shape

/-! ## The reader after the rules -/

/-- The value as it is, or as the rules leave a reader. -/
def Enriched (v v' : Value) : Prop := v' = v ∨ ∃ w, v' = (applyReaderRules v w).1

theorem enriched_refl (v : Value) : Enriched v v := .inl rfl

theorem ruleItems_enriched (rs ws : List Value) :
    List.Forall₂ Enriched rs (ruleItems applyReaderRules rs ws).1 := by
  induction rs generalizing ws with
  | nil => simp [ruleItems]
  | cons r rs ih =>
    cases ws with
    | nil =>
      simp only [ruleItems]
      exact List.forall₂_same.mpr fun v _ => enriched_refl v
    | cons w ws => exact .cons (.inr ⟨w, rfl⟩) (ih ws)

theorem ruleTypes_enriched (f g : Value) :
    Option.Rel Enriched (f.get "type") ((ruleTypes applyReaderRules f g).1.get "type") := by
  unfold ruleTypes
  split
  · next readerType writerType hf _ =>
    rw [get_setValue, hf]
    exact .some (.inr ⟨writerType, rfl⟩)
  · exact optionRel_of_refl enriched_refl _

theorem ruleFields_enriched (rs ws : List Value) :
    List.Forall₂ (fun f f' => Option.Rel Enriched (f.get "type") (f'.get "type")) rs
      (ruleFields applyReaderRules rs ws).1 := by
  induction rs generalizing ws with
  | nil => exact .nil
  | cons f rs ih =>
    cases hname : fieldName f with
    | none =>
      rw [ruleFields_nameless hname]
      exact .cons (optionRel_of_refl enriched_refl _) (ih ws)
    | some name =>
      rw [ruleFields_named hname]
      refine .cons ?_ (ih _)
      cases hg : named name ws with
      | none =>
        rw [ruleField_none hg]
        exact optionRel_of_refl enriched_refl _
      | some g =>
        obtain ⟨hg', before, after, rfl, hbefore⟩ := named_eq_some.mp hg
        rw [ruleField_split hbefore hg']
        exact ruleTypes_enriched f g

/-- The rules give the reader symbols and nothing else. -/
theorem ruleMembers_agree (reader writer : Members) :
    MembersAgree Enriched reader (ruleMembers applyReaderRules reader writer).1 where
  lookup key hfields hsymbols := by
    rw [ruleMembers_eq, (lookup_ruleRecords hfields).1, lookup_adoptSymbols hsymbols]
  fields := by
    have hadopt : getArray "fields" (adoptSymbols reader writer) = getArray "fields" reader := by
      rw [getArray, getArray, lookup_adoptSymbols (by decide)]
    rw [ruleMembers_eq, ← hadopt]
    unfold ruleRecords
    split
    · next readerFields writerFields hreader _ =>
      rw [getArray_setMember hreader, hreader]
      exact .some (ruleFields_enriched readerFields writerFields)
    · cases getArray "fields" (adoptSymbols reader writer) with
      | none => exact .none
      | some fields =>
        exact .some (List.forall₂_same.mpr fun f _ => optionRel_of_refl enriched_refl _)

theorem Enriched.shape {v v' : Value} (h : Enriched v v') : Shape Enriched v v' := by
  rcases h with rfl | ⟨w, rfl⟩
  · exact .refl _
  rw [applyReaderRules_eq]
  cases v with
  | array rs =>
    cases w with
    | array ws => exact .array (ruleItems_enriched rs ws)
    | _ => exact .refl _
  | object reader =>
    cases w with
    | object writer => exact .object (ruleMembers_agree reader writer)
    | _ => exact .refl _
  | _ =>
    simp only [ruleLevel]
    exact .refl _

/-- The reader keeps its names. -/
theorem reader_names_resolve {r : Value} (w : Value) (h : NamesResolve r) :
    NamesResolve (applyReaderRules r w).1 := by
  intro name hrefers
  have henriched : Enriched r (applyReaderRules r w).1 := .inr ⟨w, rfl⟩
  have hback : Refers "" r name :=
    (names_agree (R := Function.swap Enriched) enriched_refl
      (fun hR => (Enriched.shape hR).flip) henriched).1 hrefers
  exact (names_agree enriched_refl Enriched.shape henriched).2 (h name hback)

end KrabkaRegistry.Format.Avro
