import KrabkaRegistry.Format.AvroNames

/-!
# Aliases and the Names of the Writer

An alias gives a definition of the writer's the name that the reader has for it.  References to
the definition keep the name they are written with.

- `names_resolve_iff`: every name still denotes a definition, in the reader always, and in the
  writer exactly if each reference and the definition it denotes are left with one name, or
  another definition gets that name.
- `names_follow_of_unreferred`: so it is if the definitions that get a name keep their namespace
  and are not referred to.
- `recursive_writer_dangles`: a record that refers to itself loses the definition.
-/

namespace KrabkaRegistry.Guarantees

open KrabkaRegistry.Format.Avro
open KrabkaRegistry.Format.Json (Value)
open KrabkaRegistry.Library.Related
open Relation (ReflTransGen)

/-! ## The writer beside the reader -/

/-- What the reader has for a branch of the writer's. -/
def branchOf (reader : Option Value) (i : ℕ) : Option Value :=
  (reader.bind Value.asArray).bind fun items => items[i]?

/-- What the reader has for the type of a field of the writer's. -/
def fieldTypeOf (reader : Option Value) (f : Value) : Option Value :=
  (((reader.bind Value.asObject).bind (getArray "fields")).bind fun fields =>
    (fieldName f).bind fun name => named name fields).bind fun field => field.get "type"

/-- The members of the writer's with the name they take. -/
def takenMembers (reader : Option Value) (members : Members) : Members :=
  (reader.bind Value.asObject).elim members fun readerMembers => takeName readerMembers members

/-- A schema inside the writer: what the walk meets it with, and the namespace that encloses it,
as written and with the names that definitions take. -/
structure Spot where
  reader : Option Value
  nsBefore : String
  nsAfter : String
  schema : Value

namespace Spot

/-- A spot directly inside a spot. -/
inductive Child : Spot → Spot → Prop where
  | branch {reader : Option Value} {ns ns' : String} {items : List Value} {i : ℕ} {v : Value} :
    items[i]? = some v →
    Child ⟨reader, ns, ns', .array items⟩ ⟨branchOf reader i, ns, ns', v⟩
  | field {reader : Option Value} {ns ns' full full' : String} {members : Members}
      {fields : List Value} {f t : Value} :
    getStr "type" members = some "record" → definitionName ns members = some full →
    definitionName ns' (takenMembers reader members) = some full' →
    getArray "fields" members = some fields → f ∈ fields → f.get "type" = some t →
    Child ⟨reader, ns, ns', .object members⟩
      ⟨fieldTypeOf reader f, namespaceOf full, namespaceOf full', t⟩
  | element {reader : Option Value} {ns ns' key : String} {members : Members} {v : Value} :
    elementKey members = some key → members.lookup key = some v →
    Child ⟨reader, ns, ns', .object members⟩ ⟨none, ns, ns', v⟩
  | type {reader : Option Value} {ns ns' : String} {members : Members} {t : Value} :
    members.lookup "type" = some t → (∀ s ∈ t.asStr, s ∉ complexTypes) →
    Child ⟨reader, ns, ns', .object members⟩ ⟨none, ns, ns', t⟩

/-- The spot is a reference, to these names before and after the aliases. -/
def Names (s : Spot) (before after : String) : Prop :=
  ∃ t, s.schema = .string t ∧ t ∉ primitiveTypes ∧ qualify s.nsBefore t = before ∧
    qualify s.nsAfter t = after

/-- The spot is a definition, of these names before and after the aliases. -/
def Defines (s : Spot) (before after : String) : Prop :=
  ∃ members, s.schema = .object members ∧ definitionName s.nsBefore members = some before ∧
    definitionName s.nsAfter (takenMembers s.reader members) = some after

end Spot

/-- The spots of a writer that is compared with a reader. -/
def Reached (r w : Value) (s : Spot) : Prop := ReflTransGen Spot.Child ⟨some r, "", "", w⟩ s

/-- Each reference to a definition is left with a name that this definition, or another one, is
left with. -/
def NamesFollow (r w : Value) : Prop :=
  ∀ s d, Reached r w s → Reached r w d → ∀ name after after', s.Names name after →
    d.Defines name after' → ∃ d' before, Reached r w d' ∧ d'.Defines before after

/-! ## The writer after the rules -/

section Fields

variable {rules : Value → Value → Value × Value}

/-- One unfolding of the search for a field. -/
theorem named_cons (name : String) (f : Value) (fields : List Value) :
    named name (f :: fields) = if fieldName f = some name then some f else named name fields := by
  unfold named
  rw [List.find?_cons]
  by_cases h : fieldName f = some name <;> simp [h]

/-- A field of the writer's with the type that the reader's field of its name leaves it. -/
def ruledField (rules : Value → Value → Value × Value) (readerFields : List Value) (g : Value) :
    Value :=
  ((fieldName g).bind fun name => named name readerFields).elim g fun f => (ruleTypes rules f g).2

/-- With distinct names on both sides, each field of the writer's meets the one of its name. By
induction on the reader's fields: each of them rewrites one field of the writer's at most, and keeps
its name. -/
theorem ruleFields_snd {rs ws : List Value} (hrs : (rs.filterMap fieldName).Nodup)
    (hws : (ws.filterMap fieldName).Nodup) :
    (ruleFields rules rs ws).2 = ws.map (ruledField rules rs) := by
  induction rs generalizing ws with
  | nil =>
    have hself : ∀ g, ruledField rules [] g = g := by
      intro g
      unfold ruledField
      cases fieldName g <;> rfl
    rw [ruleFields, List.map_congr_left fun g _ => hself g, List.map_id']
  | cons f rs ih =>
    -- A field of another name sees no difference.
    have hother : ∀ g, fieldName f = none ∨ fieldName g ≠ fieldName f →
        ruledField rules (f :: rs) g = ruledField rules rs g := by
      intro g hg
      unfold ruledField
      cases hname : fieldName g with
      | none => rfl
      | some name =>
        have hne : fieldName f ≠ some name := by
          rintro hf
          rcases hg with hg | hg
          · rw [hg] at hf
            cases hf
          · exact hg (hname.trans hf.symm)
        rw [Option.bind_some, Option.bind_some, named_cons, if_neg hne]
    cases hname : fieldName f with
    | none =>
      rw [List.filterMap_cons_none hname] at hrs
      rw [ruleFields_nameless hname, ih hrs hws]
      exact List.map_congr_left fun g _ => (hother g (.inl hname)).symm
    | some name =>
      rw [List.filterMap_cons_some hname, List.nodup_cons] at hrs
      rw [ruleFields_named hname]
      cases hg : named name ws with
      | none =>
        rw [ruleField_none hg, ih hrs.2 hws]
        refine List.map_congr_left fun g hmem => (hother g (.inr ?_)).symm
        rw [hname]
        exact named_eq_none.mp hg g hmem
      | some g =>
        obtain ⟨hgname, before, after, rfl, hbefore⟩ := named_eq_some.mp hg
        have hgname' : fieldName (ruleTypes rules f g).2 = some name :=
          (fieldName_ruleTypes f g).2.trans hgname
        have hafter : ∀ x ∈ after, fieldName x ≠ some name := by
          intro x hx hxname
          rw [List.filterMap_append, List.filterMap_cons_some hgname] at hws
          have hnot := (List.nodup_cons.mp (List.perm_middle.nodup_iff.mp hws)).1
          exact hnot (List.mem_append_right _ (List.mem_filterMap.mpr ⟨x, hx, hxname⟩))
        have hws' : ((before ++ (ruleTypes rules f g).2 :: after).filterMap fieldName).Nodup := by
          rwa [List.filterMap_append, List.filterMap_cons_some hgname',
            ← List.filterMap_cons_some hgname, ← List.filterMap_append]
        have hnone : named name rs = none := named_eq_none.mpr fun r hr hrname =>
          hrs.1 (List.mem_filterMap.mpr ⟨r, hr, hrname⟩)
        have hfirst : ruledField rules (f :: rs) g = (ruleTypes rules f g).2 := by
          rw [ruledField, hgname, Option.bind_some, named_cons, if_pos hname]
          rfl
        -- The field just rewritten meets no later field of the reader, the names being distinct.
        have hagain : ruledField rules rs (ruleTypes rules f g).2 = (ruleTypes rules f g).2 := by
          rw [ruledField, hgname', Option.bind_some, hnone]
          rfl
        rw [ruleField_split hbefore hgname, ih hrs.2 hws', List.map_append, List.map_append,
          List.map_cons, List.map_cons, hfirst, hagain]
        congr 1
        · exact List.map_congr_left fun x hx => (hother x (.inr (hname ▸ hbefore x hx))).symm
        · congr 1
          exact List.map_congr_left fun x hx => (hother x (.inr (hname ▸ hafter x hx))).symm

/-- Branches meet by position, and a branch without partner is left alone. -/
theorem getElem?_ruleItems_snd (rs ws : List Value) (i : ℕ) :
    (ruleItems rules rs ws).2[i]? =
      (ws[i]?).map fun w => (rs[i]?).elim w fun r => (rules r w).2 := by
  induction rs generalizing ws i with
  | nil => simp [ruleItems]
  | cons r rs ih =>
    cases ws with
    | nil => simp [ruleItems]
    | cons w ws =>
      cases i with
      | zero => rfl
      | succ i => exact ih ws i

end Fields

/-- What the rules leave of a schema of the writer's. -/
def writerAfter (reader : Option Value) (v : Value) : Value :=
  reader.elim v fun r => (applyReaderRules r v).2

def afterMembers (reader : Option Value) (members : Members) : Members :=
  (reader.bind Value.asObject).elim members fun readerMembers =>
    (ruleMembers applyReaderRules readerMembers members).2

/-- What the rules make of an object is an object. -/
theorem after_object (reader : Option Value) (members : Members) :
    writerAfter reader (.object members) = .object (afterMembers reader members) := by
  cases reader with
  | none => rfl
  | some r =>
    show (applyReaderRules r (.object members)).2 = _
    rw [applyReaderRules_eq]
    cases r <;> rfl

/-- What they make of a union is a union with as many branches, each treated with the reader's
branch of its position. -/
theorem after_array (reader : Option Value) (items : List Value) :
    ∃ items', writerAfter reader (.array items) = .array items' ∧
      ∀ i, items'[i]? = (items[i]?).map (writerAfter (branchOf reader i)) := by
  have hnone : ∀ o : Option Value, o.bind Value.asArray = none →
      ∀ i, items[i]? = (items[i]?).map (writerAfter (branchOf o i)) := by
    intro o ho i
    rw [branchOf, ho]
    exact (congrFun Option.map_id _).symm
  cases reader with
  | none => exact ⟨items, rfl, hnone none rfl⟩
  | some r =>
    show ∃ items', (applyReaderRules r (.array items)).2 = .array items' ∧ _
    rw [applyReaderRules_eq]
    cases r with
    | array rs =>
      refine ⟨_, rfl, fun i => ?_⟩
      rw [getElem?_ruleItems_snd]
      rfl
    | _ => exact ⟨items, rfl, hnone _ rfl⟩

/-- Everything else they leave alone. -/
theorem after_other {v : Value} (harray : v.asArray = none) (hobject : v.asObject = none)
    (reader : Option Value) : writerAfter reader v = v := by
  cases reader with
  | none => rfl
  | some r =>
    show (applyReaderRules r v).2 = v
    rw [applyReaderRules_eq]
    cases v with
    | array items => cases harray
    | object members => cases hobject
    | _ => cases r <;> rfl

/-- A reference is left as it is, and nothing becomes one. -/
theorem after_eq_string {reader : Option Value} {v : Value} {t : String} :
    writerAfter reader v = .string t ↔ v = .string t := by
  cases v with
  | array items =>
    obtain ⟨items', hitems, -⟩ := after_array reader items
    simp [hitems]
  | object members => simp [after_object]
  | _ => rw [after_other rfl rfl]

/-- An object afterwards was an object before. -/
theorem after_eq_object {reader : Option Value} {v : Value} {members' : Members} :
    writerAfter reader v = .object members' ↔
      ∃ members, v = .object members ∧ afterMembers reader members = members' := by
  cases v with
  | array items =>
    obtain ⟨items', hitems, -⟩ := after_array reader items
    simp [hitems]
  | object members => simp [after_object]
  | _ =>
    rw [after_other rfl rfl]
    simp

section Members

variable {reader : Option Value} {members : Members}

/-- Taking a name touches the name alone. -/
theorem lookup_takenMembers {key : String} (h : key ≠ "name") :
    (takenMembers reader members).lookup key = members.lookup key := by
  unfold takenMembers
  cases reader.bind Value.asObject with
  | none => rfl
  | some readerMembers => exact lookup_takeName h

/-- The rest of the rules touches the fields alone. -/
theorem lookup_afterMembers {key : String} (h : key ≠ "fields") :
    (afterMembers reader members).lookup key = (takenMembers reader members).lookup key := by
  unfold afterMembers takenMembers
  cases reader.bind Value.asObject with
  | none => rfl
  | some readerMembers =>
    show (ruleMembers applyReaderRules readerMembers members).2.lookup key = _
    rw [ruleMembers_eq]
    exact (lookup_ruleRecords h).2

/-- So the name a schema defines is settled once its own name is taken. -/
theorem definitionName_afterMembers (ns : String) :
    definitionName ns (afterMembers reader members) =
      definitionName ns (takenMembers reader members) := by
  apply definitionName_congr
  intro key hkey
  apply lookup_afterMembers
  rintro rfl
  revert hkey
  decide

/-- The kind of a schema never changes. -/
theorem type_afterMembers : (afterMembers reader members).lookup "type" = members.lookup "type" := by
  rw [lookup_afterMembers (by decide), lookup_takenMembers (by decide)]

/-- A definition is one before and after it takes a name. -/
theorem definitionName_isSome (reader : Option Value) (members : Members) (ns ns' : String) :
    (definitionName ns' (takenMembers reader members)).isSome =
      (definitionName ns members).isSome := by
  have hname : (getStr "name" (takenMembers reader members)).isSome =
      (getStr "name" members).isSome := by
    -- A name is only ever replaced by a name.
    unfold takenMembers
    cases reader.bind Value.asObject with
    | none => rfl
    | some readerMembers =>
      show (getStr "name" (takeName readerMembers members)).isSome = _
      unfold takeName
      split
      · next name hname =>
        obtain ⟨old, _, _, hold, _⟩ := renames_eq_some hname
        rw [getStr, lookup_setMember, if_pos rfl, getStr_eq_some.mp hold, hold]
        rfl
      · rfl
  have htype : getStr "type" (takenMembers reader members) = getStr "type" members :=
    getStr_congr (lookup_takenMembers (by decide))
  rw [definitionName, definitionName, htype]
  split
  · rw [Option.isSome_map, Option.isSome_map, hname]
  · rfl

/-- Taking a name leaves the fields to the rules below. -/
theorem getArray_fields_takenMembers (reader : Option Value) (members : Members) :
    getArray "fields" (takenMembers reader members) = getArray "fields" members := by
  rw [getArray, getArray, lookup_takenMembers (by decide)]

/-- The type of a field afterwards is what the rules make of it with the type of the reader's field
of that name. -/
theorem get_ruledField (readerFields : List Value) (f : Value) :
    (ruledField applyReaderRules readerFields f).get "type" = (f.get "type").map
      (writerAfter (((fieldName f).bind fun name => named name readerFields).bind (·.get "type"))) := by
  unfold ruledField
  cases (fieldName f).bind fun name => named name readerFields with
  | none => exact (congrFun Option.map_id _).symm
  | some g =>
    show (ruleTypes applyReaderRules g f).2.get "type" = (f.get "type").map (writerAfter (g.get "type"))
    unfold ruleTypes
    split
    · next readerType writerType hg hf =>
      rw [get_setValue, hf, hg]
      rfl
    · next hnone =>
      cases hf : f.get "type" with
      | none => rfl
      | some writerType =>
        cases hg : g.get "type" with
        | none => rfl
        | some readerType => exact (hnone _ _ hg hf).elim

/-- The fields, each with the type that the reader's field of its name leaves it. -/
abbrev FieldsAfter (reader : Option Value) : Option (List Value) → Option (List Value) → Prop :=
  Option.Rel (List.Forall₂ fun f f' =>
    f'.get "type" = (f.get "type").map (writerAfter (fieldTypeOf reader f)))

/-- Where the reader has no field types, every field stays as it is. -/
theorem fieldsAfter_same (h : ∀ f, fieldTypeOf reader f = none) (o : Option (List Value)) :
    FieldsAfter reader o o := by
  refine optionRel_of_refl (fun fields => List.forall₂_same.mpr fun f _ => ?_) o
  rw [h f]
  exact (congrFun Option.map_id _).symm

/-- The fields of a record afterwards, one by one. Distinct names on both sides are needed: with a
repeated name the second field of the reader would meet the writer's first once more. -/
theorem fields_afterMembers (hreader : ∀ r, reader = some r → UniqueFields r)
    (hwriter : ∀ r, reader = some r → UniqueFields (.object members)) :
    FieldsAfter reader (getArray "fields" members)
      (getArray "fields" (afterMembers reader members)) := by
  rw [← getArray_fields_takenMembers reader]
  cases reader with
  | none => exact fieldsAfter_same (fun _ => rfl) _
  | some r =>
    cases r with
    | object readerMembers =>
      show FieldsAfter _ (getArray "fields" (takeName readerMembers members))
        (getArray "fields" (ruleMembers applyReaderRules readerMembers members).2)
      rw [ruleMembers_eq]
      -- Neither the symbols nor the name is among the fields, so these are the lists of the two
      -- documents.
      have hadopt : getArray "fields" (adoptSymbols readerMembers members) =
          getArray "fields" readerMembers := by
        rw [getArray, getArray, lookup_adoptSymbols (by decide)]
      have htake : getArray "fields" (takeName readerMembers members) =
          getArray "fields" members := by
        rw [getArray, getArray, lookup_takeName (by decide)]
      unfold ruleRecords
      split
      · next readerFields writerFields hrf hwf =>
        rw [hadopt] at hrf
        have hrs := hreader _ rfl readerMembers readerFields .refl hrf
        have hws := hwriter _ rfl members writerFields .refl (htake.symm.trans hwf)
        rw [hwf, getArray_setMember hwf, ruleFields_snd hrs hws]
        refine .some (List.forall₂_map_right_iff.mpr (List.forall₂_same.mpr fun f _ => ?_))
        have htype : fieldTypeOf (some (.object readerMembers)) f =
            ((fieldName f).bind fun name => named name readerFields).bind (·.get "type") := by
          show (((getArray "fields" readerMembers).bind _).bind _) = _
          rw [hrf]
          rfl
        rw [htype]
        exact get_ruledField readerFields f
      · next hnone =>
        cases hwf : getArray "fields" (takeName readerMembers members) with
        | none => exact .none
        | some writerFields =>
          rw [← hwf]
          apply fieldsAfter_same
          intro f
          cases hrf : getArray "fields" readerMembers with
          | none =>
            show (((getArray "fields" readerMembers).bind _).bind _) = none
            rw [hrf]
            rfl
          | some readerFields => exact (hnone _ _ (hadopt.trans hrf) hwf).elim
    | _ => exact fieldsAfter_same (fun _ => rfl) _

end Members

/-! ## The walk through the writer, before and after -/

namespace Spot

/-- The schema at the spot after the rules, in the namespace they leave around it. -/
def place (s : Spot) : String × Value := (s.nsAfter, writerAfter s.reader s.schema)

/-- Where reader and writer meet, both have distinct field names. -/
def Unique (s : Spot) : Prop := ∀ r, s.reader = some r → UniqueFields r ∧ UniqueFields s.schema

/-- The type that meets a field lies below the reader. -/
theorem fieldTypeOf_some {reader : Option Value} {f rt : Value}
    (h : fieldTypeOf reader f = some rt) : ∃ r, reader = some r ∧ Below r rt := by
  obtain ⟨g, hbound, htype⟩ := Option.bind_eq_some_iff.mp h
  obtain ⟨fields, hfields, hfound⟩ := Option.bind_eq_some_iff.mp hbound
  obtain ⟨name, -, hg⟩ := Option.bind_eq_some_iff.mp hfound
  obtain ⟨members, hmembers, hfields⟩ := Option.bind_eq_some_iff.mp hfields
  obtain ⟨r, rfl, hr⟩ := Option.bind_eq_some_iff.mp hmembers
  refine ⟨r, rfl, ?_⟩
  cases r with
  | object m =>
    obtain rfl := Option.some.inj hr
    exact .field hfields (List.mem_of_find?_eq_some hg) htype
  | _ => cases hr

/-- So does the branch that meets a branch. -/
theorem branchOf_some {reader : Option Value} {i : ℕ} {rv : Value}
    (h : branchOf reader i = some rv) : ∃ r, reader = some r ∧ Below r rv := by
  obtain ⟨items, hitems, hi⟩ := Option.bind_eq_some_iff.mp h
  obtain ⟨r, rfl, hr⟩ := Option.bind_eq_some_iff.mp hitems
  refine ⟨r, rfl, ?_⟩
  rw [asArray_eq_some] at hr
  subst hr
  exact .branch (List.mem_of_getElem? hi)

/-- A step of the walk keeps the names distinct. -/
theorem Unique.child {s s' : Spot} (h : s.Unique) (hc : Child s s') : s'.Unique := by
  intro r hr
  cases hc with
  | branch hi =>
    obtain ⟨r', hr', hbelow⟩ := branchOf_some hr
    obtain ⟨hreader, hwriter⟩ := h r' hr'
    exact ⟨hreader.below hbelow, hwriter.below (.branch (List.mem_of_getElem? hi))⟩
  | field _ _ _ hfields hf ht =>
    obtain ⟨r', hr', hbelow⟩ := fieldTypeOf_some hr
    obtain ⟨hreader, hwriter⟩ := h r' hr'
    exact ⟨hreader.below hbelow, hwriter.below (.field hfields hf ht)⟩
  | element _ _ => cases hr
  | type _ _ => cases hr

/-- At such a place the fields are as `fields_afterMembers` says. -/
theorem Unique.fields {reader : Option Value} {ns ns' : String} {members : Members}
    (h : Unique ⟨reader, ns, ns', .object members⟩) :
    FieldsAfter reader (getArray "fields" members)
      (getArray "fields" (afterMembers reader members)) :=
  fields_afterMembers (fun r hr => (h r hr).1) fun r hr => (h r hr).2

/-- A step inside the writer can be made after the rules, to what has become of its target. The
rules move nothing: a branch keeps its index, a field its place, and `type`, `items` and `values`
their members. -/
theorem Child.place {s s' : Spot} (h : s.Unique) (hc : Child s s') :
    Format.Avro.Child s.place s'.place := by
  cases hc with
  | @branch reader ns ns' items i v hi =>
    obtain ⟨items', hitems, hget⟩ := after_array reader items
    show Format.Avro.Child (ns', writerAfter reader (.array items)) _
    rw [hitems]
    refine .branch (List.mem_of_getElem? (i := i) ?_)
    rw [hget, hi]
    rfl
  | @field reader ns ns' full full' members fields f t htype hname hname' hfields hf ht =>
    show Format.Avro.Child (ns', writerAfter reader (.object members)) _
    rw [after_object]
    obtain ⟨fields', hfields', hall⟩ := optionRel_left h.fields hfields
    obtain ⟨f', hf', htypes⟩ := forall₂_mem_left hall hf
    refine .field ?_ ((definitionName_afterMembers ns').trans hname') hfields' hf' ?_
    · exact (getStr_congr type_afterMembers).trans htype
    · rw [htypes, ht]
      rfl
  | @element reader ns ns' key members v hkey hv =>
    show Format.Avro.Child (ns', writerAfter reader (.object members)) (ns', v)
    rw [after_object]
    refine .element ((elementKey_congr type_afterMembers).trans hkey) ?_
    rw [← hv]
    -- `items` and `values` are members the rules never assign to.
    rcases elementKey_cases hkey with rfl | rfl <;>
      rw [lookup_afterMembers (by decide), lookup_takenMembers (by decide)]
  | @type reader ns ns' members t ht hother =>
    show Format.Avro.Child (ns', writerAfter reader (.object members)) (ns', t)
    rw [after_object]
    exact .type (type_afterMembers.trans ht) hother

/-- Every step after the rules comes from a step inside the writer. The rules keep the kind of each
schema and the number of its parts, so that what is found behind them was there before. -/
theorem exists_child {s : Spot} (h : s.Unique) {q : String × Value}
    (hc : Format.Avro.Child s.place q) : ∃ s', Child s s' ∧ s'.place = q := by
  obtain ⟨reader, ns, ns', v⟩ := s
  cases v with
  | array items =>
    obtain ⟨items', hitems, hget⟩ := after_array reader items
    rw [place, hitems] at hc
    cases hc with
    | branch hmem =>
      obtain ⟨i, hi⟩ := List.mem_iff_getElem?.mp hmem
      rw [hget, Option.map_eq_some_iff] at hi
      obtain ⟨v, hv, rfl⟩ := hi
      exact ⟨_, .branch hv, rfl⟩
  | object members =>
    rw [place, after_object] at hc
    cases hc with
    | field htype hname hfields hf ht =>
      rw [definitionName_afterMembers] at hname
      have hsome := definitionName_isSome reader members ns ns'
      rw [hname] at hsome
      obtain ⟨full, hfull⟩ := Option.isSome_iff_exists.mp hsome.symm
      -- The fields correspond one to one, so the step can be taken back.
      obtain ⟨fields, hfields', hall⟩ :=
        optionRel_left (optionRel_flip (fun _ _ hall => hall.flip) h.fields) hfields
      obtain ⟨f, hf', htypes⟩ := forall₂_mem_left hall hf
      obtain ⟨t, ht', rfl⟩ := Option.map_eq_some_iff.mp (htypes.symm.trans ht)
      have hrecord := (getStr_congr type_afterMembers).symm.trans htype
      exact ⟨_, .field hrecord hfull hname hfields' hf' ht', rfl⟩
    | element hkey hv =>
      rw [elementKey_congr type_afterMembers] at hkey
      refine ⟨⟨none, ns, ns', _⟩, .element hkey ?_, rfl⟩
      rw [← hv]
      rcases elementKey_cases hkey with rfl | rfl <;>
        rw [lookup_afterMembers (by decide), lookup_takenMembers (by decide)]
    | type ht hother =>
      exact ⟨⟨none, ns, ns', _⟩, .type (type_afterMembers.symm.trans ht) hother, rfl⟩
  | _ =>
    rw [place, after_other rfl rfl] at hc
    cases hc

end Spot

/-! ## What the names denote -/

variable {r w : Value}

/-- Every place reached from two documents with distinct field names has them. -/
theorem reached_unique (hr : UniqueFields r) (hw : UniqueFields w) {s : Spot}
    (h : Reached r w s) : s.Unique := by
  induction h with
  | refl =>
    intro r' hr'
    obtain rfl := Option.some.inj hr'
    exact ⟨hr, hw⟩
  | tail _ hc ih => exact ih.child hc

/-- The walk through the rewritten writer goes through the places of the spots. -/
theorem walk_after_iff (hr : UniqueFields r) (hw : UniqueFields w) {q : String × Value} :
    ReflTransGen Child ("", (applyReaderRules r w).2) q ↔ ∃ s, Reached r w s ∧ s.place = q := by
  constructor
  · intro h
    induction h with
    | refl => exact ⟨_, .refl, rfl⟩
    | tail _ hc ih =>
      obtain ⟨s, hs, rfl⟩ := ih
      obtain ⟨s', hs', hq⟩ := Spot.exists_child (reached_unique hr hw hs) hc
      exact ⟨s', hs.tail hs', hq⟩
  · rintro ⟨s, hs, rfl⟩
    induction hs with
    | refl => exact .refl
    | tail hs hc ih => exact ih.tail (hc.place (reached_unique hr hw hs))

/-- The walk through the writer itself goes through the spots. -/
theorem walk_iff {q : String × Value} :
    ReflTransGen Child ("", w) q ↔ ∃ s, Reached r w s ∧ (s.nsBefore, s.schema) = q := by
  constructor
  · intro h
    induction h with
    | refl => exact ⟨_, .refl, rfl⟩
    | tail _ hc ih =>
      obtain ⟨⟨reader, ns, ns', v⟩, hs, rfl⟩ := ih
      cases hc with
      | branch hmem =>
        obtain ⟨i, hi⟩ := List.mem_iff_getElem?.mp hmem
        exact ⟨_, hs.tail (.branch hi), rfl⟩
      | @field _ full members fields f t htype hname hfields hf ht =>
        -- A definition before the rules is one after them, perhaps under another name.
        have hsome := definitionName_isSome reader members ns ns'
        rw [hname] at hsome
        obtain ⟨full', hfull'⟩ := Option.isSome_iff_exists.mp hsome
        exact ⟨_, hs.tail (.field htype hname hfull' hfields hf ht), rfl⟩
      | element hkey hv => exact ⟨_, hs.tail (.element hkey hv), rfl⟩
      | type ht hother => exact ⟨_, hs.tail (.type ht hother), rfl⟩
  · rintro ⟨s, hs, rfl⟩
    induction hs with
    | refl => exact .refl
    | tail _ hc ih =>
      apply ih.tail
      cases hc with
      | branch hi => exact .branch (List.mem_of_getElem? hi)
      | field htype hname _ hfields hf ht => exact .field htype hname hfields hf ht
      | element hkey hv => exact .element hkey hv
      | type ht hother => exact .type ht hother

/-- The references of the writer, as places of the walk. -/
theorem refers_iff {name : String} :
    Refers "" w name ↔ ∃ s after, Reached r w s ∧ s.Names name after := by
  constructor
  · rintro ⟨ns, t, hwalk, ht, hname⟩
    obtain ⟨s, hs, hq⟩ := (walk_iff (r := r)).mp hwalk
    obtain ⟨rfl, hschema⟩ := Prod.mk.inj hq
    exact ⟨s, _, hs, t, hschema, ht, hname, rfl⟩
  · rintro ⟨s, _, hs, t, hschema, ht, hname, -⟩
    exact ⟨s.nsBefore, t, walk_iff.mpr ⟨s, hs, by rw [hschema]⟩, ht, hname⟩

/-- Its definitions, as places of the walk. -/
theorem defines_iff {name : String} :
    Defines "" w name ↔ ∃ d after, Reached r w d ∧ d.Defines name after := by
  constructor
  · rintro ⟨ns, members, hwalk, hname⟩
    obtain ⟨d, hd, hq⟩ := (walk_iff (r := r)).mp hwalk
    obtain ⟨rfl, hschema⟩ := Prod.mk.inj hq
    have hsome := definitionName_isSome d.reader members d.nsBefore d.nsAfter
    rw [hname] at hsome
    obtain ⟨after, hafter⟩ := Option.isSome_iff_exists.mp hsome
    exact ⟨d, after, hd, members, hschema, hname, hafter⟩
  · rintro ⟨d, _, hd, members, hschema, hname, -⟩
    exact ⟨d.nsBefore, members, walk_iff.mpr ⟨d, hd, by rw [hschema]⟩, hname⟩

/-- The references after the rules are those of the same places. -/
theorem refers_after_iff (hr : UniqueFields r) (hw : UniqueFields w) {name : String} :
    Refers "" (applyReaderRules r w).2 name ↔
      ∃ s before, Reached r w s ∧ s.Names before name := by
  constructor
  · rintro ⟨ns, t, hwalk, ht, hname⟩
    obtain ⟨s, hs, hq⟩ := (walk_after_iff hr hw).mp hwalk
    obtain ⟨rfl, hschema⟩ := Prod.mk.inj hq
    exact ⟨s, _, hs, t, after_eq_string.mp hschema, ht, rfl, hname⟩
  · rintro ⟨s, _, hs, t, hschema, ht, -, hname⟩
    refine ⟨s.nsAfter, t, (walk_after_iff hr hw).mpr ⟨s, hs, ?_⟩, ht, hname⟩
    rw [Spot.place, after_eq_string.mpr hschema]

/-- So are the definitions, so that the question whether a name still resolves is one about pairs of
places. -/
theorem defines_after_iff (hr : UniqueFields r) (hw : UniqueFields w) {name : String} :
    Defines "" (applyReaderRules r w).2 name ↔
      ∃ d before, Reached r w d ∧ d.Defines before name := by
  constructor
  · rintro ⟨ns, members, hwalk, hname⟩
    obtain ⟨d, hd, hq⟩ := (walk_after_iff hr hw).mp hwalk
    obtain ⟨rfl, hschema⟩ := Prod.mk.inj hq
    obtain ⟨members', hmembers, rfl⟩ := after_eq_object.mp hschema
    rw [definitionName_afterMembers] at hname
    have hsome := definitionName_isSome d.reader members' d.nsBefore d.nsAfter
    rw [hname] at hsome
    obtain ⟨before, hbefore⟩ := Option.isSome_iff_exists.mp hsome.symm
    exact ⟨d, before, hd, members', hmembers, hbefore, hname⟩
  · rintro ⟨d, _, hd, members, hschema, -, hname⟩
    refine ⟨d.nsAfter, afterMembers d.reader members, (walk_after_iff hr hw).mpr ⟨d, hd, ?_⟩,
      (definitionName_afterMembers _).trans hname⟩
    rw [Spot.place, hschema, after_object]

/-- Names still denote definitions after the rules: those of the reader always do, and those of
the writer exactly if every reference finds a definition under the name it is left with. -/
theorem names_resolve_iff (hr : UniqueFields r) (hw : UniqueFields w) (hreader : NamesResolve r)
    (hwriter : NamesResolve w) :
    NamesResolve (applyReaderRules r w).1 ∧ NamesResolve (applyReaderRules r w).2 ↔
      NamesFollow r w := by
  rw [and_iff_right (reader_names_resolve w hreader)]
  constructor
  · intro h s d hs _ name after after' hnames _
    obtain ⟨d', before, hd', hdefines⟩ := (defines_after_iff hr hw).mp
      (h after ((refers_after_iff hr hw).mpr ⟨s, name, hs, hnames⟩))
    exact ⟨d', before, hd', hdefines⟩
  · intro h after hrefers
    obtain ⟨s, before, hs, hnames⟩ := (refers_after_iff hr hw).mp hrefers
    -- The definition that the reference denotes as it is written.
    obtain ⟨d, after', hd, hdefines⟩ :=
      (defines_iff (r := r)).mp (hwriter before (refers_iff.mpr ⟨s, after, hs, hnames⟩))
    rw [defines_after_iff hr hw]
    exact h s d hs hd before after after' hnames hdefines

/-! ### Where namespaces stay -/

/-- A definition that takes a name stays in its namespace. -/
def KeepsNamespaces (r w : Value) : Prop :=
  ∀ d, Reached r w d → ∀ before after, d.Defines before after →
    namespaceOf after = namespaceOf before

/-- Where no rename changes a namespace, every place keeps its own. -/
theorem ns_of_keeps (h : KeepsNamespaces r w) {s : Spot} (hs : Reached r w s) :
    s.nsAfter = s.nsBefore := by
  induction hs with
  | refl => rfl
  | tail hs hc ih =>
    cases hc with
    | branch _ => exact ih
    | field _ hname hname' _ _ _ => exact h _ hs _ _ ⟨_, rfl, hname, hname'⟩
    | element _ _ => exact ih
    | type _ _ => exact ih

/-- Then only the definitions that take another name matter, and of them those that the writer
refers to. -/
theorem names_follow_iff_of_keeps (h : KeepsNamespaces r w) :
    NamesFollow r w ↔ ∀ d, Reached r w d → ∀ before after, d.Defines before after →
      after ≠ before → Refers "" w before →
        ∃ d' before', Reached r w d' ∧ d'.Defines before' before := by
  have hnames : ∀ {s name after}, Reached r w s → s.Names name after → after = name := by
    rintro s name after hs ⟨t, -, -, rfl, rfl⟩
    rw [ns_of_keeps h hs]
  constructor
  · intro hfollow d hd before after hdefines hne hrefers
    obtain ⟨s, after', hs, hname⟩ := (refers_iff (r := r)).mp hrefers
    obtain rfl := hnames hs hname
    exact hfollow s d hs hd _ _ after hname hdefines
  · intro hother s d hs hd name after after' hname hdefines
    obtain rfl := hnames hs hname
    by_cases heq : after' = after
    · exact ⟨d, after, hd, heq ▸ hdefines⟩
    · exact hother d hd after after' hdefines heq (refers_iff.mpr ⟨s, after, hs, hname⟩)

/-- A definition that is referred to nowhere may take another name. -/
theorem names_follow_of_unreferred (h : KeepsNamespaces r w)
    (hunref : ∀ d, Reached r w d → ∀ before after, d.Defines before after → after ≠ before →
      ¬ Refers "" w before) : NamesFollow r w :=
  (names_follow_iff_of_keeps h).mpr fun d hd before after hdefines hne hrefers =>
    (hunref d hd before after hdefines hne hrefers).elim

/-! ### A record that refers to itself -/

/-- `{…,"fields":[{"name":"next","type":["null","…"]}],"name":"…","type":"record"}`. -/
def linkedRecord (rest : Members) (name next : String) : Value :=
  .object (rest ++ [
    ("fields", .array [.object [("name", .string "next"),
      ("type", .array [.string "null", .string next])]]),
    ("name", .string name), ("type", .string "record")])

/-- The reader, with an alias for the name that the writer uses. -/
def linkedReader : Value := linkedRecord [("aliases", .array [.string "Old"])] "New" "New"

def linkedWriter : Value := linkedRecord [] "Old" "Old"

/-- The schemas inside such a record. -/
theorem walk_record {members : Members} {f : Value} {name next : String}
    (htype : members.lookup "type" = some (.string "record"))
    (hname : definitionName "" members = some name) (hns : namespaceOf name = "")
    (hfields : getArray "fields" members = some [f])
    (hf : f.get "type" = some (.array [.string "null", .string next])) {q : String × Value} :
    ReflTransGen Child ("", .object members) q ↔ q.1 = "" ∧
      (q.2 = .object members ∨ q.2 = .array [.string "null", .string next] ∨
        q.2 = .string "null" ∨ q.2 = .string next) := by
  have hrecord : getStr "type" members = some "record" := getStr_eq_some.mpr htype
  have hfield : Child ("", .object members) ("", .array [.string "null", .string next]) := by
    have hchild : Child ("", .object members)
        (namespaceOf name, .array [.string "null", .string next]) :=
      .field hrecord hname hfields List.mem_cons_self hf
    rwa [hns] at hchild
  constructor
  · intro h
    induction h with
    | refl => exact ⟨rfl, .inl rfl⟩
    | @tail p q _ hc ih =>
      obtain ⟨ns, v⟩ := p
      obtain ⟨rfl, rfl | rfl | rfl | rfl⟩ := ih
      -- From the record the walk gets to the type of its only field,
      · cases hc with
        | field _ hname' hfields' hf' ht =>
          obtain rfl := Option.some.inj (hname.symm.trans hname')
          obtain rfl := Option.some.inj (hfields.symm.trans hfields')
          obtain rfl := List.mem_singleton.mp hf'
          exact ⟨hns, .inr (.inl (Option.some.inj (ht.symm.trans hf)))⟩
        | element hkey _ =>
          rw [elementKey, hrecord] at hkey
          simp at hkey
        | type ht hother =>
          obtain rfl := Option.some.inj (htype.symm.trans ht)
          exact (hother "record" rfl (by decide)).elim
      -- and from there to the two branches, which end it.
      · cases hc with
        | branch hmem =>
          rcases List.mem_pair.mp hmem with rfl | rfl
          · exact ⟨rfl, .inr (.inr (.inl rfl))⟩
          · exact ⟨rfl, .inr (.inr (.inr rfl))⟩
      · cases hc
      · cases hc
  · obtain ⟨ns, v⟩ := q
    rintro ⟨rfl, rfl | rfl | rfl | rfl⟩
    · exact .refl
    · exact .single hfield
    · exact (ReflTransGen.single hfield).tail (.branch (by simp))
    · exact (ReflTransGen.single hfield).tail (.branch (by simp))

/-- Its one reference is to `next`, and its one definition that of `name`. -/
theorem names_resolve_record {members : Members} {f : Value} {name next : String}
    (htype : members.lookup "type" = some (.string "record"))
    (hname : definitionName "" members = some name) (hns : namespaceOf name = "")
    (hfields : getArray "fields" members = some [f])
    (hf : f.get "type" = some (.array [.string "null", .string next]))
    (hnext : next ∉ primitiveTypes) : NamesResolve (.object members) ↔ next = name := by
  have hwalk {q : String × Value} := walk_record htype hname hns hfields hf (q := q)
  have hplain : ∀ t, qualify "" t = t := fun t => if_pos (.inr rfl)
  constructor
  · intro h
    obtain ⟨ns, members', hmembers, hdefined⟩ :=
      h next ⟨"", next, hwalk.mpr ⟨rfl, .inr (.inr (.inr rfl))⟩, hnext, hplain next⟩
    obtain ⟨rfl, heq⟩ := hwalk.mp hmembers
    simp only [reduceCtorEq, or_false, Value.object.injEq] at heq
    rw [heq, hname] at hdefined
    exact (Option.some.inj hdefined).symm
  · rintro rfl name' ⟨ns, t, ht, hprimitive, rfl⟩
    obtain ⟨rfl, heq⟩ := hwalk.mp ht
    simp only [reduceCtorEq, false_or, Value.string.injEq] at heq
    rcases heq with rfl | rfl
    · exact (hprimitive (by decide)).elim
    · rw [hplain]
      exact ⟨"", members, hwalk.mpr ⟨rfl, .inl rfl⟩, hname⟩

/-- It has one field, and no record inside. -/
theorem unique_record {members : Members} {f : Value} {next : String}
    (hfields : getArray "fields" members = some [f])
    (hf : f.get "type" = some (.array [.string "null", .string next])) :
    UniqueFields (.object members) := by
  have hbelow : ∀ v, ReflTransGen Below (.array [.string "null", .string next]) v →
      v.asObject = none := by
    intro v hv
    rcases ReflTransGen.cases_head hv with rfl | ⟨u, hu, hv⟩
    · rfl
    cases hu with
    | branch hmem =>
      -- Nothing is below a string.
      rcases List.mem_pair.mp hmem with rfl | rfl <;>
        rcases ReflTransGen.cases_head hv with rfl | ⟨_, hu, _⟩
      · rfl
      · cases hu
      · rfl
      · cases hu
  intro members' fields hm hfields'
  rcases ReflTransGen.cases_head hm with heq | ⟨v, hv, hm⟩
  · obtain rfl := Value.object.inj heq
    obtain rfl := Option.some.inj (hfields.symm.trans hfields')
    cases h : fieldName f <;> simp [h]
  · cases hv with
    | field hfields'' hf' ht =>
      obtain rfl := Option.some.inj (hfields.symm.trans hfields'')
      obtain rfl := List.mem_singleton.mp hf'
      obtain rfl := Option.some.inj (hf.symm.trans ht)
      cases hbelow _ hm

/-- The reader of the failing pair is well formed. -/
theorem linkedReader_resolves : NamesResolve linkedReader :=
  (names_resolve_record rfl rfl rfl rfl rfl (show "New" ∉ primitiveTypes by decide)).mpr rfl

/-- So is its writer. -/
theorem linkedWriter_resolves : NamesResolve linkedWriter :=
  (names_resolve_record rfl rfl rfl rfl rfl (show "Old" ∉ primitiveTypes by decide)).mpr rfl

/-- The rules rename the record, while the reference inside it keeps the old name. -/
theorem linked_rules :
    applyReaderRules linkedReader linkedWriter = (linkedReader, linkedRecord [] "New" "Old") := by
  decide +kernel

/-- So the name inside refers to nothing. -/
theorem linkedRecord_dangles : ¬ NamesResolve (linkedRecord [] "New" "Old") :=
  mt (names_resolve_record rfl rfl rfl rfl rfl (show "Old" ∉ primitiveTypes by decide)).mp
    (by decide)

/-- The record takes the reader's name, and its field still refers to the old one. -/
theorem recursive_writer_dangles :
    NamesResolve linkedReader ∧ NamesResolve linkedWriter ∧
      ¬ (NamesResolve (applyReaderRules linkedReader linkedWriter).1 ∧
        NamesResolve (applyReaderRules linkedReader linkedWriter).2) := by
  refine ⟨linkedReader_resolves, linkedWriter_resolves, ?_⟩
  rw [linked_rules]
  exact fun h => linkedRecord_dangles h.2

theorem names_resolve_iff_linked : ¬ NamesFollow linkedReader linkedWriter := by
  have hreader : UniqueFields linkedReader := unique_record rfl rfl
  have hwriter : UniqueFields linkedWriter := unique_record rfl rfl
  have hiff := names_resolve_iff hreader hwriter linkedReader_resolves linkedWriter_resolves
  rw [linked_rules] at hiff
  exact fun h => linkedRecord_dangles (hiff.mpr h).2

end KrabkaRegistry.Guarantees
