import KrabkaRegistry.Format.Avro
import Mathlib.Data.Set.Finite.Lattice
import Mathlib.Data.Set.Finite.List

/-!
# How Deep the Avro Rules Reach

Before two Avro schemas are compared, aliases and enum defaults of the reader are applied to the
writer.

- `rules_reach_iff`: they are applied to the schemas in a hole as they are applied to the
  schemas alone exactly where the walk gets to the hole: through the types of fields, and
  through unions in which the hole has one position and the other branches have nothing to
  apply.
- `array_items_unreached`: they are not applied to the items of an array.
-/

namespace KrabkaRegistry.Guarantees

open KrabkaRegistry.Format.Avro
open KrabkaRegistry.Format.Json (Value)

/-! ## Contexts -/

/-- An array or a map around its items or values. -/
structure NestedFrame where
  key : String
  before : Members
  after : Members
  key_nested : key = "items" ∨ key = "values"
  no_fields : "fields" ∉ (before ++ after).map (·.1)

def NestedFrame.plug (F : NestedFrame) (v : Value) : Value :=
  .object (F.before ++ (F.key, v) :: F.after)

/-- A record around the type of one of its fields. -/
structure FieldFrame where
  before : Members
  after : Members
  fieldsBefore : List Value
  fieldsAfter : List Value
  typeBefore : Members
  typeAfter : Members
  name : String
  before_fields : "fields" ∉ before.map (·.1)
  before_type : "type" ∉ typeBefore.map (·.1)
  /-- The field has the name. -/
  field_name : getStr "name" (typeBefore ++ typeAfter) = some name
  names_nodup : (name :: (fieldsBefore ++ fieldsAfter).filterMap fieldName).Nodup
  unique : ∀ f ∈ fieldsBefore ++ fieldsAfter, ∀ t, f.get "type" = some t → UniqueFields t

def FieldFrame.plugField (F : FieldFrame) (v : Value) : Value :=
  .object (F.typeBefore ++ ("type", v) :: F.typeAfter)

def FieldFrame.plug (F : FieldFrame) (v : Value) : Value :=
  .object (F.before ++
    ("fields", .array (F.fieldsBefore ++ F.plugField v :: F.fieldsAfter)) :: F.after)

/-- A union around one of its branches.  Reader and writer have the same other branches, in any
order. -/
structure UnionFrame where
  readerBefore : List Value
  readerAfter : List Value
  writerBefore : List Value
  writerAfter : List Value
  perm : (readerBefore ++ readerAfter).Perm (writerBefore ++ writerAfter)
  unique : ∀ v ∈ readerBefore ++ readerAfter, UniqueFields v

def UnionFrame.reader (F : UnionFrame) (v : Value) : Value :=
  .array (F.readerBefore ++ v :: F.readerAfter)

def UnionFrame.writer (F : UnionFrame) (v : Value) : Value :=
  .array (F.writerBefore ++ v :: F.writerAfter)

/-- The hole has the same position on both sides. -/
def UnionFrame.Aligned (F : UnionFrame) : Prop :=
  F.readerBefore.length = F.writerBefore.length

/-- The branches that meet beside an aligned hole have nothing to apply. -/
def UnionFrame.OthersInert (F : UnionFrame) : Prop :=
  ∀ p ∈ F.readerBefore.zip F.writerBefore ++ F.readerAfter.zip F.writerAfter, Inert p.1 p.2

/-- A schema with a hole, the same for reader and writer up to the order in unions. -/
inductive Context where
  | hole
  | nested (F : NestedFrame) (inner : Context)
  | field (F : FieldFrame) (inner : Context)
  | union (F : UnionFrame) (inner : Context)

namespace Context

/-- The reader's schema, with `v` in the hole. -/
def reader : Context → Value → Value
  | hole, v => v
  | nested F inner, v => F.plug (inner.reader v)
  | field F inner, v => F.plug (inner.reader v)
  | union F inner, v => F.reader (inner.reader v)

/-- The writer's schema, with `v` in the hole. -/
def writer : Context → Value → Value
  | hole, v => v
  | nested F inner, v => F.plug (inner.writer v)
  | field F inner, v => F.plug (inner.writer v)
  | union F inner, v => F.writer (inner.writer v)

/-- The rules have the same effect in the hole as alone, and none around it. -/
def Commutes (C : Context) (r w : Value) : Prop :=
  applyReaderRules (C.reader r) (C.writer w) =
    (C.reader (applyReaderRules r w).1, C.writer (applyReaderRules r w).2)

/-- The walk gets to the hole and finds nothing to do on the way. -/
def Transparent : Context → Prop
  | hole => True
  | nested _ _ => False
  | field _ inner => inner.Transparent
  | union F inner => F.Aligned ∧ F.OthersInert ∧ inner.Transparent

/-- The hole has the same position in all unions that the walk gets to. -/
def Aligned : Context → Prop
  | hole => True
  | nested _ _ => True
  | field _ inner => inner.Aligned
  | union F inner => F.Aligned ∧ inner.Aligned

/-- Either the walk gets to the hole, or there is nothing to do in it; and nothing else is done
on the way. -/
def Reaches (r w : Value) : Context → Prop
  | hole => True
  | nested _ _ => Inert r w
  | field _ inner => inner.Reaches r w
  | union F inner =>
    (F.Aligned → F.OthersInert ∧ inner.Reaches r w) ∧
      (¬ F.Aligned → Inert r w ∧ Inert (F.reader (inner.reader r)) (F.writer (inner.writer w)))

end Context

/-! ## Through an array or a map -/

/-- The keys beside the hole do not see it. -/
theorem lookup_plug_ne {key other : String} (h : other ≠ key) (before after : Members) (v : Value) :
    (before ++ (key, v) :: after).lookup other = (before ++ after).lookup other := by
  rw [List.lookup_append, List.lookup_append, List.lookup_cons, beq_false_of_ne h]

/-- A key that is not there has no value. -/
theorem lookup_none_of_key {key : String} {members : Members} (h : key ∉ members.map (·.1)) :
    members.lookup key = none := by
  rw [List.lookup_eq_none_iff]
  intro m hm
  exact bne_iff_ne.mpr fun heq => h (List.mem_map.mpr ⟨m, hm, heq.symm⟩)

/-- Two frames that differ in one member only are no reason to act. -/
theorem not_acts_plug {key : String} (hname : "name" ≠ key) (hsymbols : "symbols" ≠ key)
    (before after : Members) (a b : Value) :
    renames (before ++ (key, a) :: after) (before ++ (key, b) :: after) = none ∧
      ¬ Adopts (before ++ (key, a) :: after) (before ++ (key, b) :: after) :=
  ⟨renames_same (by rw [lookup_plug_ne hname, lookup_plug_ne hname]),
    not_adopts_same (by rw [lookup_plug_ne hsymbols, lookup_plug_ne hsymbols])⟩

/-- The walk stops at an array or a map. -/
theorem rules_nested (F : NestedFrame) (a b : Value) :
    applyReaderRules (F.plug a) (F.plug b) = (F.plug a, F.plug b) := by
  have hkey : "name" ≠ F.key ∧ "symbols" ≠ F.key ∧ "fields" ≠ F.key := by
    rcases F.key_nested with h | h <;> rw [h] <;> decide
  obtain ⟨hname, hsymbols, hfields⟩ := hkey
  obtain ⟨hrenames, hadopts⟩ := not_acts_plug hname hsymbols F.before F.after a b
  have hnone : getArray "fields" (F.before ++ (F.key, a) :: F.after) = none := by
    rw [getArray, lookup_plug_ne hfields, lookup_none_of_key F.no_fields]
    rfl
  rw [applyReaderRules_eq, NestedFrame.plug, NestedFrame.plug, ruleLevel, ruleMembers_eq,
    takeName_of_none hrenames, adoptSymbols_of_not hadopts]
  simp only [ruleRecords, hnone]

/-- What was plugged into a frame can be read back. -/
theorem NestedFrame.plug_inj {F : NestedFrame} {v v' : Value} (h : F.plug v = F.plug v') :
    v = v' := by
  have hlist := List.append_cancel_left (Value.object.inj h)
  exact congrArg Prod.snd (List.cons.inj hlist).1

/-! ## Through a field -/

section Fields

variable {rules : Value → Value → Value × Value}

/-- A list of fields is walked in two parts, the second on the writer that the first left. -/
theorem ruleFields_append (rs rs' ws : List Value) :
    ruleFields rules (rs ++ rs') ws =
      ((ruleFields rules rs ws).1 ++ (ruleFields rules rs' (ruleFields rules rs ws).2).1,
        (ruleFields rules rs' (ruleFields rules rs ws).2).2) := by
  induction rs generalizing ws with
  | nil => rfl
  | cons r rs ih =>
    cases hname : fieldName r with
    | none =>
      rw [List.cons_append, ruleFields_nameless hname, ruleFields_nameless hname, ih]
      rfl
    | some name =>
      rw [List.cons_append, ruleFields_named hname, ruleFields_named hname, ih]
      rfl

/-- Fields that meet themselves stay as they are. -/
theorem ruleFields_self {rs ws : List Value}
    (h : ∀ r ∈ rs, ∀ name, fieldName r = some name →
      named name ws = some r ∧ ruleTypes rules r r = (r, r)) :
    ruleFields rules rs ws = (rs, ws) := by
  induction rs with
  | nil => rfl
  | cons r rs ih =>
    obtain ⟨hr, h⟩ := List.forall_mem_cons.mp h
    cases hname : fieldName r with
    | none => rw [ruleFields_nameless hname, ih h]
    | some name =>
      obtain ⟨hfound, htypes⟩ := hr name hname
      obtain ⟨hr', before, after, rfl, hbefore⟩ := named_eq_some.mp hfound
      rw [ruleFields_named hname, ruleField_split hbefore hr', htypes, ih h]

end Fields

namespace FieldFrame

variable (F : FieldFrame)

/-- The field around the hole has the frame's name. -/
theorem fieldName_plugField (v : Value) : fieldName (F.plugField v) = some F.name := by
  show getStr "name" (F.typeBefore ++ ("type", v) :: F.typeAfter) = some F.name
  rw [getStr, lookup_plug_ne (by decide), ← getStr, F.field_name]

/-- And its type is what was plugged in. -/
theorem get_plugField (v : Value) : (F.plugField v).get "type" = some v := by
  show (F.typeBefore ++ ("type", v) :: F.typeAfter).lookup "type" = some v
  rw [List.lookup_append, lookup_none_of_key F.before_type]
  simp

/-- Assigning the member around the hole replaces what is in it, as the key stands nowhere before.
-/
theorem setMember_plug {key : String} {before after : Members} (h : key ∉ before.map (·.1))
    (v v' : Value) :
    setMember key v' (before ++ (key, v) :: after) = before ++ (key, v') :: after := by
  induction before with
  | nil => simp [setMember]
  | cons m before ih =>
    obtain ⟨k, x⟩ := m
    rw [List.map_cons, List.mem_cons, not_or] at h
    rw [List.cons_append, setMember, if_neg (Ne.symm h.1), ih h.2]
    rfl

/-- The same for the field around the hole. -/
theorem setValue_plugField (v v' : Value) :
    setValue "type" v' (F.plugField v) = F.plugField v' := by
  rw [plugField, plugField, setValue, setMember_plug F.before_type]

/-- The names of the fields do not depend on what is in the hole. -/
theorem names_plug (v : Value) :
    ((F.fieldsBefore ++ F.plugField v :: F.fieldsAfter).filterMap fieldName).Nodup := by
  rw [List.filterMap_append, List.filterMap_cons_some (F.fieldName_plugField v)]
  have hnames := F.names_nodup
  rw [List.filterMap_append] at hnames
  exact (List.perm_middle.nodup_iff).mpr hnames

/-- The fields beside the hole meet themselves. -/
theorem others_self (v : Value) {f : Value} (hf : f ∈ F.fieldsBefore ++ F.fieldsAfter)
    (name : String) (hname : fieldName f = some name) :
    named name (F.fieldsBefore ++ F.plugField v :: F.fieldsAfter) = some f ∧
      ruleTypes applyReaderRules f f = (f, f) := by
  constructor
  · refine named_of_mem (F.names_plug v) ?_ hname
    rw [List.mem_append] at hf
    rw [List.mem_append, List.mem_cons]
    tauto
  · rw [ruleTypes_eq_iff]
    intro readerType writerType hreader hwriter
    obtain rfl := Option.some.inj (hreader.symm.trans hwriter)
    have hunique := F.unique f hf readerType hreader
    exact (applyReaderRules_eq_iff hunique).mpr hunique.inert

/-- The walk over the fields changes the hole and nothing else: the frame's other fields are inert
by assumption. -/
theorem ruleFields_plug (a b : Value) :
    ruleFields applyReaderRules (F.fieldsBefore ++ F.plugField a :: F.fieldsAfter)
        (F.fieldsBefore ++ F.plugField b :: F.fieldsAfter) =
      (F.fieldsBefore ++ F.plugField (applyReaderRules a b).1 :: F.fieldsAfter,
        F.fieldsBefore ++ F.plugField (applyReaderRules a b).2 :: F.fieldsAfter) := by
  have hbefore : ruleFields applyReaderRules F.fieldsBefore
      (F.fieldsBefore ++ F.plugField b :: F.fieldsAfter) = (F.fieldsBefore, _) :=
    ruleFields_self fun f hf => F.others_self b (List.mem_append_left _ hf)
  have hafter : ruleFields applyReaderRules F.fieldsAfter
      (F.fieldsBefore ++ F.plugField (applyReaderRules a b).2 :: F.fieldsAfter) =
        (F.fieldsAfter, _) :=
    ruleFields_self fun f hf => F.others_self _ (List.mem_append_right _ hf)
  have hnot : ∀ other ∈ F.fieldsBefore, fieldName other ≠ some F.name := by
    intro other hother hname
    apply (List.nodup_cons.mp F.names_nodup).1
    exact List.mem_filterMap.mpr ⟨other, List.mem_append_left _ hother, hname⟩
  have htypes : ruleTypes applyReaderRules (F.plugField a) (F.plugField b) =
      (F.plugField (applyReaderRules a b).1, F.plugField (applyReaderRules a b).2) := by
    rw [ruleTypes_of_types (F.get_plugField a) (F.get_plugField b), F.setValue_plugField,
      F.setValue_plugField]
  rw [ruleFields_append, hbefore, ruleFields_named (F.fieldName_plugField a),
    ruleField_split hnot (F.fieldName_plugField b), htypes, hafter]

/-- The fields of a plugged frame are read back. -/
theorem getArray_plug (v : Value) :
    getArray "fields" (F.before ++
      ("fields", .array (F.fieldsBefore ++ F.plugField v :: F.fieldsAfter)) :: F.after) =
        some (F.fieldsBefore ++ F.plugField v :: F.fieldsAfter) := by
  rw [getArray, List.lookup_append, lookup_none_of_key F.before_fields]
  simp [Value.asArray]

/-- The walk goes on at the types of the field. -/
theorem rules_field (a b : Value) :
    applyReaderRules (F.plug a) (F.plug b) =
      (F.plug (applyReaderRules a b).1, F.plug (applyReaderRules a b).2) := by
  have hname : "name" ≠ "fields" := by decide
  have hsymbols : "symbols" ≠ "fields" := by decide
  obtain ⟨hrenames, hadopts⟩ := not_acts_plug hname hsymbols
    F.before F.after (.array (F.fieldsBefore ++ F.plugField a :: F.fieldsAfter))
    (.array (F.fieldsBefore ++ F.plugField b :: F.fieldsAfter))
  rw [applyReaderRules_eq, plug, plug, ruleLevel, ruleMembers_eq, takeName_of_none hrenames,
    adoptSymbols_of_not hadopts]
  simp only [ruleRecords, F.getArray_plug, F.ruleFields_plug, setMember_plug F.before_fields]
  rfl

/-- What was plugged into a field can be read back. -/
theorem plug_inj {F : FieldFrame} {v v' : Value} (h : F.plug v = F.plug v') : v = v' := by
  have hmembers := List.append_cancel_left (Value.object.inj h)
  have hfields := Value.array.inj (congrArg Prod.snd (List.cons.inj hmembers).1)
  have hfield := (List.cons.inj (List.append_cancel_left hfields)).1
  have htypes := List.append_cancel_left (Value.object.inj hfield)
  exact congrArg Prod.snd (List.cons.inj htypes).1

end FieldFrame

/-! ## Through a union -/

section Items

variable {rules : Value → Value → Value × Value}

/-- The rules keep the number of branches. -/
theorem length_ruleItems (rs ws : List Value) :
    (ruleItems rules rs ws).1.length = rs.length ∧ (ruleItems rules rs ws).2.length = ws.length := by
  induction rs generalizing ws with
  | nil => simp [ruleItems]
  | cons r rs ih =>
    cases ws with
    | nil => simp [ruleItems]
    | cons w ws => simpa [ruleItems] using ih ws

/-- Branches are paired by position, so lists that split at the same place are handled in two parts.
-/
theorem ruleItems_append {rs ws : List Value} (h : rs.length = ws.length) (rs' ws' : List Value) :
    ruleItems rules (rs ++ rs') (ws ++ ws') =
      ((ruleItems rules rs ws).1 ++ (ruleItems rules rs' ws').1,
        (ruleItems rules rs ws).2 ++ (ruleItems rules rs' ws').2) := by
  induction rs generalizing ws with
  | nil =>
    obtain rfl := List.length_eq_zero_iff.mp h.symm
    rfl
  | cons r rs ih =>
    cases ws with
    | nil => cases h
    | cons w ws => simp [ruleItems, ih (Nat.succ.inj h)]

/-- A branch of the reader meets the branch of the writer at its position. -/
theorem getElem?_ruleItems {rs ws : List Value} {i : ℕ} {r w : Value} (hr : rs[i]? = some r)
    (hw : ws[i]? = some w) : (ruleItems rules rs ws).1[i]? = some (rules r w).1 := by
  induction rs generalizing ws i with
  | nil => cases hr
  | cons r' rs ih =>
    cases ws with
    | nil => cases hw
    | cons w' ws =>
      cases i with
      | zero =>
        obtain rfl := Option.some.inj hr
        obtain rfl := Option.some.inj hw
        rfl
      | succ i => exact ih hr hw

end Items

namespace UnionFrame

variable (F : UnionFrame)

/-- Reader and writer have equally many other branches. -/
theorem length_eq : (F.readerBefore ++ F.readerAfter).length =
    (F.writerBefore ++ F.writerAfter).length := F.perm.length_eq

/-- The other branches are inert exactly when the rules leave both parts of them alone. -/
theorem others_inert_iff :
    F.OthersInert ↔
      ruleItems applyReaderRules F.readerBefore F.writerBefore =
          (F.readerBefore, F.writerBefore) ∧
        ruleItems applyReaderRules F.readerAfter F.writerAfter =
          (F.readerAfter, F.writerAfter) := by
  rw [ruleItems_eq_iff, ruleItems_eq_iff, OthersInert, List.forall_mem_append]
  have hpair : ∀ l l' : List Value, (∀ v ∈ l, v ∈ F.readerBefore ++ F.readerAfter) →
      ((∀ p ∈ l.zip l', Inert p.1 p.2) ↔
        ∀ p ∈ l.zip l', applyReaderRules p.1 p.2 = p) := by
    intro l l' hl
    apply forall₂_congr
    intro p hp
    exact (applyReaderRules_eq_iff (F.unique p.1 (hl p.1 (List.of_mem_zip hp).1))).symm
  rw [hpair _ _ fun v hv => List.mem_append_left _ hv,
    hpair _ _ fun v hv => List.mem_append_right _ hv]

/-- Where the hole has one position, the walk gets to it, and to the other pairs of branches. -/
theorem rules_aligned (h : F.Aligned) (a b a' b' : Value) :
    applyReaderRules (F.reader a) (F.writer b) = (F.reader a', F.writer b') ↔
      F.OthersInert ∧ applyReaderRules a b = (a', b') := by
  have hafter : F.readerAfter.length = F.writerAfter.length := by
    have hlength := F.length_eq
    rw [List.length_append, List.length_append, h] at hlength
    omega
  rw [applyReaderRules_eq, reader, writer, ruleLevel, ruleItems_append h, F.others_inert_iff]
  simp only [ruleItems, reader, writer, Value.array.injEq, Prod.ext_iff]
  obtain ⟨hreader, hwriter⟩ :
      (ruleItems applyReaderRules F.readerBefore F.writerBefore).1.length = _ ∧
        (ruleItems applyReaderRules F.readerBefore F.writerBefore).2.length = _ :=
    length_ruleItems F.readerBefore F.writerBefore
  -- The lists are cut at the hole, which stands at one position in both.
  constructor
  · rintro ⟨hr, hw⟩
    obtain ⟨hr1, hr2⟩ := List.append_inj hr hreader
    obtain ⟨hw1, hw2⟩ := List.append_inj hw hwriter
    obtain ⟨hr2, hr3⟩ := List.cons.inj hr2
    obtain ⟨hw2, hw3⟩ := List.cons.inj hw2
    exact ⟨⟨⟨hr1, hw1⟩, hr3, hw3⟩, hr2, hw2⟩
  · rintro ⟨⟨⟨hr1, hw1⟩, hr3, hw3⟩, hr2, hw2⟩
    rw [hr1, hw1, hr2, hw2, hr3, hw3]
    exact ⟨rfl, rfl⟩

/-- Where it has not, the reader's hole meets another branch. -/
theorem rules_shifted (h : ¬ F.Aligned) {a b a' b' : Value}
    (hrules : applyReaderRules (F.reader a) (F.writer b) = (F.reader a', F.writer b')) :
    ∃ w ∈ F.writerBefore ++ F.writerAfter, (applyReaderRules a w).1 = a' := by
  have hlt : F.readerBefore.length < (F.writerBefore ++ b :: F.writerAfter).length := by
    have hlength := F.length_eq
    simp only [List.length_append, List.length_cons] at hlength ⊢
    omega
  obtain ⟨w, hw⟩ : ∃ w, (F.writerBefore ++ b :: F.writerAfter)[F.readerBefore.length]? = some w :=
    ⟨_, List.getElem?_eq_getElem hlt⟩
  -- `w` stands in the writer where the hole stands in the reader.
  refine ⟨w, ?_, ?_⟩
  · rw [List.getElem?_append] at hw
    split at hw
    · exact List.mem_append_left _ (List.mem_of_getElem? hw)
    · next hle =>
      obtain ⟨i, hi⟩ : ∃ i, F.readerBefore.length - F.writerBefore.length = i + 1 :=
        Nat.exists_eq_succ_of_ne_zero fun hzero => h (by rw [Aligned]; omega)
      rw [hi, List.getElem?_cons_succ] at hw
      exact List.mem_append_right _ (List.mem_of_getElem? hw)
  · rw [applyReaderRules_eq, reader, writer, ruleLevel] at hrules
    have hlist := Value.array.inj (congrArg Prod.fst hrules)
    have hmet : (ruleItems applyReaderRules (F.readerBefore ++ a :: F.readerAfter)
        (F.writerBefore ++ b :: F.writerAfter)).1[F.readerBefore.length]? = _ :=
      getElem?_ruleItems (show _ = some a by simp) hw
    have hhole : (F.readerBefore ++ a' :: F.readerAfter)[F.readerBefore.length]? = some a' := by
      simp
    rw [hlist, hhole] at hmet
    exact (Option.some.inj hmet).symm

end UnionFrame

/-! ## What a hole can hold that the frames cannot -/

/-- The string does not occur in the value. -/
def Silent (s : String) (v : Value) : Prop := ¬ Value.Sub (.string s) v

section Silent

variable {s : String}

/-- A string is silent about every other string. -/
theorem silent_string {t : String} : Silent s (.string t) ↔ t ≠ s := by
  constructor
  · rintro h rfl
    exact h .refl
  · intro h hsub
    cases hsub
    exact h rfl

/-- An array is silent when its items are. -/
theorem silent_array {items : List Value} : Silent s (.array items) ↔ ∀ v ∈ items, Silent s v := by
  constructor
  · exact fun h v hv hsub => h (.item hv hsub)
  · intro h hsub
    cases hsub with
    | item hv hsub => exact h _ hv hsub

/-- An object is silent when its values are; keys do not count. -/
theorem silent_object {members : Members} :
    Silent s (.object members) ↔ ∀ m ∈ members, Silent s m.2 := by
  constructor
  · exact fun h m hm hsub => h (.member hm hsub)
  · intro h hsub
    cases hsub with
    | member hm hsub => exact h _ hm hsub

/-- What is read from a silent object is silent. -/
theorem silent_lookup {members : Members} {key : String} {v : Value}
    (h : Silent s (.object members)) (hv : members.lookup key = some v) : Silent s v :=
  silent_object.mp h _ (Value.lookup_mem hv)

/-- Assigning a silent value keeps an object silent. -/
theorem silent_setMember {members : Members} {key : String} {v : Value}
    (h : Silent s (.object members)) (hv : Silent s v) :
    Silent s (.object (setMember key v members)) := by
  rw [silent_object] at h ⊢
  induction members with
  | nil => exact h
  | cons m members ih =>
    obtain ⟨hm, h⟩ := List.forall_mem_cons.mp h
    rw [setMember]
    split
    · exact List.forall_mem_cons.mpr ⟨hv, h⟩
    · exact List.forall_mem_cons.mpr ⟨hm, ih h⟩

/-- The same for an attribute of a field. -/
theorem silent_setValue {field : Value} {key : String} {v : Value} (h : Silent s field)
    (hv : Silent s v) : Silent s (setValue key v field) := by
  cases field with
  | object members => exact silent_setMember h hv
  | _ => exact h

/-- The name taken over comes from one of the two sides. -/
theorem silent_takeName {reader writer : Members} (hr : Silent s (.object reader))
    (hw : Silent s (.object writer)) : Silent s (.object (takeName reader writer)) := by
  unfold takeName
  split
  · next name hname =>
    obtain ⟨_, _, hreader, _⟩ := renames_eq_some hname
    exact silent_setMember hw (silent_lookup hr (getStr_eq_some.mp hreader))
  · exact hw

/-- So do the symbols adopted. -/
theorem silent_adoptSymbols {reader writer : Members} (hr : Silent s (.object reader))
    (hw : Silent s (.object writer)) : Silent s (.object (adoptSymbols reader writer)) := by
  rcases @adoptSymbols_cases reader writer with ⟨hsame, _⟩ | ⟨_, _, hreader, hwriter, _, hset⟩
  · rwa [hsame]
  · rw [hset]
    apply silent_setMember hr
    have hrs := silent_array.mp (silent_lookup hr (getArray_eq_some.mp hreader))
    have hws := silent_array.mp (silent_lookup hw (getArray_eq_some.mp hwriter))
    rw [silent_array]
    intro v hv
    exact (mem_pushSymbols.mp hv).elim (hrs v) (hws v)

/-- The strings of the results are strings of the arguments. -/
def KeepsSilent (s : String) (rules : Value → Value → Value × Value) : Prop :=
  ∀ r w, Silent s r → Silent s w → Silent s (rules r w).1 ∧ Silent s (rules r w).2

section Level

variable {rules : Value → Value → Value × Value} (hrules : KeepsSilent s rules)

include hrules

/-- Rules that bring in nothing keep two fields silent. -/
theorem silent_ruleTypes {f g : Value} (hf : Silent s f) (hg : Silent s g) :
    Silent s (ruleTypes rules f g).1 ∧ Silent s (ruleTypes rules f g).2 := by
  unfold ruleTypes
  split
  · next readerType writerType hft hgt =>
    obtain ⟨hr, hw⟩ := hrules readerType writerType (fun h => hf (h.trans (Value.sub_of_get hft)))
      fun h => hg (h.trans (Value.sub_of_get hgt))
    exact ⟨silent_setValue hf hr, silent_setValue hg hw⟩
  · exact ⟨hf, hg⟩

/-- And one field against the writer's list. -/
theorem silent_ruleField {f : Value} {name : String} {ws : List Value} (hf : Silent s f)
    (hws : ∀ w ∈ ws, Silent s w) : Silent s (ruleField rules f name ws).1 ∧
      ∀ w ∈ (ruleField rules f name ws).2, Silent s w := by
  cases h : named name ws with
  | none =>
    rw [ruleField_none h]
    exact ⟨hf, hws⟩
  | some g =>
    obtain ⟨hg, before, after, rfl, hbefore⟩ := named_eq_some.mp h
    obtain ⟨hws, hafter⟩ := List.forall_mem_append.mp hws
    obtain ⟨hgs, hafter⟩ := List.forall_mem_cons.mp hafter
    obtain ⟨hr, hw⟩ := silent_ruleTypes hrules hf hgs
    rw [ruleField_split hbefore hg]
    exact ⟨hr, List.forall_mem_append.mpr ⟨hws, List.forall_mem_cons.mpr ⟨hw, hafter⟩⟩⟩

/-- And the whole list, by induction on the reader's fields. -/
theorem silent_ruleFields {rs ws : List Value} (hrs : ∀ r ∈ rs, Silent s r)
    (hws : ∀ w ∈ ws, Silent s w) : (∀ r ∈ (ruleFields rules rs ws).1, Silent s r) ∧
      ∀ w ∈ (ruleFields rules rs ws).2, Silent s w := by
  induction rs generalizing ws with
  | nil => exact ⟨hrs, hws⟩
  | cons f rs ih =>
    obtain ⟨hf, hrs⟩ := List.forall_mem_cons.mp hrs
    cases hname : fieldName f with
    | none =>
      rw [ruleFields_nameless hname]
      obtain ⟨hr, hw⟩ := ih hrs hws
      exact ⟨List.forall_mem_cons.mpr ⟨hf, hr⟩, hw⟩
    | some name =>
      rw [ruleFields_named hname]
      obtain ⟨hf', hws'⟩ : Silent s (ruleField rules f name ws).1 ∧
          ∀ w ∈ (ruleField rules f name ws).2, Silent s w := silent_ruleField hrules hf hws
      obtain ⟨hr, hw⟩ := ih hrs hws'
      exact ⟨List.forall_mem_cons.mpr ⟨hf', hr⟩, hw⟩

/-- And the branches of a union, pair by pair. -/
theorem silent_ruleItems {rs ws : List Value} (hrs : ∀ r ∈ rs, Silent s r)
    (hws : ∀ w ∈ ws, Silent s w) : (∀ r ∈ (ruleItems rules rs ws).1, Silent s r) ∧
      ∀ w ∈ (ruleItems rules rs ws).2, Silent s w := by
  induction rs generalizing ws with
  | nil =>
    simp only [ruleItems]
    exact ⟨hrs, hws⟩
  | cons r rs ih =>
    cases ws with
    | nil =>
      simp only [ruleItems]
      exact ⟨hrs, hws⟩
    | cons w ws =>
      obtain ⟨hr, hrs⟩ := List.forall_mem_cons.mp hrs
      obtain ⟨hw, hws⟩ := List.forall_mem_cons.mp hws
      obtain ⟨hr', hw'⟩ := hrules r w hr hw
      obtain ⟨hrs', hws'⟩ := ih hrs hws
      rw [ruleItems]
      exact ⟨List.forall_mem_cons.mpr ⟨hr', hrs'⟩, List.forall_mem_cons.mpr ⟨hw', hws'⟩⟩

/-- And two records. -/
theorem silent_ruleRecords {reader writer : Members} (hr : Silent s (.object reader))
    (hw : Silent s (.object writer)) : Silent s (.object (ruleRecords rules reader writer).1) ∧
      Silent s (.object (ruleRecords rules reader writer).2) := by
  unfold ruleRecords
  split
  · next readerFields writerFields hreader hwriter =>
    obtain ⟨hrs, hws⟩ := silent_ruleFields hrules
      (silent_array.mp (silent_lookup hr (getArray_eq_some.mp hreader)))
      (silent_array.mp (silent_lookup hw (getArray_eq_some.mp hwriter)))
    exact ⟨silent_setMember hr (silent_array.mpr hrs), silent_setMember hw (silent_array.mpr hws)⟩
  · exact ⟨hr, hw⟩

/-- One level of the rules brings in no string that neither side has, if the levels below do not. -/
theorem silent_ruleLevel : KeepsSilent s (ruleLevel rules) := by
  intro r w hr hw
  unfold ruleLevel
  split
  · next reader writer =>
    rw [ruleMembers_eq]
    exact silent_ruleRecords hrules (silent_adoptSymbols hr hw) (silent_takeName hr hw)
  · next rs ws =>
    rw [silent_array, silent_array]
    exact silent_ruleItems hrules (silent_array.mp hr) (silent_array.mp hw)
  · exact ⟨hr, hw⟩

end Level

/-- So the rules bring in no string at all, by induction on the depth. -/
theorem silent_rules : KeepsSilent s applyReaderRules := by
  intro r w
  unfold applyReaderRules
  generalize depth r = n
  induction n generalizing r w with
  | zero => exact fun hr hw => ⟨hr, hw⟩
  | succ n ih => exact silent_ruleLevel ih r w

/-- A value has finitely many strings. -/
theorem strings_finite (v : Value) : {s | ¬ Silent s v}.Finite := by
  induction hd : sizeOf v using Nat.strong_induction_on generalizing v with
  | _ d ih =>
    cases v with
    -- A string occurs in a list or an object only if it occurs in one of its finitely many parts.
    | array items =>
      apply Set.Finite.subset ((List.finite_toSet items).biUnion' fun v hv =>
        ih (sizeOf v) (hd ▸ Value.sizeOf_item hv) v rfl)
      intro s hs
      simp only [Set.mem_ofPred_eq, silent_array] at hs
      push Not at hs
      obtain ⟨v, hv, hs⟩ := hs
      exact Set.mem_iUnion₂.mpr ⟨v, hv, hs⟩
    | object members =>
      apply Set.Finite.subset ((List.finite_toSet members).biUnion' fun m hm =>
        ih (sizeOf m.2) (hd ▸ Value.sizeOf_member hm) m.2 rfl)
      intro s hs
      simp only [Set.mem_ofPred_eq, silent_object] at hs
      push Not at hs
      obtain ⟨m, hm, hs⟩ := hs
      exact Set.mem_iUnion₂.mpr ⟨m, hm, hs⟩
    | string t =>
      apply (Set.finite_singleton t).subset
      intro s hs
      simpa [silent_string, eq_comm] using hs
    | _ =>
      apply Set.finite_empty.subset
      intro s hs
      refine hs fun hsub => ?_
      cases hsub

end Silent

/-! ## The exact condition -/

/-- An object without fields has distinct field names, and nothing below it is reached. -/
theorem uniqueFields_of_no_fields {members : Members} (h : getArray "fields" members = none) :
    UniqueFields (.object members) := by
  intro members' fields hm hfields
  rcases Relation.ReflTransGen.cases_head hm with heq | ⟨v, hv, -⟩
  · obtain rfl := Value.object.inj heq
    rw [h] at hfields
    cases hfields
  · cases hv with
    | field hfields' _ _ =>
      rw [h] at hfields'
      cases hfields'

namespace Context

variable {C : Context} {r w : Value}

/-- A reader in a context determines what is in the hole. -/
theorem reader_inj {v v' : Value} (h : C.reader v = C.reader v') : v = v' := by
  induction C with
  | hole => exact h
  | nested F inner ih => exact ih (NestedFrame.plug_inj h)
  | field F inner ih => exact ih (FieldFrame.plug_inj h)
  | union F inner ih => exact ih (List.cons.inj (List.append_cancel_left (Value.array.inj h))).1

/-- So does a writer. -/
theorem writer_inj {v v' : Value} (h : C.writer v = C.writer v') : v = v' := by
  induction C with
  | hole => exact h
  | nested F inner ih => exact ih (NestedFrame.plug_inj h)
  | field F inner ih => exact ih (FieldFrame.plug_inj h)
  | union F inner ih => exact ih (List.cons.inj (List.append_cancel_left (Value.array.inj h))).1

/-- Frames with distinct field names around a schema with distinct field names. By induction on the
frames: whatever lies below a frame lies in the frame itself or below its hole. -/
theorem unique_reader (h : UniqueFields r) : UniqueFields (C.reader r) := by
  induction C with
  | hole => exact h
  | nested F inner ih =>
    apply uniqueFields_of_no_fields
    have hne : "fields" ≠ F.key := by
      rcases F.key_nested with hkey | hkey <;> rw [hkey] <;> decide
    rw [getArray, lookup_plug_ne hne, lookup_none_of_key F.no_fields]
    rfl
  | field F inner ih =>
    intro members fields hm hfields
    rcases Relation.ReflTransGen.cases_head hm with heq | ⟨v, hv, hm⟩
    · obtain rfl := Value.object.inj heq
      rw [F.getArray_plug] at hfields
      obtain rfl := Option.some.inj hfields
      exact F.names_plug _
    · cases hv with
      | field hfields' hf htype =>
        rw [F.getArray_plug] at hfields'
        obtain rfl := Option.some.inj hfields'
        rcases List.mem_append.mp hf with hf | hf
        · exact F.unique _ (List.mem_append_left _ hf) v htype members fields hm hfields
        rcases List.mem_cons.mp hf with rfl | hf
        · rw [F.get_plugField] at htype
          obtain rfl := Option.some.inj htype
          exact ih members fields hm hfields
        · exact F.unique _ (List.mem_append_right _ hf) v htype members fields hm hfields
  -- A step below a union is to a branch: one of the frame's, or the hole.
  | union F inner ih =>
    intro members fields hm hfields
    rcases Relation.ReflTransGen.cases_head hm with heq | ⟨v, hv, hm⟩
    · cases heq
    · cases hv with
      | branch hmem =>
        rcases List.mem_append.mp hmem with hmem | hmem
        · exact F.unique v (List.mem_append_left _ hmem) members fields hm hfields
        rcases List.mem_cons.mp hmem with rfl | hmem
        · exact ih members fields hm hfields
        · exact F.unique v (List.mem_append_right _ hmem) members fields hm hfields

/-- In the empty context the two ways of applying the rules are one. -/
theorem commutes_hole : hole.Commutes r w := rfl

/-- Under an array or a map the rules do not reach the hole, so they agree with the rules in it only
where those do nothing. -/
theorem commutes_nested {F : NestedFrame} :
    (nested F C).Commutes r w ↔ applyReaderRules r w = (r, w) := by
  rw [Commutes, reader, writer, rules_nested, Prod.mk.injEq]
  constructor
  · rintro ⟨hr, hw⟩
    exact Prod.ext (reader_inj (NestedFrame.plug_inj hr)).symm
      (writer_inj (NestedFrame.plug_inj hw)).symm
  · intro h
    rw [h]
    exact ⟨rfl, rfl⟩

/-- A field of a record is transparent. -/
theorem commutes_field {F : FieldFrame} : (field F C).Commutes r w ↔ C.Commutes r w := by
  rw [Commutes, Commutes, reader, writer, F.rules_field, Prod.mk.injEq]
  constructor
  · rintro ⟨hr, hw⟩
    exact Prod.ext (FieldFrame.plug_inj hr) (FieldFrame.plug_inj hw)
  · intro h
    rw [h]
    exact ⟨rfl, rfl⟩

/-- A union is transparent where the hole has one position and the other branches have nothing to
apply. -/
theorem commutes_aligned {F : UnionFrame} (h : F.Aligned) :
    (union F C).Commutes r w ↔ F.OthersInert ∧ C.Commutes r w :=
  F.rules_aligned h _ _ _ _

/-- A transparent context never matters, by induction on it. -/
theorem commutes_of_transparent (h : C.Transparent) (r w : Value) : C.Commutes r w := by
  induction C with
  | hole => exact commutes_hole
  | nested F inner => exact h.elim
  | field F inner ih => exact commutes_field.mpr (ih h)
  | union F inner ih =>
    obtain ⟨haligned, hinert, h⟩ := h
    exact (commutes_aligned haligned).mpr ⟨hinert, ih h⟩

/-- A context the walk passes through applies the rules in the hole. -/
theorem commutes_of_reaches (hunique : UniqueFields r) (h : C.Reaches r w) : C.Commutes r w := by
  induction C with
  | hole => exact commutes_hole
  | nested F inner => exact commutes_nested.mpr ((applyReaderRules_eq_iff hunique).mpr h)
  | field F inner ih => exact commutes_field.mpr (ih h)
  | union F inner ih =>
    by_cases haligned : F.Aligned
    · obtain ⟨hinert, h⟩ := h.1 haligned
      exact (commutes_aligned haligned).mpr ⟨hinert, ih h⟩
    · obtain ⟨hhole, hall⟩ := h.2 haligned
      have hreader : UniqueFields ((union F inner).reader r) := unique_reader hunique
      rw [Commutes, (applyReaderRules_eq_iff hunique).mpr hhole]
      exact (applyReaderRules_eq_iff hreader).mpr hall

/-- For aligned contexts this is necessary as well: at the first frame that is not passed through,
the hole is left as it was. -/
theorem reaches_of_commutes (hunique : UniqueFields r) (haligned : C.Aligned)
    (h : C.Commutes r w) : C.Reaches r w := by
  induction C with
  | hole => trivial
  | nested F inner => exact (applyReaderRules_eq_iff hunique).mp (commutes_nested.mp h)
  | field F inner ih => exact ih haligned (commutes_field.mp h)
  | union F inner ih =>
    obtain ⟨hfirst, haligned⟩ := haligned
    obtain ⟨hinert, h⟩ := (commutes_aligned hfirst).mp h
    exact ⟨fun _ => ⟨hinert, ih haligned h⟩, fun hnot => (hnot hfirst).elim⟩

end Context

/-! ### A symbol that the frames do not know -/

/-- An enum with default `A`. -/
def enumOf (symbols : List String) : Value :=
  .object [("default", .string "A"), ("name", .string "E"),
    ("symbols", .array (symbols.map .string)), ("type", .string "enum")]

/-- The pair of enums used to test a context: the rules add a symbol to the reader. -/
theorem rules_enum {s : String} (h : s ≠ "A") :
    applyReaderRules (enumOf ["A"]) (enumOf ["A", s]) = (enumOf ["A", s], enumOf ["A", s]) := by
  rw [applyReaderRules_eq]
  simp [enumOf, ruleLevel, ruleMembers, ruleRecords, takeName, renames, adoptSymbols, pushSymbols,
    getStr, getArray, List.lookup_cons, setMember, Value.asStr, Value.asArray, h]

/-- An enum has no fields. -/
theorem unique_enum (symbols : List String) : UniqueFields (enumOf symbols) :=
  uniqueFields_of_no_fields rfl

namespace Context

/-- What is in the hole is part of the whole. -/
theorem sub_reader (C : Context) (v : Value) : Value.Sub v (C.reader v) := by
  induction C with
  | hole => exact .refl
  | nested F inner ih =>
    have hmem : (F.key, inner.reader v) ∈ F.before ++ (F.key, inner.reader v) :: F.after := by simp
    exact .member hmem ih
  | field F inner ih =>
    have hmem : ∀ x, ("fields", x) ∈ F.before ++ ("fields", x) :: F.after := by simp
    have hfield : F.plugField (inner.reader v) ∈
        F.fieldsBefore ++ F.plugField (inner.reader v) :: F.fieldsAfter := by simp
    have htype : ("type", inner.reader v) ∈
        F.typeBefore ++ ("type", inner.reader v) :: F.typeAfter := by simp
    exact .member (hmem _) (.item hfield (.member htype ih))
  | union F inner ih =>
    have hmem : inner.reader v ∈ F.readerBefore ++ inner.reader v :: F.readerAfter := by simp
    exact .item hmem ih

/-- A frame that does not know the symbol cannot bring it to the hole. So if the rules commute with
the frame, the hole of the reader must have met the hole of the writer. -/
theorem transparent_of_fresh {C : Context} {s : String} (hs : s ≠ "A")
    (hreader : Silent s (C.reader (enumOf ["A"]))) (hwriter : Silent s (C.writer (enumOf ["A"])))
    (h : C.Commutes (enumOf ["A"]) (enumOf ["A", s])) : C.Transparent := by
  induction C with
  | hole => trivial
  -- The rules never get below an array or a map, so the new symbol would be missing.
  | nested F inner =>
    rw [commutes_nested, rules_enum hs] at h
    have hsymbols : enumOf ["A", s] ≠ enumOf ["A"] := by simp [enumOf]
    exact hsymbols (congrArg Prod.fst h)
  | field F inner ih =>
    have hinner : ∀ v, Value.Sub v (F.plug v) := fun v =>
      sub_reader (.field F .hole) v
    exact ih (fun hsub => hreader (hsub.trans (hinner _)))
      (fun hsub => hwriter (hsub.trans (hinner _))) (commutes_field.mp h)
  | union F inner ih =>
    have hwriter' := silent_array.mp hwriter
    by_cases haligned : F.Aligned
    · obtain ⟨hinert, h⟩ := (commutes_aligned haligned).mp h
      have hinner : Silent s (inner.writer (enumOf ["A"])) := hwriter' _ (by simp)
      exact ⟨haligned, hinert,
        ih (fun hsub => hreader (hsub.trans (sub_reader (.union F .hole) _))) hinner h⟩
    · -- The hole of the reader meets a branch without the symbol, and yet gets it.
      obtain ⟨other, hother, hrules⟩ := F.rules_shifted haligned h
      have hsilent : Silent s other := by
        refine hwriter' other ?_
        rw [List.mem_append] at hother
        rw [List.mem_append, List.mem_cons]
        tauto
      have hhole : Silent s (inner.reader (enumOf ["A"])) :=
        fun hsub => hreader (hsub.trans (sub_reader (.union F .hole) _))
      have hafter := (silent_rules _ _ hhole hsilent).1
      rw [hrules, rules_enum hs] at hafter
      have hsymbol : Value.Sub (.string s) (enumOf ["A", s]) := by
        have hmem : ("symbols", Value.array [.string "A", .string s]) ∈
            [("default", Value.string "A"), ("name", .string "E"),
              ("symbols", .array [.string "A", .string s]), ("type", .string "enum")] := by simp
        exact .member hmem (.item (by simp) .refl)
      exact (hafter (hsymbol.trans (sub_reader inner _))).elim

/-- No schema knows all symbols. -/
theorem exists_fresh (v v' : Value) : ∃ s, s ≠ "A" ∧ Silent s v ∧ Silent s v' := by
  have hnames : Function.Injective fun n => String.ofList (List.replicate n 'A') := by
    intro m n h
    have hlength := congrArg (fun s : String => s.toList.length) h
    simpa using hlength
  have hfinite := ((strings_finite v).union (strings_finite v')).insert "A"
  obtain ⟨s, -, hs⟩ := (Set.infinite_range_of_injective hnames).exists_notMem_finite hfinite
  simp only [Set.mem_insert_iff, Set.mem_union, Set.mem_ofPred_eq, not_or, not_not] at hs
  exact ⟨s, hs.1, hs.2.1, hs.2.2⟩

end Context

/-- The rules reach the hole of a context whatever is put into it exactly if the context is
transparent; and they leave the schemas in it as the rules alone would if it is reached by them
or there is nothing to do, which is also necessary where the walk meets no union with the hole
at two positions. -/
theorem rules_reach_iff (C : Context) :
    (C.Transparent ↔ ∀ r w, UniqueFields r → C.Commutes r w) ∧
      ∀ r w, UniqueFields r →
        (C.Reaches r w → C.Commutes r w) ∧ (C.Aligned → C.Commutes r w → C.Reaches r w) := by
  refine ⟨⟨fun h r w _ => Context.commutes_of_transparent h r w, fun h => ?_⟩, ?_⟩
  · obtain ⟨s, hs, hreader, hwriter⟩ :=
      Context.exists_fresh (C.reader (enumOf ["A"])) (C.writer (enumOf ["A"]))
    exact Context.transparent_of_fresh hs hreader hwriter (h _ _ (unique_enum _))
  · intro r w hunique
    exact ⟨Context.commutes_of_reaches hunique, Context.reaches_of_commutes hunique⟩

/-! ### Below an optional field and below an array -/

/-- `{"fields":[{"name":"f","type":…}],"name":"R","type":"record"}`. -/
def recordFrame : FieldFrame where
  before := []
  after := [("name", .string "R"), ("type", .string "record")]
  fieldsBefore := []
  fieldsAfter := []
  typeBefore := [("name", .string "f")]
  typeAfter := []
  name := "f"
  before_fields := by decide
  before_type := by decide
  field_name := rfl
  names_nodup := by decide
  unique := by simp

/-- A string has no fields. -/
theorem uniqueFields_string (s : String) : UniqueFields (.string s) := by
  intro members fields hm
  rcases Relation.ReflTransGen.cases_head hm with heq | ⟨v, hv, -⟩
  · cases heq
  · cases hv

/-- `["null",…]`. -/
def nullFrame : UnionFrame where
  readerBefore := [.string "null"]
  readerAfter := []
  writerBefore := [.string "null"]
  writerAfter := []
  perm := .refl _
  unique v hv := by
    rw [List.mem_singleton.mp hv]
    exact uniqueFields_string "null"

/-- `{"items":…,"type":"array"}`. -/
def itemsFrame : NestedFrame where
  key := "items"
  before := []
  after := [("type", .string "array")]
  key_nested := .inl rfl
  no_fields := by decide

/-- In an optional field the enum adopts the new symbol; in an array the rules have the effect that
they have alone only where that is none. -/
theorem rules_reach_iff_optional :
    (Context.field recordFrame (.union nullFrame .hole)).Commutes (enumOf ["A"])
        (enumOf ["A", "B"]) ∧
      ∀ r w, UniqueFields r → ((Context.nested itemsFrame .hole).Commutes r w ↔ Inert r w) := by
  constructor
  · refine (rules_reach_iff _).1.mp ?_ _ _ (unique_enum _)
    refine ⟨rfl, fun p hp => ?_, trivial⟩
    rw [List.mem_singleton.mp hp]
    exact (uniqueFields_string "null").inert
  · intro r w hunique
    obtain ⟨hreaches, hcommutes⟩ := (rules_reach_iff (.nested itemsFrame .hole)).2 r w hunique
    exact ⟨fun h => hcommutes trivial h, fun h => hreaches h⟩

/-- Alone, the enum of the reader adopts the new symbol; as the items of an array it does not. -/
theorem array_items_unreached :
    applyReaderRules (enumOf ["A"]) (enumOf ["A", "B"]) =
        (enumOf ["A", "B"], enumOf ["A", "B"]) ∧
      applyReaderRules (itemsFrame.plug (enumOf ["A"])) (itemsFrame.plug (enumOf ["A", "B"])) =
        (itemsFrame.plug (enumOf ["A"]), itemsFrame.plug (enumOf ["A", "B"])) ∧
      ¬ (Context.nested itemsFrame .hole).Commutes (enumOf ["A"]) (enumOf ["A", "B"]) := by
  refine ⟨rules_enum (by decide), rules_nested itemsFrame _ _, ?_⟩
  rw [Context.commutes_nested, rules_enum (by decide)]
  intro h
  have hsymbols : enumOf ["A", "B"] ≠ enumOf ["A"] := by simp [enumOf]
  exact hsymbols (congrArg Prod.fst h)

end KrabkaRegistry.Guarantees
