import KrabkaRegistry.Guarantees.TopicBytes
import KrabkaRegistry.Rest.Reads
import KrabkaRegistry.Serde.Http
import KrabkaRegistry.Store.Views

/-!
# The Documents of the REST API

What the server prints as an answer or the client as a request is read, on the other side, as
what it was printed from.
-/

namespace KrabkaRegistry.Guarantees

open KrabkaRegistry.Format.Json
open KrabkaRegistry.Kafkastore.Codec
open KrabkaRegistry.Rest
open KrabkaRegistry.Serde
open KrabkaRegistry.Store

variable {J : SerdeJson} {fromSlice : ByteArray → Option Value}

/-! ## Members of a map -/

/-- A member that may be absent is inserted when it is there, and leaves the map alone otherwise. -/
theorem getElem?_insertSome (m : BTreeMap String Value) (name a : String) (v : Option Value) :
    (insertSome m name v)[a]? = if a = name then v.or m[a]? else m[a]? := by
  cases v with
  | none => simp [insertSome]
  | some v => simp [insertSome, BTreeMap.getElem?_insert]

/-- The members of one name in a list of members with names of their own. -/
private theorem filter_name {l : List (String × Value)} {name : String} {v : Option Value}
    (hdistinct : l.Pairwise fun a b => ¬ compare a.1 b.1 = .eq)
    (hv : ∀ x, (name, x) ∈ l ↔ v = some x) :
    l.filter (fun m => m.1 = name) = unlessNone name v := by
  induction l generalizing v with
  | nil =>
    cases v with
    | none => rfl
    | some x => simp at hv
  | cons m l ih =>
    obtain ⟨hm, hl⟩ := List.pairwise_cons.mp hdistinct
    obtain ⟨key, x⟩ := m
    by_cases hkey : key = name
    · subst hkey
      obtain rfl := (hv x).mp List.mem_cons_self
      -- No later member has the name.
      have hrest : l.filter (fun m => m.1 = key) = [] := by
        refine List.filter_eq_nil_iff.mpr fun m' hm' heq => hm m' hm' ?_
        rw [of_decide_eq_true heq]
        exact Std.ReflCmp.compare_self
      simp [hrest, unlessNone]
    · have hrest : ∀ y, (name, y) ∈ l ↔ v = some y := by
        intro y
        rw [← hv y, List.mem_cons, or_iff_right]
        exact fun heq => hkey (congrArg Prod.fst heq).symm
      rw [List.filter_cons_of_neg (by simpa using hkey), ih hl hrest]

/-- A struct is read from a map by looking its fields up. -/
@[simp] theorem field_toList (m : BTreeMap String Value) (name : String) :
    field m.toList name = some m[name]? := by
  refine field_of_filter (filter_name Std.ExtTreeMap.distinct_keys_toList fun x => ?_)
  exact Std.ExtTreeMap.mem_toList_iff_getElem?_eq_some

/-- Reading a required member of a document that came from a map is a lookup in the map. -/
@[simp] theorem required_toList {α : Type} (m : BTreeMap String Value) (name : String)
    (read : Value → Option α) :
    Kafkastore.Codec.required m.toList name read = m[name]?.bind read := by
  rw [Kafkastore.Codec.required, field_toList]
  cases m[name]? <;> rfl

/-- Reading a member with a default is a lookup with that default. -/
@[simp] theorem defaulted_toList {α : Type} (m : BTreeMap String Value) (name : String)
    (default : α) (read : Value → Option α) :
    defaulted m.toList name default read = m[name]?.elim (some default) read := by
  rw [defaulted, field_toList]
  cases m[name]? <;> rfl

/-- The members of such a document are those of the map; no key can occur twice. -/
@[simp] theorem structMembers_mapValue (names : List String) (m : BTreeMap String Value) :
    structMembers names (mapValue m) = some m.toList := rfl

/-! ## Maps that read back -/

/-- Every member is read as it is printed. -/
def MembersReadBack (J : SerdeJson) (fromSlice : ByteArray → Option Value)
    (m : BTreeMap String Value) : Prop :=
  ∀ (name : String) (v : Value), m[name]? = some v → ReadsBack J fromSlice v

/-- A map whose values are read back makes a document that is. -/
theorem MembersReadBack.mapValue {m : BTreeMap String Value}
    (h : MembersReadBack J fromSlice m) : ReadsBack J fromSlice (mapValue m) :=
  .object fun p hp => h p.1 p.2 (Std.ExtTreeMap.mem_toList_iff_getElem?_eq_some.mp hp)

/-- The empty map has no values. -/
theorem membersReadBack_empty : MembersReadBack J fromSlice ∅ := by
  intro name v h
  simp at h

/-- Inserting a value that is read back keeps this. -/
theorem MembersReadBack.insert {m : BTreeMap String Value} (h : MembersReadBack J fromSlice m)
    (name : String) {v : Value} (hv : ReadsBack J fromSlice v) :
    MembersReadBack J fromSlice (m.insert name v) := by
  intro a x hx
  rw [BTreeMap.getElem?_insert] at hx
  split_ifs at hx with ha
  · obtain rfl := Option.some.inj hx
    exact hv
  · exact h a x hx

/-- So does inserting one that may be absent. -/
theorem MembersReadBack.insertSome {m : BTreeMap String Value}
    (h : MembersReadBack J fromSlice m) (name : String) {v : Option Value}
    (hv : ∀ x, v = some x → ReadsBack J fromSlice x) :
    MembersReadBack J fromSlice (insertSome m name v) := by
  cases v with
  | none => exact h
  | some v => exact h.insert name (hv v rfl)

/-- A string is read back, whether or not it is there. -/
theorem readsBack_map_string {s : Option String} {x : Value} (h : s.map .string = some x) :
    ReadsBack J fromSlice x := by
  obtain ⟨s, _, rfl⟩ := Option.map_eq_some_iff.mp h
  exact .string s

/-- The list of references is left out when it is empty and read back otherwise. -/
theorem readsBack_referencesValue {references : List SchemaReference}
    (h : ∀ r ∈ references, IsI32 r.version) {x : Value}
    (hx : referencesValue references = some x) : ReadsBack J fromSlice x := by
  unfold referencesValue at hx
  split_ifs at hx
  obtain rfl := Option.some.inj hx
  refine .array fun v hv => ?_
  obtain ⟨r, hr, rfl⟩ := List.mem_map.mp hv
  exact readsBack_referenceValue (h r hr)

/-- Every member that describes a schema is read back. -/
theorem membersReadBack_schemaContent {m : BTreeMap String Value}
    (h : MembersReadBack J fromSlice m) (ty : SchemaType) (messageType : Option String)
    (schema : String) {references : List SchemaReference}
    (hrefs : ∀ r ∈ references, IsI32 r.version) :
    MembersReadBack J fromSlice (schemaContent m ty messageType schema references) :=
  (((h.insertSome _ fun _ => readsBack_map_string).insertSome _ fun _ =>
    readsBack_map_string).insert _ (.string schema)).insertSome _ fun _ =>
    readsBack_referencesValue hrefs

/-! ## Reading the documents -/

/-- An absent string is read as absent. -/
@[simp] theorem elim_readStr (s : Option String) :
    s.elim (some none) (readOption readStr ∘ Value.string) = some s := by
  cases s <;> rfl

/-- An absent list of references is read as the empty one, which is the list that is left out. -/
theorem readReferences_referencesValue {references : List SchemaReference}
    (h : ∀ r ∈ references, IsI32 r.version) :
    (referencesValue references).elim (some []) readReferences = some references := by
  unfold referencesValue
  by_cases hempty : references.isEmpty = true
  · rw [if_pos hempty, List.isEmpty_iff.mp hempty]
    rfl
  · rw [if_neg hempty]
    exact readReferences_map h

/-- The answer to a lookup by id is read back by the client. Its fields are the schema's, with the
type spelled out even for Avro. -/
theorem deserialize_schemaById (ty : SchemaType) (messageType : Option String) (schema : String)
    {references : List SchemaReference} (h : ∀ r ∈ references, IsI32 r.version) :
    SchemaByIdResponse.deserialize
        (mapValue (schemaContent ∅ ty messageType schema references)) =
      some ⟨schema, ty.wireName, messageType, references⟩ := by
  simp [SchemaByIdResponse.deserialize, schemaContent, getElem?_insertSome,
    BTreeMap.getElem?_insert, readReferences_referencesValue h]

/-- A positive id of the store fits the client's type. -/
theorem readU32_intValue {n : Int} (hlow : 0 ≤ n) (hhigh : n ≤ i32Max) :
    readU32 (intValue n) = some (UInt32.ofNat n.toNat) := by
  unfold i32Max at hhigh
  have hrange : 0 ≤ n ∧ n < 4294967296 := by omega
  simp [readU32, intValue, hrange]

/-- A negative one does not, and the whole answer fails to decode. -/
theorem readU32_negative {n : Int} (h : n < 0) : readU32 (intValue n) = none := by
  have hrange : ¬ (0 ≤ n ∧ n < 4294967296) := by omega
  simp only [readU32, intValue, hrange, if_false]

/-- A member is found under its own name only. -/
private theorem filter_member (name other : String) (v : Option Value) :
    (unlessNone name v).filter (fun m => m.1 = other) =
      if name = other then unlessNone name v else [] := by
  cases v with
  | none => simp [unlessNone]
  | some v => simp [unlessNone, List.filter_cons]

/-- The body that is sent for a local schema. -/
def LocalSchema.registerBody (x : LocalSchema) : RegisterBody :=
  ⟨x.schema, x.kind.wireName, x.references, x.messageType, none, none⟩

/-- The body of a lookup or a registration is read as it was meant. Each field has a name of its
own, so what the reader finds under a name is what `payload` put there, or nothing. -/
theorem deserialize_payload (J : SerdeJson) (fromSlice : ByteArray → Option Value)
    (x : LocalSchema) (h : ∀ r ∈ x.references, IsI32 r.version) :
    ReadsBack J fromSlice x.payload ∧
      RegisterBody.deserialize x.payload = some (LocalSchema.registerBody x) := by
  let ms : List (String × Value) := [("schema", .string x.schema)] ++
    unlessNone "schemaType" (x.kind.wireName.map .string) ++
    unlessNone "messageType" (x.messageType.map .string) ++
    unlessNone "references" (referencesValue x.references)
  have hpayload : x.payload = .object ms := rfl
  have hfield : ∀ name v, ms.filter (fun m => m.1 = name) = unlessNone name v →
      field ms name = some v := fun name v => field_of_filter
  have hschema : field ms "schema" = some (some (.string x.schema)) := by
    apply hfield
    change _ = [("schema", Value.string x.schema)]
    simp [ms, List.filter_append, filter_member]
  have htype : field ms "schemaType" = some (x.kind.wireName.map .string) := by
    apply hfield
    simp [ms, List.filter_append, filter_member]
  have hmessage : field ms "messageType" = some (x.messageType.map .string) := by
    apply hfield
    simp [ms, List.filter_append, filter_member]
  have hrefs : field ms "references" = some (referencesValue x.references) := by
    apply hfield
    simp [ms, List.filter_append, filter_member]
  -- The client sends neither an id nor a version, so the body leaves both to the registry.
  have hid : field ms "id" = some none := by
    apply hfield
    change _ = []
    simp [ms, List.filter_append, filter_member]
  have hversion : field ms "version" = some none := by
    apply hfield
    change _ = []
    simp [ms, List.filter_append, filter_member]
  constructor
  · refine .object fun m hm => ?_
    have hmember : ∀ (name : String) (v : Option Value),
        (∀ w, v = some w → ReadsBack J fromSlice w) → m ∈ unlessNone name v →
        ReadsBack J fromSlice m.2 := by
      intro name v hv hm
      cases v with
      | none => exact absurd hm List.not_mem_nil
      | some w =>
        obtain rfl := List.mem_singleton.mp hm
        exact hv w rfl
    simp only [List.mem_append, or_assoc] at hm
    rcases hm with hm | hm | hm | hm
    · obtain rfl := List.mem_singleton.mp hm
      exact .string _
    · exact hmember _ _ (fun _ => readsBack_map_string) hm
    · exact hmember _ _ (fun _ => readsBack_map_string) hm
    · exact hmember _ _ (fun _ => readsBack_referencesValue h) hm
  · have hoption : ∀ (name : String) (s : Option String),
        field ms name = some (s.map .string) →
        defaulted ms name none (readOption readStr) = some s := by
      intro name s hs
      simp only [defaulted, hs]
      cases s <;> rfl
    have hreferences : defaulted ms "references" [] readReferences = some x.references := by
      have hread := readReferences_referencesValue h
      simp only [defaulted, hrefs]
      cases hv : referencesValue x.references with
      | none => simpa [hv] using hread
      | some v => simpa [hv] using hread
    have habsent : ∀ name, field ms name = some none →
        defaulted ms name none (readOption readI32) = some none := by
      intro name hnone
      simp only [defaulted, hnone]
      rfl
    rw [hpayload]
    simp only [RegisterBody.deserialize, structMembers, Kafkastore.Codec.required, hschema,
      hoption _ _ htype, hoption _ _ hmessage, hreferences, habsent _ hid, habsent _ hversion,
      readStr_string, Option.bind_eq_bind, Option.bind_some, Option.pure_def]
    rfl

end KrabkaRegistry.Guarantees
