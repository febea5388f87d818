import KrabkaRegistry.Format.DiffLaws

/-!
# Reordered Protobuf Files

A file whose declarations stand in another order: the messages, fields, enums, enum values,
reserved entries and oneofs of every message at any depth, with the `oneof_index` of each field
pointing at the moved declaration.  The differ looks everything up by name and by number, and
compares oneofs by their members, so it does not see the order.
-/

namespace KrabkaRegistry.Format.Protobuf

open KrabkaRegistry.Library.KeyedMap

/-! ## Rearranging declarations -/

/-- A field whose oneof has another index. -/
def FieldDescriptorProto.reindex (σ : ℤ → ℤ) (f : FieldDescriptorProto) : FieldDescriptorProto :=
  { f with oneofIndex := f.oneofIndex.map σ }

/-- `σ` leads from the index of each oneof to its new index. -/
structure Renumbers (σ : Equiv.Perm ℤ) (decls decls' : List OneofDescriptorProto) : Prop where
  perm : decls.Perm decls'
  moved : ∀ (i : ℕ) o, decls[i]? = some o → ∃ j : ℕ, σ i = j ∧ decls'[j]? = some o

structure EnumReordered (e e' : EnumDescriptorProto) : Prop where
  name : e'.name = e.name
  value : e.value.Perm e'.value
  options : e'.options = e.options
  reservedRange : e.reservedRange.Perm e'.reservedRange
  reservedName : e.reservedName.Perm e'.reservedName

/-- The second message is the first with its declarations, and those of the messages nested in
it, in another order. -/
inductive Reordered : DescriptorProto → DescriptorProto → Prop where
  | mk {m m' : DescriptorProto} (σ : Equiv.Perm ℤ) (nested : List DescriptorProto)
      (name : m'.name = m.name)
      (field : (m.field.map (FieldDescriptorProto.reindex σ)).Perm m'.field)
      (extension : m'.extension = m.extension)
      (each : List.Forall₂ Reordered m.nestedType nested)
      (nestedType : nested.Perm m'.nestedType)
      (enumType : Rearranged EnumReordered m.enumType m'.enumType)
      (extensionRange : m'.extensionRange = m.extensionRange)
      (oneofDecl : Renumbers σ m.oneofDecl m'.oneofDecl)
      (options : m'.options = m.options)
      (reservedRange : m.reservedRange.Perm m'.reservedRange)
      (reservedName : m.reservedName.Perm m'.reservedName) :
      Reordered m m'

structure FileReordered (f g : FileDescriptorProto) : Prop where
  name : g.name = f.name
  package : g.package = f.package
  dependency : g.dependency = f.dependency
  publicDependency : g.publicDependency = f.publicDependency
  weakDependency : g.weakDependency = f.weakDependency
  messageType : Rearranged Reordered f.messageType g.messageType
  enumType : Rearranged EnumReordered f.enumType g.enumType
  service : g.service = f.service
  extension : g.extension = f.extension
  options : g.options = f.options
  sourceCodeInfo : g.sourceCodeInfo = f.sourceCodeInfo
  syntax? : g.syntax? = f.syntax?

/-- No two fields of a message share a number, and no two of its messages or enums a name, and
so in the messages below it. -/
inductive DescriptorProto.Unique : DescriptorProto → Prop where
  | mk {m : DescriptorProto} (field : (m.field.map fun f => f.number.getD 0).Nodup)
      (nestedType : (m.nestedType.map fun n => n.name.getD "").Nodup)
      (enumType : (m.enumType.map fun e => e.name.getD "").Nodup)
      (nested : ∀ n ∈ m.nestedType, DescriptorProto.Unique n) :
      DescriptorProto.Unique m

structure FileDescriptorProto.Unique (f : FileDescriptorProto) : Prop where
  messageType : (f.messageType.map fun m => m.name.getD "").Nodup
  enumType : (f.enumType.map fun e => e.name.getD "").Nodup
  message : ∀ m ∈ f.messageType, m.Unique

/-! ## Fields -/

section Fields

variable {σ : Equiv.Perm ℤ}

@[simp] theorem number_reindex (f : FieldDescriptorProto) : (f.reindex σ).number = f.number := rfl

@[simp] theorem type_reindex (f : FieldDescriptorProto) : (f.reindex σ).type = f.type := rfl

@[simp] theorem typeName_reindex (f : FieldDescriptorProto) :
    (f.reindex σ).typeName = f.typeName := rfl

@[simp] theorem proto3Optional_reindex (f : FieldDescriptorProto) :
    (f.reindex σ).proto3Optional = f.proto3Optional := rfl

/-- Only the index of the oneof is renumbered; number, type and name are the field's own. -/
@[simp] theorem oneofIndex_reindex (f : FieldDescriptorProto) :
    (f.reindex σ).oneofIndex = f.oneofIndex.map σ := rfl

/-- A field is in a real oneof before and after the renumbering, as that depends on whether the
index is there and not on its value. -/
@[simp] theorem realOneof_reindex (f : FieldDescriptorProto) :
    realOneof (f.reindex σ) = realOneof f := by
  unfold realOneof
  rw [oneofIndex_reindex, Option.isSome_map]
  rfl

/-- The members of a oneof are those of the oneof it has become. -/
theorem oneofIndex_reindex_iff (f : FieldDescriptorProto) (index : ℤ) :
    (f.reindex σ).oneofIndex = some (σ index) ↔ f.oneofIndex = some index := by
  rw [oneofIndex_reindex]
  cases f.oneofIndex <;> simp

end Fields

/-! ## What a reordered message is made of -/

section Reordered

variable {m m' : DescriptorProto}

/-- A reordered message keeps its name. -/
theorem Reordered.name_eq (h : Reordered m m') : m'.name = m.name := by
  cases h
  assumption

/-- Its nested messages are permuted, and each is reordered itself. -/
theorem Reordered.nested (h : Reordered m m') : Rearranged Reordered m.nestedType m'.nestedType := by
  cases h with
  | mk σ nested _ _ _ each nestedType => exact ⟨nested, each, nestedType⟩

/-- Its enums are permuted, and each is reordered itself. -/
theorem Reordered.enums (h : Reordered m m') :
    Rearranged EnumReordered m.enumType m'.enumType := by
  cases h
  assumption

/-- Being a map entry is an option of the message, which is kept. -/
theorem Reordered.isMapEntry (h : Reordered m m') : m'.isMapEntry = m.isMapEntry := by
  cases h with
  | mk _ _ _ _ _ _ _ _ _ _ options => rw [DescriptorProto.isMapEntry, DescriptorProto.isMapEntry, options]

/-- The fields are those of the first message, with their oneofs renumbered. -/
theorem Reordered.fields (h : Reordered m m') :
    ∃ σ : Equiv.Perm ℤ, Rearranged (fun f f' => f' = f.reindex σ) m.field m'.field := by
  cases h with
  | mk σ _ _ field =>
    refine ⟨σ, m.field.map (FieldDescriptorProto.reindex σ), ?_, field⟩
    rw [List.forall₂_map_right_iff]
    exact List.forall₂_same.mpr fun _ _ => rfl

/-- So the nested messages that are no map entries correspond as well. -/
theorem Reordered.nestedMessages (h : Reordered m m') :
    Rearranged Reordered m.nestedMessages m'.nestedMessages :=
  h.nested.filter fun a b hab => by rw [hab.isMapEntry]

/-- Those have distinct names, being some of the nested messages. -/
theorem DescriptorProto.Unique.nestedMessages (h : m.Unique) :
    (m.nestedMessages.map fun n => n.name.getD "").Nodup := by
  cases h with
  | mk _ nestedType => exact nestedType.sublist (List.filter_sublist.map _)

end Reordered

/-! ## Lookups by name and by number -/

section Lookups

variable {m m' : DescriptorProto} {σ : Equiv.Perm ℤ}

/-- The field of a number is the corresponding one: the numbers are distinct, so the order in which
the map is filled does not matter. -/
theorem fieldsByNumber_related (hu : m.Unique)
    (h : Rearranged (fun f f' => f' = FieldDescriptorProto.reindex σ f) m.field m'.field)
    (number : Int) :
    Option.Rel (fun f f' => f' = FieldDescriptorProto.reindex σ f) (fieldsByNumber m)[number]?
      (fieldsByNumber m')[number]? := by
  cases hu with
  | mk field =>
    exact getElem?_related h (by rintro f _ rfl; rfl) field number

/-- The entry of a map field is one of the nested messages. -/
theorem findMapEntry_mem {f : FieldDescriptorProto} {e : DescriptorProto}
    (h : findMapEntry m f = some e) : e ∈ m.nestedType := by
  unfold findMapEntry at h
  split at h
  · cases h
  · split at h
    · cases h
    · exact List.mem_of_find?_eq_some h

/-- The entry of a map field is found wherever it stands. -/
theorem findMapEntry_related (hu : m.Unique) (h : Reordered m m') (f : FieldDescriptorProto) :
    Option.Rel Reordered (findMapEntry m f) (findMapEntry m' (f.reindex σ)) := by
  unfold findMapEntry
  rw [type_reindex, typeName_reindex]
  split
  · exact .none
  · cases f.typeName with
    | none => exact .none
    | some name =>
      cases hu with
      | mk _ nestedType =>
        have hname : ∀ a b : DescriptorProto, Reordered a b → b.name.getD "" = a.name.getD "" :=
          fun a b hab => by rw [hab.name_eq]
        refine h.nested.find?_related hname nestedType
          (fun a b hab => by rw [hab.name_eq, hab.isMapEntry]) (k := leafName name) ?_
        intro b hb
        rw [Bool.and_eq_true, decide_eq_true_eq] at hb
        rw [hb.1]
        rfl

end Lookups

/-! ## The order of the fields -/

section FieldOrder

variable {m m' u u' : DescriptorProto} {σ : Equiv.Perm ℤ} {r : Resolver}

/-- The fields of the second message are those of the first, with their oneofs renumbered. -/
abbrev SameFields (σ : Equiv.Perm ℤ) (m m' : DescriptorProto) : Prop :=
  Rearranged (fun f f' => f' = FieldDescriptorProto.reindex σ f) m.field m'.field

/-- Whether a oneof keeps a plain member depends on which members share the index, and the
renumbering is injective. -/
theorem oneofHasSurvivingPlainMember_orig (h : SameFields σ m m') (f : FieldDescriptorProto) :
    oneofHasSurvivingPlainMember m u f = oneofHasSurvivingPlainMember m' u (f.reindex σ) := by
  unfold oneofHasSurvivingPlainMember
  rw [oneofIndex_reindex]
  cases f.oneofIndex with
  | none => rfl
  | some index =>
    refine h.any_eq fun a b hab => ?_
    subst hab
    congr 1
    rw [decide_eq_decide]
    exact (oneofIndex_reindex_iff a index).symm

/-- On the update's side the question is about numbers only. -/
theorem oneofHasSurvivingPlainMember_upd (h : SameFields σ u u') (f : FieldDescriptorProto) :
    oneofHasSurvivingPlainMember m u f = oneofHasSurvivingPlainMember m u' f := by
  unfold oneofHasSurvivingPlainMember
  cases f.oneofIndex with
  | none => rfl
  | some index =>
    have hany : ∀ member : FieldDescriptorProto,
        (u.field.any fun candidate => candidate.number = member.number && !realOneof candidate) =
          u'.field.any fun candidate => candidate.number = member.number && !realOneof candidate :=
      fun member => h.any_eq fun a b hab => by rw [hab, number_reindex, realOneof_reindex]
    simp only [hany]

/-- The count of members moved from elsewhere asks the original by number. -/
theorem movedExistingMemberCount_orig (h : SameFields σ m m') (f : FieldDescriptorProto) :
    movedExistingMemberCount m u f = movedExistingMemberCount m' u f := by
  unfold movedExistingMemberCount
  cases f.oneofIndex with
  | none => rfl
  | some index =>
    have hany : ∀ member : FieldDescriptorProto,
        (m.field.any fun old => old.number = member.number && !realOneof old) =
          m'.field.any fun old => old.number = member.number && !realOneof old :=
      fun member => h.any_eq fun a b hab => by rw [hab, number_reindex, realOneof_reindex]
    simp only [hany]

/-- In the update it counts the members of one oneof, which the renumbering carries over. -/
theorem movedExistingMemberCount_upd (h : SameFields σ u u') (f : FieldDescriptorProto) :
    movedExistingMemberCount m u f = movedExistingMemberCount m u' (f.reindex σ) := by
  unfold movedExistingMemberCount
  rw [oneofIndex_reindex]
  cases f.oneofIndex with
  | none => rfl
  | some index =>
    refine (h.filter fun a b hab => ?_).length_eq
    subst hab
    have hindex : decide ((a.reindex σ).oneofIndex = some (σ index)) =
        decide (a.oneofIndex = some index) :=
      decide_eq_decide.mpr (oneofIndex_reindex_iff a index)
    rw [hindex, number_reindex, proto3Optional_reindex]

/-- Two fields are compared by what the renumbering keeps and by the two questions about oneofs
above. -/
theorem compareField_orig (h : SameFields σ m m') (path : String) (of uf : FieldDescriptorProto) :
    compareField path of uf m u r = compareField path (of.reindex σ) uf m' u r := by
  unfold compareField
  rw [realOneof_reindex, movedExistingMemberCount_orig h]
  rfl

/-- The same when the update is reordered. -/
theorem compareField_upd (h : SameFields σ u u') (path : String) (of uf : FieldDescriptorProto) :
    compareField path of uf m u r = compareField path of (uf.reindex σ) m u' r := by
  unfold compareField
  rw [realOneof_reindex, movedExistingMemberCount_upd h]
  rfl

/-- The key and the value of a map entry are found by number. -/
theorem compareMapEntries_orig (hu : m.Unique) (h : Reordered m m') (path : String) :
    compareMapEntries path m u r = compareMapEntries path m' u r := by
  obtain ⟨σ, hfields⟩ := h.fields
  unfold compareMapEntries
  apply List.flatMap_congr
  intro p _
  have hrel := fieldsByNumber_related hu hfields p.1
  simp only
  generalize (fieldsByNumber m)[(p.1 : Int)]? = found,
    (fieldsByNumber m')[(p.1 : Int)]? = found' at hrel
  cases hrel with
  | none => rfl
  | some hf =>
    subst hf
    cases (fieldsByNumber u)[(p.1 : Int)]? <;> rfl

/-- The same when the update is reordered. -/
theorem compareMapEntries_upd (hu : u.Unique) (h : Reordered u u') (path : String) :
    compareMapEntries path m u r = compareMapEntries path m u' r := by
  obtain ⟨σ, hfields⟩ := h.fields
  unfold compareMapEntries
  apply List.flatMap_congr
  intro p _
  have hrel := fieldsByNumber_related hu hfields p.1
  simp only
  generalize (fieldsByNumber u)[(p.1 : Int)]? = found,
    (fieldsByNumber u')[(p.1 : Int)]? = found' at hrel
  cases hrel with
  | none => rfl
  | some hf =>
    subst hf
    cases (fieldsByNumber m)[(p.1 : Int)]? <;> rfl

/-- The same numbers are in use. -/
theorem contains_fieldsByNumber (h : SameFields σ m m') (number : Int) :
    (fieldsByNumber m).contains number = (fieldsByNumber m').contains number := by
  have hperm := h.map_perm (f := fun f => f.number.getD 0) (g := fun f => f.number.getD 0)
    fun a b hab => by rw [hab, number_reindex]
  rw [Bool.eq_iff_iff, fieldsByNumber, fieldsByNumber, keyed_eq, keyed_eq, contains_ofMembers,
    contains_ofMembers, hperm.mem_iff]

/-- Whichever order the original's fields have, the comparison of the fields is the same. They are
visited by number, and the indices of their oneofs are renamed together. -/
theorem compareFields_orig (hu : m.Unique) (h : Reordered m m') (path : String) :
    compareFields path m u r = compareFields path m' u r := by
  obtain ⟨σ, hfields⟩ := h.fields
  have hkept : ∀ f f', f' = FieldDescriptorProto.reindex σ f → f'.number.getD 0 = f.number.getD 0 := by
    rintro f _ rfl
    rfl
  unfold compareFields
  simp only [contains_fieldsByNumber hfields]
  congr 1
  have hunique := hu
  cases hu with
  | mk field nestedType enumType nested =>
    refine flatMap_related hfields hkept field fun num of of' hof => ?_
    subst hof
    simp only
    -- A field that is gone is judged by its oneof, one that is kept by its partner.
    cases (fieldsByNumber u)[num]? with
    | none =>
      rw [realOneof_reindex, oneofHasSurvivingPlainMember_orig hfields]
      rfl
    | some uf =>
      have hrel := findMapEntry_related (σ := σ) hunique h of
      simp only
      -- Map fields are compared through their entries, when both sides have one.
      generalize hentry : findMapEntry m of = entry,
        findMapEntry m' (of.reindex σ) = entry' at hrel
      cases hrel with
      | none => exact compareField_orig hfields _ of uf
      | some hr =>
        cases findMapEntry u uf with
        | none => exact compareField_orig hfields _ of uf
        | some ue => exact compareMapEntries_orig (nested _ (findMapEntry_mem hentry)) hr _

/-- Whichever order the update's fields have, the comparison of the fields is the same. Both loops
reach them by number only. -/
theorem compareFields_upd (hu : u.Unique) (h : Reordered u u') (path : String) :
    compareFields path m u r = compareFields path m u' r := by
  obtain ⟨σ, hfields⟩ := h.fields
  have hkept : ∀ f f', f' = FieldDescriptorProto.reindex σ f → f'.number.getD 0 = f.number.getD 0 := by
    rintro f _ rfl
    rfl
  unfold compareFields
  have hunique := hu
  cases hu with
  | mk field nestedType enumType nested =>
    -- The loop over the original's fields, then the one over the fields that are new.
    refine congrArg₂ (· ++ ·) ?_ ?_
    · apply List.flatMap_congr
      intro p _
      have hrel := fieldsByNumber_related hunique hfields p.1
      simp only
      generalize (fieldsByNumber u)[p.1]? = found, (fieldsByNumber u')[p.1]? = found' at hrel
      cases hrel with
      | none =>
        simp only
        rw [oneofHasSurvivingPlainMember_upd hfields]
      | @some uf _ huf =>
        subst huf
        have hrel := findMapEntry_related (σ := σ) hunique h uf
        simp only
        generalize hentry : findMapEntry u uf = entry,
          findMapEntry u' (uf.reindex σ) = entry' at hrel
        cases hrel with
        | none => cases findMapEntry m p.2 <;> exact compareField_upd hfields _ p.2 uf
        | some hr =>
          cases findMapEntry m p.2 with
          | none => exact compareField_upd hfields _ p.2 uf
          | some oe => exact compareMapEntries_upd (nested _ (findMapEntry_mem hentry)) hr _
    · refine flatMap_related hfields hkept field fun num uf uf' huf => ?_
      subst huf
      simp only [realOneof_reindex]
      rfl

end FieldOrder

/-! ## The order of everything else -/

section Order

variable {front path : String} {r : Resolver}

/-- Oneofs are compared by name. -/
theorem compareOneofs_perm {l l' k k' : List OneofDescriptorProto} (hl : l.Perm l')
    (hk : k.Perm k') : compareOneofs front l k = compareOneofs front l' k' := by
  unfold compareOneofs
  have hdeclared : ∀ {a a' : List OneofDescriptorProto}, a.Perm a' → ∀ name,
      name ∈ (a.filter fun o => ¬ (o.name.getD "").startsWith "_").map (fun o => o.name.getD "") ↔
        name ∈ (a'.filter fun o => ¬ (o.name.getD "").startsWith "_").map fun o => o.name.getD "" :=
    fun ha _ => ((ha.filter _).map _).mem_iff
  simp only
  rw [missing_congr (hdeclared hl) (hdeclared hk), missing_congr (hdeclared hk) (hdeclared hl)]

/-- Reserved ranges are compared as sets. -/
theorem compareReserved_perm {l l' k k' : List ReservedRange} (hl : l.Perm l') (hk : k.Perm k') :
    compareReserved path l k = compareReserved path l' k' := by
  have hnumbers : ∀ {a a' : List ReservedRange}, a.Perm a' → ∀ n,
      n ∈ (reservedNumbers a).map id ↔ n ∈ (reservedNumbers a').map id := by
    intro a a' ha n
    rw [List.map_id, List.map_id]
    exact (ha.flatMap_right _).mem_iff
  unfold compareReserved
  rw [missing_congr (hnumbers hk) (hnumbers hl)]

/-- So are reserved names. -/
theorem compareReservedNames_perm {l l' k k' : List String} (hl : l.Perm l') (hk : k.Perm k') :
    compareReservedNames path l k = compareReservedNames path l' k' := by
  unfold compareReservedNames
  rw [missing_congr (fun _ => (hk.map id).mem_iff) fun _ => (hl.map id).mem_iff]

/-- Values are matched by number, so that not even an alias makes their order matter. -/
theorem compareEnumValues_perm {e e' u u' : EnumDescriptorProto} (he : e.value.Perm e'.value)
    (hu : u.value.Perm u'.value) : compareEnumValues path e u = compareEnumValues path e' u' := by
  unfold compareEnumValues
  simp only
  rw [missing_congr (fun _ => (he.map _).mem_iff) fun _ => (hu.map _).mem_iff,
    missing_congr (fun _ => (hu.map _).mem_iff) fun _ => (he.map _).mem_iff]

/-- The same enum names occur. -/
theorem enumName_iff {l l' : List EnumDescriptorProto} (h : Rearranged EnumReordered l l')
    (name : String) :
    name ∈ l.map (fun e => e.name.getD "") ↔ name ∈ l'.map fun e => e.name.getD "" :=
  (h.map_perm fun _ _ hab => by rw [hab.name]).mem_iff

/-- Enums are matched by name, and a matched pair is compared by its values. -/
theorem compareEnums_orig {l l' k : List EnumDescriptorProto} (h : Rearranged EnumReordered l l')
    (hnodup : (l.map fun e => e.name.getD "").Nodup) :
    compareEnums front l k = compareEnums front l' k := by
  unfold compareEnums
  simp only
  rw [missing_congr (fun _ => Iff.rfl) (enumName_iff h)]
  congr 1
  refine flatMap_related h (fun _ _ hab => by rw [hab.name]) hnodup fun name e e' he => ?_
  simp only
  cases (keyed (fun e => e.name.getD "") k)[name]? with
  | none => rfl
  | some u => exact compareEnumValues_perm he.value (.refl _)

/-- The same when the update is reordered. -/
theorem compareEnums_upd {l k k' : List EnumDescriptorProto} (h : Rearranged EnumReordered k k')
    (hnodup : (k.map fun e => e.name.getD "").Nodup) :
    compareEnums front l k = compareEnums front l k' := by
  have hkept : ∀ e e' : EnumDescriptorProto, EnumReordered e e' →
      e'.name.getD "" = e.name.getD "" := fun _ _ hab => by rw [hab.name]
  unfold compareEnums
  simp only
  rw [missing_congr (enumName_iff h) fun _ => Iff.rfl]
  congr 1
  apply List.flatMap_congr
  intro p _
  have hrel : Option.Rel EnumReordered (keyed (fun e => e.name.getD "") k)[p.1]?
      (keyed (fun e => e.name.getD "") k')[p.1]? := getElem?_related h hkept hnodup p.1
  generalize (keyed (fun e : EnumDescriptorProto => e.name.getD "") k)[p.1]? = found,
    (keyed (fun e : EnumDescriptorProto => e.name.getD "") k')[p.1]? = found' at hrel
  cases hrel with
  | none => rfl
  | some he => exact compareEnumValues_perm (.refl _) he.value

/-! ## Messages -/

/-- The same message names occur. -/
theorem messageName_iff {l l' : List DescriptorProto} (h : Rearranged Reordered l l')
    (name : String) :
    name ∈ l.map (fun m => m.name.getD "") ↔ name ∈ l'.map fun m => m.name.getD "" :=
  (h.map_perm fun _ _ hab => by rw [hab.name_eq]).mem_iff

/-- Two lists of messages are compared alike, whichever order the originals have … -/
theorem compareMessages_orig {l l' k : List DescriptorProto} (h : Rearranged Reordered l l')
    (hnodup : (l.map fun m => m.name.getD "").Nodup)
    (hsame : ∀ m ∈ l, ∀ m', Reordered m m' → compareMessage r m = compareMessage r m') :
    compareMessages front (compareEach r l) k = compareMessages front (compareEach r l') k := by
  rw [compareMessages_eq, compareMessages_eq, missing_congr (fun _ => Iff.rfl) (messageName_iff h)]
  congr 1
  refine flatMap_related h.with_mem (fun _ _ hab => by rw [hab.2.name_eq]) hnodup
    fun name m m' hm => ?_
  simp only
  rw [hsame m hm.1 m' hm.2]

/-- … and whichever order the updates have. -/
theorem compareMessages_upd {l k k' : List DescriptorProto} (h : Rearranged Reordered k k')
    (hnodup : (k.map fun m => m.name.getD "").Nodup)
    (hsame : ∀ m ∈ l, ∀ path, ∀ u ∈ k, ∀ u', Reordered u u' →
      compareMessage r m path u = compareMessage r m path u') :
    compareMessages front (compareEach r l) k = compareMessages front (compareEach r l) k' := by
  rw [compareMessages_eq, compareMessages_eq, missing_congr (messageName_iff h) fun _ => Iff.rfl]
  congr 1
  apply List.flatMap_congr
  intro p hp
  have hm : p.2 ∈ l :=
    (mem_of_getElem? (Std.ExtTreeMap.mem_toList_iff_getElem?_eq_some.mp hp)).1
  have hkept : ∀ a b : DescriptorProto, a ∈ k ∧ Reordered a b → b.name.getD "" = a.name.getD "" :=
    fun _ _ hab => by rw [hab.2.name_eq]
  have hrel := getElem?_related h.with_mem hkept hnodup p.1
  simp only [keyed_eq]
  generalize (ofMembers (fun m : DescriptorProto => m.name.getD "") k)[p.1]? = found,
    (ofMembers (fun m : DescriptorProto => m.name.getD "") k')[p.1]? = found' at hrel
  cases hrel with
  | none => rfl
  | some hu => exact hsame p.2 hm _ _ hu.1 _ hu.2

variable {m m' u u' : DescriptorProto}

/-- A message is compared as its reordering … -/
theorem compareMessage_orig (hu : m.Unique) :
    ∀ m', Reordered m m' → compareMessage r m = compareMessage r m' := by
  induction hu with
  | @mk m field nestedType enumType nested ih =>
    intro m' h
    have hunique : m.Unique := .mk field nestedType enumType nested
    funext path upd
    have hmessages : compareMessages path (compareEach r m.nestedMessages) upd.nestedMessages =
        compareMessages path (compareEach r m'.nestedMessages) upd.nestedMessages :=
      compareMessages_orig h.nestedMessages hunique.nestedMessages
        fun n hn => ih n (List.mem_of_mem_filter hn)
    rw [compareMessage_eq, compareMessage_eq, compareFields_orig hunique h, hmessages,
      compareEnums_orig h.enums enumType]
    cases h with
    | mk σ nested name _ _ _ _ _ _ oneofDecl _ reservedRange reservedName =>
      rw [compareOneofs_perm oneofDecl.perm (.refl _), compareReserved_perm reservedRange (.refl _),
        compareReservedNames_perm reservedName (.refl _)]

/-- … and with a message as with its reordering. -/
theorem compareMessage_upd (m : DescriptorProto) :
    ∀ path u, u.Unique → ∀ u', Reordered u u' →
      compareMessage r m path u = compareMessage r m path u' := by
  apply DescriptorProto.nestedInduction (P := fun m => ∀ path u, u.Unique → ∀ u', Reordered u u' →
    compareMessage r m path u = compareMessage r m path u')
  intro m ih path u hu u' h
  -- Nested messages are matched by name, so each meets its reordered partner.
  have hmessages : compareMessages path (compareEach r m.nestedMessages) u.nestedMessages =
      compareMessages path (compareEach r m.nestedMessages) u'.nestedMessages := by
    apply compareMessages_upd h.nestedMessages hu.nestedMessages
    intro n hn path k hk k' hkk'
    cases hu with
    | mk _ _ _ nested =>
      exact ih n (List.mem_of_mem_filter hn) path k (nested k (List.mem_of_mem_filter hk)) k' hkk'
  have henums : compareEnums path m.enumType u.enumType =
      compareEnums path m.enumType u'.enumType := by
    cases hu with
    | mk _ _ enumType _ => exact compareEnums_upd h.enums enumType
  rw [compareMessage_eq, compareMessage_eq, compareFields_upd hu h, hmessages, henums]
  cases h with
  | mk σ nested name _ _ _ _ _ _ oneofDecl _ reservedRange reservedName =>
    rw [compareOneofs_perm (.refl _) oneofDecl.perm, compareReserved_perm (.refl _) reservedRange,
      compareReservedNames_perm (.refl _) reservedName]

end Order

/-! ## Enum names -/

/-- The walk over a list of messages, as one expression. -/
theorem collectEnumNamesInMessages_eq (ms : List DescriptorProto) :
    collectEnumNamesInMessages ms = ms.flatMap collectEnumNamesInMessage := by
  induction ms with
  | nil => rfl
  | cons m ms ih => rw [collectEnumNamesInMessages, ih, List.flatMap_cons]

/-- The enum names of a message are its own and those of its nested messages. -/
theorem mem_collectEnumNamesInMessage {m : DescriptorProto} {name : String} :
    name ∈ collectEnumNamesInMessage m ↔ name ∈ m.enumType.map (fun e => e.name.getD "") ∨
      ∃ n ∈ m.nestedType, name ∈ collectEnumNamesInMessage n := by
  cases m
  rw [collectEnumNamesInMessage, collectEnumNamesInMessages_eq, List.mem_append, List.mem_flatMap]

/-- The enum names of a file are its own and those of its messages. -/
theorem mem_collectEnumNames {f : FileDescriptorProto} {name : String} :
    name ∈ collectEnumNames f ↔ name ∈ f.enumType.map (fun e => e.name.getD "") ∨
      ∃ n ∈ f.messageType, name ∈ collectEnumNamesInMessage n := by
  rw [collectEnumNames, collectEnumNamesInMessages_eq, List.mem_append, List.mem_flatMap]

/-- Reordering keeps the set of enum names at every depth, by induction on the nesting. -/
theorem collectEnumNamesInMessage_reordered (name : String) : ∀ m m' : DescriptorProto,
    Reordered m m' → (name ∈ collectEnumNamesInMessage m ↔ name ∈ collectEnumNamesInMessage m') := by
  apply DescriptorProto.nestedInduction (P := fun m => ∀ m', Reordered m m' →
    (name ∈ collectEnumNamesInMessage m ↔ name ∈ collectEnumNamesInMessage m'))
  intro m ih m' h
  rw [mem_collectEnumNamesInMessage, mem_collectEnumNamesInMessage, enumName_iff h.enums]
  exact or_congr Iff.rfl (h.nested.with_mem.exists_iff fun n n' hn => ih n hn.1 n' hn.2)

/-! ## Files -/

section Files

variable {f g : FileDescriptorProto}

/-- Hence a reordered file resolves type names to enums as before. -/
theorem FileReordered.enumNames (h : FileReordered f g) (name : String) :
    name ∈ collectEnumNames f ↔ name ∈ collectEnumNames g := by
  rw [mem_collectEnumNames, mem_collectEnumNames, enumName_iff h.enumType]
  exact or_congr Iff.rfl
    (h.messageType.exists_iff fun n n' hn => collectEnumNamesInMessage_reordered name n n' hn)

/-- A file differs from another as its reordering does … -/
theorem compare_orig (hu : f.Unique) (h : FileReordered f g) (file : FileDescriptorProto) :
    compare f file = compare g file := by
  unfold compare
  have hagrees : Resolver.Agrees
      ⟨collectEnumNames f, collectEnumNames file, f.syntax? ≠ some "proto3",
        file.syntax? ≠ some "proto3"⟩
      ⟨collectEnumNames g, collectEnumNames file, g.syntax? ≠ some "proto3",
        file.syntax? ≠ some "proto3"⟩ :=
    ⟨h.enumNames, fun _ => Iff.rfl, by rw [h.syntax?], rfl⟩
  simp only [compareEach_agrees hagrees, h.package]
  rw [compareEnums_orig h.enumType hu.enumType,
    compareMessages_orig h.messageType hu.messageType fun m hm => compareMessage_orig (hu.message m hm)]

/-- … and another file differs from it as from its reordering. -/
theorem compare_upd (hu : f.Unique) (h : FileReordered f g) (file : FileDescriptorProto) :
    compare file f = compare file g := by
  unfold compare
  have hagrees : Resolver.Agrees
      ⟨collectEnumNames file, collectEnumNames f, file.syntax? ≠ some "proto3",
        f.syntax? ≠ some "proto3"⟩
      ⟨collectEnumNames file, collectEnumNames g, file.syntax? ≠ some "proto3",
        g.syntax? ≠ some "proto3"⟩ :=
    ⟨fun _ => Iff.rfl, h.enumNames, rfl, by rw [h.syntax?]⟩
  simp only [compareEach_agrees hagrees, h.package]
  rw [compareEnums_upd h.enumType hu.enumType,
    compareMessages_upd h.messageType hu.messageType
      fun m _ path u hu' => compareMessage_upd m path u (hu.message u hu')]

end Files

end KrabkaRegistry.Format.Protobuf
