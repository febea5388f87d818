import KrabkaRegistry.Format.Diff
import KrabkaRegistry.Library.KeyedMap

/-!
# Laws of the Protobuf Comparison

The differ goes through maps by name and by number.  Here are its equations in terms of those
maps, what it reads of the resolver, and that a file has no differences from itself.
-/

namespace KrabkaRegistry.Format.Protobuf

open KrabkaRegistry.Library.KeyedMap

/-! ## Messages and the messages below them -/

mutual

/-- What holds of a message when it holds of those nested in it holds of all. -/
theorem DescriptorProto.nestedInduction {P : DescriptorProto → Prop}
    (h : ∀ m, (∀ n ∈ m.nestedType, P n) → P m) : ∀ m, P m
  | ⟨_, _, _, nestedType, _, _, _, _, _, _⟩ => h _ (DescriptorProto.nestedInductionAll h nestedType)

/-- The induction over a message and the lists of messages in it. -/
theorem DescriptorProto.nestedInductionAll {P : DescriptorProto → Prop}
    (h : ∀ m, (∀ n ∈ m.nestedType, P n) → P m) : ∀ ms : List DescriptorProto, ∀ n ∈ ms, P n
  | [] => fun _ hn => absurd hn List.not_mem_nil
  | m :: ms => fun n hn => by
    have hm := DescriptorProto.nestedInduction h m
    have hms := DescriptorProto.nestedInductionAll h ms
    rcases List.mem_cons.mp hn with heq | hn
    · exact heq ▸ hm
    · exact hms n hn

end

/-! ## Maps by name and by number -/

section Keyed

variable {κ ν ν' : Type} [Ord κ] [Std.TransOrd κ] [Std.LawfulEqOrd κ]

omit [Std.TransOrd κ] [Std.LawfulEqOrd κ] in
/-- Collecting members by key, as a map built from a list. -/
theorem keyed_eq (key : ν → κ) (members : List ν) : keyed key members = ofMembers key members :=
  rfl

omit [Std.LawfulEqOrd κ] in
/-- The keys of one map that the other does not have, in order. -/
theorem missing_eq (a : BTreeMap κ ν) (b : BTreeMap κ ν') :
    missing a b = a.keys.filter fun k => !b.contains k := by
  unfold missing
  rw [← Std.ExtTreeMap.map_fst_toList_eq_keys]
  induction a.toList with
  | nil => rfl
  | cons p l ih =>
    rw [List.filterMap_cons, List.map_cons, List.filter_cons, ih]
    cases b.contains p.1 <;> rfl

/-- Which keys are missing depends on the keys only. -/
theorem missing_congr {μ μ' : Type} {key : ν → κ} {key' : ν' → κ} {l : List ν} {l' : List ν'}
    {other : μ → κ} {other' : μ' → κ} {m : List μ} {m' : List μ'}
    (hl : ∀ k, k ∈ l.map key ↔ k ∈ l'.map key') (hm : ∀ k, k ∈ m.map other ↔ k ∈ m'.map other') :
    missing (keyed key l) (keyed other m) = missing (keyed key' l') (keyed other' m') := by
  have hkeys : (ofMembers key l).keys = (ofMembers key' l').keys := keys_congr hl
  rw [missing_eq, missing_eq]
  show (ofMembers key l).keys.filter _ = (ofMembers key' l').keys.filter _
  rw [hkeys]
  apply List.filter_congr
  intro k _
  have hcontains : (keyed other m).contains k = (keyed other' m').contains k := by
    rw [Bool.eq_iff_iff, keyed_eq, keyed_eq, contains_ofMembers, contains_ofMembers]
    exact hm k
  rw [hcontains]

/-- A map misses none of its own keys. -/
theorem missing_self (a : BTreeMap κ ν) : missing a a = [] := by
  rw [missing_eq, List.filter_eq_nil_iff]
  intro k hk
  rw [Std.ExtTreeMap.mem_keys, Std.ExtTreeMap.mem_iff_contains] at hk
  simp [hk]

end Keyed

/-! ## What a comparison reads of the resolver -/

/-- Two resolvers that take the same names for enums, and the same files for proto2. -/
structure Resolver.Agrees (r r' : Resolver) : Prop where
  origEnums : ∀ name, name ∈ r.origEnums ↔ name ∈ r'.origEnums
  updEnums : ∀ name, name ∈ r.updEnums ↔ name ∈ r'.updEnums
  origProto2 : r.origProto2 = r'.origProto2
  updProto2 : r.updProto2 = r'.updProto2

section Agrees

variable {r r' : Resolver}

/-- The kind of a field depends on the enum names as a set. -/
theorem Resolver.kind_congr {names names' : List String} (h : ∀ name, name ∈ names ↔ name ∈ names')
    (f : FieldDescriptorProto) : Resolver.kind names f = Resolver.kind names' f := by
  unfold Resolver.kind
  simp only [h]

/-- Resolvers with the same enum names give the original's fields the same kinds. -/
theorem Resolver.Agrees.origKind (h : r.Agrees r') (f : FieldDescriptorProto) :
    r.origKind f = r'.origKind f := Resolver.kind_congr h.origEnums f

/-- They give the update's fields the same kinds. -/
theorem Resolver.Agrees.updKind (h : r.Agrees r') (f : FieldDescriptorProto) :
    r.updKind f = r'.updKind f := Resolver.kind_congr h.updEnums f

/-- Two fields are compared by their kinds, so resolvers that agree compare them alike. -/
theorem compareField_agrees (h : r.Agrees r') (path : String) (of uf : FieldDescriptorProto)
    (orig upd : DescriptorProto) :
    compareField path of uf orig upd r = compareField path of uf orig upd r' := by
  simp only [compareField, h.origKind, h.updKind, h.origProto2, h.updProto2]

/-- Map entries are compared through their key and value fields. -/
theorem compareMapEntries_agrees (h : r.Agrees r') (path : String) (orig upd : DescriptorProto) :
    compareMapEntries path orig upd r = compareMapEntries path orig upd r' := by
  simp only [compareMapEntries, h.origKind, h.updKind]

/-- All fields of a message are compared alike under resolvers that agree. -/
theorem compareFields_agrees (h : r.Agrees r') (path : String) (orig upd : DescriptorProto) :
    compareFields path orig upd r = compareFields path orig upd r' := by
  simp only [compareFields, compareField_agrees h, compareMapEntries_agrees h]

end Agrees

/-! ## Comparisons of messages -/

variable (r : Resolver)

/-- The walk over nested messages, as a map. -/
theorem compareEach_eq_map (ms : List DescriptorProto) :
    compareEach r ms = ms.map fun m => ⟨m, compareMessage r m⟩ := by
  induction ms with
  | nil => rfl
  | cons m ms ih => rw [compareEach, ih, List.map_cons]

/-- The nested messages that are compared as such. -/
def DescriptorProto.nestedMessages (m : DescriptorProto) : List DescriptorProto :=
  m.nestedType.filter fun n => !n.isMapEntry

/-- What a message is compared by, in the order of the reports. -/
theorem compareMessage_eq (orig : DescriptorProto) (path : String) (upd : DescriptorProto) :
    compareMessage r orig path upd =
      compareFields path orig upd r ++ compareOneofs path orig.oneofDecl upd.oneofDecl ++
        compareReserved path orig.reservedRange upd.reservedRange ++
        compareReservedNames path orig.reservedName upd.reservedName ++
        compareMessages path (compareEach r orig.nestedMessages) upd.nestedMessages ++
        compareEnums path orig.enumType upd.enumType := by
  have hfilter : (compareEach r orig.nestedType).filter (fun c => !c.message.isMapEntry) =
      compareEach r orig.nestedMessages := by
    rw [compareEach_eq_map, compareEach_eq_map, List.filter_map]
    rfl
  rw [← hfilter]
  cases orig
  rw [compareMessage]
  rfl

/-- The messages of a list by name, each ready to be compared. -/
theorem keyed_compareEach (ms : List DescriptorProto) :
    keyed (fun c => c.message.name.getD "") (compareEach r ms) =
      (keyed (fun m : DescriptorProto => m.name.getD "") ms).map
        fun _ m => ⟨m, compareMessage r m⟩ := by
  rw [compareEach_eq_map]
  exact ofMembers_map fun _ _ => rfl

/-- The comparison of two lists of messages, by their names. -/
theorem compareMessages_eq (front : String) (orig upd : List DescriptorProto) :
    compareMessages front (compareEach r orig) upd =
      ((keyed (fun m => m.name.getD "") orig).toList.flatMap fun p =>
        match (keyed (fun m => m.name.getD "") upd)[p.1]? with
        | none => [⟨.messageRemoved, join front p.1⟩]
        | some um => compareMessage r p.2 (join front p.1) um) ++
      (missing (keyed (fun m => m.name.getD "") upd) (keyed (fun m => m.name.getD "") orig)).map
        fun name => ⟨.messageAdded, join front name⟩ := by
  unfold compareMessages
  simp only [keyed_compareEach, Std.ExtTreeMap.toList_map, List.flatMap_map]
  congr 2
  rw [missing_eq, missing_eq]
  simp only [Std.ExtTreeMap.contains_map]

/-- A comparison depends on what the resolver says only. -/
theorem compareMessage_agrees {r r' : Resolver} (h : r.Agrees r') :
    ∀ orig, compareMessage r orig = compareMessage r' orig := by
  apply DescriptorProto.nestedInduction
  intro m ih
  have heach : compareEach r m.nestedMessages = compareEach r' m.nestedMessages := by
    rw [compareEach_eq_map, compareEach_eq_map]
    apply List.map_congr_left
    intro n hn
    rw [ih n (List.mem_of_mem_filter hn)]
  funext path upd
  rw [compareMessage_eq, compareMessage_eq, compareFields_agrees h, heach]

/-- Resolvers with the same names compare whole messages alike. -/
theorem compareEach_agrees {r r' : Resolver} (h : r.Agrees r') (ms : List DescriptorProto) :
    compareEach r ms = compareEach r' ms := by
  rw [compareEach_eq_map, compareEach_eq_map]
  exact List.map_congr_left fun m _ => by rw [compareMessage_agrees h]

/-! ## No differences from itself -/

/-- A type does not differ from itself. -/
theorem compareFieldTypes_self (path : String) (kind : FieldKind) (typeName : Option String) :
    compareFieldTypes path kind kind typeName typeName = [] := by
  simp [compareFieldTypes]

/-- No oneof is new or gone between a message and itself. -/
theorem compareOneofs_self (front : String) (oneofs : List OneofDescriptorProto) :
    compareOneofs front oneofs oneofs = [] := by
  simp [compareOneofs, missing_self]

/-- No value of an enum is new, gone or renamed between the enum and itself. -/
theorem compareEnumValues_self (path : String) (e : EnumDescriptorProto) :
    compareEnumValues path e e = [] := by
  simp [compareEnumValues, missing_self]

/-- Every enum finds itself by name and does not differ from what it finds. -/
theorem compareEnums_self (front : String) (enums : List EnumDescriptorProto) :
    compareEnums front enums enums = [] := by
  simp only [compareEnums, missing_self, List.map_nil, List.append_nil, List.flatMap_eq_nil_iff]
  intro p hp
  rw [Std.ExtTreeMap.mem_toList_iff_getElem?_eq_some.mp hp]
  exact compareEnumValues_self _ _

variable {r}

section Self

variable (hr : ∀ f, r.origKind f = r.updKind f)

include hr

/-- A field is compatible with itself in its own message: it is in the oneof it was in. -/
theorem compareField_self (path : String) (f : FieldDescriptorProto) (m : DescriptorProto) :
    compareField path f f m m r = [] := by
  cases hf : realOneof f <;> simp [compareField, hf, hr f, compareFieldTypes_self]

/-- So is the entry of a map. -/
theorem compareMapEntries_self (path : String) (entry : DescriptorProto) :
    compareMapEntries path entry entry r = [] := by
  unfold compareMapEntries
  rw [List.flatMap_eq_nil_iff]
  intro p _
  cases hget : (fieldsByNumber entry)[(p.1 : Int)]? with
  | none => simp [hget]
  | some f => simp [hget, hr f, compareFieldTypes_self]

/-- So are the fields of a message, none of them being new or gone. -/
theorem compareFields_self (path : String) (m : DescriptorProto) :
    compareFields path m m r = [] := by
  unfold compareFields
  simp only [List.append_eq_nil_iff, List.flatMap_eq_nil_iff]
  constructor
  · intro p hp
    rw [Std.ExtTreeMap.mem_toList_iff_getElem?_eq_some.mp hp]
    simp only
    cases findMapEntry m p.2 with
    | none => exact compareField_self hr _ _ _
    | some entry => exact compareMapEntries_self hr _ _
  · intro p hp
    have hget := Std.ExtTreeMap.mem_toList_iff_getElem?_eq_some.mp hp
    have hcontains : (fieldsByNumber m).contains p.1 = true := by
      rw [← Std.ExtTreeMap.isSome_getElem?_eq_contains, hget]
      rfl
    rw [if_pos hcontains]

/-- A message does not differ from itself, by induction on the nesting. -/
theorem compareMessage_self : ∀ m path, compareMessage r m path m = [] := by
  apply DescriptorProto.nestedInduction (P := fun m => ∀ path, compareMessage r m path m = [])
  intro m ih path
  have hnested : compareMessages path (compareEach r m.nestedMessages) m.nestedMessages = [] := by
    rw [compareMessages_eq, missing_self, List.map_nil, List.append_nil, List.flatMap_eq_nil_iff]
    intro p hp
    have hget := Std.ExtTreeMap.mem_toList_iff_getElem?_eq_some.mp hp
    rw [hget]
    exact ih p.2 (List.mem_of_mem_filter (mem_of_getElem? hget).1) _
  rw [compareMessage_eq, compareFields_self hr, compareOneofs_self, hnested, compareEnums_self]
  simp [compareReserved, compareReservedNames, missing_self]

end Self

/-- A file has no differences from itself. -/
theorem compare_self (f : FileDescriptorProto) : compare f f = [] := by
  unfold compare
  simp only [ne_eq, not_true_eq_false, if_false, List.nil_append, compareEnums_self,
    List.append_nil]
  rw [compareMessages_eq, missing_self, List.map_nil, List.append_nil, List.flatMap_eq_nil_iff]
  intro p hp
  rw [Std.ExtTreeMap.mem_toList_iff_getElem?_eq_some.mp hp]
  exact compareMessage_self (fun _ => rfl) _ _

/-! ## The messages of both files -/

/-- The resolver of a comparison of two files. -/
def Resolver.ofFiles (original update : FileDescriptorProto) : Resolver :=
  ⟨collectEnumNames original, collectEnumNames update, original.syntax? ≠ some "proto3",
    update.syntax? ≠ some "proto3"⟩

/-- The members of one name in two lists of messages. -/
def SameNamed (orig upd : List DescriptorProto) (m u : DescriptorProto) : Prop :=
  ∃ name : String, (keyed (fun n : DescriptorProto => n.name.getD "") orig)[name]? = some m ∧
    (keyed (fun n : DescriptorProto => n.name.getD "") upd)[name]? = some u

/-- A message that both files have: both versions stand under the same names, from the top of the
file down.  The synthetic entries of map fields are not messages of the file. -/
inductive InBoth (original update : FileDescriptorProto) : DescriptorProto → DescriptorProto → Prop
  | top {m u : DescriptorProto} (h : SameNamed original.messageType update.messageType m u) :
    InBoth original update m u
  | nested {m u n v : DescriptorProto} (h : InBoth original update m u)
    (hn : SameNamed m.nestedMessages u.nestedMessages n v) : InBoth original update n v

/-- With distinct names a message is the one its name finds. -/
theorem SameNamed.of_mem {orig upd : List DescriptorProto} {m u : DescriptorProto}
    (horig : (orig.map fun n => n.name.getD "").Nodup) (hm : m ∈ orig)
    (hupd : (upd.map fun n => n.name.getD "").Nodup) (hu : u ∈ upd)
    (hname : u.name.getD "" = m.name.getD "") : SameNamed orig upd m u :=
  ⟨m.name.getD "", getElem?_of_mem horig hm, hname ▸ getElem?_of_mem hupd hu⟩

/-- The differences of a pair of nested messages are among those of the messages around them. -/
theorem mem_compareMessages {orig upd : List DescriptorProto} {m u : DescriptorProto}
    (h : SameNamed orig upd m u) (front : String) :
    ∃ path, ∀ d ∈ compareMessage r m path u, d ∈ compareMessages front (compareEach r orig) upd := by
  obtain ⟨name, hm, hu⟩ := h
  refine ⟨join front name, fun d hd => ?_⟩
  rw [compareMessages_eq, List.mem_append, List.mem_flatMap]
  refine .inl ⟨(name, m), Std.ExtTreeMap.mem_toList_iff_getElem?_eq_some.mpr hm, ?_⟩
  simp only [hu]
  exact hd

/-- The differences of a message of both files are differences of the files. -/
theorem InBoth.differences {original update : FileDescriptorProto} {m u : DescriptorProto}
    (h : InBoth original update m u) :
    ∃ path, ∀ d ∈ compareMessage (.ofFiles original update) m path u,
      d ∈ compare original update := by
  induction h with
  | top h =>
    obtain ⟨path, hpath⟩ := mem_compareMessages h ""
    refine ⟨path, fun d hd => ?_⟩
    rw [compare, List.mem_append, List.mem_append]
    exact .inl (.inr (hpath d hd))
  | nested _ hn ih =>
    obtain ⟨path, hpath⟩ := ih
    obtain ⟨path', hpath'⟩ := mem_compareMessages hn path
    refine ⟨path', fun d hd => hpath d ?_⟩
    simp only [compareMessage_eq, List.mem_append]
    exact .inl (.inr (hpath' d hd))

/-- The field of a number in both versions of a message is compared, unless both are maps. -/
theorem mem_compareField {m u : DescriptorProto} {number : Int} {of uf : FieldDescriptorProto}
    (hof : (fieldsByNumber m)[number]? = some of) (huf : (fieldsByNumber u)[number]? = some uf)
    (hmaps : findMapEntry m of = none ∨ findMapEntry u uf = none) {path : String} {d : Difference}
    (hd : d ∈ compareField (numbered path number) of uf m u r) :
    d ∈ compareMessage r m path u := by
  simp only [compareMessage_eq, List.mem_append]
  refine .inl (.inl (.inl (.inl (.inl ?_))))
  rw [compareFields, List.mem_append, List.mem_flatMap]
  refine .inl ⟨(number, of), Std.ExtTreeMap.mem_toList_iff_getElem?_eq_some.mpr hof, ?_⟩
  simp only [huf]
  cases hentry : findMapEntry m of with
  | none => exact hd
  | some e =>
    rcases hmaps with hnone | hnone
    · rw [hentry] at hnone
      cases hnone
    · rw [hnone]
      exact hd

/-! ## An accepted update -/

section Check

variable {L : Libs} {reader writer : String} {readerRefs writerRefs : List ResolvedReference}
  {p q : ProtobufSchema}

/-- A check accepts when neither the files nor their references have an incompatible
difference. -/
theorem check_ok_iff {ofReferences : List Difference}
    (hreader : protobufParse L reader readerRefs = .ok p)
    (hwriter : protobufParse L writer writerRefs = .ok q)
    (hrefs : referenceDifferences L readerRefs writerRefs writerRefs = .ok ofReferences) :
    protobufCheck L reader writer readerRefs writerRefs = .ok () ↔
      ∀ d ∈ compare q.descriptor p.descriptor ++ ofReferences, isBackwardCompatible d.kind = true := by
  simp only [protobufCheck, parseFor, hreader, hwriter, hrefs, bind, Except.bind]
  split
  · rename_i hempty
    rw [List.isEmpty_iff, List.filter_eq_nil_iff] at hempty
    exact iff_of_true rfl fun d hd => by simpa using hempty d hd
  · rename_i hempty
    rw [List.isEmpty_iff, List.filter_eq_nil_iff] at hempty
    refine iff_of_false (fun h => by cases h) fun h => hempty fun d hd => ?_
    simp [h d hd]

/-- An accepted reader has only compatible differences from the writer. -/
theorem compatible_of_check
    (hcheck : protobufCheck L reader writer readerRefs writerRefs = .ok ())
    (hreader : protobufParse L reader readerRefs = .ok p)
    (hwriter : protobufParse L writer writerRefs = .ok q) :
    ∀ d ∈ compare q.descriptor p.descriptor, isBackwardCompatible d.kind = true := by
  cases hrefs : referenceDifferences L readerRefs writerRefs writerRefs with
  | error messages =>
    simp only [protobufCheck, parseFor, hreader, hwriter, hrefs, bind, Except.bind] at hcheck
    cases hcheck
  | ok ofReferences =>
    intro d hd
    exact (check_ok_iff hreader hwriter hrefs).mp hcheck d (List.mem_append_left _ hd)

end Check

end KrabkaRegistry.Format.Protobuf
