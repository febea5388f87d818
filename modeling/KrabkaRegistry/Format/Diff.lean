import KrabkaRegistry.Format.Parse

/-!
# Protobuf Compatibility

`format/protobuf/diff.rs`, `compat.rs` and the `check` of `format/protobuf/mod.rs`: the
structural differences of two files, and which of them a reader survives.

A message is compared by recursion on the original's nested messages.  Maps and sets are
traversed in key order, and of several members with one key the last counts.
-/

namespace KrabkaRegistry.Format.Protobuf

/-! ## Differences -/

inductive Kind where
  | fieldAdded
  | fieldRemoved
  | fieldScalarKindChanged (compatibleGroup : Bool)
  | fieldKindChanged
  | fieldNamedTypeChanged
  | fieldNumericLabelChanged
  | fieldStringOrBytesLabelChanged
  | requiredFieldAdded
  | requiredFieldRemoved
  | messageRemoved
  | messageAdded
  | oneofFieldMovedIn
  | oneofFieldMovedOut
  | oneofFieldAdded
  | oneofFieldRemoved
  | oneofAdded
  | oneofRemoved
  | reservedNumberAdded
  | reservedNameAdded
  | enumConstAdded
  | enumConstRemoved
  | enumAdded
  | enumRemoved
  | packageChanged
  deriving DecidableEq, Repr

/-- The derived `Debug` text. -/
def Kind.debug : Kind → String
  | .fieldAdded => "FieldAdded"
  | .fieldRemoved => "FieldRemoved"
  | .fieldScalarKindChanged compatibleGroup =>
    "FieldScalarKindChanged \x7b compatible_group: " ++ toString compatibleGroup ++ " \x7d"
  | .fieldKindChanged => "FieldKindChanged"
  | .fieldNamedTypeChanged => "FieldNamedTypeChanged"
  | .fieldNumericLabelChanged => "FieldNumericLabelChanged"
  | .fieldStringOrBytesLabelChanged => "FieldStringOrBytesLabelChanged"
  | .requiredFieldAdded => "RequiredFieldAdded"
  | .requiredFieldRemoved => "RequiredFieldRemoved"
  | .messageRemoved => "MessageRemoved"
  | .messageAdded => "MessageAdded"
  | .oneofFieldMovedIn => "OneofFieldMovedIn"
  | .oneofFieldMovedOut => "OneofFieldMovedOut"
  | .oneofFieldAdded => "OneofFieldAdded"
  | .oneofFieldRemoved => "OneofFieldRemoved"
  | .oneofAdded => "OneofAdded"
  | .oneofRemoved => "OneofRemoved"
  | .reservedNumberAdded => "ReservedNumberAdded"
  | .reservedNameAdded => "ReservedNameAdded"
  | .enumConstAdded => "EnumConstAdded"
  | .enumConstRemoved => "EnumConstRemoved"
  | .enumAdded => "EnumAdded"
  | .enumRemoved => "EnumRemoved"
  | .packageChanged => "PackageChanged"

structure Difference where
  kind : Kind
  path : String
  deriving DecidableEq, Repr

/-! ## Field kinds -/

/-- The wire-level kind that a field encodes. -/
inductive FieldKind where
  | scalar (type : FieldType)
  | enum
  | message
  deriving DecidableEq, Repr

/-- The leaf names of the enums of each file, and which of the files is proto2. -/
structure Resolver where
  origEnums : List String
  updEnums : List String
  origProto2 : Bool
  updProto2 : Bool

/-- The text after the last dot. -/
def leafName (name : String) : String :=
  String.ofList ((name.toList.splitOn '.').getLast?.getD [])

namespace Resolver

/-- A named type is an enum when its leaf name is one of the file's enums, and else a message. -/
def kind (enumNames : List String) (f : FieldDescriptorProto) : FieldKind :=
  match f.typeName with
  | some name => if leafName name ∈ enumNames then .enum else .message
  | none => .scalar f.type

def origKind (r : Resolver) (f : FieldDescriptorProto) : FieldKind := kind r.origEnums f

def updKind (r : Resolver) (f : FieldDescriptorProto) : FieldKind := kind r.updEnums f

end Resolver

mutual

def collectEnumNamesInMessage : DescriptorProto → List String
  | ⟨_, _, _, nestedType, enumType, _, _, _, _, _⟩ =>
    enumType.map (fun e => e.name.getD "") ++ collectEnumNamesInMessages nestedType

def collectEnumNamesInMessages : List DescriptorProto → List String
  | [] => []
  | m :: ms => collectEnumNamesInMessage m ++ collectEnumNamesInMessages ms

end

/-- `collect_enum_names`, as a list that is only asked for membership. -/
def collectEnumNames (file : FileDescriptorProto) : List String :=
  file.enumType.map (fun e => e.name.getD "") ++ collectEnumNamesInMessages file.messageType

/-- The wire-compatibility group of a kind; a message has none. -/
def kindGroup : FieldKind → Option ℕ
  | .enum => some 1
  | .message => none
  | .scalar type =>
    match type with
    | .int32 | .int64 | .uint32 | .uint64 | .bool => some 1
    | .sint32 | .sint64 => some 2
    | .string | .bytes => some 3
    | .fixed32 | .sfixed32 => some 4
    | .fixed64 | .sfixed64 => some 5
    | .float => some 6
    | .double => some 7
    | .group | .message | .enum => none

/-! ## Paths, and what both sides have -/

def join (front name : String) : String := if front = "" then name else front ++ "." ++ name

/-- A path with a number at its end. -/
def numbered (path : String) (number : Int) : String := path ++ ".#" ++ toString number

section Keyed

variable {κ ν : Type} [Ord κ] [Std.TransOrd κ] [Std.LawfulEqOrd κ]

/-- The members by their key. -/
def keyed (key : ν → κ) (members : List ν) : BTreeMap κ ν :=
  Std.ExtTreeMap.ofList (members.map fun m => (key m, m)) compare

/-- The keys of the first map that the second does not have, in order. -/
def missing {ν' : Type} (a : BTreeMap κ ν) (b : BTreeMap κ ν') : List κ :=
  a.toList.filterMap fun p => if b.contains p.1 then none else some p.1

end Keyed

/-! ## Fields -/

/-- A member of a oneof that the user declared: `optional` of proto3 makes one of its own. -/
def realOneof (f : FieldDescriptorProto) : Bool :=
  f.oneofIndex.isSome && f.proto3Optional ≠ some true

def explicitLabel (f : FieldDescriptorProto) (proto2 : Bool) : Bool :=
  proto2 || f.proto3Optional = some true || f.label = .repeated

def oneofHasSurvivingPlainMember (orig upd : DescriptorProto) (field : FieldDescriptorProto) :
    Bool :=
  match field.oneofIndex with
  | none => false
  | some index =>
    orig.field.any fun member => member.oneofIndex = some index &&
      upd.field.any fun candidate => candidate.number = member.number && !realOneof candidate

/-- How many fields that were in no oneof are now in the oneof of this field. -/
def movedExistingMemberCount (orig upd : DescriptorProto) (field : FieldDescriptorProto) : ℕ :=
  match field.oneofIndex with
  | none => 0
  | some index =>
    (upd.field.filter fun f => f.oneofIndex = some index && f.proto3Optional ≠ some true &&
      orig.field.any fun old => old.number = f.number && !realOneof old).length

/-- `compare_field_types`.  The names of two named types are compared as they are spelled. -/
def compareFieldTypes (path : String) (ok uk : FieldKind) (oTypeName uTypeName : Option String) :
    List Difference :=
  if ok = uk then
    if (ok = .message ∨ ok = .enum) ∧ oTypeName ≠ uTypeName then
      [⟨.fieldNamedTypeChanged, path⟩]
    else []
  else
    match kindGroup ok, kindGroup uk with
    | some go, some gu => [⟨.fieldScalarKindChanged (go = gu), path⟩]
    | _, _ => [⟨.fieldKindChanged, path⟩]

/-- `compare_field`. -/
def compareField (path : String) (of uf : FieldDescriptorProto) (origMsg updMsg : DescriptorProto)
    (r : Resolver) : List Difference :=
  let origInOneof := realOneof of
  let updInOneof := realOneof uf
  let moved : List Difference :=
    if !origInOneof && updInOneof then
      -- A oneof of one field is the field itself on the wire.
      if movedExistingMemberCount origMsg updMsg uf ≥ 2 then [⟨.oneofFieldMovedIn, path⟩] else []
    else if origInOneof && !updInOneof then [⟨.oneofFieldMovedOut, path⟩]
    else []
  let origKind := r.origKind of
  let updKind := r.updKind uf
  let labels : List Difference :=
    if of.label ≠ uf.label ∧ explicitLabel of r.origProto2 ∧ explicitLabel uf r.updProto2 ∧
        origKind = updKind then
      if origKind = .scalar .string ∨ origKind = .scalar .bytes then
        [⟨.fieldStringOrBytesLabelChanged, path⟩]
      else [⟨.fieldNumericLabelChanged, path⟩]
    else []
  moved ++ labels ++ compareFieldTypes path origKind updKind of.typeName uf.typeName

/-- `find_map_entry`: the entry message of a map field. -/
def findMapEntry (containing : DescriptorProto) (field : FieldDescriptorProto) :
    Option DescriptorProto :=
  if field.type ≠ .message then none
  else
    match field.typeName with
    | none => none
    | some typeName => containing.nestedType.find? fun nested =>
        nested.name = some (leafName typeName) && nested.isMapEntry

/-- The fields of a message by number. -/
def fieldsByNumber (m : DescriptorProto) : BTreeMap Int FieldDescriptorProto :=
  keyed (fun f => f.number.getD 0) m.field

/-- `compare_map_entries`: the types of the key and of the value. -/
def compareMapEntries (path : String) (origEntry updEntry : DescriptorProto) (r : Resolver) :
    List Difference :=
  [(1, ".key"), (2, ".value")].flatMap fun (num, sub) =>
    match (fieldsByNumber origEntry)[(num : Int)]?, (fieldsByNumber updEntry)[(num : Int)]? with
    | some of, some uf =>
      compareFieldTypes (path ++ sub) (r.origKind of) (r.updKind uf) of.typeName uf.typeName
    | _, _ => []

/-- The fields of two messages. -/
def compareFields (path : String) (orig upd : DescriptorProto) (r : Resolver) : List Difference :=
  let origF := fieldsByNumber orig
  let updF := fieldsByNumber upd
  (origF.toList.flatMap fun (num, of) =>
    match updF[num]? with
    | none =>
      let kind : Kind :=
        if realOneof of && !oneofHasSurvivingPlainMember orig upd of then .oneofFieldRemoved
        else if of.label = .required then .requiredFieldRemoved
        else .fieldRemoved
      [⟨kind, numbered path num⟩]
    | some uf =>
      match findMapEntry orig of, findMapEntry upd uf with
      | some oe, some ue => compareMapEntries (numbered path num) oe ue r
      | _, _ => compareField (numbered path num) of uf orig upd r) ++
  updF.toList.flatMap fun (num, uf) =>
    if origF.contains num then []
    else
      let kind : Kind :=
        if realOneof uf then .oneofFieldAdded
        else if uf.label = .required then .requiredFieldAdded
        else .fieldAdded
      [⟨kind, numbered path num⟩]

/-! ## Oneofs, reserved entries and enums -/

/-- `compare_oneofs`, on the declarations that are not the synthetic ones. -/
def compareOneofs (front : String) (orig upd : List OneofDescriptorProto) : List Difference :=
  let declared (l : List OneofDescriptorProto) :=
    keyed (fun o => o.name.getD "") (l.filter fun o => ¬ (o.name.getD "").startsWith "_")
  (missing (declared orig) (declared upd)).map (fun name => ⟨.oneofRemoved, join front name⟩) ++
    (missing (declared upd) (declared orig)).map fun name => ⟨.oneofAdded, join front name⟩

/-- The numbers of the reserved ranges. -/
def reservedNumbers (ranges : List ReservedRange) : List Int :=
  ranges.flatMap fun r =>
    let start := r.start.getD 0
    (List.range (r.stop.getD 0 - start).toNat).map fun i => start + i

/-- `compare_reserved`. -/
def compareReserved (path : String) (orig upd : List ReservedRange) : List Difference :=
  (missing (keyed id (reservedNumbers upd)) (keyed id (reservedNumbers orig))).map fun num =>
    ⟨.reservedNumberAdded, path ++ ".reserved#" ++ toString num⟩

/-- `compare_reserved_names`. -/
def compareReservedNames (path : String) (orig upd : List String) : List Difference :=
  (missing (keyed id upd) (keyed id orig)).map fun name =>
    ⟨.reservedNameAdded, path ++ ".reserved_name#" ++ name⟩

/-- `compare_enum_values`: values are matched by number. -/
def compareEnumValues (path : String) (orig upd : EnumDescriptorProto) : List Difference :=
  let values (e : EnumDescriptorProto) := keyed (fun v => v.number.getD 0) e.value
  (missing (values orig) (values upd)).map (fun num => ⟨.enumConstRemoved, numbered path num⟩) ++
    (missing (values upd) (values orig)).map fun num => ⟨.enumConstAdded, numbered path num⟩

/-- `compare_enums`. -/
def compareEnums (front : String) (orig upd : List EnumDescriptorProto) : List Difference :=
  let origBy := keyed (fun e => e.name.getD "") orig
  let updBy := keyed (fun e => e.name.getD "") upd
  (origBy.toList.flatMap fun (name, oe) =>
    match updBy[name]? with
    | none => [⟨.enumRemoved, join front name⟩]
    | some ue => compareEnumValues (join front name) oe ue) ++
  (missing updBy origBy).map fun name => ⟨.enumAdded, join front name⟩

/-! ## Messages -/

/-- A message with its comparison against an update of it. -/
structure Compared where
  message : DescriptorProto
  compare : String → DescriptorProto → List Difference

/-- `compare_messages`. -/
def compareMessages (front : String) (orig : List Compared) (upd : List DescriptorProto) :
    List Difference :=
  let origBy := keyed (fun c => c.message.name.getD "") orig
  let updBy := keyed (fun m => m.name.getD "") upd
  (origBy.toList.flatMap fun (name, om) =>
    match updBy[name]? with
    | none => [⟨.messageRemoved, join front name⟩]
    | some um => om.compare (join front name) um) ++
  (missing updBy origBy).map fun name => ⟨.messageAdded, join front name⟩

mutual

/-- `compare_message`.  Map entries are compared with their fields. -/
def compareMessage (r : Resolver) : DescriptorProto → String → DescriptorProto → List Difference
  | orig@⟨_, _, _, nestedType, enumType, _, oneofDecl, _, reservedRange, reservedName⟩, path, upd =>
    compareFields path orig upd r ++ compareOneofs path oneofDecl upd.oneofDecl ++
      compareReserved path reservedRange upd.reservedRange ++
      compareReservedNames path reservedName upd.reservedName ++
      compareMessages path ((compareEach r nestedType).filter fun c => !c.message.isMapEntry)
        (upd.nestedType.filter fun m => !m.isMapEntry) ++
      compareEnums path enumType upd.enumType

/-- Each message of a list, ready to be compared. -/
def compareEach (r : Resolver) : List DescriptorProto → List Compared
  | [] => []
  | m :: ms => ⟨m, compareMessage r m⟩ :: compareEach r ms

end

/-- `diff::compare`. -/
def compare (original update : FileDescriptorProto) : List Difference :=
  let r : Resolver :=
    ⟨collectEnumNames original, collectEnumNames update, original.syntax? ≠ some "proto3",
      update.syntax? ≠ some "proto3"⟩
  (if original.package ≠ update.package then [⟨.packageChanged, "package"⟩] else []) ++
    compareMessages "" (compareEach r original.messageType) update.messageType ++
    compareEnums "" original.enumType update.enumType

/-! ## Verdicts -/

/-- `is_backward_compatible`. -/
def isBackwardCompatible : Kind → Bool
  | .fieldAdded | .fieldRemoved | .oneofFieldAdded | .messageAdded | .oneofFieldMovedOut
  | .oneofAdded | .oneofRemoved | .reservedNumberAdded | .reservedNameAdded | .enumConstAdded
  | .enumConstRemoved | .enumAdded | .enumRemoved | .packageChanged
  | .fieldStringOrBytesLabelChanged => true
  | .fieldScalarKindChanged compatibleGroup => compatibleGroup
  | .fieldKindChanged | .fieldNamedTypeChanged | .fieldNumericLabelChanged | .requiredFieldAdded
  | .requiredFieldRemoved | .oneofFieldRemoved | .oneofFieldMovedIn | .messageRemoved => false

def Difference.message (d : Difference) : String := d.kind.debug ++ " at " ++ d.path

end KrabkaRegistry.Format.Protobuf

namespace KrabkaRegistry.Format

open KrabkaRegistry.Format.Protobuf (Difference isBackwardCompatible)

variable (L : Libs)

/-- How a failed parse is shown.  The printer's overflow has no message; it is counted as a
failed parse here. -/
def Failure.display : Failure → String
  | .error (.invalidSchema message) => "Invalid schema: " ++ message
  | _ => "Invalid schema"

/-- A parse inside a check, with its failure as the only message. -/
def parseFor (label schema : String) (refs : List ResolvedReference) :
    Except (List String) ProtobufSchema :=
  match protobufParse L schema refs with
  | .ok p => .ok p
  | .error e => .error [label ++ ": " ++ Failure.display e]

/-- The differences of the references that both sides have under one name with different
texts. -/
def referenceDifferences (readerRefs writerRefs : List ResolvedReference) :
    List ResolvedReference → Except (List String) (List Difference)
  | [] => .ok []
  | writerRef :: rest =>
    if writerRef.ty ≠ .protobuf then referenceDifferences readerRefs writerRefs rest
    else
      match readerRefs.find? fun r => r.ty = .protobuf && r.name = writerRef.name with
      | none => referenceDifferences readerRefs writerRefs rest
      | some readerRef =>
        if writerRef.schema = readerRef.schema then
          referenceDifferences readerRefs writerRefs rest
        else do
          -- Each reference is linked with the others only, so that it is not there twice.
          let writer ← parseFor L "writer reference" writerRef.schema
            (writerRefs.filter fun r => r.name ≠ writerRef.name)
          let reader ← parseFor L "reader reference" readerRef.schema
            (readerRefs.filter fun r => r.name ≠ readerRef.name)
          let differences ← referenceDifferences readerRefs writerRefs rest
          return Protobuf.compare writer.descriptor reader.descriptor ++ differences

/-- `protobuf::check`. -/
def protobufCheck (reader writer : String) (readerRefs writerRefs : List ResolvedReference) :
    Except (List String) Unit := do
  let readerD ← parseFor L "reader" reader readerRefs
  let writerD ← parseFor L "writer" writer writerRefs
  let ofReferences ← referenceDifferences L readerRefs writerRefs writerRefs
  let diffs := Protobuf.compare writerD.descriptor readerD.descriptor ++ ofReferences
  let incompatible := diffs.filter fun d => !isBackwardCompatible d.kind
  if incompatible.isEmpty then .ok () else .error (incompatible.map Difference.message)

/-! ## What a check depends on -/

section Laws

variable {L}

theorem parseFor_failsWith (label schema : String) (refs : List ResolvedReference) :
    FailsWith (· ≠ []) (parseFor L label schema refs) := by
  unfold parseFor
  split
  · exact .ok _
  · exact .error (List.cons_ne_nil _ _)

theorem referenceDifferences_failsWith (readerRefs writerRefs refs : List ResolvedReference) :
    FailsWith (· ≠ []) (referenceDifferences L readerRefs writerRefs refs) := by
  fun_induction referenceDifferences L readerRefs writerRefs refs with
  | case1 => exact .ok _
  | case2 writerRef rest hty ih => exact ih
  | case3 writerRef rest hty hfind ih => exact ih
  | case4 writerRef rest hty readerRef hfind heq ih => exact ih
  | case5 writerRef rest hty readerRef hfind hne ih =>
    apply FailsWith.bind (parseFor_failsWith _ _ _)
    intro writer
    apply FailsWith.bind (parseFor_failsWith _ _ _)
    intro reader
    exact ih.bind fun differences => .ok _

/-- A refusal of `protobuf::check` has a message. -/
theorem protobufCheck_failsWith (reader writer : String)
    (readerRefs writerRefs : List ResolvedReference) :
    FailsWith (· ≠ []) (protobufCheck L reader writer readerRefs writerRefs) := by
  unfold protobufCheck
  apply FailsWith.bind (parseFor_failsWith _ _ _)
  intro readerD
  apply FailsWith.bind (parseFor_failsWith _ _ _)
  intro writerD
  apply FailsWith.bind (referenceDifferences_failsWith _ _ _)
  intro ofReferences
  simp only
  split
  · exact .ok _
  · rename_i hne
    exact .error (by simpa using hne)

/-- A parsed text enters the check by its descriptor only: as the reader … -/
theorem protobufCheck_reader {text text' writer : String}
    {refs writerRefs : List ResolvedReference} {p p' : ProtobufSchema}
    (hp : protobufParse L text refs = .ok p) (hp' : protobufParse L text' refs = .ok p')
    (hd : p.descriptor = p'.descriptor) :
    protobufCheck L text writer refs writerRefs = protobufCheck L text' writer refs writerRefs := by
  simp only [protobufCheck, parseFor, hp, hp', hd, bind, Except.bind]

/-- … and as the writer. -/
theorem protobufCheck_writer {text text' reader : String}
    {refs readerRefs : List ResolvedReference} {p p' : ProtobufSchema}
    (hp : protobufParse L text refs = .ok p) (hp' : protobufParse L text' refs = .ok p')
    (hd : p.descriptor = p'.descriptor) :
    protobufCheck L reader text readerRefs refs = protobufCheck L reader text' readerRefs refs := by
  simp only [protobufCheck, parseFor, hp, hp', hd, bind, Except.bind]

end Laws

/-! ## The three checks together -/

/-- The check of one format.  Those of Avro and JSON Schema are left open. -/
structure FormatCheck where
  check : String → String → List ResolvedReference → List ResolvedReference →
    Except (List String) Unit
  check_error : ∀ {reader writer readerRefs writerRefs messages},
    check reader writer readerRefs writerRefs = .error messages → messages ≠ []

/-- `format::check`. -/
def Checker.ofFormats (avro json : FormatCheck) : Checker where
  check
    | .avro => avro.check
    | .protobuf => protobufCheck L
    | .json => json.check
  check_error := by
    intro ty reader writer readerRefs writerRefs messages h
    cases ty with
    | avro => exact avro.check_error h
    | protobuf => exact protobufCheck_failsWith _ _ _ _ _ h
    | json => exact json.check_error h

end KrabkaRegistry.Format
