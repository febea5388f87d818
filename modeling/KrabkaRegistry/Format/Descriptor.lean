import KrabkaRegistry.Basic

/-!
# Protobuf Descriptors and Their Normalized Text

The descriptor messages of `prost_types` that the registry reads, and the printer
`normalize` of `schema-serde/src/format/protobuf.rs`, which turns a file
descriptor into the `.proto` text that the store keeps.

Options that no modelled function looks into are kept as an opaque text, because
they are part of the bytes that identify a schema.  The printer subtracts from
`i32` range ends, so it can overflow; it returns a `Result`.
-/

namespace KrabkaRegistry.Format.Protobuf

/-! ## Descriptors -/

/-- A field label. -/
inductive Label where
  | optional
  | required
  | repeated
  deriving DecidableEq, Repr

/-- A field type. -/
inductive FieldType where
  | double | float | int64 | uint64 | int32 | fixed64 | fixed32 | bool | string
  | group | message | bytes | uint32 | enum | sfixed32 | sfixed64 | sint32 | sint64
  deriving DecidableEq, Repr

/-- `FieldDescriptorProto`.  An absent or unknown label or type number is `none`. -/
structure FieldDescriptorProto where
  name : Option String := none
  number : Option Int := none
  label? : Option Label := none
  type? : Option FieldType := none
  typeName : Option String := none
  extendee : Option String := none
  defaultValue : Option String := none
  oneofIndex : Option Int := none
  jsonName : Option String := none
  options : Option String := none
  proto3Optional : Option Bool := none
  deriving DecidableEq, Repr

/-- prost's `label()` getter: the first variant when the label is absent. -/
def FieldDescriptorProto.label (field : FieldDescriptorProto) : Label :=
  field.label?.getD .optional

/-- prost's `r#type()` getter: the first variant when the type is absent. -/
def FieldDescriptorProto.type (field : FieldDescriptorProto) : FieldType :=
  field.type?.getD .double

/-- A reserved or extension range, end exclusive. -/
structure ReservedRange where
  start : Option Int := none
  stop : Option Int := none
  deriving DecidableEq, Repr

structure EnumValueDescriptorProto where
  name : Option String := none
  number : Option Int := none
  options : Option String := none
  deriving DecidableEq, Repr

structure EnumDescriptorProto where
  name : Option String := none
  value : List EnumValueDescriptorProto := []
  options : Option String := none
  reservedRange : List ReservedRange := []
  reservedName : List String := []
  deriving DecidableEq, Repr

structure OneofDescriptorProto where
  name : Option String := none
  options : Option String := none
  deriving DecidableEq, Repr

/-- `MessageOptions`: the map-entry flag, and everything else as a text. -/
structure MessageOptions where
  mapEntry : Option Bool := none
  other : Option String := none
  deriving DecidableEq, Repr

structure DescriptorProto where
  name : Option String := none
  field : List FieldDescriptorProto := []
  extension : List FieldDescriptorProto := []
  nestedType : List DescriptorProto := []
  enumType : List EnumDescriptorProto := []
  extensionRange : List ReservedRange := []
  oneofDecl : List OneofDescriptorProto := []
  options : Option MessageOptions := none
  reservedRange : List ReservedRange := []
  reservedName : List String := []

/-- Whether a nested type is the synthetic entry of a map field. -/
def DescriptorProto.isMapEntry (message : DescriptorProto) : Bool :=
  match message.options with
  | some options => options.mapEntry.getD false
  | none => false

structure MethodDescriptorProto where
  name : Option String := none
  inputType : Option String := none
  outputType : Option String := none
  options : Option String := none
  clientStreaming : Option Bool := none
  serverStreaming : Option Bool := none
  deriving DecidableEq, Repr

structure ServiceDescriptorProto where
  name : Option String := none
  method : List MethodDescriptorProto := []
  options : Option String := none
  deriving DecidableEq, Repr

structure FileDescriptorProto where
  name : Option String := none
  package : Option String := none
  dependency : List String := []
  publicDependency : List Int := []
  weakDependency : List Int := []
  messageType : List DescriptorProto := []
  enumType : List EnumDescriptorProto := []
  service : List ServiceDescriptorProto := []
  extension : List FieldDescriptorProto := []
  options : Option String := none
  sourceCodeInfo : Option String := none
  syntax? : Option String := none

/-! ## Equality, as derived -/

mutual

def DescriptorProto.equal : DescriptorProto → DescriptorProto → Bool
  | ⟨name, field, extension, nestedType, enumType, extensionRange, oneofDecl, options,
      reservedRange, reservedName⟩, m =>
    name = m.name && field = m.field && extension = m.extension &&
      DescriptorProto.equalAll nestedType m.nestedType && enumType = m.enumType &&
      extensionRange = m.extensionRange && oneofDecl = m.oneofDecl && options = m.options &&
      reservedRange = m.reservedRange && reservedName = m.reservedName

def DescriptorProto.equalAll : List DescriptorProto → List DescriptorProto → Bool
  | [], [] => true
  | m :: ms, n :: ns => m.equal n && DescriptorProto.equalAll ms ns
  | _, _ => false

end

def FileDescriptorProto.equal (f g : FileDescriptorProto) : Bool :=
  f.name = g.name && f.package = g.package && f.dependency = g.dependency &&
    f.publicDependency = g.publicDependency && f.weakDependency = g.weakDependency &&
    DescriptorProto.equalAll f.messageType g.messageType && f.enumType = g.enumType &&
    f.service = g.service && f.extension = g.extension && f.options = g.options &&
    f.sourceCodeInfo = g.sourceCodeInfo && f.syntax? = g.syntax?

/-! ## Names of types -/

/-- Drop every leading dot, as `trim_start_matches('.')` does. -/
def trimDots (name : String) : String :=
  String.ofList (name.toList.dropWhile (· == '.'))

/-- The text after a leading `front`, as `str::strip_prefix` gives it. -/
def afterFront (front name : String) : Option String :=
  if front.toList.isPrefixOf name.toList then
    some (String.ofList (name.toList.drop front.toList.length))
  else none

/-- A type name as the printer writes it: relative to the file's own package. -/
def protoRefName (name package : String) : String :=
  if package = "" then trimDots name
  else (afterFront ("." ++ package ++ ".") name).getD (trimDots name)

/-- The printed type of a field that is not a map. -/
def protoTypeName (field : FieldDescriptorProto) (package : String) : String :=
  match field.typeName.filter (· ≠ "") with
  | some name => protoRefName name package
  | none =>
    match field.type with
    | .double => "double"
    | .float => "float"
    | .int64 => "int64"
    | .uint64 => "uint64"
    | .int32 => "int32"
    | .fixed64 => "fixed64"
    | .fixed32 => "fixed32"
    | .bool => "bool"
    | .string => "string"
    | .bytes => "bytes"
    | .uint32 => "uint32"
    | .sfixed32 => "sfixed32"
    | .sfixed64 => "sfixed64"
    | .sint32 => "sint32"
    | .sint64 => "sint64"
    | .group | .message | .enum => "unknown"

/-- The map entry a field stands for, if its type is one of the parent's. -/
def mapEntry (parent : DescriptorProto) (parentName : String) (field : FieldDescriptorProto) :
    Option DescriptorProto :=
  match field.typeName with
  | none => none
  | some typeName =>
    let fieldType := trimDots typeName
    parent.nestedType.find? fun nested =>
      (match nested.name with
        | some name => fieldType = name ∨ fieldType = parentName ++ "." ++ name
        | none => false) && nested.isMapEntry

/-! ## The printer -/

/-- Two spaces for each level. -/
def indent (depth : ℕ) : String := String.join (List.replicate depth "  ")

/-- `{parent}.{name}`, or the bare name at the top of a file without a package. -/
def qualify (parentName name : String) : String :=
  if parentName = "" then name else parentName ++ "." ++ name

/-- An `i32` value, or the panic of the arithmetic that would leave the type. -/
def checkedI32 (n : Int) : Result Int :=
  if -2147483648 ≤ n ∧ n ≤ i32Max then .ok n else .error .overflow

/-- One `reserved` clause.  `unwrap_or` evaluates its default before it looks at the
range, so `start + 1` is computed for every range. -/
def writeReservedRange (depth : ℕ) (range : ReservedRange) : Result String := do
  let start := range.start.getD 0
  let next ← checkedI32 (start + 1)
  let stop ← checkedI32 (range.stop.getD next - 1)
  if start = stop then
    return indent depth ++ "reserved " ++ toString start ++ ";\n"
  else
    return indent depth ++ "reserved " ++ toString start ++ " to " ++ toString stop ++ ";\n"

def writeReserved (message : DescriptorProto) (depth : ℕ) : Result String := do
  let ranges ← message.reservedRange.mapM (writeReservedRange depth)
  let names := message.reservedName.map fun name => "\"" ++ name ++ "\""
  return String.join ranges ++
    (if names.isEmpty then "" else indent depth ++ "reserved " ++ ", ".intercalate names ++ ";\n")

def writeEnum (enumeration : EnumDescriptorProto) (depth : ℕ) : String :=
  indent depth ++ "enum " ++ enumeration.name.getD "Unknown" ++ " \x7b\n" ++
    String.join (enumeration.value.map fun value =>
      indent depth ++ "  " ++ value.name.getD "UNKNOWN" ++ " = " ++
        toString (value.number.getD 0) ++ ";\n") ++
    indent depth ++ "\x7d\n"

/-- The label a field is printed with. -/
def fieldLabel (field : FieldDescriptorProto) (parent : DescriptorProto) (parentName syn : String) :
    String :=
  if field.oneofIndex.isSome && !field.proto3Optional.getD false then ""
  else if field.proto3Optional.getD false then "optional "
  else if (mapEntry parent parentName field).isSome then ""
  else
    match field.label with
    | .repeated => "repeated "
    | .required => if syn = "proto2" then "required " else ""
    | .optional => if syn = "proto2" then "optional " else ""

/-- The type a field is printed with. -/
def fieldTypeText (field : FieldDescriptorProto) (parent : DescriptorProto)
    (parentName package : String) : String :=
  match mapEntry parent parentName field with
  | none => protoTypeName field package
  | some entry =>
    let part (i : ℕ) : String :=
      match entry.field[i]? with
      | some f => protoTypeName f package
      | none => "unknown"
    "map<" ++ part 0 ++ ", " ++ part 1 ++ ">"

def writeField (field : FieldDescriptorProto) (parent : DescriptorProto) (parentName : String)
    (depth : ℕ) (package syn : String) : String :=
  indent depth ++ fieldLabel field parent parentName syn ++
    fieldTypeText field parent parentName package ++ " " ++
    field.name.getD "unknown" ++ " = " ++ toString (field.number.getD 0) ++ ";\n"

/-- One oneof.  A oneof that holds a single `proto3_optional` field is that field. -/
def writeOneof (message : DescriptorProto) (fullName : String) (depth : ℕ) (package syn : String)
    (index : ℕ) (oneof : OneofDescriptorProto) : String :=
  let position : Option Int := if (index : Int) ≤ i32Max then some index else none
  let fields := message.field.filter fun field => field.oneofIndex = position
  let block :=
    indent depth ++ "oneof " ++ oneof.name.getD "unknown" ++ " \x7b\n" ++
      String.join (fields.map fun field =>
        writeField field message fullName (depth + 1) package syn) ++
      indent depth ++ "\x7d\n"
  match fields with
  | [field] =>
    if field.proto3Optional.getD false then writeField field message fullName depth package syn
    else block
  | _ => block

def writeService (service : ServiceDescriptorProto) (package : String) : String :=
  "service " ++ service.name.getD "Unknown" ++ " \x7b\n" ++
    String.join (service.method.map fun method =>
      let inputFront := if method.clientStreaming.getD false then "stream " else ""
      let outputFront := if method.serverStreaming.getD false then "stream " else ""
      let input := protoRefName (method.inputType.getD "Unknown") package
      let output := protoRefName (method.outputType.getD "Unknown") package
      "  rpc " ++ method.name.getD "Unknown" ++ " (" ++ inputFront ++ input ++ ") returns (" ++
        outputFront ++ output ++ ");\n") ++
    "\x7d\n"

mutual

def writeMessage (depth : ℕ) (package parentName syn : String) : DescriptorProto → Result String
  | message@⟨name?, field, _, nestedType, enumType, _, oneofDecl, _, _, _⟩ => do
    let name := name?.getD "Unknown"
    let fullName := qualify parentName name
    let reserved ← writeReserved message (depth + 1)
    let nested ← writeNested (depth + 1) package fullName syn nestedType
    return indent depth ++ "message " ++ name ++ " \x7b\n" ++
      reserved ++
      String.join (enumType.map fun enumeration => writeEnum enumeration (depth + 1)) ++
      String.join ((field.filter fun f => f.oneofIndex.isNone).map fun f =>
        writeField f message fullName (depth + 1) package syn) ++
      String.join (oneofDecl.mapIdx (writeOneof message fullName (depth + 1) package syn)) ++
      nested ++
      indent depth ++ "\x7d\n"

/-- The nested messages that are not map entries, one after the other. -/
def writeNested (depth : ℕ) (package parentName syn : String) :
    List DescriptorProto → Result String
  | [] => return ""
  | message :: rest => do
    let text ←
      if message.isMapEntry then pure "" else writeMessage depth package parentName syn message
    let texts ← writeNested depth package parentName syn rest
    return text ++ texts

end

/-- The messages of a file, each after an empty line. -/
def writeMessages (package syn : String) : List DescriptorProto → Result String
  | [] => return ""
  | message :: rest => do
    let text ← writeMessage 0 package package syn message
    let texts ← writeMessages package syn rest
    return "\n" ++ text ++ texts

/-- The normalized `.proto` text of a file. -/
def normalize (file : FileDescriptorProto) : Result String := do
  let syn := file.syntax?.getD "proto3"
  let package := file.package.getD ""
  let messages ← writeMessages package syn file.messageType
  return "syntax = \"" ++ syn ++ "\";\n" ++
    (if package = "" then "" else "package " ++ package ++ ";\n") ++
    String.join (file.dependency.map fun dependency => "\nimport \"" ++ dependency ++ "\";\n") ++
    String.join (file.enumType.map fun enumeration => "\n" ++ writeEnum enumeration 0) ++
    messages ++
    String.join (file.service.map fun service => "\n" ++ writeService service package)

/-- The printer on the file of the indentation test of `format/protobuf/mod.rs`. -/
example : normalize
    { syntax? := some "proto3"
      messageType :=
        [{ name := some "Outer"
           enumType :=
             [{ name := some "Kind"
                value := [{ name := some "KIND_UNSPECIFIED", number := some 0 },
                          { name := some "KIND_READY", number := some 1 }] }]
           nestedType :=
             [{ name := some "Inner"
                field := [{ name := some "id", number := some 1, label? := some .optional,
                            type? := some .string }] }] }] } =
    .ok ("syntax = \"proto3\";\n\nmessage Outer \x7b\n  enum Kind \x7b\n" ++
      "    KIND_UNSPECIFIED = 0;\n    KIND_READY = 1;\n  \x7d\n  message Inner \x7b\n" ++
      "    string id = 1;\n  \x7d\n\x7d\n") := by
  decide +kernel

/-! ### How the printer fails -/

theorem checkedI32_failsWith (n : Int) : FailsWith (· = .overflow) (checkedI32 n) := by
  unfold checkedI32
  split
  · exact .ok n
  · exact .error rfl

theorem writeReservedRange_failsWith (depth : ℕ) (range : ReservedRange) :
    FailsWith (· = .overflow) (writeReservedRange depth range) := by
  unfold writeReservedRange
  apply FailsWith.bind (checkedI32_failsWith _)
  intro next
  apply FailsWith.bind (checkedI32_failsWith _)
  intro stop
  split
  · exact .ok _
  · exact .ok _

theorem writeReserved_failsWith (message : DescriptorProto) (depth : ℕ) :
    FailsWith (· = .overflow) (writeReserved message depth) := by
  unfold writeReserved
  refine FailsWith.bind ?_ fun ranges => .ok _
  induction message.reservedRange with
  | nil => exact .ok []
  | cons range ranges ih =>
    rw [List.mapM_cons]
    exact (writeReservedRange_failsWith depth range).bind fun _ => ih.bind fun _ => .ok _

mutual

theorem writeMessage_failsWith (depth : ℕ) (package parentName syn : String) :
    ∀ message, FailsWith (· = .overflow) (writeMessage depth package parentName syn message)
  | ⟨_, _, _, nestedType, _, _, _, _, _, _⟩ => by
    rw [writeMessage]
    apply FailsWith.bind (writeReserved_failsWith _ _)
    intro reserved
    exact (writeNested_failsWith _ _ _ _ nestedType).bind fun _ => .ok _

theorem writeNested_failsWith (depth : ℕ) (package parentName syn : String) :
    ∀ messages, FailsWith (· = .overflow) (writeNested depth package parentName syn messages)
  | [] => by
    rw [writeNested]
    exact .ok ""
  | message :: rest => by
    rw [writeNested]
    have hrest := writeNested_failsWith depth package parentName syn rest
    split
    · exact hrest.bind fun _ => .ok _
    · apply FailsWith.bind (writeMessage_failsWith depth package parentName syn message)
      intro text
      exact hrest.bind fun _ => .ok _

end

theorem writeMessages_failsWith (package syn : String) (messages : List DescriptorProto) :
    FailsWith (· = .overflow) (writeMessages package syn messages) := by
  induction messages with
  | nil => exact .ok ""
  | cons message rest ih =>
    rw [writeMessages]
    apply FailsWith.bind (writeMessage_failsWith _ _ _ _ message)
    intro text
    exact ih.bind fun _ => .ok _

/-- The printer fails by the overflow of a reserved range only. -/
theorem normalize_failsWith (file : FileDescriptorProto) :
    FailsWith (· = .overflow) (normalize file) :=
  (writeMessages_failsWith _ _ file.messageType).bind fun _ => .ok _

end KrabkaRegistry.Format.Protobuf
