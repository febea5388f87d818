import KrabkaRegistry.Format.Json
import KrabkaRegistry.Format.Descriptor

/-!
# Parsing, Identity and Storage Form of the Three Formats

`format::parse`, `canonical_form` and `format::normalized_storage_form`.  The Avro
parser, the `.proto` parser, the descriptor linker and prost's encoder are external
libraries and are collected, with `serde_json`, in `Libs`.

The store needs only a part of this.  `Formats` is that part together with the
laws its proofs rest on, and `Formats.ofLibs` builds it from the definitions here.
-/

namespace KrabkaRegistry.Format

open KrabkaRegistry.Format.Json (SerdeJson JsonSchema NulFree)
open KrabkaRegistry.Format.Protobuf (FileDescriptorProto)

/-- The external libraries behind the three formats. -/
structure Libs where
  serdeJson : SerdeJson
  /-- `apache_avro::Schema`. -/
  ApacheAvroSchema : Type
  /-- `apache_avro::Schema::parse_str`. -/
  avroParseStr : String → Except String ApacheAvroSchema
  /-- `apache_avro::Schema::parse_list`. -/
  avroParseList : List String → Except String (List ApacheAvroSchema)
  /-- `apache_avro::Schema::canonical_form`. -/
  avroCanonicalForm : ApacheAvroSchema → String
  /-- `protox_parse::parse`, on a file name and a source text. -/
  protoxParse : String → String → Except String FileDescriptorProto
  /-- `DescriptorPool::from_file_descriptor_set`, used only for its errors. -/
  fromFileDescriptorSet : List FileDescriptorProto → Except String Unit
  /-- prost's `encode_to_vec`. -/
  encodeToVec : FileDescriptorProto → List UInt8

variable (L : Libs)

/-- An error of `SrError::InvalidSchema`. -/
def invalidSchema {α : Type} (message : String) : Result α :=
  .error (.error (.invalidSchema message))

/-! ## Avro -/

/-- A parsed Avro schema and the compact text that identifies it. -/
structure AvroSchema where
  parsed : L.ApacheAvroSchema
  identity : String

/-- `avro::parse`: dependencies first, the candidate last. -/
def avroParse (schema : String) (refs : List ResolvedReference) : Result (AvroSchema L) :=
  match L.serdeJson.fromStr schema with
  | .error e => invalidSchema ("Avro: " ++ e)
  | .ok value =>
    let identity := Json.toJsonString L.serdeJson value
    if refs.isEmpty then
      match L.avroParseStr schema with
      | .ok parsed => .ok ⟨parsed, identity⟩
      | .error e => invalidSchema ("Avro: " ++ e)
    else
      match L.avroParseList (refs.map (·.schema) ++ [schema]) with
      | .error e => invalidSchema ("Avro: " ++ e)
      | .ok parsed =>
        match parsed.getLast? with
        | some p => .ok ⟨p, identity⟩
        | none => invalidSchema "Avro: empty parse_list"

/-! ## Protobuf -/

/-- A parsed `.proto` file and its normalised text. -/
structure ProtobufSchema where
  descriptor : FileDescriptorProto
  normalised : String

/-- The descriptors of the Protobuf references, each parsed under its reference name. -/
def protobufDependencies : List ResolvedReference → Result (List FileDescriptorProto)
  | [] => .ok []
  | r :: refs =>
    if r.ty = .protobuf then
      match L.protoxParse r.name r.schema with
      | .error e => invalidSchema ("Protobuf reference " ++ r.name ++ ": " ++ e)
      | .ok dep => (dep :: ·) <$> protobufDependencies refs
    else protobufDependencies refs

/-- Link the candidate with its references, when it has imports or references. -/
def protobufLink (descriptor : FileDescriptorProto) (refs : List ResolvedReference) :
    Result Unit :=
  if descriptor.dependency.isEmpty && refs.isEmpty then .ok ()
  else
    match protobufDependencies L refs with
    | .error e => .error e
    | .ok files =>
      match L.fromFileDescriptorSet (files ++ [descriptor]) with
      | .ok () => .ok ()
      | .error e => invalidSchema ("Protobuf link: " ++ e)

/-- `protobuf::parse`. -/
def protobufParse (schema : String) (refs : List ResolvedReference) : Result ProtobufSchema :=
  match L.protoxParse "schema.proto" schema with
  | .error e => invalidSchema ("Protobuf: " ++ e)
  | .ok descriptor => do
    protobufLink L descriptor refs
    let normalised ← Protobuf.normalize descriptor
    return ⟨descriptor, normalised⟩

def hexDigit (n : ℕ) : Char :=
  if n < 10 then Char.ofNat (48 + n) else Char.ofNat (87 + n)

/-- `hex::encode`: two lowercase digits for each byte. -/
def hexEncode (bytes : List UInt8) : String :=
  String.ofList (bytes.flatMap fun b => [hexDigit (b.toNat / 16), hexDigit (b.toNat % 16)])

/-- The encoded descriptor, without source positions and file name, in hexadecimal. -/
def ProtobufSchema.canonicalForm (p : ProtobufSchema) : String :=
  hexEncode (L.encodeToVec { p.descriptor with sourceCodeInfo := none, name := none })

/-! ## The three formats together -/

/-- A successfully parsed schema of any format. -/
inductive ParsedSchema where
  | avro (p : AvroSchema L)
  | json (p : JsonSchema)
  | protobuf (p : ProtobufSchema)

/-- `format::parse`. -/
def parse (ty : SchemaType) (schema : String) (refs : List ResolvedReference) :
    Result (ParsedSchema L) :=
  match ty with
  | .avro => .avro <$> avroParse L schema refs
  | .json => .json <$> Json.parse L.serdeJson schema refs
  | .protobuf => .protobuf <$> protobufParse L schema refs

/-- `canonical_form`, the part of the identity that comes from the text. -/
def ParsedSchema.canonicalForm : ParsedSchema L → String
  | .avro p => p.identity
  | .json p => p.canonicalForm L.serdeJson
  | .protobuf p => p.canonicalForm L

/-- `format::normalized_storage_form`: Avro and JSON keep the raw text. -/
def normalizedStorageForm (ty : SchemaType) (schema : String) (refs : List ResolvedReference) :
    Result String :=
  match ty with
  | .avro | .json => (fun _ => schema) <$> parse L ty schema refs
  | .protobuf => (·.normalised) <$> protobufParse L schema refs

/-! ## What a successful parse says about the canonical form -/

/-- The document and the type decide the canonical form; references only decide
whether the parse succeeds. -/
def canonicalOf (ty : SchemaType) (schema : String) : Option String :=
  match ty with
  | .avro => ((L.serdeJson.fromStr schema).toOption).map (Json.toJsonString L.serdeJson)
  | .json => ((L.serdeJson.fromStr schema).toOption).map (Json.canonicalize L.serdeJson)
  | .protobuf => ((L.protoxParse "schema.proto" schema).toOption).map fun d =>
      hexEncode (L.encodeToVec { d with sourceCodeInfo := none, name := none })

variable {L}

private theorem avroParse_identity {schema : String} {refs : List ResolvedReference}
    {p : AvroSchema L} (h : avroParse L schema refs = .ok p) :
    ∃ value, L.serdeJson.fromStr schema = .ok value ∧
      p.identity = Json.toJsonString L.serdeJson value := by
  unfold avroParse at h
  split at h
  · cases h
  · rename_i value hv
    refine ⟨value, hv, ?_⟩
    simp only at h
    split at h
    · split at h
      · cases h; rfl
      · cases h
    · split at h
      · cases h
      · split at h
        · cases h; rfl
        · cases h

private theorem jsonParse_value {schema : String} {refs : List ResolvedReference} {p : JsonSchema}
    (h : Json.parse L.serdeJson schema refs = .ok p) :
    L.serdeJson.fromStr schema = .ok p.value := by
  unfold Json.parse at h
  split at h
  · cases h
  · rename_i value hv
    split at h
    · cases h; exact hv
    · cases h; exact hv
    · cases h

theorem protobufParse_ok {schema : String} {refs : List ResolvedReference} {p : ProtobufSchema}
    (h : protobufParse L schema refs = .ok p) :
    L.protoxParse "schema.proto" schema = .ok p.descriptor ∧
      Protobuf.normalize p.descriptor = .ok p.normalised := by
  unfold protobufParse at h
  split at h
  · cases h
  · rename_i d hd
    cases hl : protobufLink L d refs with
    | error e => simp [hl, bind, Except.bind] at h
    | ok u =>
      cases hn : Protobuf.normalize d with
      | error e => simp [hl, hn, bind, Except.bind] at h
      | ok text =>
        obtain rfl : (⟨d, text⟩ : ProtobufSchema) = p := by
          simpa [hl, hn, bind, Except.bind, pure, Except.pure] using h
        exact ⟨hd, hn⟩

theorem parse_canonicalOf {ty : SchemaType} {schema : String} {refs : List ResolvedReference}
    {p : ParsedSchema L} (h : parse L ty schema refs = .ok p) :
    canonicalOf L ty schema = some (p.canonicalForm L) := by
  cases ty with
  | avro =>
    obtain ⟨p, hp, rfl⟩ := map_ok h
    obtain ⟨value, hv, hid⟩ := avroParse_identity hp
    simp [canonicalOf, hv, ParsedSchema.canonicalForm, hid, Except.toOption]
  | json =>
    obtain ⟨p, hp, rfl⟩ := map_ok h
    simp [canonicalOf, jsonParse_value hp, ParsedSchema.canonicalForm,
      JsonSchema.canonicalForm, Except.toOption]
  | protobuf =>
    obtain ⟨p, hp, rfl⟩ := map_ok h
    simp [canonicalOf, (protobufParse_ok hp).1, ParsedSchema.canonicalForm,
      ProtobufSchema.canonicalForm, Except.toOption]

private theorem hexDigit_ne_nul (n : ℕ) (h : n < 16) : hexDigit n ≠ '\x00' := by
  have hall : ∀ k : Fin 16, hexDigit k ≠ '\x00' := by decide
  exact hall ⟨n, h⟩

theorem hexEncode_nulFree (bytes : List UInt8) : NulFree (hexEncode bytes) := by
  simp only [NulFree, hexEncode, String.toList_ofList, List.mem_flatMap, not_exists, not_and,
    List.mem_cons, List.not_mem_nil, or_false, not_or]
  intro b _
  have hb : b.toNat < 256 := b.toNat_lt
  exact ⟨(hexDigit_ne_nul _ (by omega)).symm, (hexDigit_ne_nul _ (by omega)).symm⟩

/-- No canonical form holds U+0000, whatever the format. -/
theorem canonicalForm_nulFree (p : ParsedSchema L) {ty : SchemaType} {schema : String}
    {refs : List ResolvedReference} (h : parse L ty schema refs = .ok p) :
    NulFree (p.canonicalForm L) := by
  cases ty with
  | avro =>
    obtain ⟨p, hp, rfl⟩ := map_ok h
    obtain ⟨value, _, hid⟩ := avroParse_identity hp
    rw [ParsedSchema.canonicalForm, hid]
    exact Json.toJsonString_nulFree L.serdeJson value
  | json =>
    obtain ⟨p, _, rfl⟩ := map_ok h
    exact Json.canonicalize_nulFree L.serdeJson p.value
  | protobuf =>
    obtain ⟨p, _, rfl⟩ := map_ok h
    exact hexEncode_nulFree _

/-- How a parse fails: by a message, or by the overflow of the printer. -/
def Failure.IsInvalidSchema (e : Failure) : Prop :=
  (∃ message, e = .error (.invalidSchema message)) ∨ e = .overflow

theorem invalidSchema_failsWith {α : Type} (message : String) :
    FailsWith Failure.IsInvalidSchema (invalidSchema message : Result α) :=
  .error (.inl ⟨message, rfl⟩)

private theorem avroParse_failsWith (schema : String) (refs : List ResolvedReference) :
    FailsWith Failure.IsInvalidSchema (avroParse L schema refs) := by
  unfold avroParse
  split
  · exact invalidSchema_failsWith _
  · simp only
    split
    · split
      · exact .ok _
      · exact invalidSchema_failsWith _
    · split
      · exact invalidSchema_failsWith _
      · split
        · exact .ok _
        · exact invalidSchema_failsWith _

private theorem jsonParse_failsWith (schema : String) (refs : List ResolvedReference) :
    FailsWith Failure.IsInvalidSchema (Json.parse L.serdeJson schema refs) := by
  unfold Json.parse
  split
  · exact invalidSchema_failsWith _
  · split
    · exact .ok _
    · exact .ok _
    · exact invalidSchema_failsWith _

private theorem protobufDependencies_failsWith (refs : List ResolvedReference) :
    FailsWith Failure.IsInvalidSchema (protobufDependencies L refs) := by
  fun_induction protobufDependencies L refs with
  | case1 => exact .ok _
  | case2 r refs hty e he => exact invalidSchema_failsWith _
  | case3 r refs hty dep hdep ih => exact ih.map
  | case4 r refs hty ih => exact ih

private theorem protobufLink_failsWith (descriptor : FileDescriptorProto)
    (refs : List ResolvedReference) :
    FailsWith Failure.IsInvalidSchema (protobufLink L descriptor refs) := by
  unfold protobufLink
  split
  · exact .ok _
  · split
    · rename_i e he
      exact .error (protobufDependencies_failsWith refs e he)
    · split
      · exact .ok _
      · exact invalidSchema_failsWith _

private theorem protobufParse_failsWith (schema : String) (refs : List ResolvedReference) :
    FailsWith Failure.IsInvalidSchema (protobufParse L schema refs) := by
  unfold protobufParse
  split
  · exact invalidSchema_failsWith _
  · rename_i descriptor _
    apply FailsWith.bind (protobufLink_failsWith descriptor refs)
    intro _
    have hprint := Protobuf.normalize_failsWith descriptor
    exact (hprint.mono fun e he => .inr he).bind fun _ => .ok _

/-- A schema that does not parse is an invalid schema, whatever the format. -/
theorem parse_failsWith (ty : SchemaType) (schema : String) (refs : List ResolvedReference) :
    FailsWith Failure.IsInvalidSchema (parse L ty schema refs) := by
  cases ty with
  | avro => exact (avroParse_failsWith schema refs).map
  | json => exact (jsonParse_failsWith schema refs).map
  | protobuf => exact (protobufParse_failsWith schema refs).map

/-- Avro and JSON texts are stored as they were sent. -/
theorem normalizedStorageForm_raw {ty : SchemaType} {schema text : String}
    {refs : List ResolvedReference} (hty : ty ≠ .protobuf)
    (h : normalizedStorageForm L ty schema refs = .ok text) : text = schema := by
  cases ty with
  | avro => obtain ⟨_, _, rfl⟩ := map_ok h; rfl
  | json => obtain ⟨_, _, rfl⟩ := map_ok h; rfl
  | protobuf => exact absurd rfl hty

/-! ## What the store uses -/

/-- `format::check`, on a type, the texts of reader and writer, and their references.  The
comparison of two schemas is left to the format. -/
structure Checker where
  check : SchemaType → String → String → List ResolvedReference → List ResolvedReference →
    Except (List String) Unit
  /-- A refused pair is given a reason. -/
  check_error : ∀ {ty reader writer readerRefs writerRefs messages},
    check ty reader writer readerRefs writerRefs = .error messages → messages ≠ []

/-- The formats as the store sees them.  `parse` stands for a parse followed by
`canonical_form`. -/
structure Formats extends Checker where
  parse : SchemaType → String → List ResolvedReference → Result String
  normalizedStorageForm : SchemaType → String → List ResolvedReference → Result String
  /-- References decide whether a text parses, never what it is. -/
  parse_congr : ∀ {ty schema refs refs' c c'},
    parse ty schema refs = .ok c → parse ty schema refs' = .ok c' → c = c'
  /-- The store separates canonical forms from what follows them by U+0000. -/
  parse_nulFree : ∀ {ty schema refs c}, parse ty schema refs = .ok c → NulFree c

/-- The formats over given libraries and a given compatibility check. -/
def Formats.ofLibs (L : Libs) (C : Checker) : Formats where
  toChecker := C
  parse ty schema refs := ParsedSchema.canonicalForm L <$> Format.parse L ty schema refs
  normalizedStorageForm := Format.normalizedStorageForm L
  parse_congr := by
    intro ty schema refs refs' c c' h h'
    obtain ⟨p, hp, rfl⟩ := map_ok h
    obtain ⟨p', hp', rfl⟩ := map_ok h'
    have heq := (parse_canonicalOf hp).symm.trans (parse_canonicalOf hp')
    simpa using heq
  parse_nulFree := by
    intro ty schema refs c h
    obtain ⟨p, hp, rfl⟩ := map_ok h
    exact canonicalForm_nulFree p hp

/-- A text with a storage form parses. -/
theorem Formats.ofLibs_parses {C : Checker} {ty : SchemaType} {schema text : String}
    {refs : List ResolvedReference}
    (h : (Formats.ofLibs L C).normalizedStorageForm ty schema refs = .ok text) :
    ∃ c, (Formats.ofLibs L C).parse ty schema refs = .ok c := by
  cases ty with
  | avro =>
    obtain ⟨p, hp, _⟩ := map_ok h
    exact ⟨_, congrArg (Functor.map _) hp⟩
  | json =>
    obtain ⟨p, hp, _⟩ := map_ok h
    exact ⟨_, congrArg (Functor.map _) hp⟩
  | protobuf =>
    obtain ⟨p, hp, _⟩ := map_ok h
    have hparse : Format.parse L .protobuf schema refs = .ok (.protobuf p) := by
      simp [Format.parse, hp, Functor.map, Except.map]
    exact ⟨_, congrArg (Functor.map _) hparse⟩

/-! ## A small instance

Libraries that know a handful of documents and treat them as the real ones do.  They
make the model run on concrete requests. -/

/-- How `serde_json` writes a character inside a string. -/
def escapeChar (c : Char) : List Char :=
  if c = '"' then ['\\', '"']
  else if c = '\\' then ['\\', '\\']
  else if c = '\n' then ['\\', 'n']
  else if c = '\r' then ['\\', 'r']
  else if c = '\t' then ['\\', 't']
  else if c = '\x08' then ['\\', 'b']
  else if c = '\x0c' then ['\\', 'f']
  else if c.toNat < 32 then
    ['\\', 'u', '0', '0', hexDigit (c.toNat / 16), hexDigit (c.toNat % 16)]
  else [c]

/-- Every character is one with an escape of its own, a control character or itself. -/
theorem escapeChar_cases {P : Char → List Char → Prop} (quote : P '"' ['\\', '"'])
    (backslash : P '\\' ['\\', '\\']) (newline : P '\n' ['\\', 'n'])
    (carriage : P '\r' ['\\', 'r']) (tab : P '\t' ['\\', 't'])
    (backspace : P '\x08' ['\\', 'b']) (formFeed : P '\x0c' ['\\', 'f'])
    (control : ∀ c, c.toNat < 32 →
      P c ['\\', 'u', '0', '0', hexDigit (c.toNat / 16), hexDigit (c.toNat % 16)])
    (plain : ∀ c, c ≠ '"' → c ≠ '\\' → ¬ c.toNat < 32 → P c [c]) (c : Char) :
    P c (escapeChar c) := by
  unfold escapeChar
  -- The cases come in the order in which the printer tests them, since a newline is also a control
  -- character.
  by_cases h₁ : c = '"'
  · rw [if_pos h₁, h₁]
    exact quote
  by_cases h₂ : c = '\\'
  · rw [if_neg h₁, if_pos h₂, h₂]
    exact backslash
  by_cases h₃ : c = '\n'
  · rw [if_neg h₁, if_neg h₂, if_pos h₃, h₃]
    exact newline
  by_cases h₄ : c = '\r'
  · rw [if_neg h₁, if_neg h₂, if_neg h₃, if_pos h₄, h₄]
    exact carriage
  rw [if_neg h₁, if_neg h₂, if_neg h₃, if_neg h₄]
  by_cases h₅ : c = '\t'
  · rw [if_pos h₅, h₅]
    exact tab
  by_cases h₆ : c = '\x08'
  · rw [if_neg h₅, if_pos h₆, h₆]
    exact backspace
  by_cases h₇ : c = '\x0c'
  · rw [if_neg h₅, if_neg h₆, if_pos h₇, h₇]
    exact formFeed
  rw [if_neg h₅, if_neg h₆, if_neg h₇]
  by_cases h₈ : c.toNat < 32
  · rw [if_pos h₈]
    exact control c h₈
  · rw [if_neg h₈]
    exact plain c h₁ h₂ h₈

private theorem escapeChar_ne_nul (c : Char) : '\x00' ∉ escapeChar c := by
  apply escapeChar_cases (P := fun _ cs => '\x00' ∉ cs)
  case control =>
    -- Control characters print as hexadecimal digits.
    intro c h
    have h₁₆ := (hexDigit_ne_nul (c.toNat / 16) (by omega)).symm
    have h₁ := (hexDigit_ne_nul (c.toNat % 16) (by omega)).symm
    simp [h₁₆, h₁]
  case plain =>
    -- Every other character is itself, and U+0000 is a control character.
    intro c _ _ h hc
    rw [← List.mem_singleton.mp hc] at h
    exact h (by decide)
  all_goals decide

/-- `serde_json` on the documents `true`, `false`, `{}`, `{ }` and `{"type":"string"}`. -/
def Json.SerdeJson.sample : SerdeJson where
  fromStr text :=
    if text = "true" then .ok (.bool true)
    else if text = "false" then .ok (.bool false)
    else if text = "\x7b\x7d" ∨ text = "\x7b \x7d" then .ok (.object [])
    else if text = "\x7b\"type\":\"string\"\x7d" then .ok (.object [("type", .string "string")])
    else .error "expected value at line 1 column 1"
  strToString s := "\"" ++ String.ofList (s.toList.flatMap escapeChar) ++ "\""
  numToString
    | .int n => toString n
    | .float token => String.ofList (token.toList.filter (· ≠ '\x00'))
  strToString_no_nul s := by
    simp only [String.toList_append, String.toList_ofList, List.mem_append, not_or,
      List.mem_flatMap, not_exists, not_and]
    exact ⟨⟨by decide, fun c _ => escapeChar_ne_nul c⟩, by decide⟩
  numToString_no_nul n := by
    cases n with
    | int n =>
      intro h
      rcases toString_int_chars n h with h | h
      · exact absurd h (by decide)
      · exact absurd h (by decide)
    | float token => simp

/-- `syntax = "proto3"; option java_package = "p";` -/
def sampleProto : String := "syntax = \"proto3\"; option java_package = \"p\";"

/-- The sample documents as Avro schemas, and `sampleProto` with its normalized text as
`.proto` files. -/
def Libs.sample : Libs where
  serdeJson := Json.SerdeJson.sample
  ApacheAvroSchema := String
  avroParseStr text :=
    if text = "\x7b\"type\":\"string\"\x7d" then .ok "string"
    else .error "Failed to parse schema from JSON"
  avroParseList texts := .ok texts
  avroCanonicalForm name := "\"" ++ name ++ "\""
  protoxParse name text :=
    if text = sampleProto then
      .ok { name := some name, options := some "java_package = \"p\"", syntax? := some "proto3" }
    else if text = "syntax = \"proto3\";\n" then
      .ok { name := some name, syntax? := some "proto3" }
    else .error "expected 'syntax'"
  fromFileDescriptorSet _ := .ok ()
  encodeToVec d :=
    (if d.options.isSome then [0x42, 0x03, 0x0a, 0x01, 0x70] else []) ++
      if d.syntax?.isSome then [0x62, 0x06, 0x70, 0x72, 0x6f, 0x74, 0x6f, 0x33] else []

/-- The sample formats, with a check that accepts every pair. -/
def Formats.sample : Formats :=
  Formats.ofLibs Libs.sample ⟨fun _ _ _ _ _ => .ok (), by simp⟩

end KrabkaRegistry.Format
