import KrabkaRegistry.Kafkastore.Ops

/-!
# The `/subjects` Endpoints

The handler `lookup` of `rest/subjects.rs`, from the decoded body on.  It sends the text as it
is unless the query asks for a normalized one, and goes to the store directly.
-/

namespace KrabkaRegistry.Rest

open KrabkaRegistry.Format (Formats Libs)
open KrabkaRegistry.Kafkastore (RegisterSchema fail)
open KrabkaRegistry.Store (StoreState)

/-- The body of both requests. -/
structure RegisterBody where
  schema : String
  schemaType : Option String := none
  references : List SchemaReference := []
  messageType : Option String := none
  id : Option SchemaId := none
  version : Option SchemaVersion := none
  deriving DecidableEq, Repr

/-- Normalize a schema text for the given type; Protobuf has no textual normal form. -/
def normalizeSchema (L : Libs) (ty : SchemaType) (schema : String) : Result String :=
  match ty with
  | .avro =>
    match L.avroParseStr schema with
    | .ok parsed => .ok (L.avroCanonicalForm parsed)
    | .error e => fail (.invalidSchema e)
  | .json =>
    match L.serdeJson.fromStr schema with
    | .ok value => .ok (Format.Json.toJsonString L.serdeJson value)
    | .error e => fail (.invalidSchema e)
  | .protobuf => .ok schema

/-- The text a handler passes on. -/
def sentText (L : Libs) (normalize : Bool) (body : RegisterBody) : Result String :=
  if normalize then normalizeSchema L (SchemaType.fromWire body.schemaType) body.schema
  else .ok body.schema

variable (L : Libs) (F : Formats) (st : StoreState)

/-- What `lookup` answers. -/
structure LookupResponse where
  subject : String
  id : SchemaId
  version : SchemaVersion
  schemaType : Option String
  messageType : Option String
  schema : String
  deriving DecidableEq, Repr

/-- `POST /subjects/{subject}`. -/
def lookup (subject : String) (deleted normalize : Bool) (body : RegisterBody) :
    Result LookupResponse := do
  let ty := SchemaType.fromWire body.schemaType
  let schemaToFind ← sentText L normalize body
  if (st.versions subject deleted).isNone then fail (.subjectNotFound subject)
  else
    match st.findUnderSubject F subject ty schemaToFind body.references body.messageType
        deleted with
    | none => fail .schemaNotFound
    | some found =>
      match st.schemaById found.id deleted with
      | none => fail .schemaNotFound
      | some (sty, schema, _, messageType) =>
        return ⟨subject, found.id, found.version, sty.wireName, messageType, schema⟩

end KrabkaRegistry.Rest
