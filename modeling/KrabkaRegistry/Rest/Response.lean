import Mathlib
import KrabkaRegistry.Kafkastore.Codec
import KrabkaRegistry.Library.PercentCoding

/-!
# Answers

The error model of `error.rs` with its codes, statuses and texts, the answers of
`rest/response.rs`, and the toggles that the handlers read from a query.

The text of a list of strings as Rust's `Debug` prints it is a parameter, and so are the texts
that axum and serde report.
-/

namespace KrabkaRegistry

namespace SrError

/-- `error_code`. -/
def errorCode : SrError → Int32
  | .notFound => 404
  | .methodNotAllowed => 405
  | .forbidden => 40301
  | .invalidRequest _ => 400
  | .forwardFailed => 50003
  | .unknownLeader _ => 50004
  | .subjectNotFound _ => 40401
  | .versionNotFound => 40402
  | .schemaNotFound => 40403
  | .invalidSchema _ | .referenceNotFound _ => 42201
  | .invalidVersion _ => 42202
  | .invalidCompatibilityLevel _ => 42203
  | .backend _ => 50001
  | .operationTimedOut => 50002
  | .incompatible _ => 409
  | .operationNotPermitted _ | .schemaIdConflict _ => 42205
  | .subjectNotSoftDeleted _ => 40405
  | .versionNotSoftDeleted _ _ => 40407
  | .invalidMode _ => 42204
  | .subjectSoftDeleted _ => 40404
  | .subjectModeNotConfigured _ => 40409
  | .referencedByOthers _ => 42206

/-- `http_status`. -/
def httpStatus : SrError → UInt16
  | .methodNotAllowed => 405
  | .forbidden => 403
  | .invalidRequest _ => 400
  | .notFound | .subjectNotFound _ | .versionNotFound | .schemaNotFound
  | .subjectNotSoftDeleted _ | .versionNotSoftDeleted _ _ | .subjectSoftDeleted _
  | .subjectModeNotConfigured _ => 404
  | .invalidSchema _ | .invalidVersion _ | .invalidCompatibilityLevel _
  | .operationNotPermitted _ | .schemaIdConflict _ | .invalidMode _ | .referenceNotFound _
  | .referencedByOthers _ => 422
  | .backend _ | .operationTimedOut | .forwardFailed | .unknownLeader _ => 500
  | .incompatible _ => 409

/-- The text of an error. -/
def display (debug : List String → String) : SrError → String
  | .notFound => "HTTP 404 Not Found"
  | .methodNotAllowed => "HTTP 405 Method Not Allowed"
  | .forbidden => "Forbidden"
  | .invalidRequest message => message
  | .forwardFailed => "Error while forwarding register schema request to the leader"
  | .unknownLeader message => "Unknown leader: " ++ message
  | .subjectNotFound subject => "Subject '" ++ subject ++ "' not found."
  | .versionNotFound => "Version not found."
  | .schemaNotFound => "Schema not found"
  | .invalidSchema message => "Invalid schema: " ++ message
  | .invalidVersion version => "Invalid version: " ++ version
  | .invalidCompatibilityLevel level => "Invalid compatibility level: " ++ level
  | .backend message => "Error in the backend data store: " ++ message
  | .operationTimedOut => "Operation timed out"
  | .incompatible messages =>
    "Schema being registered is incompatible with an earlier schema; details: " ++ debug messages
  | .operationNotPermitted subject => "Subject '" ++ subject ++ "' is in read-only mode."
  | .schemaIdConflict id => "Overwrite new schema with id " ++ toString id ++ " is not permitted."
  | .subjectNotSoftDeleted subject =>
    "Subject '" ++ subject ++ "' was not deleted first before being permanently deleted."
  | .versionNotSoftDeleted subject version =>
    "Version " ++ toString version ++ " of subject '" ++ subject ++
      "' was not soft-deleted first before being permanently deleted."
  | .invalidMode mode => "Invalid mode: " ++ mode
  | .subjectSoftDeleted subject =>
    "Subject '" ++ subject ++ "' was soft deleted. Set permanent=true to delete permanently."
  | .subjectModeNotConfigured subject =>
    "Subject '" ++ subject ++ "' does not have subject-level mode configured"
  | .referenceNotFound reference => "Reference " ++ reference ++ " not found."
  | .referencedByOthers target =>
    "One or more references exist to the schema " ++ target ++ "."

end SrError

namespace Rest

open KrabkaRegistry.Format.Json
open KrabkaRegistry.Kafkastore.Codec (intValue)
open KrabkaRegistry.Library.PercentCoding

/-! ## Responses -/

/-- `CONTENT_TYPE`. -/
def vendorContentType : String := "application/vnd.schemaregistry.v1+json"

structure Response where
  status : UInt16
  contentType : String
  body : String
  deriving DecidableEq, Repr

/-- What the libraries under the handlers say. -/
structure ServerTexts where
  /-- A list of strings as `Debug` prints it. -/
  debug : List String → String
  /-- Why axum rejects a query, from the field that comes twice. -/
  queryRejection : String → String
  /-- What axum answers when a path parameter is not UTF-8. -/
  pathRejection : Response
  /-- The answer to a body that is larger than axum reads. -/
  bodyRejection : Response
  /-- Why serde cannot read a body. -/
  bodyError : String → String

/-- A `serde_json::Map` is printed in the order of its keys. -/
def mapValue (members : BTreeMap String Value) : Value := .object members.toList

variable (J : SerdeJson) (T : ServerTexts)

/-- `error_response`. -/
def errorResponse (status : UInt16) (errorCode : Int32) (message : String) : Response :=
  let body : BTreeMap String Value :=
    (Std.ExtTreeMap.empty.insert "error_code" (intValue errorCode.toInt)).insert "message"
      (.string message)
  ⟨status, vendorContentType, toJsonString J (mapValue body)⟩

/-- `into_response` of an error. -/
def intoResponse (e : SrError) : Response :=
  errorResponse J e.httpStatus e.errorCode (e.display T.debug)

/-- `ok_json`. -/
def okJson (v : Value) : Response := ⟨200, vendorContentType, toJsonString J v⟩

/-- `ok_raw`. -/
def okRaw (body : String) : Response := ⟨200, vendorContentType, body⟩

/-- The answer to an outcome of a handler.  A handler that panics answers nothing. -/
def answered : Result Response → Option Response
  | .ok r => some r
  | .error (.error e) => some (intoResponse J T e)
  | .error .overflow | .error .fuel => none

/-! ## Queries -/

/-- A part of a query: `+` is a blank. -/
def decodeForm (text : List Char) : List UInt8 :=
  percentDecode (text.map fun c => if c = '+' then ' ' else c)

/-- `form_urlencoded::parse`: the pairs of a query. -/
def formPairs (query : String) : List (List UInt8 × List UInt8) :=
  ((query.toList.splitOn '&').filter (· ≠ [])).map fun piece =>
    (decodeForm (piece.takeWhile (· ≠ '=')), decodeForm (piece.dropWhile (· ≠ '=')).tail)

def asciiLowercase (b : UInt8) : UInt8 := if 65 ≤ b && b ≤ 90 then b + 32 else b

/-- `eq_ignore_ascii_case`. -/
def eqIgnoreAsciiCase (a b : List UInt8) : Bool := a.map asciiLowercase = b.map asciiLowercase

/-- The bytes of a text. -/
def utf8 (text : String) : List UInt8 := text.toList.flatMap String.utf8EncodeChar

/-- `Query` of a struct with one toggle that `deserialize_bool` reads.  Other fields are ignored;
the toggle must not come twice. -/
def queryToggle (name : String) (query : Option String) : Result Bool :=
  match (formPairs (query.getD "")).filter fun p => p.1 = utf8 name with
  | [] => .ok false
  | [p] => .ok (eqIgnoreAsciiCase p.2 (utf8 "true"))
  | _ => .error (.error (.invalidRequest (T.queryRejection name)))

/-- `DeletedQ`. -/
def deletedQ (query : Option String) : Result Bool := queryToggle T "deleted" query

/-- `NormalizeQuery`. -/
def normalizeQuery (query : Option String) : Result Bool := queryToggle T "normalize" query

end Rest

end KrabkaRegistry
