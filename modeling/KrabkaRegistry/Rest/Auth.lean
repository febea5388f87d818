import KrabkaRegistry.Format.Descriptor

/-!
# Resolving the Principal of a Request

`auth::resolve` and `BasicAuthStore`: mTLS, then a bearer token, then Basic credentials, then
the anonymous principal.  The bearer validator, bcrypt and base64 are external libraries.
-/

namespace KrabkaRegistry.Rest

open KrabkaRegistry.Format.Protobuf (afterFront)

/-- `krabka_security::AuthMethod`. -/
inductive AuthMethod where
  | anonymous
  | saslPlain
  | saslOAuthBearer
  | mTls
  | saslScramSha256
  | saslScramSha512
  | saslGssapi
  deriving DecidableEq, Repr

structure Principal where
  name : String
  authMethod : AuthMethod
  groups : List String
  deriving DecidableEq, Repr

/-- The external libraries behind the credentials. -/
structure AuthLibs where
  /-- `bcrypt::verify` of a password against a hash; `none` for an error. -/
  bcryptVerify : String → String → Option Bool
  /-- The standard decoder of `base64`. -/
  base64Decode : String → Option (List UInt8)

variable (L : AuthLibs)

/-! ## Basic credentials -/

structure BasicUser where
  credential : String
  roles : List String
  deriving DecidableEq, Repr

/-- The stored users by name, and the roles of which a user needs one. -/
structure BasicAuthStore where
  users : List (String × BasicUser)
  requiredRoles : List String

/-- `constant_time_eq`: the exclusive or of the lengths and of the bytes, gathered with `or`. -/
def constantTimeEq (a b : List UInt8) : Bool :=
  let diff := a.zipIdx.foldl (fun diff p => diff ||| (p.1 ^^^ (b[p.2]?).getD 0).toNat)
    (a.length ^^^ b.length)
  diff = 0

/-- `authenticate`: the roles of the user whose password it is. -/
def BasicAuthStore.authenticate (store : BasicAuthStore) (user pass : String) :
    Option (List String) :=
  match store.users.lookup user with
  | none => none
  | some stored =>
    let credentialMatches :=
      if (afterFront "$2" stored.credential).isSome then
        (L.bcryptVerify pass stored.credential).getD false
      else constantTimeEq stored.credential.toUTF8.toList pass.toUTF8.toList
    let roleMatches := store.requiredRoles.isEmpty ||
      stored.roles.any (fun role => role ∈ store.requiredRoles) ||
      ("*" ∈ store.requiredRoles && !stored.roles.isEmpty)
    if !credentialMatches || !roleMatches then none else some stored.roles

/-! ## Headers -/

/-- `HeaderMap`: names in lower case, with the bytes of their values. -/
abbrev HeaderMap := List (String × List UInt8)

/-- `HeaderValue::to_str`: only visible ASCII and tabs make a string. -/
def headerToStr (value : List UInt8) : Option String :=
  if value.all fun b => 32 ≤ b && b < 127 || b = 9 then
    some (String.ofList (value.map fun b => Char.ofNat b.toNat))
  else none

/-- `split_once`. -/
def splitOnce (c : Char) (s : String) : Option (String × String) :=
  if c ∈ s.toList then
    some (String.ofList (s.toList.takeWhile (· ≠ c)),
      String.ofList (s.toList.dropWhile (· ≠ c)).tail)
  else none

/-! ## The decision -/

/-- `OAuthBearerValidator::validate` of a token at a time. -/
abbrev BearerValidator := String → Int → Option Principal

structure AuthState where
  basic : Option BasicAuthStore
  bearer : Option BearerValidator
  requireAuth : Bool

inductive AuthDecision where
  | authn (principal : Principal)
  | unauthorized
  deriving DecidableEq, Repr

/-- `anonymous`. -/
def anonymous : Principal := ⟨"ANONYMOUS", .anonymous, []⟩

/-- The user and the password of decoded Basic credentials. -/
def basicCredentials (b64 : String) : Option (String × String) := do
  let raw ← L.base64Decode b64
  let text ← String.fromUTF8? ⟨raw.toArray⟩
  splitOnce ':' text

/-- `resolve`. -/
def resolve (headers : HeaderMap) (mtls : Option Principal) (st : AuthState) (nowMs : Int) :
    AuthDecision :=
  match mtls with
  | some p => .authn p
  | none =>
    let auth := (headers.lookup "authorization").bind headerToStr
    match auth.bind (afterFront "Bearer ") with
    | some token =>
      match st.bearer with
      | some validate =>
        match validate token nowMs with
        | some p => .authn p
        | none => .unauthorized
      | none => .unauthorized
    | none =>
      match auth.bind (afterFront "Basic ") with
      | some b64 =>
        match st.basic with
        | none => .unauthorized
        | some store =>
          match basicCredentials L b64 with
          | none => .unauthorized
          | some (user, pass) =>
            match store.authenticate L user pass with
            | some roles => .authn ⟨user, .saslPlain, roles⟩
            | none => .unauthorized
      | none => if st.requireAuth then .unauthorized else .authn anonymous

end KrabkaRegistry.Rest
