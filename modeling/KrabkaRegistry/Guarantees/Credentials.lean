import KrabkaRegistry.Rest.Auth

/-!
# Presented Credentials

An `Authorization` header of another scheme, in another spelling of the scheme, or with bytes
that make no string is taken for no credential.

- `credentials_kept_iff`: a request with the header is refused or gets the principal that was
  accepted exactly when authentication is required or the value is text that begins with one of
  the two schemes as they are spelled.
- `lower_case_scheme_is_anonymous` is a bearer token that makes its caller anonymous.
-/

namespace KrabkaRegistry.Guarantees

open KrabkaRegistry.Rest
open KrabkaRegistry.Format.Protobuf (afterFront)

variable {L : AuthLibs} {st : AuthState} {value : List UInt8} {now : Int}

/-- The validator accepted the token of the header value for the principal. -/
def BearerAccepted (st : AuthState) (value : List UInt8) (now : Int) (p : Principal) : Prop :=
  ∃ text token validate, headerToStr value = some text ∧ afterFront "Bearer " text = some token ∧
    st.bearer = some validate ∧ validate token now = some p

/-- The store accepted the user name and the password of the header value. -/
def BasicAccepted (L : AuthLibs) (st : AuthState) (value : List UInt8) (p : Principal) : Prop :=
  ∃ text b64 store user pass roles, headerToStr value = some text ∧
    afterFront "Basic " text = some b64 ∧ st.basic = some store ∧
    basicCredentials L b64 = some (user, pass) ∧ store.authenticate L user pass = some roles ∧
    p = ⟨user, .saslPlain, roles⟩

/-- The caller is refused, or is the principal whose credentials were accepted. -/
def Backed (L : AuthLibs) (st : AuthState) (value : List UInt8) (now : Int) :
    AuthDecision → Prop
  | .unauthorized => True
  | .authn p => (BearerAccepted st value now p ∨ BasicAccepted L st value p) ∧ p ≠ anonymous

/-- The value is text that begins with `Bearer` or `Basic` and a blank. -/
def SchemeRead (value : List UInt8) : Prop :=
  ∃ text, headerToStr value = some text ∧
    ((afterFront "Bearer " text).isSome ∨ (afterFront "Basic " text).isSome)

/-- What the store accepts is not anonymous. -/
theorem BasicAccepted.ne_anonymous {p : Principal} (h : BasicAccepted L st value p) :
    p ≠ anonymous := by
  obtain ⟨_, _, _, user, _, roles, _, _, _, _, _, rfl⟩ := h
  intro heq
  have hmethod := congrArg Principal.authMethod heq
  cases hmethod

/-- A value that begins with one of the schemes is decided by its credentials. A principal comes
from a validator or the password store, and what neither accepts is refused. -/
private theorem backed_of_scheme {headers : HeaderMap}
    (hheader : headers.lookup "authorization" = some value)
    (hvalidator : ∀ validate, st.bearer = some validate → ∀ token p,
      validate token now = some p → p ≠ anonymous)
    (h : SchemeRead value) : Backed L st value now (resolve L headers none st now) := by
  obtain ⟨text, htext, hscheme⟩ := h
  unfold resolve
  simp only [hheader, Option.bind_some, htext]
  cases htoken : afterFront "Bearer " text with
  -- A bearer token decides alone, whether or not a validator is configured.
  | some token =>
    cases hbearer : st.bearer with
    | none => trivial
    | some validate =>
      cases haccept : validate token now with
      | none => simp [haccept, Backed]
      | some p =>
        simp only [haccept]
        exact ⟨.inl ⟨text, token, validate, htext, htoken, hbearer, haccept⟩,
          hvalidator validate hbearer token p haccept⟩
  | none =>
    -- Otherwise the header is one of basic credentials.
    obtain ⟨b64, hb64⟩ := Option.isSome_iff_exists.mp (hscheme.resolve_left (by simp [htoken]))
    simp only [hb64]
    cases hbasic : st.basic with
    | none => trivial
    | some store =>
      cases hcred : basicCredentials L b64 with
      | none => simp [Backed]
      | some credentials =>
        obtain ⟨user, pass⟩ := credentials
        cases hauth : store.authenticate L user pass with
        | none => simp [hauth, Backed]
        | some roles =>
          have haccepted : BasicAccepted L st value ⟨user, .saslPlain, roles⟩ :=
            ⟨text, b64, store, user, pass, roles, htext, hb64, hbasic, hcred, hauth, rfl⟩
          simp only [hauth]
          exact ⟨.inr haccepted, haccepted.ne_anonymous⟩

/-- Any other value counts as no credential. -/
private theorem resolve_of_no_scheme {headers : HeaderMap}
    (hheader : headers.lookup "authorization" = some value) (h : ¬ SchemeRead value) :
    resolve L headers none st now =
      if st.requireAuth then .unauthorized else .authn anonymous := by
  unfold resolve
  simp only [hheader, Option.bind_some]
  cases htext : headerToStr value with
  | none => simp
  | some text =>
    have hbearer : afterFront "Bearer " text = none := by
      by_contra hne
      exact h ⟨text, htext, .inl (Option.isSome_iff_ne_none.mpr hne)⟩
    have hbasic : afterFront "Basic " text = none := by
      by_contra hne
      exact h ⟨text, htext, .inr (Option.isSome_iff_ne_none.mpr hne)⟩
    simp [hbearer, hbasic]

/-- A request with an `Authorization` header and without mTLS is refused or gets the principal
that was accepted, and is never anonymous, exactly when authentication is required or the header
begins with a scheme that is read. -/
theorem credentials_kept_iff {headers : HeaderMap}
    (hheader : headers.lookup "authorization" = some value)
    (hvalidator : ∀ validate, st.bearer = some validate → ∀ token p,
      validate token now = some p → p ≠ anonymous) :
    Backed L st value now (resolve L headers none st now) ↔
      st.requireAuth = true ∨ SchemeRead value := by
  by_cases hscheme : SchemeRead value
  · simp only [hscheme, or_true, iff_true]
    exact backed_of_scheme hheader hvalidator hscheme
  · rw [resolve_of_no_scheme hheader hscheme]
    cases hrequire : st.requireAuth with
    | true => simp [Backed]
    | false => simp [Backed, hscheme]

/-! ### A scheme in lower case -/

/-- Libraries that accept and decode nothing. -/
def AuthLibs.refusing : AuthLibs := ⟨fun _ _ => some false, fun _ => none⟩

/-- A validator of one token, and authentication not required. -/
def tokenState : AuthState :=
  { basic := none
    bearer := some fun token _ =>
      if token = "t" then some ⟨"alice", .saslOAuthBearer, []⟩ else none
    requireAuth := false }

/-- `bearer t`. -/
def lowerCaseHeader : HeaderMap :=
  [("authorization", [0x62, 0x65, 0x61, 0x72, 0x65, 0x72, 0x20, 0x74])]

/-- `Bearer t`. -/
def bearerHeader : HeaderMap :=
  [("authorization", [0x42, 0x65, 0x61, 0x72, 0x65, 0x72, 0x20, 0x74])]

/-- The scheme of the header is case-insensitive, but this token is not looked at. -/
theorem lower_case_scheme_is_anonymous :
    ∃ value, lowerCaseHeader.lookup "authorization" = some value ∧
      ¬ Backed AuthLibs.refusing tokenState value 0
        (resolve AuthLibs.refusing lowerCaseHeader none tokenState 0) := by
  refine ⟨_, rfl, ?_⟩
  have hanonymous : resolve AuthLibs.refusing lowerCaseHeader none tokenState 0 =
      .authn anonymous := by decide
  rw [hanonymous]
  intro h
  exact h.2 rfl

theorem credentials_kept_iff_token :
    Backed AuthLibs.refusing tokenState [0x42, 0x65, 0x61, 0x72, 0x65, 0x72, 0x20, 0x74] 0
        (resolve AuthLibs.refusing bearerHeader none tokenState 0) ↔
      tokenState.requireAuth = true ∨
        SchemeRead [0x42, 0x65, 0x61, 0x72, 0x65, 0x72, 0x20, 0x74] := by
  refine credentials_kept_iff rfl ?_
  intro validate hvalidate token p hp
  obtain rfl := Option.some.inj hvalidate
  simp only at hp
  split at hp
  · obtain rfl := Option.some.inj hp
    decide
  · cases hp

end KrabkaRegistry.Guarantees
