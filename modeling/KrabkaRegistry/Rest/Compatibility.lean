import KrabkaRegistry.Compat

/-!
# The `/compatibility` Endpoint

`rest/compatibility.rs`, from the decoded body on, with the version of the path as
`rest/mod.rs` reads it.  The text is checked as it was sent.
-/

namespace KrabkaRegistry.Rest

open KrabkaRegistry.Compat (Verdict checkAgainstVersion)
open KrabkaRegistry.Format (Formats)
open KrabkaRegistry.Store (StoreState)

/-! ## The version of the path -/

/-- One or more decimal digits. -/
def parseDigits (digits : List Char) : Option ℕ :=
  if digits ≠ [] ∧ digits.all Char.isDigit then some (Nat.ofDigitChars 10 digits 0) else none

/-- The value of `str::parse::<i32>` before its range is checked: digits after an optional
sign. -/
def parseSigned (text : List Char) : Option Int :=
  match text with
  | '+' :: digits => (parseDigits digits).map fun n => (n : Int)
  | '-' :: digits => (parseDigits digits).map fun n => -(n : Int)
  | digits => (parseDigits digits).map fun n => (n : Int)

/-- `str::parse::<i32>`. -/
def parseI32 (text : String) : Option Int :=
  (parseSigned text.toList).filter fun n => -2147483648 ≤ n ∧ n ≤ i32Max

/-- `parse_concrete_version`. -/
def parseConcreteVersion (v : String) : Result SchemaVersion :=
  match parseI32 v with
  | some n => if 1 ≤ n then .ok n else .error (.error (.invalidVersion v))
  | none => .error (.error (.invalidVersion v))

/-- `parse_optional_version`: `latest` names no version. -/
def parseOptionalVersion (v : String) : Result (Option SchemaVersion) :=
  if v = "latest" then .ok none else some <$> parseConcreteVersion v

/-! ### Numerals -/

theorem parseDigits_toDigits (n : ℕ) : parseDigits (Nat.toDigits 10 n) = some n := by
  have hne : Nat.toDigits 10 n ≠ [] := Nat.toDigits_ne_nil
  have hall : (Nat.toDigits 10 n).all Char.isDigit := by
    rw [List.all_eq_true]
    exact fun c hc => Nat.isDigit_of_mem_toDigits (by decide) (by decide) hc
  rw [parseDigits, if_pos ⟨hne, hall⟩, Nat.ofDigitChars_ten_toDigits]

/-- Every numeral is read back. -/
theorem parseSigned_toString (n : Int) : parseSigned (toString n).toList = some n := by
  cases n with
  | ofNat n =>
    have hchars : (toString (Int.ofNat n)).toList = Nat.toDigits 10 n := by
      simp [toString, Int.repr, Nat.repr]
    have hdigits : ∀ c ∈ Nat.toDigits 10 n, c.isDigit = true := fun c hc =>
      Nat.isDigit_of_mem_toDigits (by decide) (by decide) hc
    have hread := parseDigits_toDigits n
    rw [hchars]
    -- No sign is a digit.
    unfold parseSigned
    split
    · rename_i digits heq
      exact absurd (hdigits '+' (by simp [heq])) (by decide)
    · rename_i digits heq
      exact absurd (hdigits '-' (by simp [heq])) (by decide)
    · simp [hread]
  | negSucc n =>
    have hchars : (toString (Int.negSucc n)).toList = '-' :: Nat.toDigits 10 (n + 1) := by
      simp [toString, Int.repr, Nat.repr]
    rw [hchars, parseSigned, parseDigits_toDigits]
    simp [Int.negSucc_eq]

theorem toString_ne_latest (n : Int) : toString n ≠ "latest" := by
  intro h
  have hmem : 'l' ∈ (toString n).toList := by
    rw [h]
    decide
  rcases toString_int_chars n hmem with hd | hd
  · exact absurd hd (by decide)
  · exact absurd hd (by decide)

/-- The versions that a path can name are the positive ones. -/
theorem parseOptionalVersion_toString (n : SchemaVersion) :
    parseOptionalVersion (toString n) =
      if 1 ≤ n ∧ n ≤ i32Max then .ok (some n)
      else .error (.error (.invalidVersion (toString n))) := by
  rw [parseOptionalVersion, if_neg (toString_ne_latest n), parseConcreteVersion, parseI32,
    parseSigned_toString]
  by_cases hrange : -2147483648 ≤ n ∧ n ≤ i32Max
  · by_cases hpos : 1 ≤ n
    · simp [Option.filter, hrange, hpos, Functor.map, Except.map]
    · simp [Option.filter, hrange, hpos, Functor.map, Except.map]
  · have hout : ¬ (1 ≤ n ∧ n ≤ i32Max) := fun h => hrange ⟨le_trans (by decide) h.1, h.2⟩
    have hfilter : (some n).filter (fun n => -2147483648 ≤ n ∧ n ≤ i32Max) = none := by
      simpa [Option.filter] using hrange
    rw [hfilter, if_neg hout]
    rfl

/-! ## The handler -/

namespace Compatibility

structure Body where
  schema : String
  schemaType : Option String := none
  references : List SchemaReference := []
  deriving DecidableEq, Repr

/-- `POST /compatibility/subjects/{subject}/versions/{version}`. -/
def check (F : Formats) (st : StoreState) (subject version : String) (body : Body) :
    Result Verdict := do
  let ty := SchemaType.fromWire body.schemaType
  let want ← parseOptionalVersion version
  let resolved ← st.resolveClosure body.references
  let _ ← F.parse ty body.schema resolved
  checkAgainstVersion F st subject ty body.schema resolved want

end Compatibility

end KrabkaRegistry.Rest
