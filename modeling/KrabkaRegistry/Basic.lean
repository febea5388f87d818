import Mathlib.Data.String.Basic
import Mathlib.Data.Finset.Card
import Mathlib.Data.List.Sort
import Mathlib.Tactic.Common

/-!
# Identifiers, Errors and the Vocabulary Shared by Every Layer

The newtypes of `ids.rs`, the error model of `error.rs`, and the small records
that travel through the store, the topic and the formats.  Rust's `BTreeMap` is
`Std.ExtTreeMap`: two maps are equal exactly when they hold the same bindings.
-/

namespace KrabkaRegistry

/-- Rust's `BTreeMap`, ordered by the key type's own comparison. -/
abbrev BTreeMap (κ ν : Type) [Ord κ] := Std.ExtTreeMap κ ν compare

namespace BTreeMap

variable {κ ν : Type} [Ord κ] [Std.TransOrd κ] [Std.LawfulEqOrd κ]

theorem getElem?_insert [DecidableEq κ] (m : BTreeMap κ ν) (k a : κ) (v : ν) :
    (m.insert k v)[a]? = if a = k then some v else m[a]? := by
  rw [Std.ExtTreeMap.getElem?_insert]
  by_cases h : a = k
  · simp [h]
  · simp [h, Ne.symm h]

theorem getElem?_erase [DecidableEq κ] (m : BTreeMap κ ν) (k a : κ) :
    (m.erase k)[a]? = if a = k then none else m[a]? := by
  rw [Std.ExtTreeMap.getElem?_erase]
  by_cases h : a = k
  · simp [h]
  · simp [h, Ne.symm h]

theorem contains_insert_iff (m : BTreeMap κ ν) (k a : κ) (v : ν) :
    (m.insert k v).contains a = true ↔ a = k ∨ m.contains a = true := by
  rw [Std.ExtTreeMap.contains_insert, Bool.or_eq_true, beq_iff_eq,
    Std.LawfulEqCmp.compare_eq_iff_eq, eq_comm]

/-- A map is built again from its listing. -/
theorem ofList_toList [DecidableEq κ] (m : BTreeMap κ ν) : Std.ExtTreeMap.ofList m.toList compare = m := by
  refine Std.ExtTreeMap.ext_getElem? fun k => ?_
  cases hk : m[k]? with
  | some v =>
    have hmem : (k, v) ∈ m.toList := Std.ExtTreeMap.mem_toList_iff_getElem?_eq_some.mpr hk
    exact Std.ExtTreeMap.getElem?_ofList_of_mem Std.ReflCmp.compare_self
      Std.ExtTreeMap.distinct_keys_toList hmem
  | none =>
    have hlawful : Std.LawfulBEqCmp (compare : κ → κ → Ordering) := ⟨by simp⟩
    have hnot : k ∉ m := by
      intro hmem
      rw [Std.ExtTreeMap.getElem?_eq_some_getElem hmem] at hk
      cases hk
    refine Std.ExtTreeMap.getElem?_ofList_of_contains_eq_false ?_
    simpa using hnot

end BTreeMap

/-! ## Identifiers -/

/-- A registry-global schema id, an `i32` in the source. -/
abbrev SchemaId := Int

/-- A version within one subject, an `i32` in the source. -/
abbrev SchemaVersion := Int

/-- `i32::MAX`, where `saturating_add` stops and `+` overflows. -/
def i32Max : Int := 2147483647

/-- `i32::saturating_add(1)`. -/
def saturatingSucc (n : Int) : Int := min (n + 1) i32Max

/-- A decimal numeral holds digits and at most a sign. -/
theorem toString_int_chars (n : Int) {c : Char} (h : c ∈ (toString n).toList) :
    c.isDigit ∨ c = '-' := by
  cases n with
  | ofNat n =>
    refine .inl (Nat.isDigit_of_mem_toDigits (b := 10) (n := n) (by decide) (by decide) ?_)
    simpa [toString, Int.repr, Nat.repr] using h
  | negSucc n =>
    simp only [toString, Int.repr, String.toList_append, List.mem_append, Nat.repr,
      String.toList_ofList] at h
    rcases h with h | h
    · exact .inr (by simpa using h)
    · exact .inl (Nat.isDigit_of_mem_toDigits (by decide) (by decide) h)

/-- A numeral is that of one natural number. -/
theorem toString_nat_inj {m n : ℕ} (h : toString m = toString n) : m = n := by
  have hdigits : Nat.toDigits 10 m = Nat.toDigits 10 n := by
    simpa [toString, Nat.repr, String.ofList_inj] using h
  rw [← Nat.ofDigitChars_ten_toDigits (n := m), hdigits, Nat.ofDigitChars_ten_toDigits]

/-- A numeral is that of one integer. -/
theorem toString_int_inj {m n : Int} (h : toString m = toString n) : m = n := by
  -- Only negative numbers start with a sign.
  have hsign : ∀ m n : ℕ, toString (Int.ofNat m) ≠ toString (Int.negSucc n) := by
    intro m n h
    have hmem : '-' ∈ Nat.toDigits 10 m := by
      have hchars := congrArg String.toList h
      simp only [toString, Int.repr, Nat.repr, String.toList_append, String.toList_ofList] at hchars
      rw [hchars]
      simp
    exact absurd (Nat.isDigit_of_mem_toDigits (by decide) (by decide) hmem) (by decide)
  cases m with
  | ofNat m =>
    cases n with
    | ofNat n => rw [toString_nat_inj h]
    | negSucc n => exact absurd h (hsign m n)
  | negSucc m =>
    cases n with
    | ofNat n => exact absurd h.symm (hsign n m)
    | negSucc n =>
      have hsucc : toString (m + 1) = toString (n + 1) :=
        (String.append_right_inj "-").mp h
      rw [Nat.succ.inj (toString_nat_inj hsucc)]
/-! ## Errors -/

/-- The error model of `error.rs`. -/
inductive SrError where
  | notFound
  | methodNotAllowed
  | forbidden
  | invalidRequest (message : String)
  | forwardFailed
  | unknownLeader (message : String)
  | subjectNotFound (subject : String)
  | versionNotFound
  | schemaNotFound
  | invalidSchema (message : String)
  | invalidVersion (version : String)
  | invalidCompatibilityLevel (level : String)
  | backend (message : String)
  | operationTimedOut
  | incompatible (messages : List String)
  | operationNotPermitted (subject : String)
  | schemaIdConflict (id : SchemaId)
  | subjectNotSoftDeleted (subject : String)
  | versionNotSoftDeleted (subject : String) (version : SchemaVersion)
  | invalidMode (mode : String)
  | subjectSoftDeleted (subject : String)
  | subjectModeNotConfigured (subject : String)
  | referenceNotFound (reference : String)
  | referencedByOthers (target : String)
  deriving DecidableEq, Repr

/-- How a call can end without a result: an `SrError`, the panic of an `i32`
addition that overflows, or a recursion deeper than the fuel it was given. -/
inductive Failure where
  | error (e : SrError)
  | overflow
  | fuel
  deriving DecidableEq, Repr

/-- The outcome of a fallible call. -/
abbrev Result (α : Type) := Except Failure α

theorem bind_ok {ε α β : Type} {x : Except ε α} {f : α → Except ε β} {b : β}
    (h : x >>= f = .ok b) : ∃ a, x = .ok a ∧ f a = .ok b := by
  cases x with
  | error e => cases h
  | ok a => exact ⟨a, rfl, h⟩

/-- A loop of checks passes if every check does. -/
theorem forM_ok_iff {ε α : Type} {f : α → Except ε Unit} {l : List α} :
    l.forM f = .ok () ↔ ∀ a ∈ l, f a = .ok () := by
  induction l with
  | nil => simp [List.forM_eq_forM, pure, Except.pure]
  | cons a l ih =>
    rw [List.forall_mem_cons, ← ih]
    show (f a >>= fun _ => l.forM f) = .ok () ↔ f a = .ok () ∧ l.forM f = .ok ()
    cases f a with
    | error e => simp [bind, Except.bind]
    | ok u => simp [bind, Except.bind]

theorem map_ok {ε α β : Type} {f : α → β} {x : Except ε α} {b : β} (h : f <$> x = .ok b) :
    ∃ a, x = .ok a ∧ f a = b := by
  cases x with
  | error e => cases h
  | ok a => exact ⟨a, rfl, by simpa [Functor.map, Except.map] using h⟩

/-- Every failure of `x` is one that `P` allows. -/
def FailsWith {ε α : Type} (P : ε → Prop) (x : Except ε α) : Prop := ∀ e, x = .error e → P e

namespace FailsWith

variable {ε α β : Type} {P : ε → Prop}

theorem ok (a : α) : FailsWith P (.ok a : Except ε α) := by
  intro e h
  cases h

theorem error {e : ε} (h : P e) : FailsWith P (.error e : Except ε α) := by
  intro e' he'
  cases he'
  exact h

theorem bind {x : Except ε α} {f : α → Except ε β} (hx : FailsWith P x)
    (hf : ∀ a, FailsWith P (f a)) : FailsWith P (x >>= f) := by
  cases x with
  | ok a => exact hf a
  | error e => exact error (hx e rfl)

theorem map {x : Except ε α} {f : α → β} (hx : FailsWith P x) : FailsWith P (f <$> x) := by
  cases x with
  | ok a => exact ok (f a)
  | error e => exact error (hx e rfl)

theorem mono {Q : ε → Prop} {x : Except ε α} (hx : FailsWith P x) (h : ∀ e, P e → Q e) :
    FailsWith Q x := fun e he => h e (hx e he)

end FailsWith

/-! ## Schema types and references -/

/-- The three schema formats. -/
inductive SchemaType where
  | avro
  | protobuf
  | json
  deriving DecidableEq, Repr

namespace SchemaType

/-- The name a type has on the wire; Avro is the absent default. -/
def wireName : SchemaType → Option String
  | avro => none
  | protobuf => some "PROTOBUF"
  | json => some "JSON"

/-- Read a wire name back.  Every unknown name falls through to JSON. -/
def fromWire : Option String → SchemaType
  | none => avro
  | some s => if s = "" ∨ s = "AVRO" then avro else if s = "PROTOBUF" then protobuf else json

@[simp] theorem fromWire_wireName (ty : SchemaType) : fromWire ty.wireName = ty := by
  cases ty <;> rfl

end SchemaType

/-- A reference that a schema declares to a `(subject, version)`. -/
structure SchemaReference where
  name : String
  subject : String
  version : SchemaVersion
  deriving DecidableEq, Repr

/-- A referenced schema resolved from the store, ready to feed a format parser. -/
structure ResolvedReference where
  name : String
  ty : SchemaType
  schema : String
  deriving DecidableEq, Repr

/-- Result of a registration: the global id and the per-subject version. -/
structure Registered where
  id : SchemaId
  version : SchemaVersion
  deriving DecidableEq, Repr

end KrabkaRegistry
