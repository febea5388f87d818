import Mathlib.Data.String.Basic
import Mathlib.Tactic.Common

/-!
# Percent Coding

A percent-coded text stands for bytes: `%` and two hexadecimal digits for one byte, any other
character for its own UTF-8 bytes.  A text is decoded to itself exactly when it has no such
escape (`decodeText_eq_self_iff`).
-/

namespace KrabkaRegistry.Library.PercentCoding

/-- The value of a hexadecimal digit. -/
def hexDigitValue (c : Char) : Option UInt8 :=
  if '0' ≤ c ∧ c ≤ '9' then some (c.toNat - 48).toUInt8
  else if 'a' ≤ c ∧ c ≤ 'f' then some (c.toNat - 87).toUInt8
  else if 'A' ≤ c ∧ c ≤ 'F' then some (c.toNat - 55).toUInt8
  else none

/-- The byte that two digits spell. -/
def escapedByte (high low : Char) : Option UInt8 := do
  return (← hexDigitValue high) * 16 + (← hexDigitValue low)

/-- The bytes that a text stands for. -/
def percentDecode : List Char → List UInt8
  | '%' :: high :: low :: rest =>
    match escapedByte high low with
    | some b => b :: percentDecode rest
    | none => String.utf8EncodeChar '%' ++ percentDecode (high :: low :: rest)
  | c :: rest => String.utf8EncodeChar c ++ percentDecode rest
  | [] => []

/-- Some `%` is followed by two hexadecimal digits. -/
def hasEscape : List Char → Bool
  | '%' :: high :: low :: rest => (escapedByte high low).isSome || hasEscape (high :: low :: rest)
  | _ :: rest => hasEscape rest
  | [] => false

/-- The bytes as a text, when they are valid UTF-8. -/
def decodeUtf8 (bytes : List UInt8) : Option String := String.fromUTF8? bytes.toByteArray

/-- The text that a percent-coded text stands for. -/
def decodeText (text : String) : Option String := decodeUtf8 (percentDecode text.toList)

/-! ## Replacement of invalid sequences -/

def isContinuation (b : UInt8) : Bool := 0x80 ≤ b && b ≤ 0xBF

/-- The first two bytes of a sequence of three. -/
def startsThree (b₀ b₁ : UInt8) : Bool :=
  (b₀ == 0xE0 && 0xA0 ≤ b₁ && b₁ ≤ 0xBF) || (0xE1 ≤ b₀ && b₀ ≤ 0xEC && isContinuation b₁) ||
    (b₀ == 0xED && 0x80 ≤ b₁ && b₁ ≤ 0x9F) || (0xEE ≤ b₀ && b₀ ≤ 0xEF && isContinuation b₁)

/-- The first two bytes of a sequence of four. -/
def startsFour (b₀ b₁ : UInt8) : Bool :=
  (b₀ == 0xF0 && 0x90 ≤ b₁ && b₁ ≤ 0xBF) || (0xF1 ≤ b₀ && b₀ ≤ 0xF3 && isContinuation b₁) ||
    (b₀ == 0xF4 && 0x80 ≤ b₁ && b₁ ≤ 0x8F)

/-- How many bytes are replaced together: the longest start of a valid sequence. -/
def brokenLength : List UInt8 → ℕ
  | b₀ :: b₁ :: rest =>
    if startsFour b₀ b₁ && rest.head?.any isContinuation then 3
    else if startsThree b₀ b₁ || startsFour b₀ b₁ then 2
    else 1
  | _ => 1

/-- The characters of a text with U+FFFD for what is no character. -/
def lossyChars : ℕ → List UInt8 → List Char
  | 0, _ => []
  | _, [] => []
  | fuel + 1, bytes =>
    match bytes.toByteArray.utf8DecodeChar? 0 with
    | some c => c :: lossyChars fuel (bytes.drop c.utf8Size)
    | none => Char.ofNat 0xFFFD :: lossyChars fuel (bytes.drop (brokenLength bytes))

/-- The bytes as a text, with every invalid sequence replaced. -/
def decodeUtf8Lossy (bytes : List UInt8) : String :=
  (decodeUtf8 bytes).getD (String.ofList (lossyChars bytes.length bytes))

/-! ## What is decoded to itself -/

private theorem hasEscape_cons {c : Char} {rest : List Char}
    (h : ∀ high low tail, c = '%' → rest = high :: low :: tail → False) :
    hasEscape (c :: rest) = hasEscape rest := by
  rw [hasEscape.eq_def]
  split
  · rename_i heq
    cases heq
    exact absurd rfl (h _ _ _ rfl)
  · rename_i heq
    cases heq
    rfl
  · rename_i heq
    cases heq

theorem percentDecode_of_no_escape {cs : List Char} (h : hasEscape cs = false) :
    percentDecode cs = cs.flatMap String.utf8EncodeChar := by
  fun_induction percentDecode cs with
  | case1 high low rest b hb => simp [hasEscape, hb] at h
  | case2 high low rest hb ih =>
    rw [hasEscape, hb] at h
    rw [ih h]
    rfl
  | case3 c rest hne ih =>
    rw [hasEscape_cons hne] at h
    rw [ih h]
    rfl
  | case4 => rfl

theorem length_percentDecode_le (cs : List Char) :
    (percentDecode cs).length ≤ (cs.flatMap String.utf8EncodeChar).length := by
  fun_induction percentDecode cs with
  | case1 high low rest b hb ih =>
    simp only [List.flatMap_cons, List.length_append, List.length_cons, String.length_utf8EncodeChar]
    have hpercent : '%'.utf8Size = 1 := by decide
    omega
  | case2 high low rest hb ih =>
    rw [List.flatMap_cons, List.length_append, List.length_append]
    omega
  | case3 c rest hne ih =>
    rw [List.flatMap_cons, List.length_append, List.length_append]
    omega
  | case4 => exact le_refl 0

/-- An escape is three characters for one byte. -/
theorem length_percentDecode_lt {cs : List Char} (h : hasEscape cs = true) :
    (percentDecode cs).length < (cs.flatMap String.utf8EncodeChar).length := by
  fun_induction percentDecode cs with
  | case1 high low rest b hb ih =>
    have hle := length_percentDecode_le rest
    have hlow := low.utf8Size_pos
    simp only [List.flatMap_cons, List.length_append, List.length_cons,
      String.length_utf8EncodeChar]
    have hpercent : '%'.utf8Size = 1 := by decide
    omega
  | case2 high low rest hb ih =>
    rw [hasEscape, hb] at h
    have hlt := ih h
    rw [List.flatMap_cons, List.length_append, List.length_append]
    omega
  | case3 c rest hne ih =>
    rw [hasEscape_cons hne] at h
    have hlt := ih h
    rw [List.flatMap_cons, List.length_append, List.length_append]
    omega
  | case4 => cases h

theorem decodeUtf8_eq_some {bytes : List UInt8} {s : String} :
    decodeUtf8 bytes = some s ↔ bytes = s.toList.flatMap String.utf8EncodeChar := by
  have hencode : s.toByteArray = (s.toList.flatMap String.utf8EncodeChar).toByteArray := by
    rw [← String.utf8Encode_toList]
    rfl
  unfold decodeUtf8 String.fromUTF8?
  constructor
  · intro h
    split_ifs at h with hvalid
    have hbytes : bytes.toByteArray = s.toByteArray :=
      congrArg String.toByteArray (Option.some.inj h)
    rw [hencode] at hbytes
    exact List.toByteArray_inj.mp hbytes
  · rintro rfl
    rw [← hencode, dif_pos s.isValidUTF8]
    rfl

theorem hasEscape_of_not_mem {cs : List Char} (h : '%' ∉ cs) : hasEscape cs = false := by
  induction cs with
  | nil => rfl
  | cons c cs ih =>
    rw [List.mem_cons, not_or] at h
    rw [hasEscape_cons fun _ _ _ hc _ => h.1 hc.symm, ih h.2]

/-- A start of a text that is decoded to the text is all of it. -/
theorem eq_of_decodeText {text : String} {front : List Char} (hfront : front <+: text.toList)
    (h : decodeText (String.ofList front) = some text) : front = text.toList := by
  obtain ⟨rest, hrest⟩ := hfront
  unfold decodeText at h
  rw [decodeUtf8_eq_some, String.toList_ofList] at h
  have hle := length_percentDecode_le front
  rw [h, ← hrest, List.flatMap_append, List.length_append] at hle
  -- What is left has no bytes, so it has no characters.
  cases rest with
  | nil => rw [← hrest, List.append_nil]
  | cons c rest =>
    have hpos := c.utf8Size_pos
    rw [List.flatMap_cons, List.length_append, String.length_utf8EncodeChar] at hle
    omega

theorem decodeText_eq_self_iff {text : String} :
    decodeText text = some text ↔ hasEscape text.toList = false := by
  unfold decodeText
  rw [decodeUtf8_eq_some]
  constructor
  · intro h
    by_contra hescape
    have hlt := length_percentDecode_lt (Bool.not_eq_false _ ▸ hescape)
    rw [h] at hlt
    exact Nat.lt_irrefl _ hlt
  · exact percentDecode_of_no_escape

end KrabkaRegistry.Library.PercentCoding
