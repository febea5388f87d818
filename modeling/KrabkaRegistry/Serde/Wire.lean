import KrabkaRegistry.Basic
import KrabkaRegistry.Library.Base128

/-!
# The Wire Frame

`wire.rs` of the serde crate: `magic(0x00) | schema_id(4 BE) | [message_index] | body`.  A
Protobuf frame has a message index between the id and the body: a count and that many indices,
each a zigzag varint, with the list `[0]` written as a single zero byte.

## Main results

- `readVarint_iff`: `read_varint` accepts the texts that start with a `put_varint`, and no others
- `decodeProtobuf_iff`: the frames that `decode_protobuf` accepts
-/

namespace KrabkaRegistry.Serde

open KrabkaRegistry.Library

abbrev Bytes := List UInt8

/-- The errors of `error.rs` that framing and the message walk report. -/
inductive SchemaSerdeError where
  | wire (message : String)
  | schema (message : String)
  deriving DecidableEq, Repr

namespace Wire

def magic : UInt8 := 0x00

/-- `put_u32`: big-endian. -/
def putU32 (id : UInt32) : Bytes :=
  [(id >>> 24).toUInt8, (id >>> 16).toUInt8, (id >>> 8).toUInt8, id.toUInt8]

/-- `u32::from_be_bytes`. -/
def fromBeBytes (b₁ b₂ b₃ b₄ : UInt8) : UInt32 :=
  b₁.toUInt32 <<< 24 ||| b₂.toUInt32 <<< 16 ||| b₃.toUInt32 <<< 8 ||| b₄.toUInt32

/-! ## Varints -/

/-- The zigzag form of a signed number. -/
def zigzag (value : Int64) : UInt64 := (value <<< 1 ^^^ value >>> 63).toUInt64

/-- The number that a zigzag form stands for. -/
def unzigzag (result : UInt64) : Int64 := (result >>> 1).toInt64 ^^^ -(result &&& 1).toInt64

/-- The loop of `put_varint`. -/
def putGroups (zig : UInt64) : Bytes :=
  if zig < 0x80 then [zig.toUInt8]
  else (zig.toUInt8 &&& 0x7f ||| 0x80) :: putGroups (zig >>> 7)
termination_by zig.toNat
decreasing_by
  rename_i h
  rw [UInt64.lt_iff_toNat_lt, Nat.not_lt] at h
  rw [UInt64.toNat_shiftRight]
  simp only [UInt64.reduceToNat, Nat.reduceMod, Nat.shiftRight_eq_div_pow] at h ⊢
  omega

def putVarint (value : Int64) : Bytes := putGroups (zigzag value)

def encodedVarintLen (value : UInt64) : ℕ :=
  if value ≥ 0x80 then encodedVarintLen (value >>> 7) + 1 else 1
termination_by value.toNat
decreasing_by
  rename_i h
  rw [ge_iff_le, UInt64.le_iff_toNat_le] at h
  rw [UInt64.toNat_shiftRight]
  simp only [UInt64.reduceToNat, Nat.reduceMod, Nat.shiftRight_eq_div_pow] at h ⊢
  omega

/-- The loop of `read_varint`, after `index` bytes that gave `result`. -/
def readGroups (index : ℕ) (result : UInt64) (bytes : Bytes) :
    Except SchemaSerdeError (Int64 × Bytes) :=
  if index = 10 then .error (.wire "varint exceeds 10 bytes")
  else
    match bytes with
    | [] => .error (.wire "truncated varint")
    | byte :: rest =>
      let payload := (byte &&& 0x7f).toUInt64
      -- Ten groups hold 70 bits, and the last one has room for one of them.
      if index = 9 ∧ payload > 1 then .error (.wire "varint overflows 64 bits")
      else
        let result := result ||| payload <<< (UInt64.ofNat (index * 7))
        if byte &&& 0x80 = 0 then
          if encodedVarintLen result ≠ index + 1 then .error (.wire "varint is overlong")
          else .ok (unzigzag result, rest)
        else readGroups (index + 1) result rest

def readVarint (bytes : Bytes) : Except SchemaSerdeError (Int64 × Bytes) := readGroups 0 0 bytes

/-! ## Frames -/

/-- Frame a non-Protobuf body. -/
def encode (id : UInt32) (body : Bytes) : Bytes := magic :: putU32 id ++ body

/-- `i64::try_from` on a length. -/
def i64OfLen (n : ℕ) : Option Int64 := if n < 2 ^ 63 then some (Int64.ofNat n) else none

/-- Frame a Protobuf body with its message-index path.  A count that does not fit an `i64` is
the panic of `expect`. -/
def encodeProtobuf (id : UInt32) (messageIndex : List Int32) (body : Bytes) : Option Bytes :=
  if messageIndex = [0] then some (magic :: putU32 id ++ [0] ++ body)
  else
    (i64OfLen messageIndex.length).map fun indexCount =>
      magic :: putU32 id ++ putVarint indexCount ++
        messageIndex.flatMap (fun ix => putVarint ix.toInt64) ++ body

def stripHeader : Bytes → Except SchemaSerdeError (UInt32 × Bytes)
  | b₀ :: b₁ :: b₂ :: b₃ :: b₄ :: rest =>
    if b₀ ≠ magic then
      .error (.wire ("bad magic byte 0x" ++
        String.ofList [(b₀.toNat / 16).digitChar, (b₀.toNat % 16).digitChar]))
    else .ok (fromBeBytes b₁ b₂ b₃ b₄, rest)
  | bytes => .error (.wire ("frame too short: " ++ toString bytes.length ++ " bytes"))

/-- Split a non-Protobuf frame into id and body. -/
def decode (bytes : Bytes) : Except SchemaSerdeError (UInt32 × Bytes) := stripHeader bytes

/-- `i32::try_from`. -/
def i32OfI64 (ix : Int64) : Option Int32 :=
  if -2147483648 ≤ ix.toInt ∧ ix.toInt ≤ 2147483647 then some ix.toInt32 else none

/-- The indices of a frame, `count` of them. -/
def readIndices : ℕ → Bytes → Except SchemaSerdeError (List Int32 × Bytes)
  | 0, rest => .ok ([], rest)
  | count + 1, rest => do
    let (ix, rest) ← readVarint rest
    match i32OfI64 ix with
    | none => .error (.wire ("Protobuf message index " ++ toString ix ++ " does not fit in i32"))
    | some ix => do
      let (v, rest) ← readIndices count rest
      return (ix :: v, rest)

/-- Split a Protobuf frame into id, message index and body. -/
def decodeProtobuf (bytes : Bytes) : Except SchemaSerdeError (UInt32 × List Int32 × Bytes) := do
  let (id, afterId) ← stripHeader bytes
  let (len, rest) ← readVarint afterId
  if len = 0 then return (id, [0], rest)
  else if len.toInt < 0 then
    .error (.wire ("negative Protobuf message-index count " ++ toString len))
  else
    let indexCount := len.toInt.toNat
    if indexCount > rest.length then
      .error (.wire ("Protobuf message-index count " ++ toString indexCount ++
        " exceeds remaining frame bytes " ++ toString rest.length))
    else do
      let (indices, rest) ← readIndices indexCount rest
      return (id, indices, rest)

/-! ## Zigzag -/

/-- The negated low bit has it in every place. -/
private theorem getLsbD_neg_low (x : BitVec 64) {i : ℕ} (hi : i < 64) :
    (-(x &&& 1#64)).getLsbD i = x.getLsbD 0 := by
  rw [BitVec.getLsbD_neg]
  cases i with
  | zero => simp
  | succ i => simp [hi]

/-- A zigzag form has the sign in its lowest place and every place above it moved up by one,
all of them flipped if the number is negative. -/
theorem getLsbD_zigzag (v : Int64) {i : ℕ} (hi : i < 64) :
    (zigzag v).toBitVec.getLsbD i =
      ((decide (0 < i) && v.toBitVec.getLsbD (i - 1)) ^^ v.toBitVec.getLsbD 63) := by
  have hzig : (zigzag v).toBitVec = (v.toBitVec <<< 1) ^^^ v.toBitVec.sshiftRight 63 := by
    simp [zigzag]
  have hsign : (v.toBitVec.sshiftRight 63).getLsbD i = v.toBitVec.getLsbD 63 := by
    rw [BitVec.getLsbD_sshiftRight, BitVec.msb_eq_getLsbD_last]
    rcases Nat.eq_zero_or_pos i with rfl | hpos
    · simp
    · have h64 : ¬ 64 ≤ i := by omega
      have h63 : ¬ 63 + i < 64 := by omega
      simp [h64, h63]
  rw [hzig, BitVec.getLsbD_xor, hsign, BitVec.getLsbD_shiftLeft]
  rcases Nat.eq_zero_or_pos i with rfl | hpos
  · simp
  · have h1 : ¬ i < 1 := by omega
    simp [hi, hpos, h1]

theorem getLsbD_unzigzag (r : UInt64) {i : ℕ} (hi : i < 64) :
    (unzigzag r).toBitVec.getLsbD i =
      (r.toBitVec.getLsbD (1 + i) ^^ r.toBitVec.getLsbD 0) := by
  have hun : (unzigzag r).toBitVec = (r.toBitVec >>> 1) ^^^ -(r.toBitVec &&& 1#64) := by
    simp [unzigzag]
  rw [hun, BitVec.getLsbD_xor, getLsbD_neg_low _ hi, BitVec.getLsbD_ushiftRight]

@[simp] theorem unzigzag_zigzag (v : Int64) : unzigzag (zigzag v) = v := by
  apply Int64.toBitVec_inj.mp
  apply BitVec.eq_of_getLsbD_eq
  intro i hi
  rw [getLsbD_unzigzag _ hi, getLsbD_zigzag v (by decide : 0 < 64)]
  rcases Nat.lt_or_ge (1 + i) 64 with h | h
  · rw [getLsbD_zigzag v h]
    simp
  -- The highest place is the sign itself.
  · obtain rfl : i = 63 := by omega
    simp

@[simp] theorem zigzag_unzigzag (r : UInt64) : zigzag (unzigzag r) = r := by
  apply UInt64.toBitVec_inj.mp
  apply BitVec.eq_of_getLsbD_eq
  intro i hi
  rw [getLsbD_zigzag _ hi, getLsbD_unzigzag r (by decide : 63 < 64)]
  cases i with
  | zero => simp
  | succ i =>
    rw [Nat.add_sub_cancel, getLsbD_unzigzag r (by omega), Nat.add_comm 1 i]
    simp

/-! ## Groups as base-128 numerals -/

/-- The lower seven bits. -/
private theorem toNat_payload (b : UInt8) : (b &&& 0x7f).toNat = b.toNat % 128 := by
  rw [UInt8.toNat_and]
  exact Nat.and_two_pow_sub_one_eq_mod b.toNat 7

/-- A group with its high bit set. -/
private theorem toNat_continued (b : UInt8) : (b &&& 0x7f ||| 0x80).toNat = b.toNat % 128 + 128 := by
  have hlow : b.toNat % 128 < 2 ^ 7 := Nat.mod_lt _ (by decide)
  rw [UInt8.toNat_or, toNat_payload, Nat.or_comm]
  have hor := Nat.two_pow_add_eq_or_of_lt hlow 1
  simp only [mul_one] at hor
  rw [show (0x80 : UInt8).toNat = 2 ^ 7 from rfl, ← hor]
  omega

/-- The high bit is clear. -/
private theorem and_high_eq_zero (b : UInt8) : b &&& 0x80 = 0 ↔ b.toNat < 128 := by
  have hall : ∀ n : Fin 256, (UInt8.ofNat n &&& 0x80 = 0 ↔ n.val < 128) := by decide +kernel
  simpa using hall ⟨b.toNat, b.toNat_lt⟩

private theorem toNat_shiftRight_seven (z : UInt64) : (z >>> 7).toNat = z.toNat / 128 := by
  rw [UInt64.toNat_shiftRight]
  simp [Nat.shiftRight_eq_div_pow]

/-- The numeral of the zigzag form is what the loop writes. -/
theorem putGroups_eq (zig : UInt64) : putGroups zig = Base128.encode zig.toNat := by
  fun_induction putGroups zig with
  | case1 zig h =>
    rw [Base128.encode_of_lt (by simpa [UInt64.lt_iff_toNat_lt] using h)]
    congr 1
  | case2 zig h ih =>
    have hge : 128 ≤ zig.toNat := by simpa [UInt64.lt_iff_toNat_lt] using h
    rw [Base128.encode_of_ge hge, ih, toNat_shiftRight_seven]
    congr 1
    apply UInt8.toNat_inj.mp
    rw [Base128.toNat_toUInt8 (by omega), toNat_continued, UInt64.toNat_toUInt8]
    omega

theorem encodedVarintLen_eq (value : UInt64) :
    encodedVarintLen value = (Base128.encode value.toNat).length := by
  fun_induction encodedVarintLen value with
  | case1 value h ih =>
    have hge : 128 ≤ value.toNat := by simpa [UInt64.le_iff_toNat_le] using h
    rw [Base128.encode_of_ge hge, ih, toNat_shiftRight_seven, List.length_cons]
  | case2 value h =>
    have hlt : value.toNat < 128 := by simpa [UInt64.le_iff_toNat_le] using h
    rw [Base128.encode_of_lt hlt, List.length_singleton]

/-! ## What is read is what was put -/

/-- One round of the loop puts its seven bits above those it has. -/
private theorem toNat_accumulate {k : ℕ} {r : UInt64} {b : UInt8} (hk : k ≤ 9)
    (hr : r.toNat < 128 ^ k) (hfit : 128 ^ k * (b.toNat % 128) < 2 ^ 64) :
    (r ||| (b &&& 0x7f).toUInt64 <<< (UInt64.ofNat (k * 7))).toNat =
      r.toNat + 128 ^ k * (b.toNat % 128) := by
  have hpow : 128 ^ k = 2 ^ (k * 7) := by
    rw [Nat.mul_comm, pow_mul]
    rfl
  have hshift : (UInt64.ofNat (k * 7)).toNat % 64 = k * 7 := by
    rw [UInt64.toNat_ofNat', Nat.mod_eq_of_lt (by omega : k * 7 < 2 ^ 64)]
    exact Nat.mod_eq_of_lt (by omega)
  rw [hpow] at hr hfit ⊢
  rw [UInt64.toNat_or, UInt64.toNat_shiftLeft, hshift, UInt8.toNat_toUInt64, toNat_payload,
    Nat.shiftLeft_eq, Nat.mul_comm (b.toNat % 128), Nat.mod_eq_of_lt hfit, Nat.or_comm,
    ← Nat.two_pow_add_eq_or_of_lt hr]
  omega

/-- One round of the loop, in numbers: it overflows, or it has one group more and ends or
goes on. -/
private theorem readGroups_cons {k : ℕ} {r : UInt64} (hk : k ≤ 9) (hr : r.toNat < 128 ^ k)
    (b : UInt8) (bytes : Bytes) :
    (k = 9 ∧ 1 < b.toNat % 128 ∧
      readGroups k r (b :: bytes) = .error (.wire "varint overflows 64 bits")) ∨
    ∃ r' : UInt64, r'.toNat = r.toNat + 128 ^ k * (b.toNat % 128) ∧
      r'.toNat < 128 ^ (k + 1) ∧
      readGroups k r (b :: bytes) =
        if b.toNat < 128 then
          if 0 < k ∧ b.toNat = 0 then .error (.wire "varint is overlong")
          else .ok (unzigzag r', bytes)
        else readGroups (k + 1) r' bytes := by
  have hpayload : (b &&& 0x7f).toUInt64 > 1 ↔ 1 < b.toNat % 128 := by
    rw [gt_iff_lt, UInt64.lt_iff_toNat_lt, UInt8.toNat_toUInt64, toNat_payload]
    rfl
  have hten : k ≠ 10 := by omega
  rw [readGroups, if_neg hten]
  simp only [hpayload, and_high_eq_zero]
  by_cases hover : k = 9 ∧ 1 < b.toNat % 128
  · rw [if_pos hover]
    exact .inl ⟨hover.1, hover.2, rfl⟩
  · rw [if_neg hover]
    have hlow : b.toNat % 128 < 128 := Nat.mod_lt _ (by decide)
    -- The group fits: below the tenth place there is room for all of it.
    have hfit : 128 ^ k * (b.toNat % 128) < 2 ^ 64 := by
      by_cases hnine : k = 9
      · subst hnine
        omega
      · have hpow : 128 ^ k ≤ 128 ^ 8 := Nat.pow_le_pow_right (by decide) (by omega)
        have hmul := Nat.mul_le_mul hpow hlow.le
        omega
    have hacc := toNat_accumulate hk hr hfit
    have hbound : r.toNat + 128 ^ k * (b.toNat % 128) < 128 ^ (k + 1) := by
      rw [pow_succ]
      have hmul := Nat.mul_le_mul_left (128 ^ k) (Nat.le_of_lt_succ hlow)
      omega
    refine .inr ⟨_, hacc, by rw [hacc]; exact hbound, ?_⟩
    by_cases hb : b.toNat < 128
    · have hlen : encodedVarintLen (r ||| (b &&& 0x7f).toUInt64 <<< (UInt64.ofNat (k * 7))) ≠ k + 1 ↔
          0 < k ∧ b.toNat = 0 := by
        rw [encodedVarintLen_eq, Ne, Base128.length_encode_iff, hacc]
        rw [Nat.mod_eq_of_lt hb] at hbound ⊢
        rcases Nat.eq_zero_or_pos b.toNat with hzero | hpos
        · rw [hzero] at hbound ⊢
          omega
        · have hmul := Nat.le_mul_of_pos_right (128 ^ k) hpos
          omega
      simp only [if_pos hb, hlen]
    · rw [if_neg hb, if_neg hb]

/-- After `k` groups that gave `r`, the loop reads the groups of the numbers that begin with
`r`.  The rest of the number is not zero, because a last group of zero would be overlong. -/
private theorem readGroups_iff {v : Int64} {rest : Bytes} : ∀ {bytes : Bytes} {k : ℕ} {r : UInt64},
    k ≤ 10 → r.toNat < 128 ^ k →
    (readGroups k r bytes = .ok (v, rest) ↔
      ∃ m, bytes = Base128.encode m ++ rest ∧ (0 < k → 0 < m) ∧
        (zigzag v).toNat = r.toNat + 128 ^ k * m) := by
  intro bytes
  induction bytes with
  | nil =>
    intro k r _ _
    have hnil : ∀ m, [] ≠ Base128.encode m ++ rest := by
      intro m h
      exact Base128.encode_ne_nil m (List.append_eq_nil_iff.mp h.symm).1
    unfold readGroups
    split
    · simp [hnil]
    · simp [hnil]
  | cons b bytes ih =>
    intro k r hk hr
    have hv := (zigzag v).toNat_lt
    by_cases hten : k = 10
    · subst hten
      unfold readGroups
      rw [if_pos rfl]
      constructor
      · intro h
        cases h
      · rintro ⟨m, _, hm, hz⟩
        have hpos := hm (by decide)
        omega
    · simp only [Base128.encode_append_cons]
      rcases readGroups_cons (by omega) hr b bytes with ⟨rfl, hbig, hread⟩ | ⟨r', hr', hlt, hread⟩
      -- Two bits in the tenth group are two too many for any number.
      · rw [hread]
        constructor
        · intro h
          cases h
        · rintro ⟨m, ⟨_, rfl, _⟩ | ⟨_, n, _, rfl, _⟩, _, hz⟩
          · omega
          · omega
      · rw [hread]
        by_cases hb : b.toNat < 128
        · rw [if_pos hb]
          have hmod : b.toNat % 128 = b.toNat := Nat.mod_eq_of_lt hb
          rw [hmod] at hr'
          constructor
          · intro h
            split at h
            · cases h
            · rename_i hzero
              obtain ⟨rfl, rfl⟩ : unzigzag r' = v ∧ bytes = rest := by simpa using h
              refine ⟨b.toNat, .inl ⟨hb, rfl, rfl⟩, fun hpos => ?_, by simpa using hr'⟩
              have hne : b.toNat ≠ 0 := fun h0 => hzero ⟨hpos, h0⟩
              omega
          · rintro ⟨m, ⟨_, rfl, rfl⟩ | ⟨hge, _⟩, hpos, hz⟩
            · have hzero : ¬ (0 < k ∧ b.toNat = 0) := fun h0 => (hpos h0.1).ne' h0.2
              have heq : r' = zigzag v := UInt64.toNat_inj.mp (hr'.trans hz.symm)
              rw [if_neg hzero, heq, unzigzag_zigzag]
            · omega
        · rw [if_neg hb, ih (by omega) hlt]
          constructor
          · rintro ⟨n, rfl, hn, hz⟩
            have hn := hn (Nat.succ_pos k)
            refine ⟨b.toNat % 128 + 128 * n, .inr ⟨by omega, n, hn, rfl, rfl⟩, by omega, ?_⟩
            rw [hz, hr', pow_succ]
            ring
          · rintro ⟨m, ⟨hlow, _, _⟩ | ⟨_, n, hn, rfl, rfl⟩, _, hz⟩
            · exact absurd hlow hb
            · refine ⟨n, rfl, fun _ => hn, ?_⟩
              rw [hz, hr', pow_succ]
              ring

/-- `read_varint` accepts exactly the texts that start with what `put_varint` writes. -/
theorem readVarint_iff {bytes rest : Bytes} {v : Int64} :
    readVarint bytes = .ok (v, rest) ↔ bytes = putVarint v ++ rest := by
  unfold readVarint putVarint
  rw [putGroups_eq, readGroups_iff (by decide) (by decide)]
  simp only [lt_irrefl, false_implies, true_and, pow_zero, one_mul, UInt64.toNat_zero, zero_add]
  constructor
  · rintro ⟨m, rfl, hm⟩
    rw [hm]
  · intro h
    exact ⟨_, h, rfl⟩

@[simp] theorem readVarint_putVarint (v : Int64) (rest : Bytes) :
    readVarint (putVarint v ++ rest) = .ok (v, rest) :=
  readVarint_iff.mpr rfl

/-! ## Headers -/

private theorem toNat_fromBeBytes (b₁ b₂ b₃ b₄ : UInt8) :
    (fromBeBytes b₁ b₂ b₃ b₄).toNat =
      2 ^ 8 * (2 ^ 8 * (2 ^ 8 * b₁.toNat + b₂.toNat) + b₃.toNat) + b₄.toNat := by
  have h₁ := b₁.toNat_lt
  have h₂ := b₂.toNat_lt
  have h₃ := b₃.toNat_lt
  have h₄ := b₄.toNat_lt
  have e₂ := Nat.two_pow_add_eq_or_of_lt (show 2 ^ 16 * b₂.toNat < 2 ^ 24 by omega) b₁.toNat
  have e₃ := Nat.two_pow_add_eq_or_of_lt (show 2 ^ 8 * b₃.toNat < 2 ^ 16 by omega)
    (2 ^ 8 * b₁.toNat + b₂.toNat)
  have e₄ := Nat.two_pow_add_eq_or_of_lt h₄ (2 ^ 8 * (2 ^ 8 * b₁.toNat + b₂.toNat) + b₃.toNat)
  unfold fromBeBytes
  simp only [UInt32.toNat_or, UInt32.toNat_shiftLeft, UInt8.toNat_toUInt32, UInt32.reduceToNat,
    Nat.reduceMod, Nat.shiftLeft_eq]
  rw [Nat.mod_eq_of_lt (show b₁.toNat * 2 ^ 24 < 2 ^ 32 by omega),
    Nat.mod_eq_of_lt (show b₂.toNat * 2 ^ 16 < 2 ^ 32 by omega),
    Nat.mod_eq_of_lt (show b₃.toNat * 2 ^ 8 < 2 ^ 32 by omega),
    Nat.mul_comm b₁.toNat, Nat.mul_comm b₂.toNat, Nat.mul_comm b₃.toNat, ← e₂]
  have r₃ : 2 ^ 24 * b₁.toNat + 2 ^ 16 * b₂.toNat = 2 ^ 16 * (2 ^ 8 * b₁.toNat + b₂.toNat) := by
    omega
  have r₄ : 2 ^ 16 * (2 ^ 8 * b₁.toNat + b₂.toNat) + 2 ^ 8 * b₃.toNat =
      2 ^ 8 * (2 ^ 8 * (2 ^ 8 * b₁.toNat + b₂.toNat) + b₃.toNat) := by
    omega
  rw [r₃, ← e₃, r₄, ← e₄]

private theorem toNat_byteAt (id : UInt32) {k : UInt32} (hk : k.toNat < 32) :
    (id >>> k).toUInt8.toNat = id.toNat / 2 ^ k.toNat % 256 := by
  rw [UInt32.toNat_toUInt8, UInt32.toNat_shiftRight, Nat.mod_eq_of_lt hk,
    Nat.shiftRight_eq_div_pow]

theorem fromBeBytes_putU32 (id : UInt32) :
    fromBeBytes (id >>> 24).toUInt8 (id >>> 16).toUInt8 (id >>> 8).toUInt8 id.toUInt8 = id := by
  apply UInt32.toNat_inj.mp
  have hid := id.toNat_lt
  rw [toNat_fromBeBytes, toNat_byteAt id (by decide), toNat_byteAt id (by decide),
    toNat_byteAt id (by decide), UInt32.toNat_toUInt8]
  simp only [UInt32.reduceToNat]
  omega

theorem putU32_fromBeBytes (b₁ b₂ b₃ b₄ : UInt8) :
    putU32 (fromBeBytes b₁ b₂ b₃ b₄) = [b₁, b₂, b₃, b₄] := by
  have h₁ := b₁.toNat_lt
  have h₂ := b₂.toNat_lt
  have h₃ := b₃.toNat_lt
  have h₄ := b₄.toNat_lt
  have hn := toNat_fromBeBytes b₁ b₂ b₃ b₄
  simp only [putU32, List.cons.injEq, and_true]
  refine ⟨?_, ?_, ?_, ?_⟩ <;> apply UInt8.toNat_inj.mp
  · rw [toNat_byteAt _ (by decide), hn, show (24 : UInt32).toNat = 24 from rfl]
    omega
  · rw [toNat_byteAt _ (by decide), hn, show (16 : UInt32).toNat = 16 from rfl]
    omega
  · rw [toNat_byteAt _ (by decide), hn, show (8 : UInt32).toNat = 8 from rfl]
    omega
  · rw [UInt32.toNat_toUInt8, hn]
    omega

/-- A header is a magic byte and an id. -/
theorem stripHeader_iff {bytes rest : Bytes} {id : UInt32} :
    stripHeader bytes = .ok (id, rest) ↔ bytes = magic :: putU32 id ++ rest := by
  constructor
  · intro h
    unfold stripHeader at h
    split at h
    · split at h
      · cases h
      · rename_i b₀ b₁ b₂ b₃ b₄ tail hmagic
        obtain ⟨rfl, rfl⟩ : fromBeBytes b₁ b₂ b₃ b₄ = id ∧ tail = rest := by simpa using h
        rw [putU32_fromBeBytes, not_not.mp hmagic]
        rfl
    · cases h
  · rintro rfl
    simp [stripHeader, putU32, fromBeBytes_putU32]

/-! ## Message indices -/

theorem i32OfI64_iff {ix : Int64} {i : Int32} : i32OfI64 ix = some i ↔ ix = i.toInt64 := by
  unfold i32OfI64
  constructor
  · intro h
    split at h
    · rename_i hrange
      obtain rfl : ix.toInt32 = i := Option.some.inj h
      apply Int64.toInt_inj.mp
      rw [Int32.toInt_toInt64, Int64.toInt_toInt32, Int.bmod_eq_of_le (by omega) (by omega)]
    · cases h
  · rintro rfl
    have hlow := i.le_toInt
    have hhigh := i.toInt_lt
    rw [Int32.toInt_toInt64, if_pos ⟨by omega, by omega⟩]
    simp

/-- The texts that hold `count` indices. There is one text for each list, since a varint is read
back only from the bytes that the encoder writes. -/
theorem readIndices_iff {indices : List Int32} {rest : Bytes} : ∀ {count : ℕ} {bytes : Bytes},
    readIndices count bytes = .ok (indices, rest) ↔
      indices.length = count ∧
        bytes = indices.flatMap (fun ix => putVarint ix.toInt64) ++ rest := by
  intro count
  induction count generalizing indices with
  | zero =>
    intro bytes
    simp only [readIndices, Except.ok.injEq, Prod.mk.injEq, List.length_eq_zero_iff]
    constructor
    · rintro ⟨rfl, rfl⟩
      exact ⟨rfl, rfl⟩
    · rintro ⟨rfl, rfl⟩
      exact ⟨rfl, rfl⟩
  | succ count ih =>
    intro bytes
    constructor
    · intro h
      unfold readIndices at h
      obtain ⟨⟨ix, tail⟩, hread, h⟩ := bind_ok h
      simp only at h
      split at h
      · cases h
      -- An index that does not fit an `i32` is refused, so what was read is the index itself.
      · rename_i i hix
        obtain ⟨⟨l, tail'⟩, hmore, h⟩ := bind_ok h
        obtain ⟨rfl, rfl⟩ : i :: l = indices ∧ tail' = rest := by
          simpa [pure, Except.pure] using h
        obtain ⟨hlen, rfl⟩ := ih.mp hmore
        rw [readVarint_iff.mp hread, i32OfI64_iff.mp hix]
        exact ⟨by rw [List.length_cons, hlen], by simp⟩
    · rintro ⟨hlen, rfl⟩
      cases indices with
      | nil => cases hlen
      | cons i l =>
        have hmore := ih.mpr ⟨Nat.succ.inj hlen, rfl⟩
        have hix : i32OfI64 i.toInt64 = some i := i32OfI64_iff.mpr rfl
        simp [readIndices, bind, Except.bind, hix, hmore, pure, Except.pure]

theorem toInt_ofNat {n : ℕ} (h : n < 2 ^ 63) : (Int64.ofNat n).toInt = n :=
  Int64.toInt_ofNat_of_lt h

/-- Every index takes a byte at least. -/
private theorem length_le_flatMap (indices : List Int32) (rest : Bytes) :
    indices.length ≤ (indices.flatMap (fun ix => putVarint ix.toInt64) ++ rest).length := by
  induction indices with
  | nil => exact Nat.zero_le _
  | cons i l ih =>
    have hpos : 0 < (putVarint i.toInt64).length := by
      rw [putVarint, putGroups_eq]
      exact List.length_pos_iff.mpr (Base128.encode_ne_nil _)
    rw [List.flatMap_cons, List.append_assoc, List.length_append, List.length_cons]
    omega

/-- The frames that `decode_protobuf` accepts, and what it makes of them. No frame has the empty
list: a length of zero stands for the path `[0]`. -/
theorem decodeProtobuf_iff {bytes body : Bytes} {id : UInt32} {indices : List Int32} :
    decodeProtobuf bytes = .ok (id, indices, body) ↔
      (indices = [0] ∧ bytes = magic :: putU32 id ++ (putVarint 0 ++ body)) ∨
      (indices ≠ [] ∧ indices.length < 2 ^ 63 ∧
        bytes = magic :: putU32 id ++ (putVarint (Int64.ofNat indices.length) ++
          (indices.flatMap (fun ix => putVarint ix.toInt64) ++ body))) := by
  constructor
  · intro h
    unfold decodeProtobuf at h
    obtain ⟨⟨id', afterId⟩, hhead, h⟩ := bind_ok h
    obtain ⟨⟨len, rest⟩, hlen, h⟩ := bind_ok h
    simp only at h
    rw [stripHeader_iff.mp hhead, readVarint_iff.mp hlen]
    split at h
    -- A length of zero stands for the list with the first message alone.
    · rename_i hzero
      obtain ⟨rfl, rfl, rfl⟩ : id' = id ∧ [0] = indices ∧ rest = body := by
        simpa [pure, Except.pure] using h
      exact .inl ⟨rfl, by rw [hzero]⟩
    · rename_i hzero
      split at h
      · cases h
      · rename_i hneg
        split at h
        · cases h
        · obtain ⟨⟨l, tail⟩, hread, h⟩ := bind_ok h
          obtain ⟨rfl, rfl, rfl⟩ : id' = id ∧ l = indices ∧ tail = body := by
            simpa [pure, Except.pure] using h
          obtain ⟨hcount, rfl⟩ := readIndices_iff.mp hread
          have hlt := len.toInt_lt
          have hsmall : l.length < 2 ^ 63 := by omega
          -- The length read is the number of indices, so the encoder would write it back.
          have hback : Int64.ofNat l.length = len := by
            apply Int64.toInt_inj.mp
            rw [toInt_ofNat hsmall]
            omega
          refine .inr ⟨?_, hsmall, by rw [hback]⟩
          rintro rfl
          apply hzero
          rw [← hback]
          rfl
  · rintro (⟨rfl, rfl⟩ | ⟨hne, hsmall, rfl⟩)
    · have hhead : stripHeader (magic :: putU32 id ++ (putVarint 0 ++ body)) = .ok (id, _) :=
        stripHeader_iff.mpr rfl
      rw [decodeProtobuf, hhead]
      simp [bind, Except.bind, pure, Except.pure]
    · have hint := toInt_ofNat hsmall
      have hpos := List.length_pos_iff.mpr hne
      have hzero : Int64.ofNat indices.length ≠ 0 := by
        intro h
        rw [h] at hint
        simp at hint
        omega
      have hread : readIndices indices.length
          (indices.flatMap (fun ix => putVarint ix.toInt64) ++ body) = .ok (indices, body) :=
        readIndices_iff.mpr ⟨rfl, rfl⟩
      -- The decoder refuses a length beyond the bytes that are left; an index takes at least one.
      have hroom := length_le_flatMap indices body
      rw [decodeProtobuf, stripHeader_iff.mpr rfl]
      simp only [bind, Except.bind, readVarint_putVarint]
      rw [if_neg hzero, hint, if_neg (by omega), Int.toNat_natCast, if_neg (by omega), hread]
      rfl

end Wire

end KrabkaRegistry.Serde
