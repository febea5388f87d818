import KrabkaRegistry.Serde.Wire

/-!
# What Is Framed Is What Is Read

The encoder and the decoder of the wire frame are inverse to each other, in both directions:
every frame gives back the id, the message index and the body it was built from, and every
frame that is accepted is the one that the encoder writes, but for the long form of the index
`[0]`, which the encoder never writes.
-/

namespace KrabkaRegistry.Guarantees

open KrabkaRegistry.Serde
open KrabkaRegistry.Serde.Wire

/-- The frame that spells the index `[0]` out as a count and an index. -/
def longZeroFrame (id : UInt32) (body : Bytes) : Bytes :=
  magic :: putU32 id ++ (putVarint 1 ++ putVarint 0 ++ body)

private theorem putVarint_zero : putVarint 0 = [0] := by
  rw [putVarint, putGroups_eq]
  exact Library.Base128.encode_of_lt (by decide)

/-- The long form is read as `[0]` all the same. -/
theorem decodeProtobuf_longZeroFrame (id : UInt32) (body : Bytes) :
    decodeProtobuf (longZeroFrame id body) = .ok (id, [0], body) := by
  refine decodeProtobuf_iff.mpr (.inr ⟨by simp, by decide, ?_⟩)
  simp only [longZeroFrame, List.flatMap_cons, List.flatMap_nil, List.append_nil,
    List.append_assoc]
  rfl

/-- What the encoder writes for an index that is not `[0]`. -/
private theorem encodeProtobuf_of_ne {id : UInt32} {indices : List Int32} {body : Bytes}
    (hne : indices ≠ [0]) (hlen : indices.length < 2 ^ 63) :
    encodeProtobuf id indices body =
      some (magic :: putU32 id ++ (putVarint (Int64.ofNat indices.length) ++
        (indices.flatMap (fun ix => putVarint ix.toInt64) ++ body))) := by
  rw [encodeProtobuf, if_neg hne, i64OfLen, if_pos hlen]
  simp

private theorem encodeProtobuf_zero (id : UInt32) (body : Bytes) :
    encodeProtobuf id [0] body = some (magic :: putU32 id ++ (putVarint 0 ++ body)) := by
  simp [encodeProtobuf, putVarint_zero]

private theorem decodeProtobuf_encodeProtobuf (id : UInt32) (indices : List Int32) (body : Bytes)
    (hlen : indices.length < 2 ^ 63) :
    ∃ frame, encodeProtobuf id indices body = some frame ∧
      decodeProtobuf frame = .ok (id, if indices = [] then [0] else indices, body) := by
  by_cases hzero : indices = [0]
  · subst hzero
    refine ⟨_, encodeProtobuf_zero id body, ?_⟩
    exact decodeProtobuf_iff.mpr (.inl ⟨rfl, rfl⟩)
  · refine ⟨_, encodeProtobuf_of_ne hzero hlen, ?_⟩
    by_cases hnil : indices = []
    -- An empty list is written as the count zero, which is the short form.
    · subst hnil
      exact decodeProtobuf_iff.mpr (.inl ⟨rfl, rfl⟩)
    · rw [if_neg hnil]
      exact decodeProtobuf_iff.mpr (.inr ⟨hnil, hlen, rfl⟩)

private theorem encodeProtobuf_decodeProtobuf {frame : Bytes} {id : UInt32} {indices : List Int32}
    {body : Bytes} (h : decodeProtobuf frame = .ok (id, indices, body))
    (hlong : frame ≠ longZeroFrame id body) : encodeProtobuf id indices body = some frame := by
  rcases decodeProtobuf_iff.mp h with ⟨rfl, rfl⟩ | ⟨hne, hlen, rfl⟩
  · exact encodeProtobuf_zero id body
  · apply encodeProtobuf_of_ne _ hlen
    rintro rfl
    apply hlong
    simp only [longZeroFrame, List.flatMap_cons, List.flatMap_nil, List.append_nil,
      List.append_assoc]
    rfl

/-- The frame codec: both decoders give back what the encoders were given, an accepted Protobuf
frame is the one that its content encodes to, and a varint is read from exactly the texts that
start with what `put_varint` writes. -/
theorem framing_codec :
    (∀ id body, decode (encode id body) = .ok (id, body)) ∧
    (∀ id indices body, indices.length < 2 ^ 63 →
      ∃ frame, encodeProtobuf id indices body = some frame ∧
        decodeProtobuf frame = .ok (id, if indices = [] then [0] else indices, body)) ∧
    (∀ frame id indices body, decodeProtobuf frame = .ok (id, indices, body) →
      frame ≠ longZeroFrame id body → encodeProtobuf id indices body = some frame) ∧
    (∀ bytes v rest, readVarint bytes = .ok (v, rest) ↔ bytes = putVarint v ++ rest) ∧
    (∀ bytes, (∀ v rest, bytes ≠ putVarint v ++ rest) → ∃ e, readVarint bytes = .error e) := by
  refine ⟨?_, decodeProtobuf_encodeProtobuf, ?_, fun _ _ _ => readVarint_iff, ?_⟩
  · exact fun _ _ => stripHeader_iff.mpr rfl
  · exact fun _ _ _ _ h hlong => encodeProtobuf_decodeProtobuf h hlong
  · intro bytes h
    cases hread : readVarint bytes with
    | error e => exact ⟨e, rfl⟩
    | ok p => exact absurd (readVarint_iff.mp hread) (h p.1 p.2)

/-- The frame of the nested index `[1, 0]`, there and back. -/
theorem framing_codec_nested :
    ∃ frame, encodeProtobuf 7 [1, 0] [112, 98] = some frame ∧
      decodeProtobuf frame = .ok (7, [1, 0], [112, 98]) ∧ frame ≠ longZeroFrame 7 [112, 98] ∧
      encodeProtobuf 7 [1, 0] [112, 98] = some frame := by
  obtain ⟨frame, henc, hdec⟩ := framing_codec.2.1 7 [1, 0] [112, 98] (by decide)
  have hlong : frame ≠ longZeroFrame 7 [112, 98] := by
    rintro rfl
    rw [decodeProtobuf_longZeroFrame] at hdec
    simp at hdec
  exact ⟨frame, henc, hdec, hlong, framing_codec.2.2.1 frame 7 [1, 0] [112, 98] hdec hlong⟩

end KrabkaRegistry.Guarantees
