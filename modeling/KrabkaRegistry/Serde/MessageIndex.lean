import KrabkaRegistry.Format.Descriptor
import KrabkaRegistry.Serde.Wire

/-!
# Message Indexes

A Protobuf frame names its message by a path: a position in the list of the file, then one in
each list of nested messages.  `message_index_in_proto` of `format/protobuf.rs` searches the path
of a full name, and `message_at` of `format/validate.rs` walks a path.

## Main results

- `Located`: the messages of a file at every depth, each with its positions
- `messageIndexInProtoMessages_sound`, `messageIndexInProtoMessages_complete`: what the search
  returns, and when it returns something
- `messageAt_eq_ok_iff`: the paths that the walk accepts
-/

namespace KrabkaRegistry.Serde.MessageIndex

open KrabkaRegistry.Format.Protobuf

/-! ## Positions -/

/-- `i32::try_from` on a position. -/
def i32OfUsize (index : ℕ) : Option Int32 :=
  if index < 2 ^ 31 then some (Int32.ofNat index) else none

/-- `usize::try_from` on a step of a path. -/
def usizeOfI32 (step : Int32) : Option ℕ :=
  if 0 ≤ step.toInt then some step.toInt.toNat else none

theorem toInt_ofNat {index : ℕ} (h : index < 2 ^ 31) : (Int32.ofNat index).toInt = index :=
  Int32.toInt_ofNat_of_lt h

theorem usizeOfI32_eq_some_iff {step : Int32} {position : ℕ} :
    usizeOfI32 step = some position ↔ position < 2 ^ 31 ∧ step = Int32.ofNat position := by
  have hlt := step.toInt_lt
  unfold usizeOfI32
  constructor
  · intro h
    split at h
    · rename_i hnonneg
      obtain rfl := Option.some.inj h
      refine ⟨by omega, ?_⟩
      rw [← Int32.toInt_inj, toInt_ofNat (by omega)]
      omega
    · exact absurd h (by simp)
  · rintro ⟨hposition, rfl⟩
    rw [toInt_ofNat hposition, if_pos (by omega), Int.toNat_natCast]

/-! ## The search -/

mutual

/-- `message_index_in_proto_messages`, from the message with position `index` on. -/
def messageIndexInProtoMessages (target parent : String) (index : ℕ) :
    List DescriptorProto → Option (List Int32)
  | [] => none
  | message :: rest => do
    let position ← i32OfUsize index
    let name ← message.name
    let fullName := qualify parent name
    if target = fullName then some [position]
    else
      match messageIndexInNested target fullName message with
      | some child => some (position :: child)
      | none => messageIndexInProtoMessages target parent (index + 1) rest

/-- Its recursive call, on the messages nested in one. -/
def messageIndexInNested (target fullName : String) : DescriptorProto → Option (List Int32)
  | ⟨_, _, _, nestedType, _, _, _, _, _, _⟩ =>
    messageIndexInProtoMessages target fullName 0 nestedType

end

/-- `message_index_in_proto`. -/
def messageIndexInProto (file : FileDescriptorProto) (target : String) : Option (List Int32) :=
  messageIndexInProtoMessages target (file.package.getD "") 0 file.messageType

/-! ## The walk -/

/-- A message of a descriptor pool, with the full name it has there. -/
structure MessageDescriptor where
  fullName : String
  message : DescriptorProto

/-- The messages of a list in descriptor order. -/
def descriptors (parentName : String) (messages : List DescriptorProto) : List MessageDescriptor :=
  messages.map fun message => ⟨qualify parentName (message.name.getD ""), message⟩

def childMessages (descriptor : MessageDescriptor) : List MessageDescriptor :=
  descriptors descriptor.fullName descriptor.message.nestedType

/-- The loop of `message_at` over the steps after the first. -/
def descend (current : MessageDescriptor) : List Int32 → Option MessageDescriptor
  | [] => some current
  | step :: rest => do
    let step ← usizeOfI32 step
    let child ← (childMessages current)[step]?
    descend child rest

/-- The debug form of a path. -/
def debugPath (path : List Int32) : String :=
  "[" ++ ", ".intercalate (path.map fun step => toString step.toInt) ++ "]"

/-- The empty path is Confluent's implicit `[0]`. -/
def effectivePath (messageIndex : List Int32) : List Int32 :=
  if messageIndex.isEmpty then [0] else messageIndex

def missing (path : List Int32) : SchemaSerdeError :=
  .schema ("protobuf message-index " ++ debugPath path ++ " names no message")

/-- The walk through one file. -/
def messageOf (file : FileDescriptorProto) (path : List Int32) : Option MessageDescriptor :=
  match path with
  | [] => none
  | first :: rest => do
    let index ← usizeOfI32 first
    let current ← (descriptors (file.package.getD "") file.messageType)[index]?
    descend current rest

/-- `message_at`: the pool holds one file. -/
def messageAt (pool : List FileDescriptorProto) (messageIndex : List Int32) :
    Except SchemaSerdeError MessageDescriptor :=
  let path := effectivePath messageIndex
  match pool.head?.bind fun file => messageOf file path with
  | some descriptor => .ok descriptor
  | none => .error (missing path)

/-! ## Where messages are -/

/-- The messages of a list at every depth, each at the positions that lead to it. -/
inductive Located : String → List DescriptorProto → List ℕ → MessageDescriptor → Prop where
  | top {parent : String} {messages : List DescriptorProto} {i : ℕ} {d : MessageDescriptor} :
      (descriptors parent messages)[i]? = some d → Located parent messages [i] d
  | nested {parent : String} {messages : List DescriptorProto} {i : ℕ} {positions : List ℕ}
      {outer d : MessageDescriptor} : (descriptors parent messages)[i]? = some outer →
      Located outer.fullName outer.message.nestedType positions d →
      Located parent messages (i :: positions) d

theorem Located.exists_cons {parent : String} {messages : List DescriptorProto}
    {positions : List ℕ} {d : MessageDescriptor} (h : Located parent messages positions d) :
    ∃ i rest, positions = i :: rest := by
  cases h with
  | top _ => exact ⟨_, [], rfl⟩
  | nested _ _ => exact ⟨_, _, rfl⟩

/-- The first message of a list has the position 0, and the others move up by one. -/
theorem located_cons_zero_iff {parent : String} {message : DescriptorProto}
    {rest : List DescriptorProto} {positions : List ℕ} {d : MessageDescriptor} :
    Located parent (message :: rest) (0 :: positions) d ↔
      (positions = [] ∧ d = ⟨qualify parent (message.name.getD ""), message⟩) ∨
        Located (qualify parent (message.name.getD "")) message.nestedType positions d := by
  constructor
  · intro h
    cases h with
    | top hd => exact .inl ⟨rfl, (Option.some.inj hd).symm⟩
    | nested houter hd =>
      obtain rfl := Option.some.inj houter
      exact .inr hd
  · rintro (⟨rfl, rfl⟩ | hd)
    · exact .top rfl
    · have houter : (descriptors parent (message :: rest))[0]? =
          some ⟨qualify parent (message.name.getD ""), message⟩ := rfl
      exact .nested houter hd

theorem located_cons_succ_iff {parent : String} {message : DescriptorProto}
    {rest : List DescriptorProto} {i : ℕ} {positions : List ℕ} {d : MessageDescriptor} :
    Located parent (message :: rest) ((i + 1) :: positions) d ↔
      Located parent rest (i :: positions) d := by
  constructor
  · intro h
    cases h with
    | top hd => exact .top hd
    | nested houter hd => exact .nested houter hd
  · intro h
    cases h with
    | top hd => exact .top hd
    | nested houter hd => exact .nested houter hd

theorem not_located_nil {parent : String} {positions : List ℕ} {d : MessageDescriptor} :
    ¬ Located parent [] positions d := by
  intro h
  cases h with
  | top hd => exact absurd hd (by simp [descriptors])
  | nested houter _ => exact absurd houter (by simp [descriptors])

/-- The places of a list: the first message, those inside it, and those after it. -/
theorem located_cons_iff {parent : String} {message : DescriptorProto}
    {rest : List DescriptorProto} {positions : List ℕ} {d : MessageDescriptor} :
    Located parent (message :: rest) positions d ↔
      (positions = [0] ∧ d = ⟨qualify parent (message.name.getD ""), message⟩) ∨
      (∃ inside, positions = 0 :: inside ∧
        Located (qualify parent (message.name.getD "")) message.nestedType inside d) ∨
      ∃ i inside, positions = (i + 1) :: inside ∧ Located parent rest (i :: inside) d := by
  constructor
  · intro h
    obtain ⟨i, inside, rfl⟩ := h.exists_cons
    cases i with
    | zero =>
      rcases located_cons_zero_iff.mp h with ⟨rfl, rfl⟩ | hd
      · exact .inl ⟨rfl, rfl⟩
      · exact .inr (.inl ⟨inside, rfl, hd⟩)
    | succ i => exact .inr (.inr ⟨i, inside, rfl, located_cons_succ_iff.mp h⟩)
  · rintro (⟨rfl, rfl⟩ | ⟨inside, rfl, hd⟩ | ⟨i, inside, rfl, hd⟩)
    · exact located_cons_zero_iff.mpr (.inl ⟨rfl, rfl⟩)
    · exact located_cons_zero_iff.mpr (.inr hd)
    · exact located_cons_succ_iff.mpr hd

/-! ## What the search returns -/

theorem i32OfUsize_eq_some_iff {index : ℕ} {position : Int32} :
    i32OfUsize index = some position ↔ index < 2 ^ 31 ∧ Int32.ofNat index = position := by
  rw [i32OfUsize]
  by_cases hindex : index < 2 ^ 31
  · rw [if_pos hindex, Option.some.injEq, and_iff_right hindex]
  · rw [if_neg hindex]
    exact ⟨fun h => absurd h (by simp), fun h => absurd h.1 hindex⟩

/-- A returned path leads to a message of the searched name; its first step counts from the
position that the search started with. -/
theorem messageIndexInProtoMessages_sound (target : String) :
    ∀ (messages : List DescriptorProto) (parent : String) (index : ℕ) {path : List Int32},
      messageIndexInProtoMessages target parent index messages = some path →
      ∃ i positions d, path = Int32.ofNat (index + i) :: positions.map Int32.ofNat ∧
        (∀ j ∈ (index + i) :: positions, j < 2 ^ 31) ∧
        Located parent messages (i :: positions) d ∧ d.fullName = target
  | [], _, _, _, h => by
    rw [messageIndexInProtoMessages] at h
    exact absurd h (by simp)
  | ⟨name, _, _, nestedType, _, _, _, _, _, _⟩ :: rest, parent, index, path, h => by
    rw [messageIndexInProtoMessages] at h
    simp only [Option.bind_eq_bind, Option.bind_eq_some_iff, i32OfUsize_eq_some_iff] at h
    obtain ⟨position, ⟨hindex, rfl⟩, name, rfl, h⟩ := h
    -- The head is the target, or has it nested inside, or the search goes on behind it.
    split at h
    · rename_i htarget
      obtain rfl := Option.some.inj h
      refine ⟨0, [], _, rfl, by simpa using hindex, located_cons_zero_iff.mpr (.inl ⟨rfl, rfl⟩), ?_⟩
      exact htarget.symm
    · split at h
      · rename_i child hchild
        rw [messageIndexInNested] at hchild
        obtain rfl := Option.some.inj h
        obtain ⟨i, positions, d, rfl, hfits, hlocated, hname⟩ :=
          messageIndexInProtoMessages_sound target nestedType _ 0 hchild
        rw [Nat.zero_add] at hfits
        refine ⟨0, i :: positions, d, by rw [Nat.zero_add]; rfl, ?_,
          located_cons_zero_iff.mpr (.inr hlocated), hname⟩
        simpa using ⟨hindex, by simpa using hfits⟩
      · obtain ⟨i, positions, d, rfl, hfits, hlocated, hname⟩ :=
          messageIndexInProtoMessages_sound target rest parent (index + 1) h
        refine ⟨i + 1, positions, d, ?_, ?_, located_cons_succ_iff.mpr hlocated, hname⟩
        · rw [Nat.add_right_comm, Nat.add_assoc]
        · rwa [Nat.add_right_comm] at hfits

/-- The search returns something for the name of every message that an `i32` path leads to. It may
be another path: an earlier message can have the name as well. -/
theorem messageIndexInProtoMessages_complete :
    ∀ (messages : List DescriptorProto) (parent : String) (index i : ℕ) (positions : List ℕ)
      {d : MessageDescriptor},
      (∀ path e, Located parent messages path e → e.message.name.isSome) →
      Located parent messages (i :: positions) d → (∀ j ∈ (index + i) :: positions, j < 2 ^ 31) →
      (messageIndexInProtoMessages d.fullName parent index messages).isSome
  | [], _, _, _, _, _, _, h, _ => absurd h not_located_nil
  | ⟨name, _, _, nestedType, _, _, _, _, _, _⟩ :: rest, parent, index, i, positions, d, hnamed, h,
      hfits => by
    obtain ⟨name, rfl⟩ : ∃ text, name = some text :=
      Option.isSome_iff_exists.mp (hnamed [0] _ (located_cons_zero_iff.mpr (.inl ⟨rfl, rfl⟩)))
    have hindex : index < 2 ^ 31 :=
      Nat.lt_of_le_of_lt (Nat.le_add_right index i) (hfits _ List.mem_cons_self)
    rw [messageIndexInProtoMessages, i32OfUsize, if_pos hindex]
    simp only [Option.bind_eq_bind, Option.bind_some]
    split
    · rfl
    · rename_i htarget
      split
      · rfl
      · rename_i hnone
        cases i with
        | zero =>
          rcases located_cons_zero_iff.mp h with ⟨-, rfl⟩ | hlocated
          · exact absurd rfl htarget
          · -- The message is inside the first one, where the search found nothing.
            obtain ⟨i, rest', rfl⟩ := hlocated.exists_cons
            have hsome := messageIndexInProtoMessages_complete nestedType _ 0 i rest'
              (fun path e he => hnamed (0 :: path) e (located_cons_zero_iff.mpr (.inr he)))
              hlocated (fun j hj => hfits j (List.mem_cons_of_mem _ (by simpa using hj)))
            simp only [Option.getD_some] at hsome
            rw [messageIndexInNested] at hnone
            rw [hnone] at hsome
            exact absurd hsome (by simp)
        | succ i =>
          apply messageIndexInProtoMessages_complete rest parent (index + 1) i positions
          · intro path e he
            obtain ⟨k, path, rfl⟩ := he.exists_cons
            exact hnamed ((k + 1) :: path) e (located_cons_succ_iff.mpr he)
          · exact located_cons_succ_iff.mp h
          · rwa [Nat.add_right_comm, Nat.add_assoc]

/-! ## What the walk accepts -/

/-- One step into a list of messages, and the rest of the path from there. By induction on the rest:
a path ends at a message of the list or goes on inside of it. -/
theorem step_eq_some_iff (rest : List Int32) :
    ∀ (parent : String) (messages : List DescriptorProto) (first : Int32) (d : MessageDescriptor),
      (∃ index current, usizeOfI32 first = some index ∧
        (descriptors parent messages)[index]? = some current ∧ descend current rest = some d) ↔
      ∃ positions, first :: rest = positions.map Int32.ofNat ∧ (∀ j ∈ positions, j < 2 ^ 31) ∧
        Located parent messages positions d := by
  induction rest with
  | nil =>
    intro parent messages first d
    constructor
    · rintro ⟨index, current, hindex, hcurrent, hd⟩
      obtain ⟨hlt, rfl⟩ := usizeOfI32_eq_some_iff.mp hindex
      obtain rfl := Option.some.inj hd
      exact ⟨[index], rfl, by simpa using hlt, .top hcurrent⟩
    · rintro ⟨positions, heq, hfits, hlocated⟩
      cases hlocated with
      | top hd =>
        rw [List.map_singleton, List.singleton_inj] at heq
        exact ⟨_, d, usizeOfI32_eq_some_iff.mpr ⟨hfits _ List.mem_cons_self, heq⟩, hd, rfl⟩
      | nested houter hd =>
        -- A message inside another has two positions at least.
        obtain ⟨i, positions, rfl⟩ := hd.exists_cons
        exact absurd heq (by simp)
  | cons step rest ih =>
    intro parent messages first d
    have hdescend : ∀ current, descend current (step :: rest) = some d ↔
        ∃ positions, step :: rest = positions.map Int32.ofNat ∧ (∀ j ∈ positions, j < 2 ^ 31) ∧
          Located current.fullName current.message.nestedType positions d := by
      intro current
      rw [← ih, descend]
      simp only [childMessages, Option.bind_eq_bind, Option.bind_eq_some_iff]
      simp only [exists_and_left]
    constructor
    · rintro ⟨index, current, hindex, hcurrent, hd⟩
      obtain ⟨hlt, rfl⟩ := usizeOfI32_eq_some_iff.mp hindex
      obtain ⟨positions, heq, hfits, hlocated⟩ := (hdescend current).mp hd
      refine ⟨index :: positions, by rw [List.map_cons, heq], ?_, .nested hcurrent hlocated⟩
      simpa using ⟨hlt, by simpa using hfits⟩
    · rintro ⟨positions, heq, hfits, hlocated⟩
      cases hlocated with
      | top hd => exact absurd heq (by simp)
      | nested houter hd =>
        rw [List.map_cons, List.cons.injEq] at heq
        refine ⟨_, _, usizeOfI32_eq_some_iff.mpr ⟨hfits _ List.mem_cons_self, heq.1⟩, houter, ?_⟩
        exact (hdescend _).mpr ⟨_, heq.2, fun j hj => hfits j (List.mem_cons_of_mem _ hj), hd⟩

theorem messageOf_eq_some_iff {file : FileDescriptorProto} {path : List Int32}
    {d : MessageDescriptor} :
    messageOf file path = some d ↔
      ∃ positions, path = positions.map Int32.ofNat ∧ (∀ j ∈ positions, j < 2 ^ 31) ∧
        Located (file.package.getD "") file.messageType positions d := by
  cases path with
  | nil =>
    constructor
    · intro h
      exact absurd h (by simp [messageOf])
    · rintro ⟨positions, heq, -, hlocated⟩
      obtain ⟨i, rest, rfl⟩ := hlocated.exists_cons
      exact absurd heq (by simp)
  | cons first rest =>
    rw [← step_eq_some_iff, messageOf]
    simp only [Option.bind_eq_bind, Option.bind_eq_some_iff, exists_and_left]

theorem effectivePath_of_ne_nil {path : List Int32} (h : path ≠ []) : effectivePath path = path := by
  cases path with
  | nil => exact absurd rfl h
  | cons step rest => rfl

/-- The paths that `message_at` accepts, and the messages they lead to. -/
theorem messageAt_eq_ok_iff {file : FileDescriptorProto} {path : List Int32}
    {d : MessageDescriptor} :
    messageAt [file] path = .ok d ↔
      ∃ positions, effectivePath path = positions.map Int32.ofNat ∧
        (∀ j ∈ positions, j < 2 ^ 31) ∧
        Located (file.package.getD "") file.messageType positions d := by
  rw [← messageOf_eq_some_iff, messageAt]
  simp only [List.head?_cons, Option.bind_some]
  cases messageOf file (effectivePath path) with
  | none => simp
  | some e => simp

end KrabkaRegistry.Serde.MessageIndex
