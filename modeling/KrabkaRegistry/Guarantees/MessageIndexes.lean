import KrabkaRegistry.Serde.MessageIndex

/-!
# Message Indexes Name Messages

The search for a full name and the walk along a path are two implementations.  The search goes
through the messages in pre-order and stops where a full name is the searched one; that names are
distinct is what makes the first such message the only one.

- `message_index_identifies`: for `i32` positions, and for every path but the empty one, each of
  the two undoes the other;
- `message_index_edges`: the empty path, which is walked as `[0]`, and a position past `i32` are
  where they do not.
-/

namespace KrabkaRegistry.Guarantees

open KrabkaRegistry.Format.Protobuf
open KrabkaRegistry.Serde
open KrabkaRegistry.Serde.MessageIndex

/-- The messages of a file, at every depth. -/
def LocatedIn (file : FileDescriptorProto) : List ℕ → MessageDescriptor → Prop :=
  Located (file.package.getD "") file.messageType

/-- Every message at every nesting has a name, and no other message has its full name. -/
structure DistinctlyNamed (file : FileDescriptorProto) : Prop where
  named : ∀ positions d, LocatedIn file positions d → d.message.name.isSome
  distinct : ∀ positions positions' d d', LocatedIn file positions d →
    LocatedIn file positions' d' → d.fullName = d'.fullName → positions = positions'

section Identifies

variable {file : FileDescriptorProto}

/-- The search returns the positions of the message with the searched name. -/
theorem messageIndexInProto_eq (hfile : DistinctlyNamed file) {positions : List ℕ}
    {d : MessageDescriptor} (h : LocatedIn file positions d)
    (hfits : ∀ j ∈ positions, j < 2 ^ 31) :
    messageIndexInProto file d.fullName = some (positions.map Int32.ofNat) := by
  obtain ⟨i, rest, rfl⟩ := Located.exists_cons h
  have hsome : (messageIndexInProto file d.fullName).isSome :=
    messageIndexInProtoMessages_complete _ _ 0 i rest hfile.named h (by simpa using hfits)
  obtain ⟨path, hpath⟩ := Option.isSome_iff_exists.mp hsome
  obtain ⟨k, found, e, rfl, -, hfound, hname⟩ := messageIndexInProtoMessages_sound _ _ _ _ hpath
  rw [hpath, hfile.distinct _ _ _ _ h hfound hname.symm, Nat.zero_add]
  rfl

/-- The search of a name returns a path, and the walk along it arrives at the message; a path that
is walked is what the search of the name returns; the empty path is walked as `[0]`. -/
theorem message_index_identifies (hfile : DistinctlyNamed file) :
    (∀ positions d, LocatedIn file positions d → (∀ j ∈ positions, j < 2 ^ 31) →
      ∃ path, messageIndexInProto file d.fullName = some path ∧ messageAt [file] path = .ok d) ∧
    (∀ path d, path ≠ [] → messageAt [file] path = .ok d →
      messageIndexInProto file d.fullName = some path) ∧
    messageAt [file] [] = messageAt [file] [0] := by
  refine ⟨fun positions d h hfits => ?_, fun path d hne hwalk => ?_, rfl⟩
  · have hsearch := messageIndexInProto_eq hfile h hfits
    refine ⟨_, hsearch, messageAt_eq_ok_iff.mpr ⟨positions, ?_, hfits, h⟩⟩
    obtain ⟨i, rest, rfl⟩ := Located.exists_cons h
    exact effectivePath_of_ne_nil (by simp)
  · obtain ⟨positions, heq, hfits, h⟩ := messageAt_eq_ok_iff.mp hwalk
    rw [effectivePath_of_ne_nil hne] at heq
    rw [heq]
    exact messageIndexInProto_eq hfile h hfits

end Identifies

/-- A package with the messages `Outer`, `Outer.Inner` and `Inner`. -/
def demo : FileDescriptorProto :=
  { package := some "demo"
    messageType := [{ name := some "Outer", nestedType := [{ name := some "Inner" }] },
      { name := some "Inner" }] }

theorem locatedIn_demo_iff {positions : List ℕ} {d : MessageDescriptor} :
    LocatedIn demo positions d ↔
      (positions = [0] ∧
        d = ⟨"demo.Outer", { name := some "Outer", nestedType := [{ name := some "Inner" }] }⟩) ∨
      (positions = [0, 0] ∧ d = ⟨"demo.Outer.Inner", { name := some "Inner" }⟩) ∨
      (positions = [1] ∧ d = ⟨"demo.Inner", { name := some "Inner" }⟩) := by
  have houter : qualify "demo" "Outer" = "demo.Outer" := by decide
  have hnested : qualify "demo.Outer" "Inner" = "demo.Outer.Inner" := by decide
  have hinner : qualify "demo" "Inner" = "demo.Inner" := by decide
  simp [LocatedIn, demo, located_cons_iff, not_located_nil, houter, hnested, hinner]

theorem demo_distinctlyNamed : DistinctlyNamed demo where
  named positions d h := by
    rcases locatedIn_demo_iff.mp h with ⟨-, rfl⟩ | ⟨-, rfl⟩ | ⟨-, rfl⟩
    · rfl
    · rfl
    · rfl
  distinct positions positions' d d' h h' hname := by
    rcases locatedIn_demo_iff.mp h with ⟨rfl, rfl⟩ | ⟨rfl, rfl⟩ | ⟨rfl, rfl⟩ <;>
      rcases locatedIn_demo_iff.mp h' with ⟨rfl, rfl⟩ | ⟨rfl, rfl⟩ | ⟨rfl, rfl⟩ <;>
      revert hname <;> decide

theorem message_index_nested :
    ∃ path, messageIndexInProto demo "demo.Outer.Inner" = some path ∧
      messageAt [demo] path = .ok ⟨"demo.Outer.Inner", { name := some "Inner" }⟩ :=
  (message_index_identifies demo_distinctlyNamed).1 [0, 0] _
    (locatedIn_demo_iff.mpr (.inr (.inl ⟨rfl, rfl⟩))) (by decide)

/-! ## The empty path, and positions past `i32` -/

/-- A file of `n` messages without nesting. -/
def crowd (n : ℕ) : FileDescriptorProto :=
  { messageType := (List.range n).map fun i => { name := some ("M" ++ toString i) } }

theorem locatedIn_crowd_iff {n : ℕ} {positions : List ℕ} {d : MessageDescriptor} :
    LocatedIn (crowd n) positions d ↔
      ∃ i, i < n ∧ positions = [i] ∧ d = ⟨"M" ++ toString i, { name := some ("M" ++ toString i) }⟩ := by
  have hget : ∀ i e, (descriptors "" (crowd n).messageType)[i]? = some e ↔
      i < n ∧ e = ⟨"M" ++ toString i, { name := some ("M" ++ toString i) }⟩ := by
    intro i e
    by_cases hi : i < n
    · simp [descriptors, crowd, qualify, hi, eq_comm]
    · simp [descriptors, crowd, hi]
  constructor
  · intro h
    cases h with
    | top hd =>
      obtain ⟨hi, rfl⟩ := (hget _ _).mp hd
      exact ⟨_, hi, rfl, rfl⟩
    | nested houter hd =>
      obtain ⟨-, rfl⟩ := (hget _ _).mp houter
      exact absurd hd not_located_nil
  · rintro ⟨i, hi, rfl, rfl⟩
    exact .top ((hget _ _).mpr ⟨hi, rfl⟩)

theorem crowd_distinctlyNamed (n : ℕ) : DistinctlyNamed (crowd n) where
  named positions d h := by
    obtain ⟨i, -, -, rfl⟩ := locatedIn_crowd_iff.mp h
    rfl
  distinct positions positions' d d' h h' hname := by
    obtain ⟨i, -, rfl, rfl⟩ := locatedIn_crowd_iff.mp h
    obtain ⟨j, -, rfl, rfl⟩ := locatedIn_crowd_iff.mp h'
    have hsame : toString i = toString j := (String.append_right_inj "M").mp hname
    rw [toString_nat_inj hsame]

/-- The search finds no message past the `i32` positions. -/
theorem messageIndexInProto_crowd {n i : ℕ} (hi : 2 ^ 31 ≤ i) :
    messageIndexInProto (crowd n) ("M" ++ toString i) = none := by
  rw [Option.eq_none_iff_forall_ne_some]
  intro path hpath
  obtain ⟨k, inside, d, -, hfits, hlocated, hname⟩ :=
    messageIndexInProtoMessages_sound _ _ _ _ hpath
  obtain ⟨j, -, hj, rfl⟩ := locatedIn_crowd_iff.mp hlocated
  have hsame : toString j = toString i := (String.append_right_inj "M").mp hname
  obtain rfl := toString_nat_inj hsame
  have hlt := hfits (0 + k) List.mem_cons_self
  simp only [List.cons.injEq] at hj
  omega

/-- A walk along the empty path arrives at a message whose search does not return that path, and
the message after `i32::MAX` has a place and no path. -/
theorem message_index_edges :
    (DistinctlyNamed demo ∧ ∃ d, messageAt [demo] [] = .ok d ∧
      messageIndexInProto demo d.fullName ≠ some []) ∧
    (DistinctlyNamed (crowd (2 ^ 31 + 1)) ∧ ∃ d, LocatedIn (crowd (2 ^ 31 + 1)) [2 ^ 31] d ∧
      messageIndexInProto (crowd (2 ^ 31 + 1)) d.fullName = none) := by
  refine ⟨⟨demo_distinctlyNamed, _, rfl, ?_⟩, crowd_distinctlyNamed _, _,
    locatedIn_crowd_iff.mpr ⟨2 ^ 31, Nat.lt_succ_self _, rfl, rfl⟩,
    messageIndexInProto_crowd le_rfl⟩
  decide

end KrabkaRegistry.Guarantees
