import KrabkaRegistry.Format.Reordered

/-!
# The Protobuf Comparison Ignores Declaration Order

A file and a reordering of it have the same differences from every other file, in both
directions, and none from one another.
-/

namespace KrabkaRegistry.Guarantees

open KrabkaRegistry.Format.Protobuf
open KrabkaRegistry.Library.KeyedMap

/-- **Declaration order does not matter.**  Only the file that is reordered needs distinct names
and numbers. -/
theorem compare_ignores_order {f g : FileDescriptorProto} (hunique : f.Unique)
    (hreordered : FileReordered f g) (h : FileDescriptorProto) :
    compare g h = compare f h ∧ compare h g = compare h f ∧ compare f g = [] := by
  have hupd := compare_upd hunique hreordered
  refine ⟨(compare_orig hunique hreordered h).symm, (hupd h).symm, ?_⟩
  calc compare f g = compare f f := (hupd f).symm
    _ = [] := compare_self f

/-- A field of type `int32`. -/
def int32Field (name : String) (number : Int) (oneof : Option Int) : FieldDescriptorProto :=
  { name := some name, number := some number, label? := some .optional, type? := some .int32,
    oneofIndex := oneof }

/-- `message M { oneof x { int32 a = 1; } oneof y { int32 b = 2; } }`. -/
def oneofsInOrder : FileDescriptorProto :=
  { syntax? := some "proto3"
    messageType :=
      [{ name := some "M"
         field := [int32Field "a" 1 (some 0), int32Field "b" 2 (some 1)]
         oneofDecl := [{ name := some "x" }, { name := some "y" }] }] }

/-- The same with the second oneof first. -/
def oneofsSwapped : FileDescriptorProto :=
  { syntax? := some "proto3"
    messageType :=
      [{ name := some "M"
         field := [int32Field "b" 2 (some 0), int32Field "a" 1 (some 1)]
         oneofDecl := [{ name := some "y" }, { name := some "x" }] }] }

theorem compare_ignores_order_swapped :
    compare oneofsSwapped {} = compare oneofsInOrder {} ∧
      compare {} oneofsSwapped = compare {} oneofsInOrder ∧
      compare oneofsInOrder oneofsSwapped = [] := by
  apply compare_ignores_order
  · refine ⟨by decide, by decide, ?_⟩
    intro m hm
    rw [List.mem_singleton.mp hm]
    exact .mk (by decide) (by decide) (by decide) (by simp)
  · refine ⟨rfl, rfl, rfl, rfl, rfl, ?_, ⟨[], .nil, .refl _⟩, rfl, rfl, rfl, rfl, rfl⟩
    apply Rearranged.of_forall₂
    refine .cons (.mk (Equiv.swap 0 1) [] rfl ?_ rfl .nil (.refl _) ⟨[], .nil, .refl _⟩ rfl ?_ rfl
      (.refl _) (.refl _)) .nil
    · exact .swap _ _ _
    · refine ⟨.swap _ _ _, ?_⟩
      intro i o hi
      rcases i with _ | _ | i
      · exact ⟨1, by simp, by simpa using hi⟩
      · exact ⟨0, by simp, by simpa using hi⟩
      · simp at hi

end KrabkaRegistry.Guarantees
