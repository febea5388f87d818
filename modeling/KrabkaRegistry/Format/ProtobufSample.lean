import KrabkaRegistry.Format.DiffLaws

/-!
# A Concrete `.proto` Parser

A parser that knows the texts it is given, for the examples of the Protobuf guarantees: each
text denotes the descriptor that stands beside it.
-/

namespace KrabkaRegistry.Format

open KrabkaRegistry.Format.Protobuf

/-- The sample libraries with a `.proto` parser that reads the texts of `files`. -/
def Libs.ofFiles (files : List (String × FileDescriptorProto)) : Libs :=
  { Libs.sample with
    protoxParse := fun name text =>
      match files.lookup text with
      | some file => .ok { file with name := some name }
      | none => .error "expected 'syntax'" }

namespace Protobuf

/-- A field of a scalar type. -/
def scalarField (type : FieldType) (name : String) (number : Int) : FieldDescriptorProto :=
  { name := some name, number := some number, label? := some .optional, type? := some type }

/-- A text parses to its file, if its references parse and it can be printed. -/
theorem ofFiles_parses {files : List (String × FileDescriptorProto)} {text : String}
    {refs : List ResolvedReference} {file : FileDescriptorProto}
    (hfile : files.lookup text = some file)
    (hrefs : (protobufDependencies (.ofFiles files) refs).toOption.isSome = true)
    (hprints : (normalize { file with name := some "schema.proto" }).toOption.isSome = true) :
    ∃ p, protobufParse (.ofFiles files) text refs = .ok p ∧
      p.descriptor = { file with name := some "schema.proto" } := by
  have hparse : (Libs.ofFiles files).protoxParse "schema.proto" text =
      .ok { file with name := some "schema.proto" } := by
    simp only [Libs.ofFiles, hfile]
  -- Linking has to resolve the dependencies only when there are any.
  have hlink : protobufLink (.ofFiles files) { file with name := some "schema.proto" } refs =
      .ok () := by
    unfold protobufLink
    split
    · rfl
    · cases hdeps : protobufDependencies (.ofFiles files) refs with
      | error e =>
        rw [hdeps] at hrefs
        cases hrefs
      | ok deps => rfl
  cases hnormal : normalize { file with name := some "schema.proto" } with
  | error e =>
    rw [hnormal] at hprints
    cases hprints
  | ok normalised =>
    refine ⟨⟨{ file with name := some "schema.proto" }, normalised⟩, ?_, rfl⟩
    unfold protobufParse
    rw [hparse]
    simp only [hlink, hnormal, bind, Except.bind]
    rfl

end Protobuf

end KrabkaRegistry.Format
