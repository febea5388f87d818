import KrabkaRegistry.Format.ProtobufSample

/-!
# Oneofs Across an Accepted Update

Two fields that a writer sets at the same time do not both arrive at a reader that has them in
one oneof.  The differ counts, in the oneof that a plain field has moved into, the members that
were plain fields before, and refuses the update from two on.  It does not look at fields that
come from another oneof.

- `oneofs_keep_data_iff`: of an accepted update, fields that could be set together stay apart
  exactly when those that come together were all plain fields;
- `merged_oneofs_accepted`: two oneofs merged into one are accepted.
-/

namespace KrabkaRegistry.Guarantees

open KrabkaRegistry.Format
open KrabkaRegistry.Format.Protobuf

/-! ## Which fields exclude each other -/

/-- The fields of both numbers are members of one real oneof. -/
def SameOneof (m : DescriptorProto) (n k : Int) : Prop :=
  ∃ f g, (fieldsByNumber m)[n]? = some f ∧ (fieldsByNumber m)[k]? = some g ∧
    realOneof f = true ∧ realOneof g = true ∧ f.oneofIndex = g.oneofIndex

instance (m : DescriptorProto) (n k : Int) : Decidable (SameOneof m n k) :=
  decidable_of_iff
    ((fieldsByNumber m)[n]?.any fun f => (fieldsByNumber m)[k]?.any fun g =>
      realOneof f && realOneof g && decide (f.oneofIndex = g.oneofIndex)) <| by
    simp only [Option.any_eq_true, Bool.and_eq_true, decide_eq_true_eq]
    constructor
    · rintro ⟨f, hf, g, hg, ⟨hreal, hreal'⟩, hindex⟩
      exact ⟨f, g, hf, hg, hreal, hreal', hindex⟩
    · rintro ⟨f, g, hf, hg, hreal, hreal', hindex⟩
      exact ⟨f, hf, g, hg, ⟨hreal, hreal'⟩, hindex⟩

/-- Two fields that can be set at the same time.  Numbers of fields are positive. -/
structure SetTogether (m : DescriptorProto) (n k : Int) : Prop where
  ne : n ≠ k
  pos_left : 0 < n
  pos_right : 0 < k
  left : (fieldsByNumber m).contains n = true
  right : (fieldsByNumber m).contains k = true
  apart : ¬ SameOneof m n k

/-- What the writer can set together is not in one oneof of the reader. -/
def KeepsData (writer reader : FileDescriptorProto) : Prop :=
  ∀ m u, InBoth writer reader m u → ∀ n k, SetTogether m n k → ¬ SameOneof u n k

/-- The field of the number is in no real oneof. -/
def Plain (m : DescriptorProto) (n : Int) : Prop :=
  ∃ f, (fieldsByNumber m)[n]? = some f ∧ realOneof f = false

/-- The field of the number is a map on both sides. -/
def MapOnBothSides (m u : DescriptorProto) (n : Int) : Prop :=
  ∃ f g, (fieldsByNumber m)[n]? = some f ∧ (fieldsByNumber u)[n]? = some g ∧
    findMapEntry m f ≠ none ∧ findMapEntry u g ≠ none

/-- Fields that the reader brings into one oneof were plain fields, and not both of them are
maps. -/
def OnlyPlainGrouped (writer reader : FileDescriptorProto) : Prop :=
  ∀ m u, InBoth writer reader m u → ∀ n k, SetTogether m n k → SameOneof u n k →
    Plain m n ∧ Plain m k ∧ ¬ (MapOnBothSides m u n ∧ MapOnBothSides m u k)

/-! ## The count of moved members -/

section Moved

variable {m u : DescriptorProto} {n k : Int}

theorem number_of_found {f : FieldDescriptorProto} (h : (fieldsByNumber m)[n]? = some f)
    (hpos : 0 < n) : f ∈ m.field ∧ f.number = some n := by
  obtain ⟨hmem, hkey⟩ := Library.KeyedMap.mem_of_getElem? h
  refine ⟨hmem, ?_⟩
  cases hnumber : f.number with
  | none =>
    rw [hnumber] at hkey
    exact absurd hkey hpos.ne
  | some number =>
    rw [hnumber] at hkey
    exact congrArg some hkey

/-- A plain field that the update has in a real oneof counts among the moved members. -/
theorem moved_mem (hn : 0 < n) (hplain : Plain m n) {g : FieldDescriptorProto}
    (hg : (fieldsByNumber u)[n]? = some g) (hreal : realOneof g = true) {index : Int}
    (hindex : g.oneofIndex = some index) :
    g ∈ u.field.filter fun f => f.oneofIndex = some index && f.proto3Optional ≠ some true &&
      m.field.any fun old => old.number = f.number && !realOneof old := by
  obtain ⟨f, hf, hflat⟩ := hplain
  obtain ⟨hfm, hfn⟩ := number_of_found hf hn
  obtain ⟨hgu, hgn⟩ := number_of_found hg hn
  have hold : (m.field.any fun old => old.number = g.number && !realOneof old) = true :=
    List.any_eq_true.mpr ⟨f, hfm, by simp [hfn, hgn, hflat]⟩
  have hoptional : g.proto3Optional ≠ some true := by
    intro hopt
    simp [realOneof, hopt] at hreal
  rw [List.mem_filter]
  exact ⟨hgu, by simp [hindex, hoptional, hold]⟩

/-- Two plain fields that the update has in one real oneof are counted both. -/
theorem two_moved (htogether : SetTogether m n k) (hsame : SameOneof u n k) (hn : Plain m n)
    (hk : Plain m k) {g : FieldDescriptorProto} (hg : (fieldsByNumber u)[n]? = some g) :
    2 ≤ movedExistingMemberCount m u g := by
  obtain ⟨f, f', hf, hf', hreal, hreal', hindex⟩ := hsame
  obtain rfl : f = g := Option.some.inj (hf.symm.trans hg)
  obtain ⟨index, hsome⟩ : ∃ index, f.oneofIndex = some index := by
    rw [← Option.isSome_iff_exists]
    simp only [realOneof, Bool.and_eq_true] at hreal
    exact hreal.1
  have hmem := moved_mem htogether.pos_left hn hf hreal hsome
  have hmem' := moved_mem htogether.pos_right hk hf' hreal' (hindex.symm.trans hsome)
  have hne : f ≠ f' := by
    intro heq
    have hnumbers := (number_of_found hf htogether.pos_left).2.symm.trans
      (heq ▸ (number_of_found hf' htogether.pos_right).2)
    exact htogether.ne (Option.some.inj hnumbers)
  unfold movedExistingMemberCount
  rw [hsome]
  simp only
  generalize u.field.filter _ = moved at hmem hmem'
  rcases moved with _ | ⟨x, _ | ⟨y, rest⟩⟩
  · cases hmem
  · exact absurd ((List.mem_singleton.mp hmem).trans (List.mem_singleton.mp hmem').symm) hne
  · simp

/-- Two plain fields brought into one oneof are reported, unless both are maps on both sides. -/
theorem moved_in_reported (htogether : SetTogether m n k) (hsame : SameOneof u n k)
    (hn : Plain m n) (hk : Plain m k) (hmap : ¬ MapOnBothSides m u n) (r : Resolver)
    (path : String) :
    ∃ d ∈ compareMessage r m path u, d.kind = .oneofFieldMovedIn := by
  obtain ⟨f, hf, hflat⟩ := hn
  have hcount := fun g hg => two_moved htogether hsame ⟨f, hf, hflat⟩ hk (g := g) hg
  obtain ⟨g, -, hg, -, hreal, -⟩ := hsame
  refine ⟨⟨.oneofFieldMovedIn, numbered path n⟩, mem_compareField hf hg ?_ ?_, rfl⟩
  · by_contra hboth
    rw [not_or] at hboth
    exact hmap ⟨f, g, hf, hg, hboth⟩
  · simp only [compareField, List.mem_append]
    refine .inl (.inl ?_)
    simp [hflat, hreal, hcount g hg]

end Moved

/-! ## Accepted updates -/

theorem SetTogether.symm {m : DescriptorProto} {n k : Int} (h : SetTogether m n k) : SetTogether m k n where
  ne := h.ne.symm
  pos_left := h.pos_right
  pos_right := h.pos_left
  left := h.right
  right := h.left
  apart := by
    rintro ⟨f, g, hf, hg, hreal, hreal', hindex⟩
    exact h.apart ⟨g, f, hg, hf, hreal', hreal, hindex.symm⟩

theorem SameOneof.symm {m : DescriptorProto} {n k : Int} (h : SameOneof m n k) :
    SameOneof m k n := by
  obtain ⟨f, g, hf, hg, hreal, hreal', hindex⟩ := h
  exact ⟨g, f, hg, hf, hreal', hreal, hindex.symm⟩

/-- **An accepted update keeps what could be set together apart, exactly when it brings only
plain fields together.**  Those it reports, and does not accept. -/
theorem oneofs_keep_data_iff {L : Libs} {reader writer : String}
    {readerRefs writerRefs : List ResolvedReference} {p q : ProtobufSchema}
    (hcheck : protobufCheck L reader writer readerRefs writerRefs = .ok ())
    (hreader : protobufParse L reader readerRefs = .ok p)
    (hwriter : protobufParse L writer writerRefs = .ok q) :
    KeepsData q.descriptor p.descriptor ↔ OnlyPlainGrouped q.descriptor p.descriptor := by
  constructor
  · intro hkeeps m u hboth n k htogether hsame
    exact absurd hsame (hkeeps m u hboth n k htogether)
  · intro hplain m u hboth n k htogether hsame
    obtain ⟨hn, hk, hmaps⟩ := hplain m u hboth n k htogether hsame
    obtain ⟨path, hpath⟩ := hboth.differences
    have hreported : ∃ d ∈ compareMessage (.ofFiles q.descriptor p.descriptor) m path u,
        d.kind = .oneofFieldMovedIn := by
      by_cases hmap : MapOnBothSides m u n
      · exact moved_in_reported htogether.symm hsame.symm hk hn
          (fun hmap' => hmaps ⟨hmap, hmap'⟩) _ path
      · exact moved_in_reported htogether hsame hn hk hmap _ path
    obtain ⟨d, hd, hkind⟩ := hreported
    have hcompatible := compatible_of_check hcheck hreader hwriter d (hpath d hd)
    rw [hkind] at hcompatible
    cases hcompatible

/-! ### Two oneofs merged into one -/

def twoOneofsText : String :=
  "syntax = \"proto3\"; message M \x7b oneof x \x7b int32 a = 1; \x7d oneof y \x7b int32 b = 2; \x7d \x7d"

def twoOneofs : DescriptorProto :=
  { name := some "M"
    field := [{ scalarField .int32 "a" 1 with oneofIndex := some 0 },
              { scalarField .int32 "b" 2 with oneofIndex := some 1 }]
    oneofDecl := [{ name := some "x" }, { name := some "y" }] }

def mergedOneofsText : String :=
  "syntax = \"proto3\"; message M \x7b oneof z \x7b int32 a = 1; int32 b = 2; \x7d \x7d"

def mergedOneofs : DescriptorProto :=
  { name := some "M"
    field := [{ scalarField .int32 "a" 1 with oneofIndex := some 0 },
              { scalarField .int32 "b" 2 with oneofIndex := some 0 }]
    oneofDecl := [{ name := some "z" }] }

def oneofLibs : Libs :=
  .ofFiles [(twoOneofsText, { syntax? := some "proto3", messageType := [twoOneofs] }),
    (mergedOneofsText, { syntax? := some "proto3", messageType := [mergedOneofs] })]

theorem merged_oneofs_run :
    ∃ p q, protobufParse oneofLibs mergedOneofsText [] = .ok p ∧
      protobufParse oneofLibs twoOneofsText [] = .ok q ∧
      protobufCheck oneofLibs mergedOneofsText twoOneofsText [] [] = .ok () ∧
      p.descriptor.messageType = [mergedOneofs] ∧ q.descriptor.messageType = [twoOneofs] := by
  obtain ⟨p, hp, hreader⟩ : ∃ p, protobufParse oneofLibs mergedOneofsText [] = .ok p ∧ _ :=
    ofFiles_parses rfl rfl (by decide +kernel)
  obtain ⟨q, hq, hwriter⟩ : ∃ q, protobufParse oneofLibs twoOneofsText [] = .ok q ∧ _ :=
    ofFiles_parses rfl rfl (by decide +kernel)
  refine ⟨p, q, hp, hq, ?_, by rw [hreader], by rw [hwriter]⟩
  rw [check_ok_iff hp hq rfl, hreader, hwriter]
  decide +kernel

theorem oneofs_keep_data_iff_merged :
    ∃ p q, protobufParse oneofLibs mergedOneofsText [] = .ok p ∧
      protobufParse oneofLibs twoOneofsText [] = .ok q ∧
      (KeepsData q.descriptor p.descriptor ↔ OnlyPlainGrouped q.descriptor p.descriptor) := by
  obtain ⟨p, q, hp, hq, hcheck, -, -⟩ := merged_oneofs_run
  exact ⟨p, q, hp, hq, oneofs_keep_data_iff hcheck hp hq⟩

/-- The update is accepted, although a writer sets `a` and `b` together and the reader keeps one
of them only. -/
theorem merged_oneofs_accepted :
    ∃ p q, protobufParse oneofLibs mergedOneofsText [] = .ok p ∧
      protobufParse oneofLibs twoOneofsText [] = .ok q ∧
      protobufCheck oneofLibs mergedOneofsText twoOneofsText [] [] = .ok () ∧
      ¬ KeepsData q.descriptor p.descriptor := by
  obtain ⟨p, q, hp, hq, hcheck, hreader, hwriter⟩ := merged_oneofs_run
  refine ⟨p, q, hp, hq, hcheck, fun hkeeps => ?_⟩
  have hsame : SameNamed [twoOneofs] [mergedOneofs] twoOneofs mergedOneofs :=
    .of_mem (by decide) List.mem_cons_self (by decide) List.mem_cons_self rfl
  rw [← hreader, ← hwriter] at hsame
  refine hkeeps twoOneofs mergedOneofs (.top hsame) 1 2 ?_ (by decide +kernel)
  exact ⟨by decide, by decide, by decide, by decide +kernel, by decide +kernel, by decide +kernel⟩

end KrabkaRegistry.Guarantees
