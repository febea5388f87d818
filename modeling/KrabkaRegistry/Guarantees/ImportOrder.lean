import KrabkaRegistry.Rest.Import

/-!
# The Order of a Descriptor-Set Import

`import_order`: a descriptor set is accepted exactly when its files have names of their own and
no file imports itself, even indirectly; and then every file is listed once, after the files of
the set that it imports.
-/

namespace KrabkaRegistry.Guarantees

open KrabkaRegistry.Format.Protobuf (FileDescriptorProto)
open KrabkaRegistry.Library.TopologicalOrder
open KrabkaRegistry.Rest

variable {set : FileDescriptorSet} {files : BTreeMap String FileDescriptorProto}

/-! ## The graph of a set -/

/-- A file of the set has the name. -/
def InSet (set : FileDescriptorSet) (name : String) : Prop := ∃ f ∈ set.file, f.name = some name

/-- A file named `a` imports `b`, and `b` is in the set. -/
def Imports (set : FileDescriptorSet) (a b : String) : Prop :=
  (∃ f ∈ set.file, f.name = some a ∧ b ∈ f.dependency) ∧ InSet set b

/-- The order lists every file once, after the files of the set that it imports. -/
structure Topological (set : FileDescriptorSet) (order : List String) : Prop where
  nodup : order.Nodup
  lists : ∀ name, name ∈ order ↔ InSet set name
  after : ∀ l₁ name l₂, order = l₁ ++ name :: l₂ → ∀ dep, Imports set name dep → dep ∈ l₁

/-! ## The map of the files -/

/-- The map that the files of a set are collected in. -/
private theorem collected_get (h : set.file.foldlM addFile ∅ = .ok files) (name : String) :
    files[name]? = set.file.find? fun f => f.name = some name := by
  obtain ⟨_, _, hget⟩ := collect_ok h
  rw [hget]
  simp

private theorem collected_mem (h : set.file.foldlM addFile ∅ = .ok files) {name : String} :
    name ∈ files ↔ InSet set name := by
  rw [Std.ExtTreeMap.mem_iff_isSome_getElem?, collected_get h, List.find?_isSome]
  simp [InSet]

/-- A file with a name of its own is found under it. -/
private theorem find_named {fs : List FileDescriptorProto} (hnodup : (fs.map (·.name)).Nodup)
    {f : FileDescriptorProto} (hf : f ∈ fs) {name : String} (hname : f.name = some name) :
    (fs.find? fun f => f.name = some name) = some f := by
  induction fs with
  | nil => cases hf
  | cons g fs ih =>
    obtain ⟨hnew, hnodup⟩ := List.nodup_cons.mp hnodup
    rcases List.mem_cons.mp hf with rfl | hf
    · exact List.find?_cons_of_pos (by simpa using hname)
    · have hne : ¬ g.name = some name := by
        intro hg
        exact hnew (List.mem_map.mpr ⟨f, hf, hname.trans hg.symm⟩)
      rw [List.find?_cons_of_neg (by simpa using hne)]
      exact ih hnodup hf

/-- What the search follows are the imports within the set. -/
private theorem edge_iff (h : set.file.foldlM addFile ∅ = .ok files) {a b : String} :
    Edge (importsOf files) a b ↔ Imports set a b := by
  obtain ⟨hnamed, _, _⟩ := collect_ok h
  have hcontains : files.contains b = true ↔ InSet set b := by
    rw [Std.ExtTreeMap.contains_iff_mem, collected_mem h]
  simp only [Edge, importsOf, List.mem_filter, hcontains, Imports]
  refine and_congr_left fun _ => ?_
  rw [collected_get h]
  constructor
  · intro hb
    cases hfind : set.file.find? fun f => f.name = some a with
    | none => simp [hfind] at hb
    | some f =>
      have hname := List.find?_some hfind
      exact ⟨f, List.mem_of_find?_eq_some hfind, by simpa using hname, by simpa [hfind] using hb⟩
  · rintro ⟨f, hf, hname, hb⟩
    simpa [find_named hnamed.nodup hf hname] using hb

/-- The search runs over a finite graph with more fuel than it has nodes. -/
private theorem bounds (files : BTreeMap String FileDescriptorProto) :
    (∀ v ∈ files.keys.toFinset, ∀ u ∈ importsOf files v, u ∈ files.keys.toFinset) ∧
      (∀ v, v ∈ files.keys ↔ v ∈ files.keys.toFinset) ∧
      files.keys.toFinset.card < files.size + 1 := by
  refine ⟨fun v _ u hu => ?_, fun v => List.mem_toFinset.symm, ?_⟩
  · rw [List.mem_toFinset, Std.ExtTreeMap.mem_keys, ← Std.ExtTreeMap.contains_iff_mem]
    exact (List.mem_filter.mp hu).2
  · rw [← Std.ExtTreeMap.length_keys]
    exact Nat.lt_succ_of_le (List.toFinset_card_le _)

/-- The search of the files succeeds if their imports form no cycle. -/
private theorem search_ok_iff (h : set.file.foldlM addFile ∅ = .ok files) :
    (∃ w, visitAll (importsOf files) (files.size + 1) files.keys {} = .ok w) ↔
      ∀ name, ¬ Relation.TransGen (Imports set) name name := by
  obtain ⟨hclosed, hroots, hfuel⟩ := bounds files
  have hedges : Edge (importsOf files) = Imports set :=
    funext₂ fun a b => propext (edge_iff h)
  have hsearch := visitAll_ok_iff hclosed hroots hfuel
  rw [hedges] at hsearch
  have hcycles : (∀ v ∈ files.keys.toFinset, ¬ Relation.TransGen (Imports set) v v) ↔
      ∀ name, ¬ Relation.TransGen (Imports set) name name := by
    refine ⟨fun hno name hcycle => hno name ?_ hcycle, fun hno v _ => hno v⟩
    -- A file on a cycle is imported by one of the set.
    obtain ⟨x, _, _, hin⟩ := Relation.TransGen.tail'_iff.mp hcycle
    rw [List.mem_toFinset, Std.ExtTreeMap.mem_keys]
    exact (collected_mem h).mpr hin
  exact hsearch.trans hcycles

private theorem addFile_failsWith (m : BTreeMap String FileDescriptorProto)
    (f : FileDescriptorProto) :
    FailsWith (fun e => ∃ message, e = .error (.invalidSchema message)) (addFile m f) := by
  unfold addFile
  split
  · exact .error ⟨_, rfl⟩
  · split
    · exact .error ⟨_, rfl⟩
    · exact .ok _

/-- Every refusal says that the schema is invalid; in particular the search always ends. -/
theorem import_failsWith (set : FileDescriptorSet) :
    FailsWith (fun e => ∃ message, e = .error (.invalidSchema message))
      (DescriptorSetImport.new set) := by
  have hcollect : ∀ (fs : List FileDescriptorProto) (m : BTreeMap String FileDescriptorProto),
      FailsWith (fun e => ∃ message, e = .error (.invalidSchema message))
        (fs.foldlM addFile m) := by
    intro fs
    induction fs with
    | nil => exact fun m => .ok m
    | cons f fs ih => exact fun m => (addFile_failsWith m f).bind ih
  rw [new_eq]
  refine (hcollect set.file ∅).bind fun files => FailsWith.bind ?_ fun _ => .ok _
  obtain ⟨hclosed, hroots, hfuel⟩ := bounds files
  cases hsearch : visitAll (importsOf files) (files.size + 1) files.keys {} with
  | ok w => exact .ok w
  | error f =>
    cases f with
    | cycle name => exact .error ⟨_, rfl⟩
    | fuel => exact absurd hsearch (visitAll_ne_fuel hclosed hroots hfuel)

/-- A descriptor set is accepted exactly when its files have names of their own and its imports
form no cycle, and then its order is a topological one. -/
theorem import_order (set : FileDescriptorSet) :
    ((∃ imp, DescriptorSetImport.new set = .ok imp) ↔
      Named set.file ∧ ∀ name, ¬ Relation.TransGen (Imports set) name name) ∧
    ∀ imp, DescriptorSetImport.new set = .ok imp → Topological set imp.order := by
  constructor
  · constructor
    · rintro ⟨imp, himp⟩
      obtain ⟨files, w, hfiles, hw, _⟩ := new_ok_iff.mp himp
      exact ⟨(collect_ok hfiles).1, (search_ok_iff hfiles).mp ⟨w, hw⟩⟩
    · rintro ⟨hnamed, hacyclic⟩
      have hempty : ∀ f ∈ set.file, ∀ name, f.name = some name →
          (∅ : BTreeMap String FileDescriptorProto)[name]? = none := by simp
      obtain ⟨files, hfiles⟩ := collect_total hnamed hempty
      obtain ⟨w, hw⟩ := (search_ok_iff hfiles).mpr hacyclic
      exact ⟨_, new_ok_iff.mpr ⟨files, w, hfiles, hw, rfl⟩⟩
  · intro imp himp
    obtain ⟨files, w, hfiles, hw, rfl⟩ := new_ok_iff.mp himp
    obtain ⟨hclosed, hroots, _⟩ := bounds files
    obtain ⟨hnodup, hlists, hsorted⟩ := visitAll_order hclosed hroots hw
    refine ⟨hnodup, fun name => ?_, fun l₁ name l₂ hsplit dep hdep => ?_⟩
    · rw [hlists, List.mem_toFinset, Std.ExtTreeMap.mem_keys, collected_mem hfiles]
    · exact hsorted l₁ name l₂ hsplit dep ((edge_iff hfiles).mpr hdep)

/-- The imports decide the order, whatever the order of the files. -/
example :
    (DescriptorSetImport.new ⟨[{ name := some "b", dependency := ["a", "x"] },
      { name := some "a" }]⟩).map (·.order) = .ok ["a", "b"] := by
  decide +kernel

end KrabkaRegistry.Guarantees
