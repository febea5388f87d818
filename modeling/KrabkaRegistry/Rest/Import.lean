import KrabkaRegistry.Format.Descriptor
import KrabkaRegistry.Kafkastore.Ops
import KrabkaRegistry.Library.TopologicalOrder

/-!
# The Bulk Import of Descriptor Sets

`DescriptorSetImport` of `rest/import.rs`: the files of a set by name, and an order in which
every file comes after the files of the set that it imports.
-/

namespace KrabkaRegistry.Rest

open KrabkaRegistry.Format.Protobuf (FileDescriptorProto)
open KrabkaRegistry.Kafkastore (fail)
open KrabkaRegistry.Library.TopologicalOrder (Search Fault Edge visitAll)

structure FileDescriptorSet where
  file : List FileDescriptorProto

structure DescriptorSetImport where
  files : BTreeMap String FileDescriptorProto
  order : List String

/-- One round of the loop that collects the files. -/
def addFile (files : BTreeMap String FileDescriptorProto) (file : FileDescriptorProto) :
    Result (BTreeMap String FileDescriptorProto) :=
  match file.name.filter (· ≠ "") with
  | none => fail (.invalidSchema "FileDescriptorSet file missing name")
  | some name =>
    if files.contains name then
      fail (.invalidSchema ("FileDescriptorSet contains duplicate file " ++ name))
    else .ok (files.insert name file)

/-- `visit`, nesting at most `fuel` levels deep. -/
def visit (files : BTreeMap String FileDescriptorProto) :
    ℕ → String → Search String → Result (Search String)
  | 0, _, _ => .error .fuel
  | fuel + 1, name, w =>
    if name ∈ w.visited then .ok w
    else if name ∈ w.visiting then
      fail (.invalidSchema ("FileDescriptorSet import cycle at " ++ name))
    else do
      -- Only known files are visited, so the default is never taken.
      let file := (files[name]?).getD {}
      let w ← file.dependency.foldlM
        (fun w dep => if files.contains dep then visit files fuel dep w else .ok w)
        { w with visiting := insert name w.visiting }
      return ⟨w.visiting.erase name, insert name w.visited, w.order ++ [name]⟩

/-- `DescriptorSetImport::new`. -/
def DescriptorSetImport.new (set : FileDescriptorSet) : Result DescriptorSetImport := do
  let files ← set.file.foldlM addFile ∅
  let w ← files.keys.foldlM (fun w name => visit files (files.size + 1) name w) {}
  return ⟨files, w.order⟩

/-! ## The files -/

variable {files files' : BTreeMap String FileDescriptorProto}

theorem addFile_ok_iff {file : FileDescriptorProto} :
    addFile files file = .ok files' ↔
      ∃ name, file.name = some name ∧ name ≠ "" ∧ files[name]? = none ∧
        files' = files.insert name file := by
  unfold addFile fail
  cases hname : file.name with
  | none => simp
  | some name =>
    by_cases hempty : name = ""
    · simp [hempty, Option.filter]
    · by_cases hin : name ∈ files
      · simp [hempty, Option.filter, hin]
      · have hswap : files.insert name file = files' ↔ files' = files.insert name file := eq_comm
        simp [hempty, Option.filter, hin, hswap]

/-- Every file has a name, and no two have the same. -/
structure Named (fs : List FileDescriptorProto) : Prop where
  name : ∀ f ∈ fs, ∃ name, f.name = some name ∧ name ≠ ""
  nodup : (fs.map (·.name)).Nodup

theorem named_cons {f : FileDescriptorProto} {fs : List FileDescriptorProto} :
    Named (f :: fs) ↔ (∃ name, f.name = some name ∧ name ≠ "") ∧
      (∀ g ∈ fs, g.name ≠ f.name) ∧ Named fs := by
  constructor
  · rintro ⟨hname, hnodup⟩
    obtain ⟨hf, hrest⟩ := List.forall_mem_cons.mp hname
    obtain ⟨hnew, hnodup⟩ := List.nodup_cons.mp hnodup
    exact ⟨hf, fun g hg heq => hnew (List.mem_map.mpr ⟨g, hg, heq⟩), hrest, hnodup⟩
  · rintro ⟨hf, hnew, hrest⟩
    refine ⟨List.forall_mem_cons.mpr ⟨hf, hrest.name⟩, List.nodup_cons.mpr ⟨?_, hrest.nodup⟩⟩
    intro hmem
    obtain ⟨g, hg, heq⟩ := List.mem_map.mp hmem
    exact hnew g hg heq

/-- A file whose name no other has is found first or last. -/
private theorem find_cons_or {f : FileDescriptorProto} {fs : List FileDescriptorProto}
    {name : String} (hname : f.name = some name) (hnew : ∀ g ∈ fs, g.name ≠ f.name) (n : String) :
    ((f :: fs).find? fun f => f.name = some n).or files[n]? =
      (fs.find? fun f => f.name = some n).or (if n = name then some f else files[n]?) := by
  by_cases hn : n = name
  · subst hn
    have hnone : (fs.find? fun f => f.name = some n) = none := by
      rw [List.find?_eq_none]
      intro g hg
      simpa [← hname] using hnew g hg
    simp [hname, hnone]
  · have hne : ¬ f.name = some n := by
      rw [hname, Option.some.injEq]
      exact Ne.symm hn
    simp [hne, hn]

/-- Files that are collected have names of their own, and the map holds them beside what it
held. -/
theorem collect_ok {fs : List FileDescriptorProto} :
    ∀ {files files' : BTreeMap String FileDescriptorProto},
      fs.foldlM addFile files = .ok files' → Named fs ∧
        (∀ f ∈ fs, ∀ name, f.name = some name → files[name]? = none) ∧
        ∀ name, files'[name]? = (fs.find? fun f => f.name = some name).or files[name]? := by
  induction fs with
  | nil =>
    intro files files' h
    obtain rfl : files = files' := Except.ok.inj h
    exact ⟨⟨by simp, by simp⟩, by simp, by simp⟩
  | cons f fs ih =>
    intro files files' h
    rw [List.foldlM_cons] at h
    obtain ⟨m, hm, hrest⟩ := bind_ok h
    obtain ⟨name, hname, hne, hfresh, rfl⟩ := addFile_ok_iff.mp hm
    obtain ⟨hnamed, hapart, hget⟩ := ih hrest
    simp only [BTreeMap.getElem?_insert] at hapart hget
    -- A later file of the same name would have found it taken.
    have hnew : ∀ g ∈ fs, g.name ≠ f.name := by
      intro g hg heq
      simpa using hapart g hg name (heq.trans hname)
    refine ⟨named_cons.mpr ⟨⟨name, hname, hne⟩, hnew, hnamed⟩, ?_, fun n => ?_⟩
    · intro g hg n hn
      rcases List.mem_cons.mp hg with rfl | hg
      · obtain rfl : name = n := by simpa [hname] using hn
        exact hfresh
      · have hnone := hapart g hg n hn
        split at hnone
        · cases hnone
        · exact hnone
    · rw [hget, find_cons_or hname hnew]

/-- Files with names of their own are collected. -/
theorem collect_total {fs : List FileDescriptorProto} (hnamed : Named fs) :
    ∀ {files : BTreeMap String FileDescriptorProto},
      (∀ f ∈ fs, ∀ name, f.name = some name → files[name]? = none) →
      ∃ files', fs.foldlM addFile files = .ok files' := by
  induction fs with
  | nil => exact fun {files} _ => ⟨files, rfl⟩
  | cons f fs ih =>
    intro files hapart
    obtain ⟨⟨name, hname, hne⟩, hnew, hnamed⟩ := named_cons.mp hnamed
    have hfresh := hapart f List.mem_cons_self name hname
    rw [List.foldlM_cons, addFile_ok_iff.mpr ⟨name, hname, hne, hfresh, rfl⟩]
    refine ih hnamed fun g hg n hn => ?_
    rw [BTreeMap.getElem?_insert, if_neg]
    · exact hapart g (List.mem_cons_of_mem _ hg) n hn
    · rintro rfl
      exact hnew g hg (hn.trans hname.symm)

/-! ## The search -/

/-- The files of the set that a file imports. -/
def importsOf (files : BTreeMap String FileDescriptorProto) (name : String) : List String :=
  ((files[name]?).getD {}).dependency.filter files.contains

/-- The error that a failed search is answered with. -/
def Fault.toFailure : Fault String → Failure
  | .cycle name => .error (.invalidSchema ("FileDescriptorSet import cycle at " ++ name))
  | .fuel => .fuel

private theorem foldlM_mapError {α β ε ε' : Type} {e : ε → ε'} {g : β → α → Except ε β} :
    ∀ (l : List α) (b : β),
      l.foldlM (fun b a => (g b a).mapError e) b = (l.foldlM g b).mapError e := by
  intro l
  induction l with
  | nil => exact fun _ => rfl
  | cons a l ih =>
    intro b
    rw [List.foldlM_cons, List.foldlM_cons]
    cases g b a with
    | error f => rfl
    | ok b' => exact ih b'

/-- `visit` is the search of the graph of imports. -/
theorem visit_eq (fuel : ℕ) (name : String) (w : Search String) :
    visit files fuel name w =
      (Library.TopologicalOrder.visit (importsOf files) fuel name w).mapError Fault.toFailure := by
  induction fuel generalizing name w with
  | zero => rfl
  | succ fuel ih =>
    rw [visit, Library.TopologicalOrder.visit]
    split
    · rfl
    · split
      · rfl
      -- The loop over all dependencies is the search over those in the set.
      · have hloop : ∀ w₁ : Search String, ((files[name]?).getD {}).dependency.foldlM
            (fun w dep => if files.contains dep then visit files fuel dep w else .ok w) w₁ =
            (importsOf files name).foldlM (fun w u => visit files fuel u w) w₁ :=
          fun _ => List.foldlM_filter.symm
        dsimp only
        rw [hloop]
        simp only [ih, foldlM_mapError]
        cases (importsOf files name).foldlM
          (fun w u => Library.TopologicalOrder.visit (importsOf files) fuel u w)
          { w with visiting := insert name w.visiting } <;> rfl

/-- `DescriptorSetImport::new` collects the files and searches the graph of their imports. -/
theorem new_eq (set : FileDescriptorSet) :
    DescriptorSetImport.new set = (set.file.foldlM addFile ∅ >>= fun files =>
      (visitAll (importsOf files) (files.size + 1) files.keys {}).mapError Fault.toFailure >>=
        fun w => .ok ⟨files, w.order⟩) := by
  have hsearch : ∀ files : BTreeMap String FileDescriptorProto,
      files.keys.foldlM (fun w name => visit files (files.size + 1) name w) {} =
        (visitAll (importsOf files) (files.size + 1) files.keys {}).mapError Fault.toFailure := by
    intro files
    simp only [visit_eq]
    exact foldlM_mapError _ _
  unfold DescriptorSetImport.new
  simp only [hsearch]
  rfl

theorem new_ok_iff {set : FileDescriptorSet} {imp : DescriptorSetImport} :
    DescriptorSetImport.new set = .ok imp ↔ ∃ files w, set.file.foldlM addFile ∅ = .ok files ∧
      visitAll (importsOf files) (files.size + 1) files.keys {} = .ok w ∧
      imp = ⟨files, w.order⟩ := by
  rw [new_eq]
  cases set.file.foldlM addFile ∅ with
  | error e => simp [bind, Except.bind]
  | ok files =>
    cases hw : visitAll (importsOf files) (files.size + 1) files.keys {} with
    | error f => simp [hw, Except.mapError, bind, Except.bind]
    | ok w => simp [hw, Except.mapError, bind, Except.bind, eq_comm]

end KrabkaRegistry.Rest
