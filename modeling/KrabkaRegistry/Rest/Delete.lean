import KrabkaRegistry.Kafkastore.Effects
import KrabkaRegistry.Rest.Compatibility

/-!
# The `DELETE` Endpoint for Versions

`delete_version` of `rest/delete.rs`, in the two parts that it runs in: the version of the path
is read from the live store as it stands, and the operation then waits for the write gate and
decides on the state it finds there.
-/

namespace KrabkaRegistry.Rest

open KrabkaRegistry.Format (Formats)
open KrabkaRegistry.Kafkastore
open KrabkaRegistry.Store

/-- The version to delete, before the write gate is taken. -/
def resolveDeleted (st : StoreState) (subject version : String) : Result SchemaVersion :=
  if version = "latest" then
    match st.version subject none false with
    | some found => .ok found.version
    | none => .error (.error (.subjectNotFound subject))
  else parseConcreteVersion version

/-- The delete of a version that is known, under the write gate. -/
def deleteResolved (st : StoreState) (subject : String) (permanent : Bool)
    (version : SchemaVersion) : Result (List TopicRecord × SchemaVersion) :=
  if permanent then permanentDeleteVersion st subject version
  else softDeleteVersion st subject version

/-! ## The latest version -/

/-- The live versions of a subject, in ascending order. -/
def liveVersions (st : StoreState) (s : String) : List SchemaVersion :=
  ((entries st s).filter fun e => !e.deleted).map (·.version)

/-- The version is the greatest live one of the subject. -/
def IsLatest (st : StoreState) (s : String) (v : SchemaVersion) : Prop :=
  v ∈ liveVersions st s ∧ ∀ v' ∈ liveVersions st s, v' ≤ v

instance (st : StoreState) (s : String) (v : SchemaVersion) : Decidable (IsLatest st s v) :=
  inferInstanceAs (Decidable (_ ∧ _))

variable {F : Formats} {st : StoreState}

/-- Whether an entry is there and not soft-deleted. -/
def isLive (e : Option VersionEntry) : Bool := e.any fun e => !e.deleted

theorem mem_liveVersions (h : WellFormed st) {s : String} {v : SchemaVersion} :
    v ∈ liveVersions st s ↔ isLive (entryOf st s v) = true := by
  simp only [liveVersions, List.mem_map, List.mem_filter, isLive, Option.any_eq_true]
  constructor
  · rintro ⟨e, ⟨he, hlive⟩, rfl⟩
    exact ⟨e, (h.increasing s).findVersion_eq he, hlive⟩
  · rintro ⟨e, he, hlive⟩
    exact ⟨e, ⟨(findVersion_some he).1, hlive⟩, entryOf_version he⟩

theorem isLatest_iff (h : WellFormed st) {s : String} {v : SchemaVersion} :
    IsLatest st s v ↔ isLive (entryOf st s v) = true ∧
      ∀ v', isLive (entryOf st s v') = true → v' ≤ v := by
  simp only [IsLatest, mem_liveVersions h]

/-- The last live entry of an increasing list is the greatest. -/
private theorem find_reverse_greatest {l : List VersionEntry} (h : Increasing l)
    {e : VersionEntry} (he : l.reverse.find? (fun e => !e.deleted) = some e) :
    e ∈ l ∧ e.deleted = false ∧ ∀ x ∈ l, x.deleted = false → x.version ≤ e.version := by
  obtain ⟨hlive, later, earlier, hsplit, hlater⟩ := List.find?_eq_some_iff_append.mp he
  have hpairs : (later ++ e :: earlier).Pairwise fun a b => b.version < a.version := by
    rw [← hsplit, List.pairwise_reverse]
    exact h
  have hmem : ∀ x, x ∈ l ↔ x ∈ later ++ e :: earlier := by
    intro x
    rw [← hsplit, List.mem_reverse]
  refine ⟨(hmem e).mpr (by simp), by simpa using hlive, fun x hx hxlive => ?_⟩
  rcases List.mem_append.mp ((hmem x).mp hx) with hx | hx
  · have hdeleted := hlater x hx
    simp [hxlive] at hdeleted
  · rcases List.mem_cons.mp hx with rfl | hx
    · exact le_refl _
    · have hrest := (List.pairwise_append.mp hpairs).2.1
      exact ((List.pairwise_cons.mp hrest).1 x hx).le

/-- What is resolved for `latest` is the latest version at that time. -/
theorem resolveDeleted_latest (h : Consistent F st) {s : String} {v : SchemaVersion}
    (hres : resolveDeleted st s "latest" = .ok v) : IsLatest st s v := by
  have hfound : ∃ found, st.version s none false = some found ∧ found.version = v := by
    unfold resolveDeleted at hres
    rw [if_pos rfl] at hres
    split at hres
    · rename_i found hfound
      exact ⟨found, hfound, Except.ok.inj hres⟩
    · cases hres
  obtain ⟨found, hfound, rfl⟩ := hfound
  unfold StoreState.version at hfound
  cases hs : st.subjects[s]? with
  | none => simp [hs] at hfound
  | some l =>
    have hentries : entries st s = l := by simp [entries, hs]
    simp only [hs, Bool.false_or] at hfound
    cases hfind : l.reverse.find? (fun e => !e.deleted) with
    | none => simp [hfind] at hfound
    | some e =>
      simp only [hfind, Option.map_eq_some_iff] at hfound
      obtain ⟨reg, _, rfl⟩ := hfound
      -- Found from the end of an increasing list, hence the greatest that is live.
      obtain ⟨he, hlive, hgreatest⟩ := find_reverse_greatest (h.wellFormed s l hs).2 hfind
      constructor
      · exact List.mem_map_of_mem (List.mem_filter.mpr ⟨hentries ▸ he, by simp [hlive]⟩)
      · intro v' hv'
        obtain ⟨x, hx, rfl⟩ := List.mem_map.mp hv'
        obtain ⟨hmem, hxlive⟩ := List.mem_filter.mp hx
        exact hgreatest x (hentries ▸ hmem) (by simpa using hxlive)

end KrabkaRegistry.Rest
