import Mathlib.Data.List.Forall2
import Mathlib.Data.List.Induction
import Mathlib.Data.List.Nodup
import Mathlib.Data.List.Perm.Basic
import Mathlib.Tactic.Common

/-!
# Maps Built from the Members of a List

A list whose members carry a key is turned into a map by that key.  What the map holds does not
depend on the order of the members when no two share a key, and its keys never do.  Two lists
that are rearrangements of one another, up to a relation of their members that keeps the keys,
give maps that are related key by key, and traversals of the two maps agree.
-/

namespace KrabkaRegistry.Library.KeyedMap

/-! ## Rearranged lists -/

/-- The members of the second list are those of the first in another order, each related to the
one it stands for. -/
def Rearranged {α β : Type} (R : α → β → Prop) (l : List α) (l' : List β) : Prop :=
  ∃ mid, List.Forall₂ R l mid ∧ mid.Perm l'

section Rearranged

variable {α β γ : Type} {R : α → β → Prop} {l : List α} {l' : List β}

theorem Rearranged.of_forall₂ (h : List.Forall₂ R l l') : Rearranged R l l' := ⟨l', h, .refl _⟩

theorem Rearranged.length_eq (h : Rearranged R l l') : l.length = l'.length := by
  obtain ⟨mid, hmid, hperm⟩ := h
  exact hmid.length_eq.trans hperm.length_eq

/-- Related members, of which the first is in the first list. -/
theorem Rearranged.with_mem (h : Rearranged R l l') : Rearranged (fun a b => a ∈ l ∧ R a b) l l' := by
  obtain ⟨mid, hmid, hperm⟩ := h
  exact ⟨mid, (List.forall₂_and_left _ _).mpr ⟨fun _ ha => ha, hmid⟩, hperm⟩

/-- A property that related members share holds of some member on both sides or on none. -/
theorem Rearranged.exists_iff (h : Rearranged R l l') {p : α → Prop} {q : β → Prop}
    (hpq : ∀ a b, R a b → (p a ↔ q b)) : (∃ a ∈ l, p a) ↔ ∃ b ∈ l', q b := by
  obtain ⟨mid, hmid, hperm⟩ := h
  rw [show (∃ b ∈ l', q b) ↔ ∃ b ∈ mid, q b by simp only [hperm.mem_iff]]
  clear hperm
  induction hmid with
  | nil => simp
  | @cons a b l mid hab _ ih =>
    simp only [List.exists_mem_cons_iff]
    rw [hpq a b hab, ih]

theorem Rearranged.any_eq (h : Rearranged R l l') {p : α → Bool} {q : β → Bool}
    (hpq : ∀ a b, R a b → p a = q b) : l.any p = l'.any q := by
  rw [Bool.eq_iff_iff, List.any_eq_true, List.any_eq_true]
  exact h.exists_iff fun a b hab => by rw [hpq a b hab]

/-- A value that related members share is taken on both sides by the same members. -/
theorem Rearranged.map_perm (h : Rearranged R l l') {f : α → γ} {g : β → γ}
    (hfg : ∀ a b, R a b → f a = g b) : (l.map f).Perm (l'.map g) := by
  obtain ⟨mid, hmid, hperm⟩ := h
  have heq : l.map f = mid.map g := by
    clear hperm
    induction hmid with
    | nil => rfl
    | cons hab _ ih => rw [List.map_cons, List.map_cons, hfg _ _ hab, ih]
  rw [heq]
  exact hperm.map g

theorem Rearranged.filter (h : Rearranged R l l') {p : α → Bool} {q : β → Bool}
    (hpq : ∀ a b, R a b → p a = q b) : Rearranged R (l.filter p) (l'.filter q) := by
  obtain ⟨mid, hmid, hperm⟩ := h
  refine ⟨mid.filter q, ?_, hperm.filter q⟩
  clear hperm
  induction hmid with
  | nil => exact .nil
  | @cons a b l mid hab _ ih =>
    rw [List.filter_cons, List.filter_cons, hpq a b hab]
    split
    · exact .cons hab ih
    · exact ih

/-- Two lists related member by member are the two sides of a list of related pairs. -/
private theorem exists_pairs (hl : List.Forall₂ R l l') :
    ∃ pairs : List (α × β), (∀ p ∈ pairs, R p.1 p.2) ∧
      pairs.map Prod.fst = l ∧ pairs.map Prod.snd = l' := by
  induction hl with
  | nil => exact ⟨[], by simp, rfl, rfl⟩
  | @cons a b _ _ hab _ ih =>
    obtain ⟨pairs, hpairs, rfl, rfl⟩ := ih
    refine ⟨(a, b) :: pairs, ?_, rfl, rfl⟩
    intro p hp
    rcases List.mem_cons.mp hp with rfl | hp
    · exact hab
    · exact hpairs p hp

theorem Rearranged.forall₂_find? (h : List.Forall₂ R l l') {p : α → Bool} {q : β → Bool}
    (hpq : ∀ a b, R a b → p a = q b) : Option.Rel R (l.find? p) (l'.find? q) := by
  induction h with
  | nil => exact .none
  | @cons a b _ _ hab _ ih =>
    rw [List.find?_cons, List.find?_cons, hpq a b hab]
    cases q b with
    | true => exact .some hab
    | false => exact ih

/-- A search that only members of one key can end finds related members. -/
theorem Rearranged.find?_related {κ : Type} {key : α → κ} {key' : β → κ} (h : Rearranged R l l')
    (hkey : ∀ a b, R a b → key' b = key a) (hnodup : (l.map key).Nodup) {p : α → Bool}
    {q : β → Bool} (hpq : ∀ a b, R a b → p a = q b) {k : κ} (hq : ∀ b, q b = true → key' b = k) :
    Option.Rel R (l.find? p) (l'.find? q) := by
  have hnodup' : (l'.map key').Nodup :=
    (h.map_perm fun a b hab => (hkey a b hab).symm).nodup_iff.mp hnodup
  obtain ⟨mid, hmid, hperm⟩ := h
  -- One list is the other rearranged, and the key decides what is found, so the order plays no
  -- part.
  have hfind : mid.find? q = l'.find? q := by
    cases hb : l'.find? q with
    | none =>
      rw [List.find?_eq_none] at hb ⊢
      exact fun b hmem => hb b (hperm.mem_iff.mp hmem)
    | some b =>
      cases hb' : mid.find? q with
      | none =>
        rw [List.find?_eq_none] at hb'
        exact absurd (List.find?_some hb)
          (hb' b (hperm.mem_iff.mpr (List.mem_of_find?_eq_some hb)))
      | some b' =>
        have heq := List.inj_on_of_nodup_map hnodup'
          (hperm.mem_iff.mp (List.mem_of_find?_eq_some hb')) (List.mem_of_find?_eq_some hb)
          ((hq b' (List.find?_some hb')).trans (hq b (List.find?_some hb)).symm)
        rw [heq]
  rw [← hfind]
  exact Rearranged.forall₂_find? hmid hpq

end Rearranged

/-! ## The map of a list -/

variable {κ ν ν' : Type} [Ord κ]

/-- The members by their key; of several with one key the last counts. -/
def ofMembers (key : ν → κ) (members : List ν) : Std.ExtTreeMap κ ν compare :=
  Std.ExtTreeMap.ofList (members.map fun m => (key m, m)) compare

variable [Std.TransOrd κ] {key : ν → κ} {key' : ν' → κ} {l : List ν}

theorem ofMembers_append_singleton (key : ν → κ) (l : List ν) (m : ν) :
    ofMembers key (l ++ [m]) = (ofMembers key l).insert (key m) m := by
  unfold ofMembers
  rw [List.map_append, Std.ExtTreeMap.ofList_eq_insertMany_empty,
    Std.ExtTreeMap.insertMany_append, ← Std.ExtTreeMap.ofList_eq_insertMany_empty]
  exact Std.ExtTreeMap.insertMany_list_singleton

variable [Std.LawfulEqOrd κ]

theorem contains_ofMembers {k : κ} : (ofMembers key l).contains k = true ↔ k ∈ l.map key := by
  induction l using List.reverseRecOn with
  | nil => simp [ofMembers]
  | append_singleton l m ih =>
    rw [ofMembers_append_singleton, Std.ExtTreeMap.contains_insert, Bool.or_eq_true, ih,
      List.map_append, List.mem_append, beq_iff_eq, Std.LawfulEqCmp.compare_eq_iff_eq, or_comm]
    simp [eq_comm]

/-- What is found under a key is a member with this key. -/
theorem mem_of_getElem? {k : κ} {m : ν} (h : (ofMembers key l)[k]? = some m) :
    m ∈ l ∧ key m = k := by
  induction l using List.reverseRecOn with
  | nil => simp [ofMembers] at h
  | append_singleton l m' ih =>
    rw [ofMembers_append_singleton, Std.ExtTreeMap.getElem?_insert] at h
    split at h
    · rename_i heq
      obtain rfl : m' = m := Option.some.inj h
      exact ⟨List.mem_append_right _ List.mem_cons_self, Std.LawfulEqCmp.compare_eq_iff_eq.mp heq⟩
    · obtain ⟨hmem, hkey⟩ := ih h
      exact ⟨List.mem_append_left _ hmem, hkey⟩

theorem getElem?_eq_none {k : κ} : (ofMembers key l)[k]? = none ↔ k ∉ l.map key := by
  rw [← contains_ofMembers, ← Std.ExtTreeMap.isSome_getElem?_eq_contains]
  simp

/-- Without a second member of its key, a member is found. -/
theorem getElem?_of_mem (hnodup : (l.map key).Nodup) {m : ν} (hm : m ∈ l) :
    (ofMembers key l)[key m]? = some m := by
  cases hget : (ofMembers key l)[key m]? with
  | none => exact absurd (List.mem_map_of_mem hm) (getElem?_eq_none.mp hget)
  | some m' =>
    obtain ⟨hm', hkey⟩ := mem_of_getElem? hget
    rw [List.inj_on_of_nodup_map hnodup hm' hm hkey]

/-- The keys of two lists with the same keys, in order. -/
theorem keys_congr {l' : List ν'} (h : ∀ k, k ∈ l.map key ↔ k ∈ l'.map key') :
    (ofMembers key l).keys = (ofMembers key' l').keys := by
  have hunit : (ofMembers key l).map (fun _ _ => ()) = (ofMembers key' l').map fun _ _ => () := by
    apply Std.ExtTreeMap.ext_getElem?
    intro k
    rw [Std.ExtTreeMap.getElem?_map, Std.ExtTreeMap.getElem?_map]
    cases hget : (ofMembers key l)[k]? with
    | none =>
      have hnone : (ofMembers key' l')[k]? = none :=
        getElem?_eq_none.mpr (mt (h k).mpr (getElem?_eq_none.mp hget))
      rw [hnone]
      rfl
    | some m =>
      cases hget' : (ofMembers key' l')[k]? with
      | none =>
        obtain ⟨hm, rfl⟩ := mem_of_getElem? hget
        exact absurd ((h _).mp (List.mem_map_of_mem hm)) (getElem?_eq_none.mp hget')
      | some m' => rfl
  rw [← Std.ExtTreeMap.keys_map (f := fun _ _ => ()), hunit, Std.ExtTreeMap.keys_map]

/-! ## Maps of rearranged lists -/

section Related

variable {R : ν → ν' → Prop} {l' : List ν'}

/-- A list mapped along its keys gives the mapped map. -/
theorem ofMembers_map {g : ν → ν'} (hkey : ∀ m ∈ l, key' (g m) = key m) :
    ofMembers key' (l.map g) = (ofMembers key l).map fun _ => g := by
  induction l using List.reverseRecOn with
  | nil => exact Std.ExtTreeMap.ext_getElem? fun k => by simp [ofMembers]
  | append_singleton l m ih =>
    have hm : key' (g m) = key m := hkey m (List.mem_append_right _ List.mem_cons_self)
    have ih := ih fun m' hm' => hkey m' (List.mem_append_left _ hm')
    rw [List.map_append, List.map_singleton, ofMembers_append_singleton,
      ofMembers_append_singleton, ih, hm]
    apply Std.ExtTreeMap.ext_getElem?
    intro k
    simp only [Std.ExtTreeMap.getElem?_insert, Std.ExtTreeMap.getElem?_map]
    split <;> rfl

/-- The order of the members does not matter when their keys differ. -/
theorem ofMembers_perm {l₂ : List ν} (h : l.Perm l₂) (hnodup : (l.map key).Nodup) :
    ofMembers key l = ofMembers key l₂ := by
  have hnodup₂ : (l₂.map key).Nodup := (h.map key).nodup_iff.mp hnodup
  apply Std.ExtTreeMap.ext_getElem?
  intro k
  cases hget : (ofMembers key l)[k]? with
  | none =>
    rw [getElem?_eq_none, (h.map key).mem_iff] at hget
    exact (getElem?_eq_none.mpr hget).symm
  | some m =>
    obtain ⟨hm, rfl⟩ := mem_of_getElem? hget
    exact (getElem?_of_mem hnodup₂ (h.mem_iff.mp hm)).symm

variable (h : Rearranged R l l') (hkey : ∀ a b, R a b → key' b = key a)
  (hnodup : (l.map key).Nodup)

include h hkey hnodup

/-- The maps of rearranged lists are the two sides of a map of related pairs. -/
private theorem exists_map : ∃ pairs : Std.ExtTreeMap κ (ν × ν') compare,
    (∀ (k : κ) (p : ν × ν'), pairs[k]? = some p → R p.1 p.2) ∧
      ofMembers key l = pairs.map (fun _ => Prod.fst) ∧
      ofMembers key' l' = pairs.map fun _ => Prod.snd := by
  obtain ⟨mid, hmid, hperm⟩ := h
  obtain ⟨pairs, hpairs, rfl, rfl⟩ := exists_pairs hmid
  refine ⟨ofMembers (fun p => key p.1) pairs, ?_, ?_, ?_⟩
  · intro k p hp
    exact hpairs p (mem_of_getElem? hp).1
  · exact ofMembers_map fun _ _ => rfl
  · have hkeys : (pairs.map Prod.snd).map key' = (pairs.map Prod.fst).map key := by
      rw [List.map_map, List.map_map]
      exact List.map_congr_left fun p hp => hkey _ _ (hpairs p hp)
    rw [← ofMembers_perm hperm (hkeys ▸ hnodup)]
    exact ofMembers_map fun p hp => hkey _ _ (hpairs p hp)

/-- Under every key the two maps hold related members, or both hold none. -/
theorem getElem?_related (k : κ) :
    Option.Rel R (ofMembers key l)[k]? (ofMembers key' l')[k]? := by
  obtain ⟨pairs, hpairs, hfst, hsnd⟩ := exists_map h hkey hnodup
  rw [hfst, hsnd, Std.ExtTreeMap.getElem?_map, Std.ExtTreeMap.getElem?_map]
  cases hp : pairs[k]? with
  | none => exact .none
  | some p => exact .some (hpairs k p hp)

/-- A traversal that treats related members alike gives the same on both sides. -/
theorem flatMap_related {γ : Type} {f : κ × ν → List γ} {g : κ × ν' → List γ}
    (hfg : ∀ k a b, R a b → f (k, a) = g (k, b)) :
    (ofMembers key l).toList.flatMap f = (ofMembers key' l').toList.flatMap g := by
  obtain ⟨pairs, hpairs, hfst, hsnd⟩ := exists_map h hkey hnodup
  rw [hfst, hsnd, Std.ExtTreeMap.toList_map, Std.ExtTreeMap.toList_map, List.flatMap_map,
    List.flatMap_map]
  apply List.flatMap_congr
  intro p hp
  exact hfg _ _ _ (hpairs p.1 p.2 (Std.ExtTreeMap.mem_toList_iff_getElem?_eq_some.mp hp))

end Related

end KrabkaRegistry.Library.KeyedMap
