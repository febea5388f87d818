import Mathlib.Data.List.Forall2

/-!
# Related Lists and Options

What is found on one side of a relation between lists or between optional values has a
counterpart on the other.  A function with optional values, mapped over a list, relates the list
to the list of its values.
-/

namespace KrabkaRegistry.Library.Related

variable {α β : Type} {P : α → β → Prop}

/-! ## Lists -/

section Lists

variable {l : List α} {r : List β}

/-- What stands on the left of corresponding lists has a counterpart on the right. -/
theorem forall₂_mem_left (h : List.Forall₂ P l r) {a : α} (ha : a ∈ l) : ∃ b ∈ r, P a b := by
  induction h with
  | nil => cases ha
  | @cons a' b _ _ hb _ ih =>
    rcases List.mem_cons.mp ha with rfl | ha
    · exact ⟨b, List.mem_cons_self, hb⟩
    · obtain ⟨x, hx, hrel⟩ := ih ha
      exact ⟨x, List.mem_cons_of_mem _ hx, hrel⟩

/-- What stands on the right of corresponding lists has a counterpart on the left. -/
theorem forall₂_mem_right (h : List.Forall₂ P l r) {b : β} (hb : b ∈ r) : ∃ a ∈ l, P a b :=
  forall₂_mem_left (P := fun b a => P a b) h.flip hb

/-- A function that is equal on related elements maps corresponding lists to one list. -/
theorem map_eq_of_forall₂ {γ : Type} {f : α → γ} {g : β → γ} (h : List.Forall₂ P l r)
    (hfg : ∀ a ∈ l, ∀ b, P a b → f a = g b) : l.map f = r.map g := by
  induction h with
  | nil => rfl
  | @cons a b l r hab _ ih =>
    rw [List.map_cons, List.map_cons, hfg a List.mem_cons_self b hab,
      ih fun x hx => hfg x (List.mem_cons_of_mem a hx)]

end Lists

/-! ## Optional values -/

section Options

variable {o : Option α} {o' : Option β}

theorem optionRel_left (h : Option.Rel P o o') {a : α} (ha : o = some a) :
    ∃ b, o' = some b ∧ P a b := by
  cases h with
  | none => cases ha
  | some hP =>
    obtain rfl := Option.some.inj ha
    exact ⟨_, rfl, hP⟩

/-- The same values, seen from the other side. -/
theorem optionRel_flip {Q : β → α → Prop} (hPQ : ∀ a b, P a b → Q b a) (h : Option.Rel P o o') :
    Option.Rel Q o' o := by
  cases h with
  | none => exact .none
  | some hab => exact .some (hPQ _ _ hab)

theorem optionRel_imp {Q : α → β → Prop} (hPQ : ∀ a b, P a b → Q a b) (h : Option.Rel P o o') :
    Option.Rel Q o o' := by
  cases h with
  | none => exact .none
  | some hab => exact .some (hPQ _ _ hab)

theorem optionRel_of_refl {R : α → α → Prop} (hR : ∀ a, R a a) (o : Option α) :
    Option.Rel R o o := by
  cases o with
  | none => exact .none
  | some a => exact .some (hR a)

end Options

/-! ## Functions with optional values -/

/-- The values are those of the members, one by one. -/
theorem mapM_eq_some {f : α → Option β} {l : List α} {r : List β} :
    l.mapM f = some r ↔ List.Forall₂ (fun a b => f a = some b) l r := by
  induction l generalizing r with
  | nil =>
    simp only [List.mapM_nil, List.forall₂_nil_left_iff]
    exact ⟨fun h => (Option.some.inj h).symm, fun h => by rw [h]; rfl⟩
  | cons a l ih =>
    rw [List.mapM_cons, List.forall₂_cons_left_iff]
    constructor
    · intro h
      obtain ⟨b, hb, h⟩ := Option.bind_eq_some_iff.mp h
      obtain ⟨bs, hbs, h⟩ := Option.bind_eq_some_iff.mp h
      exact ⟨b, bs, hb, ih.mp hbs, (Option.some.inj h).symm⟩
    · rintro ⟨b, bs, hb, hbs, rfl⟩
      rw [hb, ih.mpr hbs]
      rfl

/-- The values exist when those of all members do. -/
theorem mapM_isSome {g : α → Option β} {l : List α} :
    (l.mapM g).isSome ↔ ∀ a ∈ l, (g a).isSome := by
  induction l with
  | nil => simp
  | cons a l ih =>
    rw [List.mapM_cons, List.forall_mem_cons, ← ih]
    cases g a <;> cases l.mapM g <;> simp

/-- Related lists have the same values, where the functions agree on related members. -/
theorem mapM_alike {P : α → α → Prop} {l l' : List α} {p q : α → Option β}
    (hl : List.Forall₂ P l l') (h : ∀ a a', a ∈ l → P a a' → p a = q a') :
    l.mapM p = l'.mapM q := by
  induction hl with
  | nil => rfl
  | @cons a a' l l' ha _ ih =>
    rw [List.mapM_cons, List.mapM_cons, h a a' List.mem_cons_self ha,
      ih fun b b' hb => h b b' (List.mem_cons_of_mem _ hb)]

end KrabkaRegistry.Library.Related
