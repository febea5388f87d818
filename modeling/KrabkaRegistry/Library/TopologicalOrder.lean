import Mathlib.Data.Finset.Card
import Mathlib.Data.Finset.Insert
import Mathlib.Data.List.Infix
import Mathlib.Logic.Relation
import Mathlib.Tactic.Common

/-!
# Topological Orders by Depth-First Search

`visit` finishes a node after everything it depends on.  It keeps the nodes it is still inside
of, so that it notices a cycle, and the finished ones, which it lists in order.

- `visit_ok`: the order lists each finished node once, after its dependencies;
- `visit_cycle`: a node that is reported lies on a cycle;
- `visit_ne_fuel`: a bound on the nodes bounds the nesting.
-/

namespace KrabkaRegistry.Library.TopologicalOrder

variable {ν : Type*}

/-! ## Orders -/

/-- The first node depends on the second. -/
def Edge (deps : ν → List ν) (v u : ν) : Prop := u ∈ deps v

/-- Every node of the list comes after its dependencies. -/
def Sorted (deps : ν → List ν) (order : List ν) : Prop :=
  ∀ l₁ v l₂, order = l₁ ++ v :: l₂ → ∀ u ∈ deps v, u ∈ l₁

variable {deps : ν → List ν}

theorem Sorted.snoc {order : List ν} {v : ν} (h : Sorted deps order)
    (hv : ∀ u ∈ deps v, u ∈ order) : Sorted deps (order ++ [v]) := by
  intro l₁ x l₂ hsplit u hu
  rcases List.eq_nil_or_concat l₂ with rfl | ⟨l₂, y, rfl⟩
  · obtain ⟨rfl, hx⟩ := List.append_inj' hsplit rfl
    obtain rfl : v = x := by simpa using hx
    exact hv u hu
  · have hcut : order ++ [v] = (l₁ ++ x :: l₂) ++ [y] := by simpa using hsplit
    obtain ⟨rfl, -⟩ := List.append_inj' hcut rfl
    exact h l₁ x l₂ rfl u hu

/-- What a node of a sorted list depends on, even indirectly, comes strictly before it. -/
theorem Sorted.before {order : List ν} (h : Sorted deps order) {v u : ν}
    (hpath : Relation.TransGen (Edge deps) v u) :
    ∀ l₁ l₂, order = l₁ ++ v :: l₂ → u ∈ l₁ := by
  induction hpath with
  | single hedge =>
    intro l₁ l₂ hsplit
    exact h l₁ v l₂ hsplit _ hedge
  | @tail x u _ hedge ih =>
    intro l₁ l₂ hsplit
    obtain ⟨m₁, m₂, rfl⟩ := List.append_of_mem (ih l₁ l₂ hsplit)
    have hin : u ∈ m₁ := h m₁ x (m₂ ++ v :: l₂) (by simpa using hsplit) u hedge
    exact List.mem_append_left _ hin

/-- No node of a sorted list without repetitions lies on a cycle. -/
theorem Sorted.not_cycle {order : List ν} (h : Sorted deps order) (hnodup : order.Nodup) {v : ν}
    (hv : v ∈ order) : ¬ Relation.TransGen (Edge deps) v v := by
  intro hcycle
  obtain ⟨l₁, l₂, rfl⟩ := List.append_of_mem hv
  have hin : v ∈ l₁ := h.before hcycle l₁ l₂ rfl
  exact (List.nodup_append'.mp hnodup).2.2 hin List.mem_cons_self

/-! ## The search -/

/-- The nodes that a search is inside of, the finished ones, and the order they finished in. -/
structure Search (ν : Type*) where
  visiting : Finset ν := ∅
  visited : Finset ν := ∅
  order : List ν := []

/-- Why a search stops. -/
inductive Fault (ν : Type*) where
  | cycle (v : ν)
  | fuel

variable [DecidableEq ν] (deps)

/-- Finish a node, nesting at most `fuel` levels deep. -/
def visit : ℕ → ν → Search ν → Except (Fault ν) (Search ν)
  | 0, _, _ => .error .fuel
  | fuel + 1, v, w =>
    if v ∈ w.visited then .ok w
    else if v ∈ w.visiting then .error (.cycle v)
    else do
      let w' ← (deps v).foldlM (fun w u => visit fuel u w)
        { w with visiting := insert v w.visiting }
      return ⟨w'.visiting.erase v, insert v w'.visited, w'.order ++ [v]⟩

/-- Finish a list of nodes, one after the other. -/
def visitAll (fuel : ℕ) (roots : List ν) (w : Search ν) : Except (Fault ν) (Search ν) :=
  roots.foldlM (fun w u => visit deps fuel u w) w

variable {deps} {w w' : Search ν} {v : ν} {roots : List ν} {fuel : ℕ}

/-- A node that is neither finished nor being visited is finished after its dependencies. -/
theorem visit_succ (hvisited : v ∉ w.visited) (hvisiting : v ∉ w.visiting) :
    visit deps (fuel + 1) v w =
      visitAll deps fuel (deps v) { w with visiting := insert v w.visiting } >>= fun w' =>
        .ok ⟨w'.visiting.erase v, insert v w'.visited, w'.order ++ [v]⟩ := by
  rw [visit, if_neg hvisited, if_neg hvisiting]
  rfl

theorem visitAll_cons {u : ν} :
    visitAll deps fuel (u :: roots) w = visit deps fuel u w >>= visitAll deps fuel roots := by
  unfold visitAll
  rw [List.foldlM_cons]

/-- A successful visit finds the node finished, or finishes it. -/
theorem visit_ok_cases (h : visit deps (fuel + 1) v w = .ok w') :
    (v ∈ w.visited ∧ w' = w) ∨
    (v ∉ w.visited ∧ v ∉ w.visiting ∧ ∃ w₁,
      visitAll deps fuel (deps v) { w with visiting := insert v w.visiting } = .ok w₁ ∧
      w' = ⟨w₁.visiting.erase v, insert v w₁.visited, w₁.order ++ [v]⟩) := by
  by_cases hvisited : v ∈ w.visited
  · rw [visit, if_pos hvisited] at h
    exact .inl ⟨hvisited, (Except.ok.inj h).symm⟩
  · by_cases hvisiting : v ∈ w.visiting
    · rw [visit, if_neg hvisited, if_pos hvisiting] at h
      cases h
    · rw [visit_succ hvisited hvisiting] at h
      cases hall : visitAll deps fuel (deps v) { w with visiting := insert v w.visiting } with
      | error f => simp [hall, bind, Except.bind] at h
      | ok w₁ =>
        rw [hall] at h
        exact .inr ⟨hvisited, hvisiting, w₁, rfl, (Except.ok.inj h).symm⟩

/-! ## What a successful search has done -/

omit [DecidableEq ν] in
/-- The order lists the finished nodes once each and after their dependencies, and no node is
both finished and being visited. -/
structure Sound (deps : ν → List ν) (w : Search ν) : Prop where
  listed : ∀ v, v ∈ w.visited ↔ v ∈ w.order
  nodup : w.order.Nodup
  sorted : Sorted deps w.order
  apart : ∀ v ∈ w.visiting, v ∉ w.visited

omit [DecidableEq ν] in
theorem Sound.start : Sound deps ({} : Search ν) where
  listed := by simp
  nodup := List.nodup_nil
  sorted := by
    intro l₁ v l₂ hsplit
    simp at hsplit
  apart := by simp

/-- From `w` to `w'` the search finishes `roots`, and otherwise only what they depend on. -/
structure Finishes (deps : ν → List ν) (roots : List ν) (w w' : Search ν) : Prop where
  sound : Sound deps w'
  visiting : w'.visiting = w.visiting
  keeps : ∀ u ∈ w.visited, u ∈ w'.visited
  finished : ∀ v ∈ roots, v ∈ w'.visited
  inside : ∀ P : ν → Prop, (∀ v, P v → ∀ u ∈ deps v, P u) → (∀ v ∈ roots, P v) →
    ∀ u ∈ w'.visited, u ∈ w.visited ∨ P u

omit [DecidableEq ν] in
theorem Finishes.refl (hw : Sound deps w) (hv : ∀ v ∈ roots, v ∈ w.visited) :
    Finishes deps roots w w where
  sound := hw
  visiting := rfl
  keeps _ hu := hu
  finished := hv
  inside _ _ _ _ hu := .inl hu

omit [DecidableEq ν] in
theorem Finishes.trans {w₁ : Search ν} (h : Finishes deps [v] w w₁)
    (h' : Finishes deps roots w₁ w') : Finishes deps (v :: roots) w w' where
  sound := h'.sound
  visiting := h'.visiting.trans h.visiting
  keeps u hu := h'.keeps u (h.keeps u hu)
  finished u hu := by
    rcases List.mem_cons.mp hu with rfl | hu
    · exact h'.keeps u (h.finished u List.mem_cons_self)
    · exact h'.finished u hu
  inside P hP hroots u hu := by
    obtain ⟨hv, hrest⟩ := List.forall_mem_cons.mp hroots
    rcases h'.inside P hP hrest u hu with hu | hu
    · exact h.inside P hP (by simpa using hv) u hu
    · exact .inr hu

private theorem visitAll_finishes
    (hvisit : ∀ v w w', Sound deps w → visit deps fuel v w = .ok w' → Finishes deps [v] w w') :
    ∀ (roots : List ν) (w w' : Search ν), Sound deps w →
      visitAll deps fuel roots w = .ok w' → Finishes deps roots w w' := by
  intro roots
  induction roots with
  | nil =>
    intro w w' hw h
    obtain rfl : w = w' := Except.ok.inj h
    exact .refl hw (by simp)
  | cons u roots ih =>
    intro w w' hw h
    rw [visitAll_cons] at h
    cases hu : visit deps fuel u w with
    | error f => simp [hu, bind, Except.bind] at h
    | ok w₁ =>
      have hfirst := hvisit u w w₁ hw hu
      rw [hu] at h
      exact hfirst.trans (ih w₁ w' hfirst.sound h)

/-- A successful visit finishes its node. While its dependencies are visited the node itself is only
being visited, so they are listed before it. -/
theorem visit_ok (fuel : ℕ) :
    ∀ (v : ν) (w w' : Search ν), Sound deps w → visit deps fuel v w = .ok w' →
      Finishes deps [v] w w' := by
  induction fuel with
  | zero => intro v w w' _ h; cases h
  | succ fuel ih =>
    intro v w w' hw h
    rcases visit_ok_cases h with ⟨hv, rfl⟩ | ⟨hvisited, hvisiting, w₁, hall, rfl⟩
    · exact .refl hw (by simpa using hv)
    -- Inside of `v`, nothing finishes `v` itself.
    · have hinside : Sound deps { w with visiting := insert v w.visiting } := by
        refine ⟨hw.listed, hw.nodup, hw.sorted, fun u hu => ?_⟩
        rcases Finset.mem_insert.mp hu with rfl | hu
        · exact hvisited
        · exact hw.apart u hu
      have hdeps := visitAll_finishes ih (deps v) _ w₁ hinside hall
      have hnew : v ∉ w₁.visited :=
        hdeps.sound.apart v (by rw [hdeps.visiting]; exact Finset.mem_insert_self v _)
      have hnew' : v ∉ w₁.order := fun hin => hnew ((hdeps.sound.listed v).mpr hin)
      have hrestored : w₁.visiting.erase v = w.visiting := by
        rw [hdeps.visiting]
        exact Finset.erase_insert hvisiting
      -- The node is put behind its dependencies, and taken off the nodes being visited.
      refine ⟨⟨?_, ?_, ?_, ?_⟩, hrestored, ?_, ?_, ?_⟩
      · intro u
        simp only [Finset.mem_insert, List.mem_append, List.mem_singleton, hdeps.sound.listed]
        exact or_comm
      · show (w₁.order ++ [v]).Nodup
        rw [← List.concat_eq_append]
        exact hdeps.sound.nodup.concat hnew'
      · exact hdeps.sound.sorted.snoc fun u hu => (hdeps.sound.listed u).mp (hdeps.finished u hu)
      · intro u hu hin
        obtain ⟨hne, hu⟩ := Finset.mem_erase.mp hu
        rcases Finset.mem_insert.mp hin with rfl | hin
        · exact hne rfl
        · exact hdeps.sound.apart u hu hin
      · intro u hu
        exact Finset.mem_insert_of_mem (hdeps.keeps u hu)
      · intro u hu
        rw [List.mem_singleton.mp hu]
        exact Finset.mem_insert_self v _
      · intro P hP hroots u hu
        have hv : P v := hroots v List.mem_cons_self
        rcases Finset.mem_insert.mp hu with rfl | hu
        · exact .inr hv
        · exact hdeps.inside P hP (hP v hv) u hu

theorem visitAll_ok (roots : List ν) (hw : Sound deps w)
    (h : visitAll deps fuel roots w = .ok w') : Finishes deps roots w w' :=
  visitAll_finishes (visit_ok fuel) roots w w' hw h

/-! ## Why a search fails -/

/-- The first visit that fails, after the ones before it. -/
private theorem visitAll_error {f : Fault ν} :
    ∀ (roots : List ν) (w : Search ν), Sound deps w → visitAll deps fuel roots w = .error f →
      ∃ u ∈ roots, ∃ w₁, Sound deps w₁ ∧ w₁.visiting = w.visiting ∧
        visit deps fuel u w₁ = .error f := by
  intro roots
  induction roots with
  | nil => intro w _ h; cases h
  | cons u roots ih =>
    intro w hw h
    rw [visitAll_cons] at h
    cases hu : visit deps fuel u w with
    | error f' =>
      rw [hu] at h
      obtain rfl : f' = f := Except.error.inj h
      exact ⟨u, List.mem_cons_self, w, hw, rfl, hu⟩
    | ok w₁ =>
      have hfirst := visit_ok fuel u w w₁ hw hu
      rw [hu] at h
      obtain ⟨u', hu', w₂, hw₂, hvisiting, hfail⟩ := ih w₁ hfirst.sound h
      exact ⟨u', List.mem_cons_of_mem _ hu', w₂, hw₂, hvisiting.trans hfirst.visiting, hfail⟩

/-- A failed visit is at its own node, or inside of it at one of its dependencies. -/
private theorem visit_error_cases {f : Fault ν} (hw : Sound deps w)
    (h : visit deps (fuel + 1) v w = .error f) :
    (v ∈ w.visiting ∧ f = .cycle v) ∨
    (v ∉ w.visiting ∧ ∃ u ∈ deps v, ∃ w₁, Sound deps w₁ ∧
      w₁.visiting = insert v w.visiting ∧ visit deps fuel u w₁ = .error f) := by
  by_cases hvisited : v ∈ w.visited
  · rw [visit, if_pos hvisited] at h
    cases h
  · by_cases hvisiting : v ∈ w.visiting
    · rw [visit, if_neg hvisited, if_pos hvisiting] at h
      exact .inl ⟨hvisiting, (Except.error.inj h).symm⟩
    -- Only the state in which the dependencies are visited is new: the node is marked as visiting.
    · have hinside : Sound deps { w with visiting := insert v w.visiting } := by
        refine ⟨hw.listed, hw.nodup, hw.sorted, fun u hu => ?_⟩
        rcases Finset.mem_insert.mp hu with rfl | hu
        · exact hvisited
        · exact hw.apart u hu
      rw [visit_succ hvisited hvisiting] at h
      cases hall : visitAll deps fuel (deps v) { w with visiting := insert v w.visiting } with
      | ok w₁ =>
        rw [hall] at h
        cases h
      | error f' =>
        rw [hall] at h
        obtain rfl : f' = f := Except.error.inj h
        exact .inr ⟨hvisiting, visitAll_error (deps v) _ hinside hall⟩

/-- A node that is reported as a cycle depends on itself, if what is being visited leads to the
node that is visited next; and that node leads to it. -/
theorem visit_cycle (fuel : ℕ) :
    ∀ (v : ν) (w : Search ν) (u : ν), Sound deps w →
      (∀ t ∈ w.visiting, Relation.TransGen (Edge deps) t v) →
      visit deps fuel v w = .error (.cycle u) →
      Relation.TransGen (Edge deps) u u ∧ Relation.ReflTransGen (Edge deps) v u := by
  induction fuel with
  | zero => intro v w u _ _ h; cases h
  | succ fuel ih =>
    intro v w u hw hpath h
    rcases visit_error_cases hw h with ⟨hvisiting, hcycle⟩ | ⟨_, x, hx, w₁, hw₁, hvisiting, hfail⟩
    · obtain rfl : u = v := by simpa using hcycle
      exact ⟨hpath u hvisiting, .refl⟩
    · have hbelow : ∀ t ∈ w₁.visiting, Relation.TransGen (Edge deps) t x := by
        intro t ht
        rw [hvisiting] at ht
        rcases Finset.mem_insert.mp ht with rfl | ht
        · exact .single hx
        · exact (hpath t ht).tail hx
      obtain ⟨hcycle, hreach⟩ := ih x w₁ u hw₁ hbelow hfail
      exact ⟨hcycle, hreach.head hx⟩

/-- Among finitely many nodes the nesting is bounded: each level is inside of one more. -/
theorem visit_ne_fuel {U : Finset ν} (hU : ∀ v ∈ U, ∀ u ∈ deps v, u ∈ U) (fuel : ℕ) :
    ∀ (v : ν) (w : Search ν), Sound deps w → v ∈ U → w.visiting ⊆ U →
      U.card < fuel + w.visiting.card → visit deps fuel v w ≠ .error .fuel := by
  induction fuel with
  | zero =>
    intro v w _ _ hsub hcard
    have hle := Finset.card_le_card hsub
    omega
  | succ fuel ih =>
    intro v w hw hv hsub hcard h
    rcases visit_error_cases hw h with ⟨_, hcycle⟩ | ⟨hnew, x, hx, w₁, hw₁, hvisiting, hfail⟩
    · cases hcycle
    · refine ih x w₁ hw₁ (hU v hv x hx) ?_ ?_ hfail
      · rw [hvisiting]
        exact Finset.insert_subset hv hsub
      · rw [hvisiting, Finset.card_insert_of_notMem hnew]
        omega

/-! ## Searches of a whole graph -/

/-- A search of a finite graph does not run out of fuel. -/
theorem visitAll_ne_fuel {U : Finset ν} (hU : ∀ v ∈ U, ∀ u ∈ deps v, u ∈ U)
    (hroots : ∀ v, v ∈ roots ↔ v ∈ U) (hfuel : U.card < fuel) :
    visitAll deps fuel roots {} ≠ .error .fuel := by
  intro h
  obtain ⟨u, hu, w, hw, hvisiting, hfail⟩ := visitAll_error roots _ Sound.start h
  have hempty : w.visiting = ∅ := hvisiting
  refine visit_ne_fuel hU fuel u w hw ((hroots u).mp hu) ?_ ?_ hfail
  · simp [hempty]
  · simpa [hempty] using hfuel

/-- A search of a finite graph succeeds exactly when no node lies on a cycle. With more fuel than
nodes a failure is a cycle that was met, and the node on it is one of the graph. -/
theorem visitAll_ok_iff {U : Finset ν} (hU : ∀ v ∈ U, ∀ u ∈ deps v, u ∈ U)
    (hroots : ∀ v, v ∈ roots ↔ v ∈ U) (hfuel : U.card < fuel) :
    (∃ w, visitAll deps fuel roots {} = .ok w) ↔
      ∀ v ∈ U, ¬ Relation.TransGen (Edge deps) v v := by
  constructor
  · rintro ⟨w, hw⟩ v hv
    have hfin := visitAll_ok roots Sound.start hw
    have hin := (hfin.sound.listed v).mp (hfin.finished v ((hroots v).mpr hv))
    exact hfin.sound.sorted.not_cycle hfin.sound.nodup hin
  · intro hacyclic
    cases h : visitAll deps fuel roots {} with
    | ok w => exact ⟨w, rfl⟩
    | error f =>
      cases f with
      | fuel => exact absurd h (visitAll_ne_fuel hU hroots hfuel)
      | cycle x =>
        obtain ⟨u, hu, w₁, hw₁, hvisiting, hfail⟩ := visitAll_error roots _ Sound.start h
        have hempty : w₁.visiting = ∅ := hvisiting
        have huU : u ∈ U := (hroots u).mp hu
        obtain ⟨hcycle, hreach⟩ := visit_cycle fuel u w₁ x hw₁ (by simp [hempty]) hfail
        -- The cycle is reached from a root, and the graph is closed under its edges.
        have hclosed : ∀ y, Relation.ReflTransGen (Edge deps) u y → y ∈ U := by
          intro y hy
          induction hy with
          | refl => exact huU
          | tail _ hedge ih => exact hU _ ih _ hedge
        exact absurd hcycle (hacyclic x (hclosed x hreach))

/-- The order of a successful search lists every node of the graph once, after its
dependencies. -/
theorem visitAll_order {U : Finset ν} (hU : ∀ v ∈ U, ∀ u ∈ deps v, u ∈ U)
    (hroots : ∀ v, v ∈ roots ↔ v ∈ U) (h : visitAll deps fuel roots {} = .ok w) :
    w.order.Nodup ∧ (∀ v, v ∈ w.order ↔ v ∈ U) ∧ Sorted deps w.order := by
  have hfin := visitAll_ok roots Sound.start h
  refine ⟨hfin.sound.nodup, fun v => ?_, hfin.sound.sorted⟩
  rw [← hfin.sound.listed]
  constructor
  · intro hv
    exact (hfin.inside (· ∈ U) hU (fun v hv => (hroots v).mp hv) v hv).resolve_left (by simp)
  · exact fun hv => hfin.finished v ((hroots v).mpr hv)

end KrabkaRegistry.Library.TopologicalOrder
