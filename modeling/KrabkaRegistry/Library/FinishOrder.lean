import KrabkaRegistry.Library.DepthFirst
import Mathlib.Data.List.Basic
import Mathlib.Data.Set.Insert

/-!
# The Finishing Order of a Depth-First Walk

A walk emits the edges it follows in the order in which it finishes their targets.  `Finished`
says which edges these are and in which order; whatever the walk emits is a fold over them.
Below an acyclic list the order puts every target after the targets of its own edges.
-/

namespace KrabkaRegistry.Library.DepthFirst

variable {ε ν σ : Type*}

/-! ## Ordered lists of edges -/

/-- The edges of every target lead to what was seen before it. -/
def Ordered (G : Graph ε ν) : Set ν → List ε → Prop
  | _, [] => True
  | seen, e :: l =>
    (∀ es e', G.next (G.target e) = some es → e' ∈ es → G.target e' ∈ seen) ∧
      Ordered G (insert (G.target e) seen) l

variable {G : Graph ε ν} {seen seen' : Set ν}

theorem Ordered.mono {l : List ε} (h : Ordered G seen l) (hsub : seen ⊆ seen') :
    Ordered G seen' l := by
  induction l generalizing seen seen' with
  | nil => trivial
  | cons e l ih =>
    obtain ⟨hfirst, hrest⟩ := h
    exact ⟨fun es e' hn he => hsub (hfirst es e' hn he), ih hrest (Set.insert_subset_insert hsub)⟩

theorem Ordered.append {l l' : List ε} (h : Ordered G seen l)
    (h' : Ordered G (seen ∪ {v | v ∈ l.map G.target}) l') : Ordered G seen (l ++ l') := by
  induction l generalizing seen with
  | nil => exact h'.mono (by simp)
  | cons e l ih =>
    obtain ⟨hfirst, hrest⟩ := h
    refine ⟨hfirst, ih hrest (h'.mono ?_)⟩
    intro v hv
    simp only [List.map_cons, List.mem_cons, Set.mem_union, Set.mem_ofPred_eq,
      Set.mem_insert_iff] at hv ⊢
    tauto

/-- What no edge of the list leads to need not be seen. -/
theorem Ordered.remove {l : List ε} {v : ν} (h : Ordered G (insert v seen) l)
    (hv : ∀ e ∈ l, ∀ es e', G.next (G.target e) = some es → e' ∈ es → G.target e' ≠ v) :
    Ordered G seen l := by
  induction l generalizing seen with
  | nil => trivial
  | cons e l ih =>
    obtain ⟨hfirst, hrest⟩ := h
    constructor
    · intro es e' hn he
      exact (hfirst es e' hn he).resolve_left (hv e List.mem_cons_self es e' hn he)
    · rw [Set.insert_comm] at hrest
      exact ih hrest fun e' he' => hv e' (List.mem_cons_of_mem _ he')

/-- In an ordered list the targets of an edge's target come before it. -/
theorem Ordered.before {l : List ε} (h : Ordered G seen l) {l₁ l₂ : List ε} {e : ε}
    (hl : l = l₁ ++ e :: l₂) {es : List ε} {e' : ε} (hn : G.next (G.target e) = some es)
    (he : e' ∈ es) : G.target e' ∈ seen ∨ ∃ x ∈ l₁, G.target x = G.target e' := by
  induction l₁ generalizing l seen with
  | nil =>
    subst hl
    exact .inl (h.1 es e' hn he)
  | cons a l₁ ih =>
    subst hl
    rcases ih h.2 rfl with (hseen | hseen) | ⟨x, hx, hxe⟩
    · exact .inr ⟨a, List.mem_cons_self, hseen.symm⟩
    · exact .inl hseen
    · exact .inr ⟨x, List.mem_cons_of_mem _ hx, hxe⟩

/-! ## Walks below an acyclic list -/

/-- No target that is met leads back to itself. -/
def Acyclic (G : Graph ε ν) (es : List ε) : Prop :=
  ∀ e, Met G es e → ∀ es', G.next (G.target e) = some es' → ¬ Reach G es' (G.target e)

theorem Met.mono {es es' : List ε} {e : ε} (h : Met G es e) (hsub : ∀ x ∈ es, x ∈ es') :
    Met G es' e := by
  rcases h with he | ⟨v, es'', hv, hn, he⟩
  · exact .inl (hsub e he)
  · exact .inr ⟨v, es'', hv.mono hsub, hn, he⟩

/-- What is met below a target that is met is met. -/
theorem Met.below {es es' : List ε} {e x : ε} (h : Met G es e)
    (hn : G.next (G.target e) = some es') (hx : Met G es' x) : Met G es x := by
  rcases hx with hx | ⟨v, es'', hv, hn', hx⟩
  · exact h.next hn hx
  · exact .inr ⟨v, es'', Reach.trans h.reach hn hv, hn', hx⟩

variable [DecidableEq ν]

/-- From `w` to `w'` the walk over `es` finishes the edges `l`, in this order. -/
structure Finished (G : Graph ε ν) (emit : ε → σ → σ) (es : List ε) (w w' : Progress ν σ)
    (l : List ε) : Prop where
  out : w'.out = l.foldl (fun σ e => emit e σ) w.out
  visited : ∀ v, v ∈ w'.visited ↔ v ∈ w.visited ∨ v ∈ l.map G.target
  fresh : ∀ e ∈ l, G.target e ∉ w.visited
  nodup : (l.map G.target).Nodup
  met : ∀ e ∈ l, Met G es e
  targets : ∀ e ∈ es, G.target e ∈ w'.visited
  ordered : Acyclic G es → Ordered G {v | v ∈ w.visited} l

variable {emit : ε → σ → σ}

omit [DecidableEq ν] in
/-- Nothing is finished at an edge whose target was visited before. -/
private theorem Finished.skip {e : ε} {es l : List ε} {w w' : Progress ν σ}
    (hv : G.target e ∈ w.visited) (h : Finished G emit es w w' l) :
    Finished G emit (e :: es) w w' l where
  out := h.out
  visited := h.visited
  fresh := h.fresh
  nodup := h.nodup
  met x hx := (h.met x hx).mono fun _ he => List.mem_cons_of_mem _ he
  targets x hx := by
    rcases List.mem_cons.mp hx with rfl | hx
    · exact (h.visited _).mpr (.inl hv)
    · exact h.targets x hx
  ordered hacyclic := h.ordered fun x hx =>
    hacyclic x (hx.mono fun _ he => List.mem_cons_of_mem _ he)

/-- What lies below a new target is finished first, then its edge, then the rest. The order is the
one clause where cycles matter: were an edge below `e` to lead back to its target, that target would
be finished after what depends on it. -/
private theorem Finished.cons {e : ε} {es es' l₁ l₂ : List ε} {w w₁ w' : Progress ν σ}
    (hv : G.target e ∉ w.visited) (hn : G.next (G.target e) = some es')
    (hbelow : Finished G emit es' ⟨insert (G.target e) w.visited, w.out⟩ w₁ l₁)
    (hrest : Finished G emit es ⟨w₁.visited, emit e w₁.out⟩ w' l₂) :
    Finished G emit (e :: es) w w' (l₁ ++ e :: l₂) := by
  have he : Met G (e :: es) e := .inl List.mem_cons_self
  have hvisited : ∀ v, v ∈ w₁.visited ↔ (v = G.target e ∨ v ∈ w.visited) ∨ v ∈ l₁.map G.target := by
    intro v
    rw [hbelow.visited v, Finset.mem_insert]
  have hlater : ∀ x ∈ l₂, G.target x ≠ G.target e ∧ G.target x ∉ w.visited ∧
      G.target x ∉ l₁.map G.target := by
    intro x hx
    have hfresh := hrest.fresh x hx
    simp only [hvisited, not_or] at hfresh
    exact ⟨hfresh.1.1, hfresh.1.2, hfresh.2⟩
  have hbefore : ∀ x ∈ l₁, G.target x ≠ G.target e ∧ G.target x ∉ w.visited := by
    intro x hx
    have hfresh := hbelow.fresh x hx
    simp only [Finset.mem_insert, not_or] at hfresh
    exact hfresh
  refine ⟨?_, ?_, ?_, ?_, ?_, ?_, ?_⟩
  · rw [hrest.out, hbelow.out, List.foldl_append, List.foldl_cons]
  · intro v
    rw [hrest.visited v]
    simp only [hvisited, List.map_append, List.map_cons, List.mem_append, List.mem_cons]
    tauto
  · intro x hx
    rcases List.mem_append.mp hx with hx | hx
    · exact (hbefore x hx).2
    · rcases List.mem_cons.mp hx with rfl | hx
      · exact hv
      · exact (hlater x hx).2.1
  · rw [List.map_append, List.map_cons]
    refine List.nodup_append'.mpr ⟨hbelow.nodup, List.nodup_cons.mpr ⟨?_, hrest.nodup⟩, ?_⟩
    · intro hmem
      obtain ⟨x, hx, heq⟩ := List.mem_map.mp hmem
      exact (hlater x hx).1 heq
    · intro v hv₁ hv₂
      obtain ⟨x, hx, rfl⟩ := List.mem_map.mp hv₁
      rcases List.mem_cons.mp hv₂ with heq | hv₂
      · exact (hbefore x hx).1 heq
      · obtain ⟨y, hy, heq⟩ := List.mem_map.mp hv₂
        exact (hlater y hy).2.2 (heq ▸ hv₁)
  · intro x hx
    rcases List.mem_append.mp hx with hx | hx
    · exact he.below hn (hbelow.met x hx)
    · rcases List.mem_cons.mp hx with rfl | hx
      · exact he
      · exact (hrest.met x hx).mono fun _ h => List.mem_cons_of_mem _ h
  · intro x hx
    rcases List.mem_cons.mp hx with rfl | hx
    · exact (hrest.visited _).mpr (.inl ((hvisited _).mpr (.inl (.inl rfl))))
    · exact hrest.targets x hx
  · intro hacyclic
    -- An edge below `e` that led to its target would close a cycle.
    have hback : ∀ x, Reach G es' (G.target x) → G.target x ≠ G.target e := by
      intro x hx heq
      exact hacyclic e he es' hn (heq ▸ hx)
    have hfirst : Ordered G {v | v ∈ w.visited} l₁ := by
      have hord := hbelow.ordered fun x hx => hacyclic x (he.below hn hx)
      refine Ordered.remove (v := G.target e) (hord.mono fun v hv => ?_) ?_
      · simpa using hv
      · intro x hx es'' y hn' hy
        exact hback y ((hbelow.met x hx).next hn' hy).reach
    refine hfirst.append ⟨?_, ?_⟩
    · intro es'' y hn' hy
      obtain rfl : es' = es'' := by rw [hn] at hn'; exact Option.some.inj hn'
      have hmem := hbelow.targets y hy
      rcases (hvisited _).mp hmem with (heq | hw) | hl
      · exact absurd heq (hback y (.direct hy))
      · exact .inl hw
      · exact .inr hl
    · refine (hrest.ordered fun x hx => hacyclic x
        (hx.mono fun _ h => List.mem_cons_of_mem _ h)).mono ?_
      intro v hv
      simp only [Set.mem_ofPred_eq, hvisited] at hv
      simp only [Set.mem_insert_iff, Set.mem_union, Set.mem_ofPred_eq]
      tauto

private theorem finished_foldlM
    {below : List ε → Progress ν σ → Except (Fault ε) (Progress ν σ)}
    (hbelow : ∀ es w w', below es w = .ok w' → ∃ l, Finished G emit es w w' l) :
    ∀ (es : List ε) (w w' : Progress ν σ),
      es.foldlM (follow G emit below) w = .ok w' → ∃ l, Finished G emit es w w' l := by
  intro es
  induction es with
  | nil =>
    intro w w' h
    obtain rfl : w = w' := by simpa [pure, Except.pure] using h
    exact ⟨[], rfl, by simp, by simp, by simp, by simp, by simp, fun _ => trivial⟩
  | cons e es ih =>
    intro w w' h
    rw [List.foldlM_cons] at h
    cases hf : follow G emit below w e with
    | error f => simp [hf, bind, Except.bind] at h
    | ok w₁ =>
      obtain ⟨l, hrest⟩ := ih w₁ w' (by simpa [hf, bind, Except.bind] using h)
      rcases follow_ok hf with ⟨hv, rfl⟩ | ⟨hv, es', w₂, hn, hw₂, rfl⟩
      · exact ⟨l, hrest.skip hv⟩
      · obtain ⟨l₁, hb⟩ := hbelow _ _ _ hw₂
        exact ⟨l₁ ++ e :: l, Finished.cons hv hn hb hrest⟩

/-- A successful walk finishes a list of edges, and emits along it. -/
theorem walk_finished (fuel : ℕ) :
    ∀ (es : List ε) (w w' : Progress ν σ),
      walk G emit fuel es w = .ok w' → ∃ l, Finished G emit es w w' l := by
  induction fuel with
  | zero => intro es w w' h; simp [walk] at h
  | succ n ih => exact finished_foldlM ih

end KrabkaRegistry.Library.DepthFirst
