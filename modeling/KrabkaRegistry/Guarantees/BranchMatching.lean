import KrabkaRegistry.Format.JsonBranches

/-!
# Branch Matching Is Maximum

`maximum_matching` looks for an augmenting path from each branch of the original in turn and
never goes back to a branch for which it found none.

- `branch_matching_maximum`: whichever branches are compatible, the count is the size of a
  greatest matching, and every search for an augmenting path ends, with one outcome.
-/

namespace KrabkaRegistry.Guarantees

open KrabkaRegistry.Format.Json
open KrabkaRegistry.Library.Matching (IsMatching Returns State augment augment_returns
  maximumMatching_isGreatest)

/-- A matching of two lists of branches: pairs of positions with an edge between them, no two of
which share a branch. -/
structure BranchMatching (compatible : Value → Value → Bool) (old new : List Value)
    (M : Finset (ℕ × ℕ)) : Prop where
  edge : ∀ p ∈ M, ∃ a b, old[p.1]? = some a ∧ new[p.2]? = some b ∧ compatible a b = true
  left : Set.InjOn Prod.fst (M : Set (ℕ × ℕ))
  right : Set.InjOn Prod.snd (M : Set (ℕ × ℕ))

section Matching

variable (compatible : Value → Value → Bool) (old new : List Value)

/-- The candidates of each branch of the original, as `maximum_matching` lists them. -/
def candidates (index : ℕ) : List ℕ :=
  let edges := (old.mapM fun branch => edgesOf (fun a b => some (compatible a b)) branch new).getD []
  (edges[index]?).getD []

private theorem candidates_eq :
    ∃ edges, old.mapM (fun branch => edgesOf (fun a b => some (compatible a b)) branch new) =
        some edges ∧
      candidates compatible old new = fun index => (edges[index]?).getD [] := by
  have hsome : ∀ a ∈ old, ∀ b ∈ new, (some (compatible a b)).isSome := fun _ _ _ _ => rfl
  obtain ⟨edges, hedges⟩ := exists_edges hsome
  refine ⟨edges, hedges, ?_⟩
  funext index
  rw [candidates, hedges]
  rfl

theorem candidates_lt (index : ℕ) : ∀ j ∈ candidates compatible old new index, j < new.length := by
  obtain ⟨edges, hedges, heq⟩ := candidates_eq compatible old new
  rw [heq]
  exact edges_lt hedges index

theorem mem_candidates (i j : ℕ) :
    j ∈ candidates compatible old new i ↔
      ∃ a b, old[i]? = some a ∧ new[j]? = some b ∧ compatible a b = true := by
  obtain ⟨edges, hedges, heq⟩ := candidates_eq compatible old new
  rw [heq]
  simpa using mem_edges hedges i j

/-- Matchings of the branches are matchings of their positions with the candidates. -/
theorem branchMatching_iff (M : Finset (ℕ × ℕ)) :
    BranchMatching compatible old new M ↔
      IsMatching (candidates compatible old new) old.length M := by
  constructor
  · intro h
    refine ⟨fun p hp => ?_, fun p hp => ?_, h.left, h.right⟩
    · obtain ⟨a, b, ha, -, -⟩ := h.edge p hp
      exact (List.getElem?_eq_some_iff.mp ha).1
    · exact (mem_candidates compatible old new p.1 p.2).mpr (h.edge p hp)
  · intro h
    exact ⟨fun p hp => (mem_candidates compatible old new p.1 p.2).mp (h.edge p hp), h.left,
      h.right⟩

/-- The fuel a search starts with is enough: every branch of the update is left to be seen. -/
theorem augment_ends (index : ℕ) (s : State) (fuel : ℕ)
    (hfuel : (Finset.range new.length \ s.seen).card < fuel) :
    Returns (candidates compatible old new) index (candidates compatible old new index) s
      (augment (candidates compatible old new) fuel index s) :=
  augment_returns (fun i j hj => Finset.mem_range.mpr (candidates_lt compatible old new i j hj))
    fuel index s hfuel

/-- Whichever branches are compatible, the count is the size of a greatest matching.  Every
search for an augmenting path ends with one outcome, from any marks and any matching; with
nothing marked it is the outcome that is counted. -/
theorem branch_matching_maximum :
    (∃ n, maximumMatching (fun a b => some (compatible a b)) old new = some n ∧
      IsGreatest {k | ∃ M, BranchMatching compatible old new M ∧ M.card = k} n) ∧
    (∀ index s, ∃! outcome, Returns (candidates compatible old new) index
      (candidates compatible old new index) s outcome) ∧
    ∀ index matched, Returns (candidates compatible old new) index
      (candidates compatible old new index) ⟨∅, matched⟩
      (augment (candidates compatible old new) (new.length + 1) index ⟨∅, matched⟩) := by
  refine ⟨?_, fun index s => ?_, fun index matched => ?_⟩
  · obtain ⟨edges, hedges, heq⟩ := candidates_eq compatible old new
    refine ⟨_, maximumMatching_eq hedges, ?_⟩
    rw [← heq]
    simp only [branchMatching_iff]
    exact maximumMatching_isGreatest (candidates_lt compatible old new)
  · have hends := augment_ends compatible old new index s _ (Nat.lt_succ_self _)
    exact ⟨_, hends, fun outcome h => h.unique hends⟩
  · exact augment_ends compatible old new index ⟨∅, matched⟩ _ (by simp)

end Matching

end KrabkaRegistry.Guarantees
