import Mathlib.Data.Finset.Card
import Mathlib.Data.Finset.SDiff
import Mathlib.Data.Finset.Insert
import Mathlib.Data.Finset.Range
import Mathlib.Logic.Function.Basic
import Mathlib.Order.Bounds.Basic
import Mathlib.Tactic.Cases

/-!
# Bipartite Matching by Augmenting Paths

The left side is a list of indices, each with the candidates on the right side it may be matched
with.  `augment` looks for a candidate for one index, moving the indices already matched to other
candidates where needed; `maximumMatching` counts for how many indices it finds one.

The recursion is over a fuel argument that bounds the number of moves.  `Returns` is the same
search without fuel: `augment_returns` says that one more than the unseen candidates is enough to
end it, and every other fact about a search is an induction on its derivation.

- `maximumMatching_isGreatest`: the count is the size of a greatest matching;
- `maximumMatching_full`: if the indices can be matched with different candidates, they all are.
-/

namespace KrabkaRegistry.Library.Matching

/-- The candidates that were tried, and the index each candidate is matched with. -/
structure State where
  seen : Finset ℕ
  matched : ℕ → Option ℕ

/-- The loop over the candidates of one index; `below` is the recursive call. -/
def tryCandidates (below : ℕ → State → Bool × State) (index : ℕ) :
    List ℕ → State → Bool × State
  | [], s => (false, s)
  | candidate :: rest, s =>
    if candidate ∈ s.seen then tryCandidates below index rest s
    else
      let s : State := ⟨insert candidate s.seen, s.matched⟩
      match s.matched candidate with
      | none => (true, ⟨s.seen, Function.update s.matched candidate (some index)⟩)
      | some other =>
        match below other s with
        | (true, s) => (true, ⟨s.seen, Function.update s.matched candidate (some index)⟩)
        | (false, s) => tryCandidates below index rest s

/-- Find a candidate for `index`, with at most `fuel` moves. -/
def augment (edges : ℕ → List ℕ) : ℕ → ℕ → State → Bool × State
  | 0, _, s => (false, s)
  | fuel + 1, index, s => tryCandidates (augment edges fuel) index (edges index) s

/-- One index more: whether it found a candidate, and the matching after it. -/
def matchNext (edges : ℕ → List ℕ) (size : ℕ) (progress : ℕ × (ℕ → Option ℕ)) (index : ℕ) :
    ℕ × (ℕ → Option ℕ) :=
  match augment edges (size + 1) index ⟨∅, progress.2⟩ with
  | (true, s) => (progress.1 + 1, s.matched)
  | (false, s) => (progress.1, s.matched)

/-- The number of indices below `count` that are matched, with `size` candidates. -/
def maximumMatching (edges : ℕ → List ℕ) (count size : ℕ) : ℕ :=
  ((List.range count).foldl (matchNext edges size) (0, fun _ => none)).1

variable {edges : ℕ → List ℕ}

/-! ## Searches without fuel -/

/-- `Returns edges index candidates s outcome`: the search for `index` among `candidates`, started
in `s`, ends with `outcome`. -/
inductive Returns (edges : ℕ → List ℕ) : ℕ → List ℕ → State → Bool × State → Prop
  | exhausted (index : ℕ) (s : State) : Returns edges index [] s (false, s)
  /-- A candidate that was tried is left out. -/
  | skip {index c : ℕ} {rest : List ℕ} {s : State} {outcome : Bool × State}
      (hseen : c ∈ s.seen) (hrest : Returns edges index rest s outcome) :
      Returns edges index (c :: rest) s outcome
  /-- A free candidate is taken. -/
  | take {index c : ℕ} {rest : List ℕ} {s : State} (hseen : c ∉ s.seen)
      (hfree : s.matched c = none) :
      Returns edges index (c :: rest) s
        (true, ⟨insert c s.seen, Function.update s.matched c (some index)⟩)
  /-- A candidate is taken from an index that found another one. -/
  | move {index other c : ℕ} {rest : List ℕ} {s s' : State} (hseen : c ∉ s.seen)
      (hother : s.matched c = some other)
      (hbelow : Returns edges other (edges other) ⟨insert c s.seen, s.matched⟩ (true, s')) :
      Returns edges index (c :: rest) s
        (true, ⟨s'.seen, Function.update s'.matched c (some index)⟩)
  /-- The index that holds a candidate found no other one. -/
  | stay {index other c : ℕ} {rest : List ℕ} {s s' : State} {outcome : Bool × State}
      (hseen : c ∉ s.seen) (hother : s.matched c = some other)
      (hbelow : Returns edges other (edges other) ⟨insert c s.seen, s.matched⟩ (false, s'))
      (hrest : Returns edges index rest s' outcome) :
      Returns edges index (c :: rest) s outcome

/-- A search has one outcome. -/
theorem Returns.unique {index : ℕ} {candidates : List ℕ} {s : State} {a b : Bool × State}
    (ha : Returns edges index candidates s a) (hb : Returns edges index candidates s b) :
    a = b := by
  -- Each rule excludes the others by what it finds at the next candidate, so two derivations take
  -- the same one.
  induction ha generalizing b with
  | exhausted index s => cases hb; rfl
  | skip hseen _ ih =>
    cases hb with
    | skip _ hrest => exact ih hrest
    | take hnot _ => exact absurd hseen hnot
    | move hnot _ _ => exact absurd hseen hnot
    | stay hnot _ _ _ => exact absurd hseen hnot
  | take hnot hfree =>
    cases hb with
    | skip hseen _ => exact absurd hseen hnot
    | take _ _ => rfl
    | move _ hother _ => simp [hfree] at hother
    | stay _ hother _ _ => simp [hfree] at hother
  | move hnot hother _ ih =>
    cases hb with
    | skip hseen _ => exact absurd hseen hnot
    | take _ hfree => simp [hother] at hfree
    | move _ hother' hbelow =>
      obtain rfl : _ = _ := Option.some.inj (hother.symm.trans hother')
      have hsame := ih hbelow
      simp only [Prod.mk.injEq, true_and] at hsame
      rw [hsame]
    | stay _ hother' hbelow _ =>
      obtain rfl : _ = _ := Option.some.inj (hother.symm.trans hother')
      have hsame := ih hbelow
      simp at hsame
  | stay hnot hother _ _ ihbelow ihrest =>
    cases hb with
    | skip hseen _ => exact absurd hseen hnot
    | take _ hfree => simp [hother] at hfree
    | move _ hother' hbelow =>
      obtain rfl : _ = _ := Option.some.inj (hother.symm.trans hother')
      have hsame := ihbelow hbelow
      simp at hsame
    | stay _ hother' hbelow hrest =>
      obtain rfl : _ = _ := Option.some.inj (hother.symm.trans hother')
      have hsame := ihbelow hbelow
      simp only [Prod.mk.injEq, true_and] at hsame
      subst hsame
      exact ihrest hrest

/-- What was seen stays seen. -/
theorem Returns.grows {index : ℕ} {candidates : List ℕ} {s : State} {outcome : Bool × State}
    (h : Returns edges index candidates s outcome) : s.seen ⊆ outcome.2.seen := by
  induction h with
  | exhausted index s => exact Finset.Subset.refl _
  | skip _ _ ih => exact ih
  | take _ _ => exact Finset.subset_insert _ _
  | move _ _ _ ih => exact (Finset.subset_insert _ _).trans ih
  | stay _ _ _ _ ihbelow ihrest => exact (Finset.subset_insert _ _).trans (ihbelow.trans ihrest)

/-- A candidate more is seen, so that fewer are left. -/
private theorem card_unseen_insert {dom seen : Finset ℕ} {c : ℕ} (hdom : c ∈ dom)
    (hseen : c ∉ seen) : (dom \ insert c seen).card < (dom \ seen).card := by
  apply Finset.card_lt_card
  rw [Finset.ssubset_iff_of_subset
    (Finset.sdiff_subset_sdiff (Finset.Subset.refl dom) (Finset.subset_insert c seen))]
  exact ⟨c, Finset.mem_sdiff.mpr ⟨hdom, hseen⟩, by simp⟩

private theorem tryCandidates_returns {below : ℕ → State → Bool × State} {dom : Finset ℕ} {n : ℕ}
    (hbelow : ∀ i s, (dom \ s.seen).card < n → Returns edges i (edges i) s (below i s))
    (index : ℕ) :
    ∀ (candidates : List ℕ) (s : State), (∀ c ∈ candidates, c ∈ dom) →
      (dom \ s.seen).card < n + 1 →
      Returns edges index candidates s (tryCandidates below index candidates s) := by
  intro candidates
  induction candidates with
  | nil => intro s _ _; exact .exhausted index s
  | cons c rest ih =>
    intro s hdom hcard
    have hrest : ∀ x ∈ rest, x ∈ dom := fun x hx => hdom x (List.mem_cons_of_mem c hx)
    unfold tryCandidates
    by_cases hseen : c ∈ s.seen
    · rw [if_pos hseen]
      exact .skip hseen (ih s hrest hcard)
    · rw [if_neg hseen]
      cases hm : s.matched c with
      | none =>
        simp only [hm]
        exact .take hseen hm
      | some other =>
        -- A candidate was marked, so fewer are left for the moves below.
        have hlt := card_unseen_insert (hdom c List.mem_cons_self) hseen
        have hreturns := hbelow other ⟨insert c s.seen, s.matched⟩ (by simpa using by omega)
        simp only [hm]
        cases hout : below other ⟨insert c s.seen, s.matched⟩ with
        | mk found s' =>
          rw [hout] at hreturns
          cases found with
          | true => exact .move hseen hm hreturns
          | false =>
            have hle := Finset.card_le_card
              (Finset.sdiff_subset_sdiff (Finset.Subset.refl dom) hreturns.grows)
            exact .stay hseen hm hreturns (ih s' hrest (by simp only at hle; omega))

/-- Fuel above the number of unseen candidates is enough for the search to end. -/
theorem augment_returns {dom : Finset ℕ} (hdom : ∀ i, ∀ c ∈ edges i, c ∈ dom) (fuel : ℕ) :
    ∀ index s, (dom \ s.seen).card < fuel →
      Returns edges index (edges index) s (augment edges fuel index s) := by
  induction fuel with
  | zero => intro index s h; omega
  | succ fuel ih =>
    intro index s hcard
    exact tryCandidates_returns ih index (edges index) s (hdom index) hcard

/-! ## One augmentation -/

/-- What a successful augmentation for `index` does to the matching, when the candidates in
`seen` were not to be touched. -/
structure Augments (edges : ℕ → List ℕ) (seen : Finset ℕ) (index : ℕ)
    (before after : ℕ → Option ℕ) : Prop where
  fresh : ∃ c, before c = none ∧ ∀ x, (after x).isSome ↔ (before x).isSome ∨ x = c
  held : ∃ c, c ∉ seen ∧ after c = some index
  kept : ∀ k c, before c = some k → ∃ c', after c' = some k
  untouched : ∀ c ∈ seen, after c = before c
  valid : ∀ c k, after c = some k → before c = some k ∨ c ∈ edges k

theorem Augments.mono {seen seen' : Finset ℕ} {index : ℕ} {before after : ℕ → Option ℕ}
    (h : Augments edges seen' index before after) (hsub : seen ⊆ seen') :
    Augments edges seen index before after := by
  obtain ⟨c, hc, hafter⟩ := h.held
  exact ⟨h.fresh, ⟨c, fun hmem => hc (hsub hmem), hafter⟩, h.kept,
    fun c hc => h.untouched c (hsub hc), h.valid⟩

/-- A free candidate is taken. -/
theorem Augments.take {seen : Finset ℕ} {index c : ℕ} {before : ℕ → Option ℕ} (hc : c ∉ seen)
    (hfree : before c = none) (hedge : c ∈ edges index) :
    Augments edges seen index before (Function.update before c (some index)) := by
  refine ⟨⟨c, hfree, ?_⟩, ⟨c, hc, Function.update_self ..⟩, ?_, ?_, ?_⟩
  · intro x
    by_cases hx : x = c
    · simp [hx]
    · simp [hx]
  · intro k c' hc'
    have hne : c' ≠ c := by
      intro heq
      rw [heq, hfree] at hc'
      cases hc'
    exact ⟨c', by rw [Function.update_of_ne hne]; exact hc'⟩
  · intro c' hc'
    have hne : c' ≠ c := fun heq => hc (heq ▸ hc')
    rw [Function.update_of_ne hne]
  -- A candidate holds what it held, except for the one that was taken.
  · intro c' k hk
    by_cases hx : c' = c
    · subst hx
      rw [Function.update_self] at hk
      exact .inr (Option.some.inj hk ▸ hedge)
    · rw [Function.update_of_ne hx] at hk
      exact .inl hk

/-- A candidate is taken from an index that found another one. The candidate that becomes matched is
the one that the other index found, and no index loses its match. -/
theorem Augments.move {seen : Finset ℕ} {index other c : ℕ} {before after : ℕ → Option ℕ}
    (hc : c ∉ seen) (hother : before c = some other) (hedge : c ∈ edges index)
    (h : Augments edges (insert c seen) other before after) :
    Augments edges seen index before (Function.update after c (some index)) := by
  have hstill : after c = some other := (h.untouched c (Finset.mem_insert_self c seen)).trans hother
  refine ⟨?_, ⟨c, hc, Function.update_self ..⟩, ?_, ?_, ?_⟩
  · obtain ⟨c₀, hfree, hdom⟩ := h.fresh
    refine ⟨c₀, hfree, fun x => ?_⟩
    by_cases hx : x = c
    · simp [hx, hother]
    · rw [Function.update_of_ne hx, hdom]
  · intro k c' hk
    obtain ⟨c₁, hc₁⟩ := h.kept k c' hk
    by_cases hx : c₁ = c
    · -- Only `other` lost the candidate, and it holds a new one.
      obtain rfl : other = k := by
        rw [hx, hstill] at hc₁
        exact Option.some.inj hc₁
      obtain ⟨c₂, hc₂, hafter⟩ := h.held
      have hne : c₂ ≠ c := fun heq => hc₂ (heq ▸ Finset.mem_insert_self c seen)
      exact ⟨c₂, by rw [Function.update_of_ne hne]; exact hafter⟩
    · exact ⟨c₁, by rw [Function.update_of_ne hx]; exact hc₁⟩
  · intro c' hc'
    have hne : c' ≠ c := fun heq => hc (heq ▸ hc')
    rw [Function.update_of_ne hne]
    exact h.untouched c' (Finset.mem_insert_of_mem hc')
  · intro c' k hk
    by_cases hx : c' = c
    · subst hx
      rw [Function.update_self] at hk
      exact .inr (Option.some.inj hk ▸ hedge)
    · rw [Function.update_of_ne hx] at hk
      exact h.valid c' k hk

/-- A search that fails leaves the matching as it was. -/
theorem Returns.unchanged {index : ℕ} {candidates : List ℕ} {s : State} {outcome : Bool × State}
    (h : Returns edges index candidates s outcome) (hfail : outcome.1 = false) :
    outcome.2.matched = s.matched := by
  induction h with
  | exhausted index s => rfl
  | skip _ _ ih => exact ih hfail
  | take _ _ => cases hfail
  | move _ _ _ _ => cases hfail
  | stay _ _ _ _ ihbelow ihrest => exact (ihrest hfail).trans (ihbelow rfl)

/-- A search that finds a candidate augments the matching. -/
theorem Returns.augments {index : ℕ} {candidates : List ℕ} {s : State} {outcome : Bool × State}
    (h : Returns edges index candidates s outcome) (hedges : ∀ c ∈ candidates, c ∈ edges index)
    (hfound : outcome.1 = true) :
    Augments edges s.seen index s.matched outcome.2.matched := by
  induction h with
  | exhausted index s => cases hfound
  | skip _ _ ih => exact ih (fun c hc => hedges c (List.mem_cons_of_mem _ hc)) hfound
  | take hseen hfree => exact .take hseen hfree (hedges _ List.mem_cons_self)
  | move hseen hother _ ih =>
    exact .move hseen hother (hedges _ List.mem_cons_self) (ih (fun c hc => hc) rfl)
  | stay _ _ hbelow _ _ ih =>
    -- The candidate cannot be freed: the matching is as before, with more seen.
    have haug := ih (fun c hc => hedges c (List.mem_cons_of_mem _ hc)) hfound
    rw [hbelow.unchanged rfl] at haug
    exact haug.mono ((Finset.subset_insert _ _).trans hbelow.grows)

/-- A successful augmentation matches one candidate more. -/
theorem Augments.card {size : ℕ} (hsize : ∀ i, ∀ c ∈ edges i, c < size) {seen : Finset ℕ}
    {index : ℕ} {before after : ℕ → Option ℕ} (h : Augments edges seen index before after) :
    ((Finset.range size).filter fun c => (after c).isSome).card =
      ((Finset.range size).filter fun c => (before c).isSome).card + 1 := by
  obtain ⟨c₀, hfree, hdom⟩ := h.fresh
  have hlt : c₀ < size := by
    obtain ⟨k, hk⟩ := Option.isSome_iff_exists.mp ((hdom c₀).mpr (.inr rfl))
    rcases h.valid c₀ k hk with hold | hedge
    · simp [hfree] at hold
    · exact hsize k c₀ hedge
  have hset : ((Finset.range size).filter fun c => (after c).isSome) =
      insert c₀ ((Finset.range size).filter fun c => (before c).isSome) := by
    ext c
    simp only [Finset.mem_filter, Finset.mem_range, Finset.mem_insert, hdom]
    constructor
    · rintro ⟨hc, hold | hnew⟩
      · exact .inr ⟨hc, hold⟩
      · exact .inl hnew
    · rintro (hnew | ⟨hc, hold⟩)
      · exact ⟨hnew ▸ hlt, .inr hnew⟩
      · exact ⟨hc, .inl hold⟩
  rw [hset, Finset.card_insert_of_notMem (by simp [hfree])]

/-! ## Candidates that are out of reach -/

/-- The candidates of `S` are matched, with indices that have no candidate outside `S`. -/
def Closed (edges : ℕ → List ℕ) (matched : ℕ → Option ℕ) (S : Finset ℕ) : Prop :=
  ∀ c ∈ S, ∃ k, matched c = some k ∧ ∀ x ∈ edges k, x ∈ S

theorem Closed.union {matched : ℕ → Option ℕ} {S T : Finset ℕ} (hS : Closed edges matched S)
    (hT : Closed edges matched T) : Closed edges matched (S ∪ T) := by
  intro c hc
  rcases Finset.mem_union.mp hc with hc | hc
  · obtain ⟨k, hk, hedges⟩ := hS c hc
    exact ⟨k, hk, fun x hx => Finset.mem_union_left T (hedges x hx)⟩
  · obtain ⟨k, hk, hedges⟩ := hT c hc
    exact ⟨k, hk, fun x hx => Finset.mem_union_right S (hedges x hx)⟩

/-- A failed search has seen all that it could move: the candidates that it added are matched,
with indices whose candidates it has seen. -/
def Exhausts (edges : ℕ → List ℕ) (s s' : State) : Prop :=
  ∀ c ∈ s'.seen, c ∉ s.seen → ∃ k, s.matched c = some k ∧ ∀ x ∈ edges k, x ∈ s'.seen

theorem Returns.exhausts {index : ℕ} {candidates : List ℕ} {s : State} {outcome : Bool × State}
    (h : Returns edges index candidates s outcome) (hfail : outcome.1 = false) :
    (∀ c ∈ candidates, c ∈ outcome.2.seen) ∧ Exhausts edges s outcome.2 := by
  induction h with
  | exhausted index s => exact ⟨by simp, fun c hc hnot => absurd hc hnot⟩
  | skip hseen hrest ih =>
    obtain ⟨hall, hexhausts⟩ := ih hfail
    exact ⟨List.forall_mem_cons.mpr ⟨hrest.grows hseen, hall⟩, hexhausts⟩
  | take _ _ => cases hfail
  | move _ _ _ _ => cases hfail
  | @stay index other c rest s s' outcome hseen hother hbelow hrest ihbelow ihrest =>
    obtain ⟨hothers, hexhausts⟩ := ihbelow rfl
    obtain ⟨hall, hexhausts'⟩ := ihrest hfail
    have hgrow : s'.seen ⊆ outcome.2.seen := hrest.grows
    have hc : c ∈ s'.seen := hbelow.grows (Finset.mem_insert_self c s.seen)
    refine ⟨List.forall_mem_cons.mpr ⟨hgrow hc, hall⟩, fun x hx hnot => ?_⟩
    -- A candidate was added here, in the search below, or in the search after it.
    by_cases hx' : x ∈ s'.seen
    · by_cases hxc : x = c
      · exact ⟨other, by rw [hxc]; exact hother, fun y hy => hgrow (hothers y hy)⟩
      · obtain ⟨k, hk, hedge⟩ := hexhausts x hx' (by simp [hxc, hnot])
        exact ⟨k, hk, fun y hy => hgrow (hedge y hy)⟩
    · obtain ⟨k, hk, hedge⟩ := hexhausts' x hx hx'
      exact ⟨k, by rw [← hbelow.unchanged rfl]; exact hk, hedge⟩

/-- A search from which nothing was seen leaves a closed set behind when it fails. -/
theorem Returns.closed {index : ℕ} {candidates : List ℕ} {matched : ℕ → Option ℕ}
    {outcome : Bool × State} (h : Returns edges index candidates ⟨∅, matched⟩ outcome)
    (hfail : outcome.1 = false) : Closed edges matched outcome.2.seen :=
  fun c hc => (h.exhausts hfail).2 c hc (Finset.notMem_empty c)

/-- No path to a free candidate enters a closed set: a search that succeeds starts outside it and
leaves its candidates where they are. -/
theorem Returns.avoids {index : ℕ} {candidates : List ℕ} {s : State} {outcome : Bool × State}
    {S : Finset ℕ} (h : Returns edges index candidates s outcome) (hfound : outcome.1 = true)
    (hS : Closed edges s.matched S) :
    (∃ c ∈ candidates, c ∉ S) ∧ ∀ c ∈ S, outcome.2.matched c = s.matched c := by
  induction h with
  | exhausted index s => cases hfound
  | skip _ _ ih =>
    obtain ⟨⟨x, hx, hxS⟩, hkept⟩ := ih hfound hS
    exact ⟨⟨x, List.mem_cons_of_mem _ hx, hxS⟩, hkept⟩
  -- A free candidate is outside `S`, whose members are all held.
  | @take index c rest s hseen hfree =>
    have hc : c ∉ S := by
      intro hc
      obtain ⟨k, hk, -⟩ := hS c hc
      simp [hfree] at hk
    refine ⟨⟨c, List.mem_cons_self, hc⟩, fun x hx => ?_⟩
    have hne : x ≠ c := fun heq => hc (heq ▸ hx)
    exact Function.update_of_ne hne _ _
  -- Were `c` in `S`, so would be all the candidates of its holder, against the induction
  -- hypothesis.
  | @move index other c rest s s' hseen hother hbelow ih =>
    obtain ⟨⟨x, hx, hxS⟩, hkept⟩ := ih rfl hS
    have hc : c ∉ S := by
      intro hc
      obtain ⟨k, hk, hedges⟩ := hS c hc
      obtain rfl : other = k := Option.some.inj (hother.symm.trans hk)
      exact hxS (hedges x hx)
    refine ⟨⟨c, List.mem_cons_self, hc⟩, fun x hx => ?_⟩
    have hne : x ≠ c := fun heq => hc (heq ▸ hx)
    rw [← hkept x hx]
    exact Function.update_of_ne hne _ _
  | stay hseen hother hbelow hrest _ ih =>
    have hsame := hbelow.unchanged rfl
    simp only at hsame
    obtain ⟨⟨x, hx, hxS⟩, hkept⟩ := ih hfound (by rw [hsame]; exact hS)
    exact ⟨⟨x, List.mem_cons_of_mem _ hx, hxS⟩, fun c hc => by rw [hkept c hc, hsame]⟩

/-! ## The matching that is built -/

/-- What holds after the indices below `n` had their turn: those of `found` are matched, and the
candidates of the others lie in the closed set `cover`. -/
structure Built (edges : ℕ → List ℕ) (size n : ℕ) (progress : ℕ × (ℕ → Option ℕ))
    (found cover : Finset ℕ) : Prop where
  found_lt : ∀ i ∈ found, i < n
  card_found : found.card = progress.1
  card_matched : ((Finset.range size).filter fun c => (progress.2 c).isSome).card = progress.1
  held : ∀ i ∈ found, ∃ c, progress.2 c = some i
  valid : ∀ c i, progress.2 c = some i → c ∈ edges i
  closed : Closed edges progress.2 cover
  failed : ∀ i < n, i ∉ found → ∀ c ∈ edges i, c ∈ cover

section Built

variable {size : ℕ} (hsize : ∀ i, ∀ c ∈ edges i, c < size)

include hsize

private theorem built_next {n : ℕ} {progress : ℕ × (ℕ → Option ℕ)} {found cover : Finset ℕ}
    (h : Built edges size n progress found cover) :
    ∃ found' cover', Built edges size (n + 1) (matchNext edges size progress n) found' cover' := by
  have hdom : ∀ i, ∀ c ∈ edges i, c ∈ Finset.range size := fun i c hc =>
    Finset.mem_range.mpr (hsize i c hc)
  have hreturns := augment_returns hdom (size + 1) n ⟨∅, progress.2⟩ (by simp)
  unfold matchNext
  cases hout : augment edges (size + 1) n ⟨∅, progress.2⟩ with
  | mk answer s =>
    rw [hout] at hreturns
    cases answer with
    -- The row stays unmatched: the search leaves the matching as it was, and what it saw is closed.
    | false =>
      have hsame : s.matched = progress.2 := hreturns.unchanged rfl
      have hseen : ∀ c ∈ edges n, c ∈ s.seen := (hreturns.exhausts rfl).1
      simp only [hsame]
      refine ⟨found, cover ∪ s.seen, ?_, h.card_found, h.card_matched, h.held, h.valid,
        h.closed.union (hreturns.closed rfl), ?_⟩
      · exact fun i hi => Nat.lt_succ_of_lt (h.found_lt i hi)
      · intro i hi hnot c hc
        rcases Nat.lt_succ_iff_lt_or_eq.mp hi with hlt | rfl
        · exact Finset.mem_union_left _ (h.failed i hlt hnot c hc)
        · exact Finset.mem_union_right _ (hseen c hc)
    -- The row is matched along an augmenting path, which keeps every earlier row matched.
    | true =>
      have haug : Augments edges ∅ n progress.2 s.matched :=
        hreturns.augments (fun c hc => hc) rfl
      obtain ⟨-, hkept⟩ := hreturns.avoids rfl h.closed
      have hnew : n ∉ found := fun hmem => lt_irrefl n (h.found_lt n hmem)
      refine ⟨insert n found, cover, ?_, ?_, (haug.card hsize).trans (by rw [h.card_matched]),
        ?_, ?_, ?_, ?_⟩
      · intro i hi
        rcases Finset.mem_insert.mp hi with rfl | hi
        · exact Nat.lt_succ_self i
        · exact Nat.lt_succ_of_lt (h.found_lt i hi)
      · rw [Finset.card_insert_of_notMem hnew, h.card_found]
      · intro i hi
        rcases Finset.mem_insert.mp hi with rfl | hi
        · obtain ⟨c, -, hc⟩ := haug.held
          exact ⟨c, hc⟩
        · obtain ⟨c, hc⟩ := h.held i hi
          exact haug.kept i c hc
      · intro c i hc
        exact (haug.valid c i hc).elim (h.valid c i) id
      · intro c hc
        obtain ⟨k, hk, hedges⟩ := h.closed c hc
        exact ⟨k, (hkept c hc).trans hk, hedges⟩
      · intro i hi hnot c hc
        simp only [Finset.mem_insert, not_or] at hnot
        exact h.failed i (by omega) hnot.2 c hc

private theorem built (n : ℕ) :
    ∃ found cover, Built edges size n
      ((List.range n).foldl (matchNext edges size) (0, fun _ => none)) found cover := by
  induction n with
  | zero =>
    refine ⟨∅, ∅, by simp, by simp, by simp, by simp, by simp, ?_, by simp⟩
    intro c hc
    simp at hc
  | succ n ih =>
    obtain ⟨found, cover, h⟩ := ih
    rw [List.range_succ, List.foldl_append]
    exact built_next hsize h

end Built

/-! ## The greatest matching -/

/-- A matching: pairs of an index below `count` and one of its candidates, no two of which share
an index or a candidate. -/
structure IsMatching (edges : ℕ → List ℕ) (count : ℕ) (M : Finset (ℕ × ℕ)) : Prop where
  lt : ∀ p ∈ M, p.1 < count
  edge : ∀ p ∈ M, p.2 ∈ edges p.1
  left : Set.InjOn Prod.fst (M : Set (ℕ × ℕ))
  right : Set.InjOn Prod.snd (M : Set (ℕ × ℕ))

/-- There are no more pairs than indices. -/
theorem IsMatching.card_le {count : ℕ} {M : Finset (ℕ × ℕ)} (h : IsMatching edges count M) :
    M.card ≤ count := by
  have hle : M.card ≤ (Finset.range count).card :=
    Finset.card_le_card_of_injOn Prod.fst
      (fun p hp => Finset.mem_coe.mpr (Finset.mem_range.mpr (h.lt p hp))) h.left
  simpa using hle

/-- A matching with as many pairs as indices leaves no index out. -/
theorem IsMatching.covers_left {count : ℕ} {M : Finset (ℕ × ℕ)} (h : IsMatching edges count M)
    (hcard : count ≤ M.card) {i : ℕ} (hi : i < count) : ∃ j, j ∈ edges i := by
  have himage : M.image Prod.fst = Finset.range count := by
    apply Finset.eq_of_subset_of_card_le
    · intro k hk
      obtain ⟨p, hp, rfl⟩ := Finset.mem_image.mp hk
      exact Finset.mem_range.mpr (h.lt p hp)
    · rw [Finset.card_image_of_injOn h.left, Finset.card_range]
      exact hcard
  obtain ⟨p, hp, rfl⟩ := Finset.mem_image.mp (himage ▸ Finset.mem_range.mpr hi)
  exact ⟨p.2, h.edge p hp⟩

/-- One with as many pairs as candidates leaves no candidate out. -/
theorem IsMatching.covers_right {count size : ℕ} {M : Finset (ℕ × ℕ)}
    (h : IsMatching edges count M) (hsize : ∀ i, ∀ c ∈ edges i, c < size) (hcard : size ≤ M.card)
    {j : ℕ} (hj : j < size) : ∃ i, j ∈ edges i := by
  have himage : M.image Prod.snd = Finset.range size := by
    apply Finset.eq_of_subset_of_card_le
    · intro k hk
      obtain ⟨p, hp, rfl⟩ := Finset.mem_image.mp hk
      exact Finset.mem_range.mpr (hsize _ _ (h.edge p hp))
    · rw [Finset.card_image_of_injOn h.right, Finset.card_range]
      exact hcard
  obtain ⟨p, hp, rfl⟩ := Finset.mem_image.mp (himage ▸ Finset.mem_range.mpr hj)
  exact ⟨p.1, h.edge p hp⟩

section Greatest

variable {size n : ℕ} {progress : ℕ × (ℕ → Option ℕ)} {found cover : Finset ℕ}

/-- The matched indices are those found, and each holds one candidate: there are as many matched
candidates as indices found. -/
private theorem Built.holders (hsize : ∀ i, ∀ c ∈ edges i, c < size)
    (h : Built edges size n progress found cover) :
    (∀ c i, progress.2 c = some i → i ∈ found) ∧
      ∀ c c' i, progress.2 c = some i → progress.2 c' = some i → c = c' := by
  let holders := (Finset.range size).filter fun c => (progress.2 c).isSome
  let index : ℕ → ℕ := fun c => (progress.2 c).getD 0
  have hmem : ∀ {c i}, progress.2 c = some i → c ∈ holders := by
    intro c i hc
    have hlt := hsize i c (h.valid c i hc)
    exact Finset.mem_filter.mpr ⟨Finset.mem_range.mpr hlt, by simp [hc]⟩
  have hindex : ∀ {c i}, progress.2 c = some i → index c = i := by
    intro c i hc
    simp [index, hc]
  -- Each found row holds a column, and there are as many columns held as rows found.
  have hsubset : found ⊆ holders.image index := by
    intro i hi
    obtain ⟨c, hc⟩ := h.held i hi
    exact Finset.mem_image.mpr ⟨c, hmem hc, hindex hc⟩
  have hcard : holders.card = found.card := h.card_matched.trans h.card_found.symm
  have himage : found = holders.image index :=
    Finset.eq_of_subset_of_card_le hsubset (Finset.card_image_le.trans hcard.le)
  have hinj : Set.InjOn index holders := by
    apply Finset.card_image_iff.mp
    rw [← himage, hcard]
  refine ⟨fun c i hc => ?_, fun c c' i hc hc' => ?_⟩
  · rw [himage]
    exact Finset.mem_image.mpr ⟨c, hmem hc, hindex hc⟩
  · exact hinj (hmem hc) (hmem hc') ((hindex hc).trans (hindex hc').symm)

/-- The pairs of the matching that was built. -/
private theorem Built.exists_matching (hsize : ∀ i, ∀ c ∈ edges i, c < size)
    (h : Built edges size n progress found cover) :
    ∃ M, IsMatching edges n M ∧ M.card = progress.1 := by
  obtain ⟨hfound, hinj⟩ := h.holders hsize
  -- A candidate that is taken gives one pair: the index that holds it, and itself.
  let holders := (Finset.range size).filter fun c => (progress.2 c).isSome
  let pair : ℕ → ℕ × ℕ := fun c => ((progress.2 c).getD 0, c)
  have hpair : ∀ p ∈ holders.image pair, progress.2 p.2 = some p.1 := by
    intro p hp
    obtain ⟨c, hc, rfl⟩ := Finset.mem_image.mp hp
    obtain ⟨i, hi⟩ := Option.isSome_iff_exists.mp (Finset.mem_filter.mp hc).2
    simp [pair, hi]
  refine ⟨holders.image pair, ⟨?_, ?_, ?_, ?_⟩, ?_⟩
  · exact fun p hp => h.found_lt _ (hfound _ _ (hpair p hp))
  · exact fun p hp => h.valid _ _ (hpair p hp)
  · intro p hp q hq heq
    have hp' := hpair p hp
    have hq' := hpair q hq
    rw [← show p.1 = q.1 from heq] at hq'
    exact Prod.ext heq (hinj _ _ _ hp' hq')
  · intro p hp q hq heq
    have hp' := hpair p hp
    have hq' := hpair q hq
    rw [← show p.2 = q.2 from heq, hp'] at hq'
    exact Prod.ext (Option.some.inj hq') heq
  · rw [Finset.card_image_of_injective _ fun c c' heq => congrArg Prod.snd heq]
    exact h.card_matched

/-- Every edge has its candidate in the cover or its index outside it, so that a matching has no
more pairs than indices were found. -/
private theorem Built.card_le (hsize : ∀ i, ∀ c ∈ edges i, c < size)
    (h : Built edges size n progress found cover) {M : Finset (ℕ × ℕ)}
    (hM : IsMatching edges n M) : M.card ≤ progress.1 := by
  obtain ⟨hfound, hinj⟩ := h.holders hsize
  -- A pair with its candidate in the cover is charged to the index that holds the candidate.
  let charge : ℕ × ℕ → ℕ := fun p => if p.2 ∈ cover then (progress.2 p.2).getD 0 else p.1
  have hinside : ∀ p, p.2 ∈ cover → progress.2 p.2 = some (charge p) ∧
      ∀ x ∈ edges (charge p), x ∈ cover := by
    intro p hp
    obtain ⟨k, hk, hedges⟩ := h.closed p.2 hp
    have hcharge : charge p = k := by simp [charge, hp, hk]
    rw [hcharge]
    exact ⟨hk, hedges⟩
  have houtside : ∀ p, p.2 ∉ cover → charge p = p.1 := by
    intro p hp
    simp [charge, hp]
  rw [← h.card_found]
  refine Finset.card_le_card_of_injOn charge ?_ ?_
  · intro p hp
    by_cases hc : p.2 ∈ cover
    · exact hfound _ _ (hinside p hc).1
    · rw [houtside p hc]
      by_contra hnot
      exact hc (h.failed p.1 (hM.lt p hp) hnot p.2 (hM.edge p hp))
  · intro p hp q hq heq
    by_cases hpc : p.2 ∈ cover
    · by_cases hqc : q.2 ∈ cover
      · obtain ⟨hp', -⟩ := hinside p hpc
        obtain ⟨hq', -⟩ := hinside q hqc
        rw [← heq] at hq'
        exact hM.right hp hq (hinj _ _ _ hp' hq')
      · rw [houtside q hqc] at heq
        exact absurd ((hinside p hpc).2 q.2 (heq ▸ hM.edge q hq)) hqc
    · by_cases hqc : q.2 ∈ cover
      · rw [houtside p hpc] at heq
        exact absurd ((hinside q hqc).2 p.2 (heq ▸ hM.edge p hp)) hpc
      · rw [houtside p hpc, houtside q hqc] at heq
        exact hM.left hp hq heq

end Greatest

/-- The count is the size of a greatest matching. -/
theorem maximumMatching_isGreatest {count size : ℕ} (hsize : ∀ i, ∀ c ∈ edges i, c < size) :
    IsGreatest {n | ∃ M, IsMatching edges count M ∧ M.card = n}
      (maximumMatching edges count size) := by
  obtain ⟨found, cover, h⟩ := built hsize count
  refine ⟨h.exists_matching hsize, ?_⟩
  rintro n ⟨M, hM, rfl⟩
  exact h.card_le hsize hM

/-- If the indices can be matched with different candidates, they all are. -/
theorem maximumMatching_full {count size : ℕ} (hsize : ∀ i, ∀ c ∈ edges i, c < size)
    {partner : ℕ → ℕ} (hpartner : ∀ i < count, partner i ∈ edges i)
    (hinj : Set.InjOn partner {i | i < count}) : maximumMatching edges count size = count := by
  have hmaximum : IsGreatest {n | ∃ M, IsMatching edges count M ∧ M.card = n}
      (maximumMatching edges count size) := maximumMatching_isGreatest hsize
  obtain ⟨⟨M, hM, hcard⟩, hgreatest⟩ := hmaximum
  -- Every row with its partner: a matching of full size.
  let pairs := (Finset.range count).image fun i => (i, partner i)
  have hpair : ∀ p ∈ pairs, p.1 < count ∧ p.2 = partner p.1 := by
    intro p hp
    obtain ⟨i, hi, rfl⟩ := Finset.mem_image.mp hp
    exact ⟨Finset.mem_range.mp hi, rfl⟩
  have hpairs : IsMatching edges count pairs := by
    refine ⟨fun p hp => (hpair p hp).1, fun p hp => ?_, fun p hp q hq heq => ?_,
      fun p hp q hq heq => ?_⟩
    · rw [(hpair p hp).2]
      exact hpartner p.1 (hpair p hp).1
    · refine Prod.ext heq ?_
      rw [(hpair p hp).2, (hpair q hq).2, show p.1 = q.1 from heq]
    · refine Prod.ext (hinj (hpair p hp).1 (hpair q hq).1 ?_) heq
      rw [← (hpair p hp).2, ← (hpair q hq).2]
      exact heq
  have hsame : pairs.card = count := by
    rw [Finset.card_image_of_injective _ fun i j h => congrArg Prod.fst h, Finset.card_range]
  apply le_antisymm
  · rw [← hcard]
    exact hM.card_le
  · exact hgreatest ⟨pairs, hpairs, hsame⟩

end KrabkaRegistry.Library.Matching
