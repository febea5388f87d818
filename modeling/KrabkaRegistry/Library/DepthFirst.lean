import Mathlib.Data.Finset.Card
import Mathlib.Data.Finset.SDiff
import Mathlib.Data.Finset.Insert
import Mathlib.Tactic.Cases

/-!
# Depth-First Walks with a Visited Set

A partial graph sends an edge to its target node and a node, if it is present,
to its list of outgoing edges.  `walk` follows a list of edges depth first: it
skips targets it has already visited, fails on an absent target, and runs an
`emit` action on each edge after everything below it has been walked.

The recursion is over a fuel argument that bounds the nesting depth, so the walk
evaluates on closed inputs.  The results are:

- `walk_ne_fuel`: one unit of fuel more than there are unvisited present nodes is
  always enough;
- `walk_ok_iff`: with enough fuel the walk succeeds exactly when every reachable
  node is present;
- `walk_congr`: the outcome depends on the graph only where the walk can reach.
-/

namespace KrabkaRegistry.Library.DepthFirst

/-- A graph whose nodes may be absent: `next v = none` says that `v` is missing. -/
structure Graph (ε ν : Type*) where
  /-- The node an edge points to. -/
  target : ε → ν
  /-- The outgoing edges of a present node. -/
  next : ν → Option (List ε)

/-- Why a walk stops before it has followed every edge. -/
inductive Fault (ε : Type*) where
  | missing (e : ε)
  | fuel

/-- The state threaded through a walk: the visited nodes and what was emitted. -/
structure Progress (ν σ : Type*) where
  visited : Finset ν
  out : σ

variable {ε ν σ : Type*}

/-! ## Reachability -/

/-- `Reach G es v`: some path that starts with an edge of `es` leads to `v`. -/
inductive Reach (G : Graph ε ν) (es : List ε) : ν → Prop where
  | direct {e : ε} : e ∈ es → Reach G es (G.target e)
  | step {v : ν} {es' : List ε} {e : ε} :
      Reach G es v → G.next v = some es' → e ∈ es' → Reach G es (G.target e)

theorem Reach.mono {G : Graph ε ν} {es es' : List ε} {v : ν}
    (h : Reach G es v) (hsub : ∀ e ∈ es, e ∈ es') : Reach G es' v := by
  induction h with
  | direct he => exact .direct (hsub _ he)
  | step _ hn he ih => exact .step ih hn he

/-- What is reachable from the edges of a reachable node is reachable. -/
theorem Reach.trans {G : Graph ε ν} {es es' : List ε} {u v : ν}
    (hu : Reach G es u) (hn : G.next u = some es') (hv : Reach G es' v) : Reach G es v := by
  induction hv with
  | direct he => exact .step hu hn he
  | step _ hn' he ih => exact .step ih hn' he

/-- What holds of the first targets and is kept along edges holds of everything reached. -/
theorem Reach.closed {G : Graph ε ν} {es : List ε} {P : ν → Prop}
    (hstart : ∀ e ∈ es, P (G.target e))
    (hedge : ∀ v es' e, P v → G.next v = some es' → e ∈ es' → P (G.target e)) {v : ν}
    (h : Reach G es v) : P v := by
  induction h with
  | direct he => exact hstart _ he
  | step _ hn he ih => exact hedge _ _ _ ih hn he

/-- `Met G es e`: the edge `e` is one of `es` or leaves a node they reach. -/
def Met (G : Graph ε ν) (es : List ε) (e : ε) : Prop :=
  e ∈ es ∨ ∃ v es', Reach G es v ∧ G.next v = some es' ∧ e ∈ es'

theorem Met.reach {G : Graph ε ν} {es : List ε} {e : ε} (h : Met G es e) :
    Reach G es (G.target e) := by
  rcases h with he | ⟨v, es', hv, hn, he⟩
  · exact .direct he
  · exact .step hv hn he

/-- What is reached is the target of an edge that is met. -/
theorem Reach.met {G : Graph ε ν} {es : List ε} {v : ν} (h : Reach G es v) :
    ∃ e, Met G es e ∧ G.target e = v := by
  cases h with
  | direct he => exact ⟨_, .inl he, rfl⟩
  | step hv hn he => exact ⟨_, .inr ⟨_, _, hv, hn, he⟩, rfl⟩

/-- What holds of the first edges and is kept from an edge to those below it holds of every edge
that is met. -/
theorem Met.closed {G : Graph ε ν} {es : List ε} {P : ε → Prop} (hstart : ∀ e ∈ es, P e)
    (hedge : ∀ e es' e', P e → G.next (G.target e) = some es' → e' ∈ es' → P e') {e : ε}
    (h : Met G es e) : P e := by
  rcases h with he | ⟨v, es', hv, hn, he⟩
  · exact hstart e he
  · obtain ⟨x, hx, rfl⟩ : ∃ x, P x ∧ G.target x = v := by
      refine hv.closed (P := fun v => ∃ x, P x ∧ G.target x = v) (fun x hx => ⟨x, hstart x hx, rfl⟩) ?_
      rintro _ es'' x' ⟨x, hx, rfl⟩ hn' hx'
      exact ⟨x', hedge x es'' x' hx hn' hx', rfl⟩
    exact hedge x es' e hx hn he

theorem Met.next {G : Graph ε ν} {es es' : List ε} {e e' : ε} (h : Met G es e)
    (hn : G.next (G.target e) = some es') (he : e' ∈ es') : Met G es e' :=
  .inr ⟨G.target e, es', h.reach, hn, he⟩

/-! ## Chains -/

/-- A chain of edges: each leaves the target of the one before it. -/
def IsChain (G : Graph ε ν) : List ε → List ε → Prop
  | _, [] => True
  | es, e :: chain => e ∈ es ∧ IsChain G ((G.next (G.target e)).getD []) chain

/-- Every chain that starts in `es` has at most `n` edges. -/
def Shallow (G : Graph ε ν) (n : ℕ) (es : List ε) : Prop :=
  ∀ chain, IsChain G es chain → chain.length ≤ n

theorem Shallow.next {G : Graph ε ν} {n : ℕ} {es es' : List ε} {e : ε} (h : Shallow G (n + 1) es)
    (he : e ∈ es) (hn : G.next (G.target e) = some es') : Shallow G n es' := by
  intro chain hchain
  have hlong : IsChain G es (e :: chain) := ⟨he, by simpa [hn] using hchain⟩
  simpa using h _ hlong

theorem Shallow.nil (G : Graph ε ν) : Shallow G 0 [] := by
  intro chain hchain
  cases chain with
  | nil => exact le_rfl
  | cons e chain => exact absurd hchain.1 List.not_mem_nil

/-- A chain is one longer than what follows its first edge. -/
theorem Shallow.succ {G : Graph ε ν} {n : ℕ} {es : List ε}
    (h : ∀ e ∈ es, ∃ es', G.next (G.target e) = some es' ∧ Shallow G n es') :
    Shallow G (n + 1) es := by
  intro chain hchain
  cases chain with
  | nil => exact Nat.zero_le _
  | cons e chain =>
    obtain ⟨he, hrest⟩ := hchain
    obtain ⟨es', hn, hshallow⟩ := h e he
    rw [hn] at hrest
    exact Nat.succ_le_succ (hshallow chain hrest)

theorem Shallow.pos {G : Graph ε ν} {n : ℕ} {es : List ε} {e : ε} (h : Shallow G n es)
    (he : e ∈ es) : 0 < n := by
  have hone : IsChain G es [e] := ⟨he, trivial⟩
  have hlen := h _ hone
  simp only [List.length_cons, List.length_nil] at hlen
  omega

/-- `Within G v es`: the edges `es` lie below the node `v`, so that each chain of theirs is at
most as long as one of `v`. -/
def Within (G : Graph ε ν) (v : ν) (es : List ε) : Prop :=
  ∀ chain, IsChain G es chain →
    ∃ longer, IsChain G ((G.next v).getD []) longer ∧ chain.length ≤ longer.length

theorem Within.self {G : Graph ε ν} {v : ν} {es : List ε} (hn : G.next v = some es) :
    Within G v es := fun chain hchain => ⟨chain, by simpa [hn] using hchain, le_rfl⟩

theorem Within.next {G : Graph ε ν} {v : ν} {es es' : List ε} {e : ε} (h : Within G v es)
    (he : e ∈ es) (hn : G.next (G.target e) = some es') : Within G v es' := by
  intro chain hchain
  have hlong : IsChain G es (e :: chain) := ⟨he, by simpa [hn] using hchain⟩
  obtain ⟨longer, hl, hlen⟩ := h _ hlong
  exact ⟨longer, hl, by simp only [List.length_cons] at hlen; omega⟩

/-- Chains of bounded length never come back: an edge below `v` does not lead to `v`. -/
theorem Within.target_ne {G : Graph ε ν} {n : ℕ} {v : ν} {es : List ε} {e : ε} (h : Within G v es)
    (hbound : Shallow G n ((G.next v).getD [])) (he : e ∈ es) : G.target e ≠ v := by
  intro hv
  -- Going round once more makes a chain longer, so the chains from `v` have no bound.
  have hgrow : ∀ k, ∃ chain, IsChain G ((G.next v).getD []) chain ∧ k ≤ chain.length := by
    intro k
    induction k with
    | zero => exact ⟨[], trivial, Nat.zero_le _⟩
    | succ k ih =>
      obtain ⟨chain, hchain, hk⟩ := ih
      have hround : IsChain G es (e :: chain) := ⟨he, by rw [hv]; exact hchain⟩
      obtain ⟨longer, hl, hlen⟩ := h _ hround
      exact ⟨longer, hl, by simp only [List.length_cons] at hlen; omega⟩
  obtain ⟨chain, hchain, hk⟩ := hgrow (n + 1)
  have := hbound chain hchain
  omega

/-! ## The walk -/

variable [DecidableEq ν]

/-- Follow one edge, using `below` to walk the edges of its target. -/
def follow (G : Graph ε ν) (emit : ε → σ → σ)
    (below : List ε → Progress ν σ → Except (Fault ε) (Progress ν σ))
    (w : Progress ν σ) (e : ε) : Except (Fault ε) (Progress ν σ) :=
  if G.target e ∈ w.visited then .ok w
  else
    match G.next (G.target e) with
    | none => .error (.missing e)
    | some es =>
      match below es ⟨insert (G.target e) w.visited, w.out⟩ with
      | .ok w' => .ok ⟨w'.visited, emit e w'.out⟩
      | .error f => .error f

/-- Walk a list of edges, nesting at most `fuel` levels deep. -/
def walk (G : Graph ε ν) (emit : ε → σ → σ) :
    ℕ → List ε → Progress ν σ → Except (Fault ε) (Progress ν σ)
  | 0, _, _ => .error .fuel
  | fuel + 1, es, w => es.foldlM (follow G emit (walk G emit fuel)) w

/-! ## What following one edge does -/

section Follow

variable {G : Graph ε ν} {emit : ε → σ → σ}
  {below : List ε → Progress ν σ → Except (Fault ε) (Progress ν σ)}
  {w w' : Progress ν σ} {e : ε}

/-- The outcomes of following one edge: skipped, or walked below and emitted. -/
theorem follow_ok (h : follow G emit below w e = .ok w') :
    (G.target e ∈ w.visited ∧ w' = w) ∨
    (G.target e ∉ w.visited ∧ ∃ es w₁, G.next (G.target e) = some es ∧
      below es ⟨insert (G.target e) w.visited, w.out⟩ = .ok w₁ ∧
      w' = ⟨w₁.visited, emit e w₁.out⟩) := by
  unfold follow at h
  split at h
  · rename_i hv
    exact .inl ⟨hv, by simpa using h.symm⟩
  · rename_i hv
    refine .inr ⟨hv, ?_⟩
    split at h
    · cases h
    · rename_i es hes
      split at h
      · rename_i w₁ hw₁
        exact ⟨es, w₁, hes, hw₁, by simpa using h.symm⟩
      · cases h

/-- The failures of following one edge: its target is missing, or the walk below fails. -/
theorem follow_error {f : Fault ε} (h : follow G emit below w e = .error f) :
    (G.next (G.target e) = none ∧ f = .missing e) ∨
    (G.target e ∉ w.visited ∧ ∃ es, G.next (G.target e) = some es ∧
      below es ⟨insert (G.target e) w.visited, w.out⟩ = .error f) := by
  unfold follow at h
  split at h
  · cases h
  · rename_i hv
    split at h
    · rename_i hn
      exact .inl ⟨hn, by simpa using h.symm⟩
    · rename_i es hes
      split at h
      · cases h
      · rename_i f' hf'
        cases h
        exact .inr ⟨hv, es, hes, hf'⟩

end Follow

/-! ## Successful walks close the visited set -/

variable {G : Graph ε ν} {emit : ε → σ → σ}

/-- `Closes G es w w'`: going from `w` to `w'` visited every target of `es`, and
every node visited on the way is present with all its successors visited too. -/
structure Closes (G : Graph ε ν) (es : List ε) (w w' : Progress ν σ) : Prop where
  grows : w.visited ⊆ w'.visited
  targets : ∀ e ∈ es, G.target e ∈ w'.visited
  closed : ∀ v ∈ w'.visited, v ∉ w.visited →
    ∃ es', G.next v = some es' ∧ ∀ e ∈ es', G.target e ∈ w'.visited

private theorem closes_foldlM
    {below : List ε → Progress ν σ → Except (Fault ε) (Progress ν σ)}
    (hbelow : ∀ es w w', below es w = .ok w' → Closes G es w w') :
    ∀ (es : List ε) (w w' : Progress ν σ),
      es.foldlM (follow G emit below) w = .ok w' → Closes G es w w' := by
  intro es
  -- The order of the edges matters: each is followed in the state the ones before it left.
  induction es with
  | nil =>
    intro w w' h
    obtain rfl : w = w' := by simpa [pure, Except.pure] using h
    exact ⟨fun _ h => h, by simp, fun v hv hn => absurd hv hn⟩
  | cons e es ih =>
    intro w w' h
    rw [List.foldlM_cons] at h
    cases hf : follow G emit below w e with
    | error f => simp [hf, bind, Except.bind] at h
    | ok w₁ =>
      have hrest : Closes G es w₁ w' := ih w₁ w' (by simpa [hf, bind, Except.bind] using h)
      rcases follow_ok hf with ⟨hv, rfl⟩ | ⟨hv, es', w₂, hn, hw₂, rfl⟩
      -- The target was visited before: nothing happened at this edge.
      · refine ⟨hrest.grows, ?_, hrest.closed⟩
        intro e' he'
        rcases List.mem_cons.mp he' with rfl | he'
        · exact hrest.grows hv
        · exact hrest.targets e' he'
      -- The target is new: what lies below it is closed by the walk below.
      · have hb := hbelow _ _ _ hw₂
        have hin : G.target e ∈ w₂.visited := hb.grows (Finset.mem_insert_self _ _)
        refine ⟨fun v hv' => hrest.grows (hb.grows (Finset.mem_insert_of_mem hv')), ?_, ?_⟩
        · intro e' he'
          rcases List.mem_cons.mp he' with rfl | he'
          · exact hrest.grows hin
          · exact hrest.targets e' he'
        -- A newly visited node is the target itself, below it, or after it.
        · intro v hv' hnv
          by_cases hv₂ : v ∈ w₂.visited
          · by_cases hve : v = G.target e
            · subst hve
              exact ⟨es', hn, fun e' he' => hrest.grows (hb.targets e' he')⟩
            · obtain ⟨es₂, hn₂, hc₂⟩ := hb.closed v hv₂ (by simp [hve, hnv])
              exact ⟨es₂, hn₂, fun e' he' => hrest.grows (hc₂ e' he')⟩
          · exact hrest.closed v hv' hv₂

theorem walk_closes (fuel : ℕ) :
    ∀ (es : List ε) (w w' : Progress ν σ),
      walk G emit fuel es w = .ok w' → Closes G es w w' := by
  induction fuel with
  | zero => intro es w w' h; simp [walk] at h
  | succ n ih => exact closes_foldlM ih

omit [DecidableEq ν] in
/-- Started from no visited node, a successful walk visits whatever is reachable. -/
theorem Reach.visited {es : List ε} {v : ν} (hr : Reach G es v)
    {w w' : Progress ν σ} (hw : w.visited = ∅) (hc : Closes G es w w') : v ∈ w'.visited := by
  induction hr with
  | direct he => exact hc.targets _ he
  | @step u es' e _ hn he ih =>
    obtain ⟨es₂, hn₂, hsub⟩ := hc.closed u ih (by simp [hw])
    obtain rfl : es' = es₂ := by simpa [hn] using hn₂
    exact hsub e he

/-! ## Failing walks -/

private theorem missing_foldlM
    {below : List ε → Progress ν σ → Except (Fault ε) (Progress ν σ)}
    (hbelow : ∀ es w e, below es w = .error (.missing e) →
      Reach G es (G.target e) ∧ G.next (G.target e) = none) :
    ∀ (es : List ε) (w : Progress ν σ) (e : ε),
      es.foldlM (follow G emit below) w = .error (.missing e) →
      Reach G es (G.target e) ∧ G.next (G.target e) = none := by
  intro es
  induction es with
  | nil => intro w e h; simp [pure, Except.pure] at h
  | cons a es ih =>
    intro w e h
    rw [List.foldlM_cons] at h
    cases hf : follow G emit below w a with
    | ok w₁ =>
      obtain ⟨hr, hn⟩ := ih w₁ e (by simpa [hf, bind, Except.bind] using h)
      exact ⟨hr.mono fun x hx => List.mem_cons_of_mem _ hx, hn⟩
    -- The first edge that fails is the one that is reported.
    | error f =>
      obtain rfl : f = .missing e := by simpa [hf, bind, Except.bind] using h
      rcases follow_error hf with ⟨hn, hfe⟩ | ⟨_, es', hn, hb⟩
      · obtain rfl : e = a := by simpa using hfe
        exact ⟨.direct List.mem_cons_self, hn⟩
      · obtain ⟨hr, hn'⟩ := hbelow _ _ _ hb
        exact ⟨Reach.trans (.direct List.mem_cons_self) hn hr, hn'⟩

/-- A walk that reports a missing target reached an edge to an absent node. -/
theorem walk_missing (fuel : ℕ) :
    ∀ (es : List ε) (w : Progress ν σ) (e : ε),
      walk G emit fuel es w = .error (.missing e) →
      Reach G es (G.target e) ∧ G.next (G.target e) = none := by
  induction fuel with
  | zero => intro es w e h; simp [walk] at h
  | succ n ih => exact missing_foldlM ih

private theorem ne_fuel_foldlM {dom : Finset ν} (hdom : ∀ v, G.next v ≠ none → v ∈ dom) {n : ℕ}
    {below : List ε → Progress ν σ → Except (Fault ε) (Progress ν σ)}
    (hgrow : ∀ es w w', below es w = .ok w' → w.visited ⊆ w'.visited)
    (hbelow : ∀ es w, (dom \ w.visited).card < n → below es w ≠ .error .fuel) :
    ∀ (es : List ε) (w : Progress ν σ), (dom \ w.visited).card < n + 1 →
      es.foldlM (follow G emit below) w ≠ .error .fuel := by
  intro es
  induction es with
  | nil => intro w _ h; simp [pure, Except.pure] at h
  | cons e es ih =>
    intro w hcard h
    rw [List.foldlM_cons] at h
    cases hf : follow G emit below w e with
    -- An edge that was followed only makes the set of nodes left smaller.
    | ok w₁ =>
      have hsub : w.visited ⊆ w₁.visited := by
        rcases follow_ok hf with ⟨_, rfl⟩ | ⟨_, es', w₂, _, hw₂, rfl⟩
        · exact fun _ h => h
        · exact fun v hv => hgrow _ _ _ hw₂ (Finset.mem_insert_of_mem hv)
      have hle := Finset.card_le_card (Finset.sdiff_subset_sdiff (Finset.Subset.refl dom) hsub)
      exact ih w₁ (by omega) (by simpa [hf, bind, Except.bind] using h)
    | error f =>
      obtain rfl : f = .fuel := by simpa [hf, bind, Except.bind] using h
      rcases follow_error hf with ⟨_, hfe⟩ | ⟨hv, es', hn, hb⟩
      · cases hfe
      -- The target is present and new, so the set of nodes left to visit shrinks.
      · have hdom' : G.target e ∈ dom := hdom _ (by simp [hn])
        have hin : G.target e ∈ dom \ w.visited := Finset.mem_sdiff.mpr ⟨hdom', hv⟩
        have hlt : (dom \ insert (G.target e) w.visited).card < (dom \ w.visited).card := by
          apply Finset.card_lt_card
          rw [Finset.ssubset_iff_of_subset
            (Finset.sdiff_subset_sdiff (Finset.Subset.refl dom) (Finset.subset_insert _ _))]
          exact ⟨_, hin, by simp⟩
        exact hbelow _ _ (show (dom \ insert (G.target e) w.visited).card < n by omega) hb

/-- Fuel above the number of unvisited present nodes is never used up. -/
theorem walk_ne_fuel {dom : Finset ν} (hdom : ∀ v, G.next v ≠ none → v ∈ dom) (fuel : ℕ) :
    ∀ (es : List ε) (w : Progress ν σ), (dom \ w.visited).card < fuel →
      walk G emit fuel es w ≠ .error .fuel := by
  induction fuel with
  | zero => intro es w h; omega
  | succ n ih => exact ne_fuel_foldlM hdom (fun es w w' h => (walk_closes n es w w' h).grows) ih

/-- With enough fuel, a walk from scratch succeeds exactly when every reachable
node is present. -/
theorem walk_ok_iff {dom : Finset ν} (hdom : ∀ v, G.next v ≠ none → v ∈ dom) {fuel : ℕ}
    (hfuel : dom.card < fuel) (es : List ε) (out : σ) :
    (∃ w', walk G emit fuel es ⟨∅, out⟩ = .ok w') ↔ ∀ v, Reach G es v → G.next v ≠ none := by
  constructor
  · rintro ⟨w', hw'⟩ v hr
    have hc := walk_closes fuel es _ w' hw'
    obtain ⟨es', hn, _⟩ := hc.closed v (hr.visited rfl hc) (by simp)
    simp [hn]
  · intro hall
    cases hw : walk G emit fuel es ⟨∅, out⟩ with
    | ok w' => exact ⟨w', rfl⟩
    -- Of the two failures, one contradicts the assumption and the other the fuel.
    | error f =>
      exfalso
      cases f with
      | missing e =>
        obtain ⟨hr, hn⟩ := walk_missing fuel es _ e hw
        exact hall _ hr hn
      | fuel => exact walk_ne_fuel hdom fuel es ⟨∅, out⟩ (by simpa using hfuel) hw

/-! ## The outcome depends only on what is reachable -/

/-- `AgreeOn G G' emit emit' es`: the two graphs and actions agree on `es` and on
whatever is reachable from `es`. -/
structure AgreeOn (G G' : Graph ε ν) (emit emit' : ε → σ → σ) (P : ε → Prop) : Prop where
  target : ∀ e, P e → G'.target e = G.target e
  next : ∀ e, P e → G'.next (G.target e) = G.next (G.target e)
  emit : ∀ e, P e → emit' e = emit e
  closed : ∀ e es e', P e → G.next (G.target e) = some es → e' ∈ es → P e'

private theorem congr_foldlM {G' : Graph ε ν} {emit' : ε → σ → σ} {P : ε → Prop}
    (h : AgreeOn G G' emit emit' P)
    {below below' : List ε → Progress ν σ → Except (Fault ε) (Progress ν σ)}
    (hbelow : ∀ es w, (∀ e ∈ es, P e) → below' es w = below es w) :
    ∀ (es : List ε) (w : Progress ν σ), (∀ e ∈ es, P e) →
      es.foldlM (follow G' emit' below') w = es.foldlM (follow G emit below) w := by
  intro es
  induction es with
  | nil => intro w _; rfl
  | cons e es ih =>
    intro w hP
    have he : P e := hP e List.mem_cons_self
    -- One edge: both walks look at the same node, and go on below it with the same edges.
    have hstep : follow G' emit' below' w e = follow G emit below w e := by
      unfold follow
      rw [h.target e he, h.next e he, h.emit e he]
      cases hn : G.next (G.target e) with
      | none => rfl
      | some es' =>
        simp only [hbelow es' _ fun e' he' => h.closed e es' e' he hn he']
    rw [List.foldlM_cons, List.foldlM_cons, hstep]
    cases follow G emit below w e with
    | error f => rfl
    | ok w₁ => exact ih w₁ fun e' he' => hP e' (List.mem_cons_of_mem _ he')

/-- Two graphs that agree on everything the walk can reach give the same walk. -/
theorem walk_congr {G' : Graph ε ν} {emit' : ε → σ → σ} {P : ε → Prop}
    (h : AgreeOn G G' emit emit' P) (fuel : ℕ) :
    ∀ (es : List ε) (w : Progress ν σ), (∀ e ∈ es, P e) →
      walk G' emit' fuel es w = walk G emit fuel es w := by
  induction fuel with
  | zero => intro es w _; rfl
  | succ n ih => exact congr_foldlM h ih

/-! ## More fuel changes nothing -/

private theorem mono_foldlM
    {below below' : List ε → Progress ν σ → Except (Fault ε) (Progress ν σ)}
    (hbelow : ∀ es w, below es w ≠ .error .fuel → below' es w = below es w) :
    ∀ (es : List ε) (w : Progress ν σ), es.foldlM (follow G emit below) w ≠ .error .fuel →
      es.foldlM (follow G emit below') w = es.foldlM (follow G emit below) w := by
  intro es
  induction es with
  | nil => intro w _; rfl
  | cons e es ih =>
    intro w hne
    rw [List.foldlM_cons] at hne
    have hstep : follow G emit below' w e = follow G emit below w e := by
      unfold follow
      split
      · rfl
      · rename_i hv
        cases hn : G.next (G.target e) with
        | none => rfl
        | some es' =>
          -- If the walk below ran out of fuel, so would the whole walk.
          have hb : below es' ⟨insert (G.target e) w.visited, w.out⟩ ≠ .error .fuel := by
            intro hb
            apply hne
            simp [follow, hv, hn, hb, bind, Except.bind]
          simp only [hbelow _ _ hb]
    rw [List.foldlM_cons, List.foldlM_cons, hstep]
    cases hf : follow G emit below w e with
    | error f => rfl
    | ok w₁ => exact ih w₁ (by simpa [hf, bind, Except.bind] using hne)

theorem walk_succ (fuel : ℕ) :
    ∀ (es : List ε) (w : Progress ν σ), walk G emit fuel es w ≠ .error .fuel →
      walk G emit (fuel + 1) es w = walk G emit fuel es w := by
  induction fuel with
  | zero => intro es w h; exact absurd rfl h
  | succ n ih => exact mono_foldlM ih

/-- Once the fuel is enough, any larger amount gives the same outcome. -/
theorem walk_mono {fuel fuel' : ℕ} (hle : fuel ≤ fuel') (es : List ε) (w : Progress ν σ)
    (h : walk G emit fuel es w ≠ .error .fuel) :
    walk G emit fuel' es w = walk G emit fuel es w := by
  induction fuel', hle using Nat.le_induction with
  | base => rfl
  | succ n _ ih => rw [walk_succ n es w (by rw [ih]; exact h), ih]

end KrabkaRegistry.Library.DepthFirst
