import Mathlib.Algebra.Order.Group.Nat
import Mathlib.Order.Lattice
import Mathlib.Tactic.Common

/-!
# Recursion by Fuel

A recursive function that may not end is a functional `Φ`, which computes one value from the
values of the recursive calls.  `iterate Φ n` allows `n` nested calls, and `outcome Φ` is the
value that some amount of fuel gives, if any does.

A functional is `Finitary` when each of its results needs only finitely many values.  Then the
fuel disappears:

- `outcome_eq`: the outcome satisfies the recursion equation of `Φ`;
- `outcome_induct`: what the functional establishes from the values below holds of every outcome.
-/

namespace KrabkaRegistry.Library.Fuel

variable {α β γ δ : Type*}

/-! ## Finitary operators -/

/-- Each value that `f` has, `g` has too. -/
def Extends (f g : α → Option β) : Prop := ∀ a b, f a = some b → g a = some b

theorem Extends.refl (f : α → Option β) : Extends f f := fun _ _ h => h

/-- A chain of partial functions, each extending the one before. -/
def Chain (f : ℕ → α → Option β) : Prop := ∀ n, Extends (f n) (f (n + 1))

theorem Chain.le {f : ℕ → α → Option β} (h : Chain f) {n m : ℕ} (hle : n ≤ m) :
    Extends (f n) (f m) := by
  induction m, hle using Nat.le_induction with
  | base => exact .refl _
  | succ m _ ih => exact fun a b hab => h m a b (ih a b hab)

/-- `g` has the values that the chain reaches. -/
def Limit (f : ℕ → α → Option β) (g : α → Option β) : Prop :=
  ∀ a b, g a = some b ↔ ∃ n, f n a = some b

/-- The results of `F` on a limit are those on the chain. -/
def Finitary (F : (α → Option β) → Option γ) : Prop :=
  ∀ f g, Chain f → Limit f g → ∀ c, F g = some c ↔ ∃ n, F (f n) = some c

/-- More values give no fewer results. -/
theorem Finitary.mono {F : (α → Option β) → Option γ} (h : Finitary F) {f g : α → Option β}
    (hfg : Extends f g) {c : γ} (hc : F f = some c) : F g = some c := by
  -- The chain `f, g, g, …` has the limit `g`.
  let chain : ℕ → α → Option β := fun n => if n = 0 then f else g
  have hchain : Chain chain := by
    intro n
    by_cases hn : n = 0
    · simpa [chain, hn] using hfg
    · simpa [chain, hn] using Extends.refl g
  have hlimit : Limit chain g := by
    intro a b
    constructor
    · intro hab
      exact ⟨1, by simpa [chain] using hab⟩
    · rintro ⟨n, hn⟩
      by_cases h0 : n = 0
      · exact hfg a b (by simpa [chain, h0] using hn)
      · simpa [chain, h0] using hn
  exact (h chain g hchain hlimit c).mpr ⟨0, by simpa [chain] using hc⟩

theorem finitary_const (x : Option γ) : Finitary fun _ : α → Option β => x := by
  intro f g _ _ c
  simp

theorem finitary_apply (a : α) : Finitary fun f : α → Option β => f a :=
  fun _ _ _ hlimit b => hlimit a b

theorem Finitary.bind {F : (α → Option β) → Option γ} {G : γ → (α → Option β) → Option δ}
    (hF : Finitary F) (hG : ∀ x, Finitary (G x)) : Finitary fun f => (F f).bind fun x => G x f := by
  intro f g hchain hlimit d
  simp only [Option.bind_eq_some_iff]
  constructor
  · rintro ⟨x, hx, hd⟩
    obtain ⟨n, hn⟩ := (hF f g hchain hlimit x).mp hx
    obtain ⟨m, hm⟩ := (hG x f g hchain hlimit d).mp hd
    -- Both results are there at the larger of the two amounts.
    exact ⟨max n m, x, hF.mono (hchain.le (le_max_left n m)) hn,
      (hG x).mono (hchain.le (le_max_right n m)) hm⟩
  · rintro ⟨n, x, hx, hd⟩
    exact ⟨x, (hF f g hchain hlimit x).mpr ⟨n, hx⟩, (hG x f g hchain hlimit d).mpr ⟨n, hd⟩⟩

theorem Finitary.map {F : (α → Option β) → Option γ} (hF : Finitary F) (k : γ → δ) :
    Finitary fun f => (F f).map k := by
  have h := hF.bind fun x => finitary_const (α := α) (β := β) (some (k x))
  simpa only [Option.map_eq_bind, Function.comp_def] using h

theorem Finitary.mapM {ι : Type*} {H : ι → (α → Option β) → Option γ} (hH : ∀ i, Finitary (H i)) :
    ∀ l : List ι, Finitary fun f => l.mapM fun i => H i f := by
  intro l
  induction l with
  | nil =>
    have h := finitary_const (α := α) (β := β) (some ([] : List γ))
    simpa using h
  | cons i l ih =>
    have h := (hH i).bind fun x => ih.map (x :: ·)
    refine (fun f g hchain hlimit c => ?_)
    have := h f g hchain hlimit c
    simpa [List.mapM_cons, Option.map_eq_bind, Function.comp_def, Option.bind_eq_bind] using this

/-! ## The recursion -/

variable {Φ : (α → Option β) → α → Option β}

/-- The function with at most `fuel` nested calls. -/
def iterate (Φ : (α → Option β) → α → Option β) : ℕ → α → Option β
  | 0 => fun _ => none
  | fuel + 1 => Φ (iterate Φ fuel)

theorem iterate_chain (h : ∀ a, Finitary fun f => Φ f a) : Chain (iterate Φ) := by
  intro n
  induction n with
  | zero => intro a b hab; cases hab
  | succ n ih => exact fun a b hab => (h a).mono ih hab

/-- The value that some amount of fuel gives. -/
noncomputable def outcome (Φ : (α → Option β) → α → Option β) (a : α) : Option β :=
  open Classical in
  if h : ∃ b n, iterate Φ n a = some b then some h.choose else none

theorem outcome_eq_some (h : ∀ a, Finitary fun f => Φ f a) {a : α} {b : β} :
    outcome Φ a = some b ↔ ∃ n, iterate Φ n a = some b := by
  have hunique : ∀ {n m x y}, iterate Φ n a = some x → iterate Φ m a = some y → x = y := by
    intro n m x y hx hy
    have hx' := (iterate_chain h).le (le_max_left n m) a x hx
    have hy' := (iterate_chain h).le (le_max_right n m) a y hy
    exact Option.some.inj (hx'.symm.trans hy')
  unfold outcome
  split_ifs with hex
  · constructor
    · intro heq
      obtain ⟨n, hn⟩ := hex.choose_spec
      exact ⟨n, by rw [hn, Option.some.inj heq]⟩
    · rintro ⟨n, hn⟩
      obtain ⟨m, hm⟩ := hex.choose_spec
      rw [hunique hm hn]
  · constructor
    · intro heq
      cases heq
    · rintro ⟨n, hn⟩
      exact absurd ⟨b, n, hn⟩ hex

theorem iterate_limit (h : ∀ a, Finitary fun f => Φ f a) : Limit (iterate Φ) (outcome Φ) :=
  fun _ _ => outcome_eq_some h

/-- The outcome satisfies the recursion equation. -/
theorem outcome_eq (h : ∀ a, Finitary fun f => Φ f a) (a : α) : outcome Φ a = Φ (outcome Φ) a := by
  ext b
  rw [h a _ _ (iterate_chain h) (iterate_limit h), outcome_eq_some h]
  constructor
  · rintro ⟨n, hn⟩
    cases n with
    | zero => cases hn
    | succ n => exact ⟨n, hn⟩
  · rintro ⟨n, hn⟩
    exact ⟨n + 1, hn⟩

/-- What the functional establishes from the values below holds of every outcome. -/
theorem outcome_induct (h : ∀ a, Finitary fun f => Φ f a) {P : α → β → Prop}
    (hstep : ∀ f, (∀ a b, f a = some b → outcome Φ a = some b ∧ P a b) →
      ∀ a b, Φ f a = some b → P a b) {a : α} {b : β} (hab : outcome Φ a = some b) : P a b := by
  obtain ⟨n, hn⟩ := (outcome_eq_some h).mp hab
  clear hab
  induction n generalizing a b with
  | zero => cases hn
  | succ n ih =>
    refine hstep (iterate Φ n) ?_ a b hn
    exact fun a b hab => ⟨(outcome_eq_some h).mpr ⟨n, hab⟩, ih hab⟩

end KrabkaRegistry.Library.Fuel
