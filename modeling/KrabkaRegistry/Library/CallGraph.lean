import Mathlib.Data.Fintype.Card
import Mathlib.Data.Set.Finite.Basic
import Mathlib.Logic.Relation
import Mathlib.Order.RelClasses

/-!
# Call Graphs

`r a b` says that the call `a` makes the call `b`.  A call that can meet only finitely many calls
ends exactly when none of them makes itself again.
-/

namespace KrabkaRegistry.Library.CallGraph

open Relation (ReflTransGen TransGen)

variable {α : Type*} {r s : α → α → Prop} {a b : α}

/-- No call that `a` leads to leads back to itself. -/
def Acyclic (r : α → α → Prop) (a : α) : Prop := ∀ b, ReflTransGen r a b → ¬ TransGen r b b

/-- Fewer calls make no more cycles. -/
theorem Acyclic.mono (hrs : ∀ x y, r x y → s x y) (h : Acyclic s a) : Acyclic r a :=
  fun b hb hcycle => h b (Relation.ReflTransGen.mono hrs _ _ hb) (Relation.TransGen.mono hrs _ _ hcycle)

theorem acyclic_of_acc (h : Acc (flip r) a) : Acyclic r a := by
  intro b hab
  have hb : Acc (flip r) b := by
    induction hab with
    | refl => exact h
    | tail _ hstep ih => exact ih.inv hstep
  clear hab
  induction hb with
  | intro b _ ih =>
    intro hcycle
    -- The cycle through `b` is also one through the next call on it.
    obtain ⟨c, hbc, hcb⟩ := Relation.TransGen.head'_iff.mp hcycle
    exact ih c hbc (Relation.TransGen.tail' hcb hbc)

theorem acc_of_acyclic (hfinite : {b | ReflTransGen r a b}.Finite) (h : Acyclic r a) :
    Acc (flip r) a := by
  let met := {b // ReflTransGen r a b}
  let calls : met → met → Prop := fun x y => r x.1 y.1
  have : Finite met := hfinite
  have hirrefl : Std.Irrefl (TransGen (flip calls)) := by
    constructor
    intro x hx
    have hcycle : TransGen calls x x := Relation.transGen_swap.mp hx
    exact h x.1 x.2 (hcycle.lift Subtype.val fun _ _ hxy => hxy)
  have hwf : WellFounded (TransGen (flip calls)) := Finite.wellFounded_of_trans_of_irrefl _
  have hlift : ∀ x : met, Acc (TransGen (flip calls)) x → Acc (flip r) x.1 := by
    intro x hx
    induction hx with
    | intro x _ ih =>
      refine ⟨_, fun y hy => ?_⟩
      exact ih ⟨y, x.2.tail hy⟩ (.single hy)
  exact hlift ⟨a, .refl⟩ (hwf.apply _)

end KrabkaRegistry.Library.CallGraph
