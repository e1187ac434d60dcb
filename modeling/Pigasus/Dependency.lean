import Mathlib.Data.Fintype.Basic
import Mathlib.Data.Set.Finite.Lemmas
import Mathlib.Order.WellFounded
import Mathlib.Logic.Relation

/-!
# Dependencies over finitely many nodes

A node is grounded when it is registered and all it depends on is grounded. Over
finitely many registered nodes these are the nodes from which no missing node and
no cycle can be reached.
-/

namespace Dependency

open Relation

section
variable {α : Type} (dep : α → α → Prop) (reg : Set α)

inductive Grounded : α → Prop
  | intro (x : α) : x ∈ reg → (∀ y, dep x y → Grounded y) → Grounded x

variable {dep reg}

theorem Grounded.mem {x : α} (h : Grounded dep reg x) : x ∈ reg := by
  cases h with
  | intro _ hx _ => exact hx

theorem Grounded.next {x y : α} (h : Grounded dep reg x) (hd : dep x y) : Grounded dep reg y := by
  cases h with
  | intro _ _ hn => exact hn y hd

theorem Grounded.trans {x y : α} (h : Grounded dep reg x) (hd : TransGen dep x y) : Grounded dep reg y := by
  induction hd with
  | single hd => exact h.next hd
  | tail _ hd ih => exact ih.next hd

theorem Grounded.acyclic {x : α} (h : Grounded dep reg x) : ¬ TransGen dep x x := by
  induction h with
  | intro x hx hn ih =>
    intro hc
    -- the second node of the cycle lies on it as well
    obtain ⟨y, hxy, hyx⟩ := TransGen.head'_iff.mp hc
    exact ih y hxy (TransGen.tail' hyx hxy)

theorem grounded_of_clean (hf : reg.Finite) {x : α} (hx : x ∈ reg)
    (h : ∀ y, TransGen dep x y → y ∈ reg ∧ ¬ TransGen dep y y) : Grounded dep reg x := by
  let T : Set α := {y | ReflTransGen dep x y}
  have hT : ∀ y ∈ T, y ∈ reg ∧ ¬ TransGen dep y y := by
    intro y hy
    obtain rfl | hy := reflTransGen_iff_eq_or_transGen.mp hy
    · exact ⟨hx, fun hc => (h y hc).2 hc⟩
    · exact h y hy
  have hfin : Finite T := (hf.subset fun y hy => (hT y hy).1).to_subtype
  let r : T → T → Prop := fun a b => TransGen dep b.1 a.1
  have htr : IsTrans T r := ⟨fun a b c hab hbc => hbc.trans hab⟩
  have hir : Std.Irrefl r := ⟨fun a => (hT a.1 a.2).2⟩
  have hwf : WellFounded r := Finite.wellFounded_of_trans_of_irrefl r
  have key : ∀ a : T, Grounded dep reg a.1 := by
    intro a
    induction a using hwf.induction with
    | _ a ih =>
      refine .intro _ (hT a.1 a.2).1 fun y hy => ?_
      exact ih ⟨y, ReflTransGen.tail a.2 hy⟩ (.single hy)
  exact key ⟨x, .refl⟩

theorem grounded_iff (hf : reg.Finite) {x : α} :
    Grounded dep reg x ↔ x ∈ reg ∧ ∀ y, TransGen dep x y → y ∈ reg ∧ ¬ TransGen dep y y := by
  constructor
  · intro h
    exact ⟨h.mem, fun y hy => ⟨(h.trans hy).mem, (h.trans hy).acyclic⟩⟩
  · intro h
    exact grounded_of_clean hf h.1 h.2

theorem all_grounded_iff (hf : reg.Finite) (hreg : ∀ x y, dep x y → x ∈ reg) :
    (∀ x ∈ reg, Grounded dep reg x) ↔ (∀ x y, dep x y → y ∈ reg) ∧ ∀ x, ¬ TransGen dep x x := by
  constructor
  · intro h
    refine ⟨fun x y hd => ((h x (hreg x y hd)).next hd).mem, fun x hc => ?_⟩
    obtain ⟨y, hxy, _⟩ := TransGen.head'_iff.mp hc
    exact (h x (hreg x y hxy)).acyclic hc
  · rintro ⟨hd, hc⟩ x hx
    refine grounded_of_clean hf hx fun y hy => ⟨?_, hc y⟩
    obtain ⟨z, _, hzy⟩ := TransGen.tail'_iff.mp hy
    exact hd z y hzy

end

/-! ## Sweeps that shrink -/

section
variable {σ : Type} (f : σ → σ) (size : σ → Nat)

theorem iterate_fixed (h : ∀ s, f s = s ∨ size (f s) < size s) (s : σ) :
    ∀ n, size s ≤ n → f (f^[n] s) = f^[n] s := by
  intro n
  induction n generalizing s with
  | zero =>
    intro hn
    cases h s with
    | inl hs => exact hs
    | inr hs => omega
  | succ n ih =>
    intro hn
    rw [Function.iterate_succ_apply]
    cases h s with
    | inl hs => rw [hs, Function.iterate_fixed hs, hs]
    | inr hs => exact ih (f s) (by omega)

end

end Dependency
