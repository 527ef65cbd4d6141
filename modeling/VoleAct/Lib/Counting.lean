/-
  VoleAct.Lib.Counting

  Counting the tuples with a property one coordinate at a time.
-/
import Mathlib

namespace VoleAct.Lib

open Finset

/-- Pairs with a property, counted row by row. -/
theorem card_filter_prod {α β : Type*} [Fintype α] [Fintype β] (P : α × β → Prop)
    [DecidablePred P] :
    (univ.filter P).card = ∑ a, (univ.filter fun b => P (a, b)).card := by
  rw [card_filter, Fintype.sum_prod_type]
  apply sum_congr rfl
  intro a _
  rw [card_filter]

/-- If a property of tuples leaves at most `k` values for one coordinate, whatever the others are,
    at most `k` in `|F|` tuples have it. -/
theorem card_mul_le_of_update {ι F : Type*} [Fintype ι] [DecidableEq ι] [Fintype F] (i : ι)
    (P : (ι → F) → Prop) [DecidablePred P] {k : ℕ}
    (h : ∀ f, (univ.filter fun y => P (Function.update f i y)).card ≤ k) :
    (univ.filter P).card * Fintype.card F ≤ k * Fintype.card (ι → F) := by
  -- exchanging the coordinate with a spare value is an involution on the pairs
  have hswap : (univ.filter fun p : (ι → F) × F => P p.1).card =
      (univ.filter fun p : (ι → F) × F => P (Function.update p.1 i p.2)).card := by
    refine card_nbij' (fun p => (Function.update p.1 i p.2, p.1 i))
      (fun p => (Function.update p.1 i p.2, p.1 i)) ?_ ?_ ?_ ?_
    · intro p hp
      simpa using hp
    · intro p hp
      simpa using hp
    · intro p _
      simp
    · intro p _
      simp
  have hrows : (univ.filter fun p : (ι → F) × F => P p.1).card =
      (univ.filter P).card * Fintype.card F := by
    rw [card_filter_prod, card_filter P, sum_mul]
    apply sum_congr rfl
    intro f _
    by_cases hf : P f
    · simp [hf, card_univ]
    · simp [hf]
  calc (univ.filter P).card * Fintype.card F
      = ∑ f, (univ.filter fun y => P (Function.update f i y)).card := by
        rw [← hrows, hswap, card_filter_prod]
    _ ≤ ∑ _f : ι → F, k := sum_le_sum fun f _ => h f
    _ = k * Fintype.card (ι → F) := by rw [sum_const, card_univ, smul_eq_mul, mul_comm]

/-- If the elements without a property embed in `s`, all but at most `s.card` elements have it. -/
theorem card_le_filter_add {α β : Type*} [Fintype α] (P : α → Prop) [DecidablePred P] {g : α → β}
    (hg : Function.Injective g) {s : Finset β} (h : ∀ a, ¬ P a → g a ∈ s) :
    Fintype.card α ≤ (univ.filter P).card + s.card := by
  have hfailing : (univ.filter fun a => ¬ P a).card ≤ s.card := by
    refine card_le_card_of_injOn g (fun a ha => h a ?_) hg.injOn
    simpa using ha
  rw [← card_univ, ← card_filter_add_card_filter_not P]
  exact Nat.add_le_add_left hfailing _

end VoleAct.Lib
