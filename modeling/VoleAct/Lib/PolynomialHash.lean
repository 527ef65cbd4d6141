/-
  VoleAct.Lib.PolynomialHash

  Hashing a polynomial by a combination of its values at two points.

  Both points may be roots, which few pairs of points are; otherwise the
  combination hits a given value for one coefficient in `q`.
-/
import VoleAct.Lib.Counting

namespace VoleAct.Lib

open Polynomial Finset

variable {F : Type*} [Field F] [Fintype F] [DecidableEq F]

/-- A linear equation in two unknowns has at most `q` solutions. -/
theorem card_linear_pairs_le {a b : F} (h : a ≠ 0 ∨ b ≠ 0) (c : F) :
    (univ.filter fun r : F × F => r.1 * a + r.2 * b + c = 0).card ≤ Fintype.card F := by
  rw [← card_univ (α := F)]
  rcases h with ha | hb
  · -- the second unknown determines the first
    refine card_le_card_of_injOn Prod.snd (fun _ _ => mem_univ _) ?_
    rintro ⟨x, y⟩ hx ⟨x', y'⟩ hx' heq
    obtain rfl : y = y' := heq
    have hxy : x * a + y * b + c = 0 := (mem_filter.mp hx).2
    have hxy' : x' * a + y * b + c = 0 := (mem_filter.mp hx').2
    have hmul : x * a = x' * a := by linear_combination hxy - hxy'
    rw [mul_right_cancel₀ ha hmul]
  · refine card_le_card_of_injOn Prod.fst (fun _ _ => mem_univ _) ?_
    rintro ⟨x, y⟩ hx ⟨x', y'⟩ hx' heq
    obtain rfl : x = x' := heq
    have hxy : x * a + y * b + c = 0 := (mem_filter.mp hx).2
    have hxy' : x * a + y' * b + c = 0 := (mem_filter.mp hx').2
    have hmul : y * b = y' * b := by linear_combination hxy - hxy'
    rw [mul_right_cancel₀ hb hmul]

/-- A nonzero polynomial of degree `d` vanishes at both of at most `d²` pairs of points. -/
theorem card_root_pairs_le {p : F[X]} (hp : p ≠ 0) {d : ℕ} (hd : p.natDegree ≤ d) :
    (univ.filter fun x : F × F => p.eval x.1 = 0 ∧ p.eval x.2 = 0).card ≤ d ^ 2 := by
  have hroots : (univ.filter fun x : F => p.eval x = 0).card ≤ d := by
    calc (univ.filter fun x : F => p.eval x = 0).card ≤ p.roots.toFinset.card := by
          refine card_le_card fun x hx => ?_
          rw [Multiset.mem_toFinset, mem_roots hp]
          exact (mem_filter.mp hx).2
      _ ≤ p.roots.card := Multiset.toFinset_card_le _
      _ ≤ p.natDegree := card_roots' p
      _ ≤ d := hd
  rw [← univ_product_univ, filter_product (fun x => p.eval x = 0) (fun x => p.eval x = 0),
    card_product, sq]
  exact Nat.mul_le_mul hroots hroots

/-- The points and coefficients for which the combined value of a nonzero polynomial is given. -/
theorem card_two_point_le {p : F[X]} (hp : p ≠ 0) {d : ℕ} (hd : p.natDegree ≤ d) (c : F) :
    (univ.filter fun k : (F × F) × (F × F) =>
      k.2.1 * p.eval k.1.1 + k.2.2 * p.eval k.1.2 + c = 0).card ≤
        Fintype.card F ^ 3 + d ^ 2 * Fintype.card F ^ 2 := by
  let q := Fintype.card F
  -- the coefficients for one pair of points
  have hrow (x : F × F) :
      (univ.filter fun r : F × F => r.1 * p.eval x.1 + r.2 * p.eval x.2 + c = 0).card ≤
        q + if p.eval x.1 = 0 ∧ p.eval x.2 = 0 then q ^ 2 else 0 := by
    by_cases hx : p.eval x.1 = 0 ∧ p.eval x.2 = 0
    · rw [if_pos hx]
      refine (card_le_univ _).trans ?_
      rw [Fintype.card_prod, ← sq]
      exact Nat.le_add_left _ _
    · rw [if_neg hx, Nat.add_zero]
      exact card_linear_pairs_le (not_and_or.mp hx) c
  rw [card_filter_prod]
  calc ∑ x : F × F, (univ.filter fun r : F × F =>
          r.1 * p.eval x.1 + r.2 * p.eval x.2 + c = 0).card
      ≤ ∑ x : F × F, (q + if p.eval x.1 = 0 ∧ p.eval x.2 = 0 then q ^ 2 else 0) :=
        sum_le_sum fun x _ => hrow x
    _ = q ^ 3 + (univ.filter fun x : F × F => p.eval x.1 = 0 ∧ p.eval x.2 = 0).card * q ^ 2 := by
        rw [sum_add_distrib, sum_const, card_univ, Fintype.card_prod, ← sum_filter, sum_const,
          smul_eq_mul, smul_eq_mul]
        ring
    _ ≤ q ^ 3 + d ^ 2 * q ^ 2 :=
        Nat.add_le_add_left (Nat.mul_le_mul_right _ (card_root_pairs_le hp hd)) _

theorem ncard_two_point_le {p : F[X]} (hp : p ≠ 0) {d : ℕ} (hd : p.natDegree ≤ d) (c : F) :
    Set.ncard {k : (F × F) × (F × F) | k.2.1 * p.eval k.1.1 + k.2.2 * p.eval k.1.2 + c = 0} ≤
      Fintype.card F ^ 3 + d ^ 2 * Fintype.card F ^ 2 := by
  rw [Set.ncard_eq_toFinset_card', Set.toFinset_ofPred]
  exact card_two_point_le hp hd c

end VoleAct.Lib
