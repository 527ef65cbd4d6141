/-
  VoleAct.Lib.Rejection

  The law of a loop that draws until something is accepted.

  `f` is what one draw is answered with.  A run of `n` independent draws returns the
  first answer, so every answer comes from as many runs as it has draws, times the
  runs of rejected draws before it and of arbitrary draws after it.
-/
import Mathlib

namespace VoleAct.Lib

variable {α β : Type*} (f : α → Option β)

/-- The runs around one accepted draw, of `total` values of which `rejected` are rejected. -/
def runsAround (rejected total n : ℕ) : ℕ :=
  ∑ j ∈ Finset.range n, rejected ^ j * total ^ (n - 1 - j)

theorem runsAround_succ (rejected total n : ℕ) : runsAround rejected total (n + 1) =
    total ^ n + rejected * runsAround rejected total n := by
  rw [runsAround, Finset.sum_range_succ', runsAround, Finset.mul_sum, add_comm]
  congr 1
  · rw [pow_zero, one_mul]
    rfl
  · refine Finset.sum_congr rfl fun j _ => ?_
    rw [show n + 1 - 1 - (j + 1) = n - 1 - j by omega]
    ring

/-- The runs in which every draw is rejected. -/
theorem card_findSome?_eq_none (n : ℕ) :
    Nat.card {draws : Fin n → α // (List.ofFn draws).findSome? f = none} =
      Nat.card {a // f a = none} ^ n := by
  have hiff (draws : Fin n → α) :
      (List.ofFn draws).findSome? f = none ↔ ∀ i, f (draws i) = none := by
    rw [List.findSome?_eq_none_iff, List.forall_mem_ofFn_iff]
  rw [Nat.card_congr (Equiv.subtypeEquivRight hiff),
    Nat.card_congr (Equiv.subtypePiEquivPi (p := fun _ a => f a = none)), Nat.card_pi,
    Finset.prod_const, Finset.card_univ, Fintype.card_fin]

/-- The runs that return an answer. -/
theorem card_findSome?_eq_some [Finite α] (n : ℕ) (b : β) :
    Nat.card {draws : Fin n → α // (List.ofFn draws).findSome? f = some b} =
      Nat.card {a // f a = some b} *
        runsAround (Nat.card {a // f a = none}) (Nat.card α) n := by
  classical
  cases nonempty_fintype α
  induction n with
  | zero => simp [runsAround]
  | succ n ih =>
      -- the first draw gives the answer, or is rejected
      have hfirst (a : α) : Nat.card {rest : Fin n → α //
          (List.ofFn (Fin.cons a rest : Fin (n + 1) → α)).findSome? f = some b} =
          (if f a = some b then Nat.card α ^ n else 0) +
            if f a = none then
              Nat.card {rest : Fin n → α // (List.ofFn rest).findSome? f = some b} else 0 := by
        simp only [List.ofFn_cons, List.findSome?_cons]
        cases hfa : f a with
        | none => simp
        | some b' =>
            by_cases hb : b' = b
            · simp [hb]
            · simp [hb]
      have hsplit : Nat.card {draws : Fin (n + 1) → α // (List.ofFn draws).findSome? f = some b} =
          ∑ a, Nat.card {rest : Fin n → α //
            (List.ofFn (Fin.cons a rest : Fin (n + 1) → α)).findSome? f = some b} := by
        rw [← Nat.card_sigma]
        exact Nat.card_congr (((Fin.consEquiv fun _ => α).symm.subtypeEquiv fun draws => by
          rw [← Fin.cons_self_tail draws]
          rfl).trans (Equiv.subtypeProdEquivSigmaSubtype fun a (rest : Fin n → α) =>
            (List.ofFn (Fin.cons a rest : Fin (n + 1) → α)).findSome? f = some b))
      rw [hsplit, Finset.sum_congr rfl fun a _ => hfirst a, Finset.sum_add_distrib,
        ← Finset.sum_filter, ← Finset.sum_filter, Finset.sum_const, Finset.sum_const, ih,
        runsAround_succ, Nat.card_eq_fintype_card (α := {a // f a = some b}),
        Nat.card_eq_fintype_card (α := {a // f a = none}), Fintype.card_subtype,
        Fintype.card_subtype, smul_eq_mul, smul_eq_mul]
      ring

end VoleAct.Lib
