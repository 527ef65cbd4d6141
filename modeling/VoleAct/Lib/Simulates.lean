/-
  VoleAct.Lib.Simulates

  Simulation of fallible computations.

  One computation simulates another if it returns a related value where that one
  returns, and fails with the image of its error where that one fails.
-/
import Mathlib.Data.List.Basic

namespace VoleAct.Lib

variable {ε ε' α β γ δ ι : Type} {f : ε → ε'} {R : α → β → Prop} {Q : γ → δ → Prop}

/-- `y` does what `x` does. -/
def Simulates (f : ε → ε') (R : α → β → Prop) (x : Except ε α) (y : Except ε' β) : Prop :=
  match x with
  | .ok a => ∃ b, y = .ok b ∧ R a b
  | .error e => y = .error (f e)

namespace Simulates

theorem ok {a : α} {b : β} (h : R a b) : Simulates f R (.ok a) (.ok b) := ⟨b, rfl, h⟩

theorem bind {x : Except ε α} {y : Except ε' β} {g : α → Except ε γ} {k : β → Except ε' δ}
    (h : Simulates f R x y) (hnext : ∀ a b, x = .ok a → R a b → Simulates f Q (g a) (k b)) :
    Simulates f Q (x >>= g) (y >>= k) := by
  cases x with
  | error e =>
      obtain rfl : y = .error (f e) := h
      rfl
  | ok a =>
      obtain ⟨b, rfl, hR⟩ := h
      exact hnext a b rfl hR

/-- A sequence of steps, each of which is simulated from related states. -/
theorem foldlM {g : α → ι → Except ε α} {k : β → ι → Except ε' β}
    (hstep : ∀ a b i, R a b → Simulates f R (g a i) (k b i)) {a : α} {b : β} (h : R a b)
    (is : List ι) : Simulates f R (is.foldlM g a) (is.foldlM k b) := by
  induction is generalizing a b with
  | nil => exact .ok h
  | cons i is ih =>
      rw [List.foldlM_cons, List.foldlM_cons]
      exact (hstep a b i h).bind fun a' b' _ h' => ih h'

end Simulates

/-- Lists whose items are related have related items at every index. -/
theorem getElem?_of_forall₂ {α β : Type} {R : α → β → Prop} {l : List α} {l' : List β}
    (h : List.Forall₂ R l l') (i : Nat) :
    (l[i]? = none ∧ l'[i]? = none) ∨ ∃ a b, l[i]? = some a ∧ l'[i]? = some b ∧ R a b := by
  induction h generalizing i with
  | nil => exact .inl ⟨rfl, rfl⟩
  | cons hab _ ih =>
      cases i with
      | zero => exact .inr ⟨_, _, rfl, rfl, hab⟩
      | succ i => exact ih i

end VoleAct.Lib
