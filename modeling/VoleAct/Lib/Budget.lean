/-
  VoleAct.Lib.Budget

  Accounts whose worth is bounded by what was paid in and not paid out.

  The worth of an account is any function of the state.  A budget stays balanced as
  long as each move raises one account by at most what is paid in, or moves at most
  what one account was worth to another and to the outside.
-/
import Mathlib.Algebra.BigOperators.Group.Finset.Piecewise
import Mathlib.Algebra.Order.BigOperators.Group.Finset

namespace VoleAct.Lib

/-- Accounts, what each is worth, and what was paid in and out. -/
structure Budget (α : Type) where
  accounts : Finset α
  worth : α → ℕ
  paidIn : ℕ
  paidOut : ℕ

namespace Budget

variable {α : Type}

/-- The accounts are worth no more than was paid in and not paid out. -/
def Balanced (b : Budget α) : Prop := ∑ x ∈ b.accounts, b.worth x + b.paidOut ≤ b.paidIn

variable [DecidableEq α]

/-- Raising one account, which may be new, by at most `w`. -/
theorem sum_insert_le {s : Finset α} {f g : α → ℕ} {x : α} {w : ℕ}
    (hother : ∀ y ∈ s, y ≠ x → g y ≤ f y) (hx : g x ≤ (if x ∈ s then f x else 0) + w) :
    ∑ y ∈ insert x s, g y ≤ ∑ y ∈ s, f y + w := by
  have herase : ∑ y ∈ s.erase x, g y ≤ ∑ y ∈ s.erase x, f y :=
    Finset.sum_le_sum fun y hy => hother y (Finset.mem_of_mem_erase hy) (Finset.ne_of_mem_erase hy)
  have hinsert : ∑ y ∈ insert x s, g y = g x + ∑ y ∈ s.erase x, g y := by
    rw [← Finset.insert_erase (Finset.mem_insert_self x s), Finset.sum_insert (by simp),
      Finset.erase_insert_eq_erase]
  have hsum : ∑ y ∈ s, f y = (if x ∈ s then f x else 0) + ∑ y ∈ s.erase x, f y := by
    split
    · next hmem => exact (Finset.add_sum_erase s f hmem).symm
    · next hmem => rw [Finset.erase_eq_of_notMem hmem, zero_add]
  omega

/-- The same, while an account worth at least `e` is emptied. -/
theorem sum_insert_add_le {s : Finset α} {f g : α → ℕ} {i x : α} {e w : ℕ} (hi : i ∈ s)
    (hempty : g i = 0) (hworth : e ≤ f i) (hother : ∀ y ∈ s, y ≠ x → g y ≤ f y)
    (hx : g x ≤ (if x ∈ s then f x else 0) + w) :
    ∑ y ∈ insert x s, g y + e ≤ ∑ y ∈ s, f y + w := by
  have hle : ∑ y ∈ insert x s, g y ≤ ∑ y ∈ s, Function.update f i (f i - e) y + w := by
    refine sum_insert_le (fun y hy hne => ?_) ?_
    · by_cases hyi : y = i
      · rw [hyi, hempty]
        exact Nat.zero_le _
      · rw [Function.update_of_ne hyi]
        exact hother y hy hne
    · by_cases hxi : x = i
      · rw [hxi, hempty]
        exact Nat.zero_le _
      · rw [Function.update_of_ne hxi]
        exact hx
  have hupdate : ∑ y ∈ s, Function.update f i (f i - e) y + e = ∑ y ∈ s, f y := by
    rw [Finset.sum_update_of_mem hi, ← Finset.add_sum_erase s f hi, Finset.sdiff_singleton_eq_erase]
    omega
  omega

variable {b b' : Budget α}

/-- Paying `w` in raises one account by at most `w`. -/
theorem Balanced.credit (h : b.Balanced) {x : α} {w : ℕ}
    (haccounts : b'.accounts = insert x b.accounts)
    (hother : ∀ y ∈ b.accounts, y ≠ x → b'.worth y ≤ b.worth y)
    (hx : b'.worth x ≤ (if x ∈ b.accounts then b.worth x else 0) + w)
    (hin : b'.paidIn = b.paidIn + w) (hout : b'.paidOut = b.paidOut) : b'.Balanced := by
  have hsum := sum_insert_le hother hx
  unfold Balanced at h ⊢
  rw [haccounts, hin, hout]
  omega

/-- Emptying an account pays for raising another and for what is paid out. -/
theorem Balanced.transfer (h : b.Balanced) {i x : α} (w p : ℕ)
    (haccounts : b'.accounts = insert x b.accounts) (hi : i ∈ b.accounts)
    (hempty : b'.worth i = 0) (hworth : w + p ≤ b.worth i)
    (hother : ∀ y ∈ b.accounts, y ≠ x → b'.worth y ≤ b.worth y)
    (hx : b'.worth x ≤ (if x ∈ b.accounts then b.worth x else 0) + w)
    (hin : b'.paidIn = b.paidIn) (hout : b'.paidOut = b.paidOut + p) : b'.Balanced := by
  have hsum := sum_insert_add_le hi hempty hworth hother hx
  unfold Balanced at h ⊢
  rw [haccounts, hin, hout]
  omega

end Budget

end VoleAct.Lib
