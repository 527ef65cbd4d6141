/-
  VoleAct.BinaryFields.GF2p128Field

  The tag field is a field.  Its modulus is never factored: `x` has a Frobenius
  orbit of full length 128, which 128 squarings and one product check, and
  `Lib.isField_of_frobenius_orbit` turns that into inverses.
-/
import VoleAct.BinaryFields.GF2p128

namespace VoleAct.BinaryFields

namespace GF2p128

/-! ## The ring has `2 ^ 128` elements and characteristic two -/

/-- The representation as an equivalence. -/
def equivFin : GF2p128 ≃ Fin (2 ^ 128) where
  toFun a := a.toU128.toFin
  invFun i := ⟨BitVec.ofFin i⟩
  left_inv _ := rfl
  right_inv _ := rfl

instance : Fintype GF2p128 := Fintype.ofEquiv _ equivFin.symm

theorem card_eq : Fintype.card GF2p128 = 2 ^ 128 := by
  rw [Fintype.card_congr equivFin, Fintype.card_fin]

instance : Nontrivial GF2p128 := ⟨0, 1, by decide⟩

instance : CharP GF2p128 2 := by
  refine (CharP.charP_iff_prime_eq_zero Nat.prime_two).mpr ?_
  rw [Nat.cast_ofNat, ← one_add_one_eq_two]
  exact add_self 1

/-! ## Powers -/

theorem powLoop_eq {fuel e : Nat} (acc base : GF2p128) (h : e < 2 ^ fuel) :
    powLoop fuel e acc base = acc * base ^ e := by
  induction fuel generalizing e acc base with
  | zero =>
      obtain rfl : e = 0 := by simpa using h
      simp [powLoop]
  | succ fuel ih =>
      rw [powLoop]
      by_cases h0 : e = 0
      · simp [h0]
      have hsplit : base ^ e = base ^ (e % 2) * (square base) ^ (e / 2) := by
        rw [square, ← pow_two, ← pow_mul, ← pow_add, Nat.mod_add_div]
      rw [if_neg h0, ih _ _ (by rw [Nat.pow_succ] at h; omega), hsplit]
      rcases Nat.mod_two_eq_zero_or_one e with hm | hm <;> simp [hm, mul_assoc]

/-- Square-and-multiply computes the power. -/
theorem pow_eq (a : GF2p128) (e : U128) : pow a e = a ^ e.toNat := by
  rw [pow, powLoop_eq 1 a e.isLt, one_mul]

/-- Repeated squaring. -/
def squareIter : Nat → GF2p128 → GF2p128
  | 0, a => a
  | n + 1, a => squareIter n (square a)

theorem squareIter_eq (n : Nat) (a : GF2p128) : squareIter n a = a ^ 2 ^ n := by
  induction n generalizing a with
  | zero => simp [squareIter]
  | succ n ih => rw [squareIter, ih, square, ← pow_two, ← pow_mul, Nat.pow_succ, Nat.mul_comm]

/-! ## The Frobenius orbit of `x` -/

/-- The indeterminate `x`. -/
def X : GF2p128 := ⟨2#128⟩

theorem squareIter_X_128 : squareIter 128 X = X := by decide +kernel

/-- `x^(2^64) + x` has an inverse. -/
theorem squareIter_X_64_unit :
    (squareIter 64 X - X) * ⟨0x9e4af928ddbc838a41a8cafd2c95b018#128⟩ = 1 := by
  decide +kernel

theorem isField : IsField GF2p128 := by
  have hfix : X ^ 2 ^ 2 ^ (6 + 1) = X := by
    rw [← squareIter_eq]
    exact squareIter_X_128
  have hunit : IsUnit (X ^ 2 ^ 2 ^ 6 - X) := by
    rw [← squareIter_eq]
    exact IsUnit.of_mul_eq_one _ squareIter_X_64_unit
  exact Lib.isField_of_frobenius_orbit Nat.prime_two Nat.prime_two card_eq hfix hunit

/-- The exponent of `inv` is `2^128 - 2`. -/
theorem inv_eq (a : GF2p128) : inv a = a ^ (2 ^ 128 - 2) := by
  have hexp : (BitVec.allOnes 128 - 1#128).toNat = 2 ^ 128 - 2 := by decide +kernel
  unfold inv
  simp only [pow_eq, hexp]

theorem inv_zero : inv 0 = 0 := by
  rw [inv_eq, zero_pow (by norm_num)]

theorem mul_inv_cancel {a : GF2p128} (ha : a ≠ 0) : a * inv a = 1 := by
  have hpow : ∀ n, n + 1 = Fintype.card GF2p128 - 1 → a * a ^ n = 1 := by
    intro n hn
    rw [← pow_succ', hn]
    exact Lib.pow_card_sub_one_of_isField isField ha
  rw [inv_eq]
  exact hpow (2 ^ 128 - 2) (by rw [card_eq]; norm_num)

instance : Field GF2p128 where
  inv := inv
  exists_pair_ne := exists_pair_ne GF2p128
  mul_inv_cancel _ ha := mul_inv_cancel ha
  inv_zero := inv_zero
  nnqsmul := _
  nnqsmul_def _ _ := rfl
  qsmul := _
  qsmul_def _ _ := rfl

/-! ## Bits as field elements -/

@[simp] theorem ofBool_add_ofBool (a b : Bool) : ofBool a + ofBool b = ofBool (a ^^ b) := by
  cases a <;> cases b <;> simp [add_self]

@[simp] theorem ofBool_mul_ofBool (a b : Bool) : ofBool a * ofBool b = ofBool (a && b) := by
  cases a <;> cases b <;> simp

theorem one_add_ofBool (a : Bool) : 1 + ofBool a = ofBool (!a) := by
  cases a <;> simp [add_self]

theorem ofBool_eq_zero {a : Bool} : ofBool a = 0 ↔ a = false := by
  cases a <;> simp

end GF2p128

end VoleAct.BinaryFields
