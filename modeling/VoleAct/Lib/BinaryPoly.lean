/-
  VoleAct.Lib.BinaryPoly

  Words as polynomials over `F_2`: exclusive or is addition, shifting is
  multiplication by a power of the indeterminate, and the carry-less product is
  the product.
-/
import Mathlib

namespace VoleAct.Lib

open Polynomial

variable {w : ℕ}

/-- The polynomial whose coefficients are the bits of a word. -/
noncomputable def bitPoly (v : BitVec w) : (ZMod 2)[X] :=
  ∑ i ∈ Finset.range w, if v.getLsbD i then X ^ i else 0

theorem coeff_bitPoly (v : BitVec w) (i : ℕ) :
    (bitPoly v).coeff i = if v.getLsbD i then 1 else 0 := by
  have hterm (j : ℕ) : (if v.getLsbD j then (X : (ZMod 2)[X]) ^ j else 0).coeff i =
      if i = j then (if v.getLsbD i then 1 else 0) else 0 := by
    by_cases hij : i = j
    · subst hij
      cases v.getLsbD i <;> simp
    · cases v.getLsbD j <;> simp [hij, coeff_X_pow]
  rw [bitPoly, finsetSum_coeff, Finset.sum_congr rfl fun j _ => hterm j, Finset.sum_ite_eq]
  by_cases hi : i < w
  · rw [if_pos (Finset.mem_range.mpr hi)]
  · rw [if_neg (by simpa using hi), BitVec.getLsbD_of_ge v i (by omega), if_neg Bool.false_ne_true]

@[simp] theorem bitPoly_zero : bitPoly 0#w = 0 := by
  ext i
  simp [coeff_bitPoly]

theorem bitPoly_one (hw : 0 < w) : bitPoly 1#w = 1 := by
  ext i
  rw [coeff_bitPoly, BitVec.getLsbD_one, coeff_one, decide_eq_true hw, Bool.true_and]
  simp [eq_comm]

theorem bitPoly_inj {a b : BitVec w} (h : bitPoly a = bitPoly b) : a = b := by
  apply BitVec.eq_of_getLsbD_eq
  intro i hi
  have hcoeff := congrArg (fun p => p.coeff i) h
  simp only [coeff_bitPoly] at hcoeff
  cases ha : a.getLsbD i <;> cases hb : b.getLsbD i <;> simp_all

theorem degree_bitPoly_lt (v : BitVec w) : (bitPoly v).degree < w := by
  rw [degree_lt_iff_coeff_zero]
  intro i hi
  rw [coeff_bitPoly, BitVec.getLsbD_of_ge v i hi, if_neg Bool.false_ne_true]

theorem bitPoly_xor (a b : BitVec w) : bitPoly (a ^^^ b) = bitPoly a + bitPoly b := by
  ext i
  rw [coeff_add, coeff_bitPoly, coeff_bitPoly, coeff_bitPoly, BitVec.getLsbD_xor]
  cases a.getLsbD i <;> cases b.getLsbD i <;> decide

/-- Words whose bits are set in different places. -/
theorem bitPoly_or {a b : BitVec w} (h : ∀ i, a.getLsbD i = true → b.getLsbD i = false) :
    bitPoly (a ||| b) = bitPoly a + bitPoly b := by
  rw [← bitPoly_xor]
  congr 1
  apply BitVec.eq_of_getLsbD_eq
  intro i _
  rw [BitVec.getLsbD_or, BitVec.getLsbD_xor]
  cases ha : a.getLsbD i with
  | false => simp
  | true => rw [h i ha]; rfl

theorem bitPoly_setWidth {v : ℕ} (a : BitVec w) (h : w ≤ v) : bitPoly (a.setWidth v) = bitPoly a := by
  ext i
  rw [coeff_bitPoly, coeff_bitPoly, BitVec.getLsbD_setWidth]
  by_cases hi : i < v
  · rw [decide_eq_true hi, Bool.true_and]
  · rw [decide_eq_false hi, Bool.false_and, BitVec.getLsbD_of_ge a i (by omega)]

/-- A shift is a product, up to the bits shifted out. -/
theorem bitPoly_shiftLeft (v : BitVec w) {k : ℕ} (hk : k ≤ w) :
    X ^ k * bitPoly v = bitPoly (v <<< k) + X ^ w * bitPoly (v >>> (w - k)) := by
  ext i
  rw [coeff_add, coeff_X_pow_mul', coeff_X_pow_mul', coeff_bitPoly, coeff_bitPoly, coeff_bitPoly,
    BitVec.getLsbD_shiftLeft, BitVec.getLsbD_ushiftRight]
  rcases Nat.lt_or_ge i k with hik | hik
  · simp [hik, Nat.not_le.mpr hik, show ¬ w ≤ i by omega]
  · rcases Nat.lt_or_ge i w with hiw | hiw
    · simp [hik, hiw, Nat.not_lt.mpr hik, Nat.not_le.mpr hiw]
    · simp [hik, hiw, Nat.not_lt.mpr hiw, show w - k + (i - w) = i - k by omega]

/-- A shift that loses no bit. -/
theorem bitPoly_shiftLeft_of_lt {v : BitVec w} {k : ℕ} (hk : k ≤ w)
    (h : ∀ i, w - k ≤ i → v.getLsbD i = false) : bitPoly (v <<< k) = X ^ k * bitPoly v := by
  have hzero : v >>> (w - k) = 0#w := by
    apply BitVec.eq_of_getLsbD_eq
    intro i _
    rw [BitVec.getLsbD_ushiftRight, h _ (Nat.le_add_right _ _), BitVec.getLsbD_zero]
  rw [bitPoly_shiftLeft v hk, hzero, bitPoly_zero, mul_zero, add_zero]

/-- A word is its low part and its high part. -/
theorem bitPoly_split (v : BitVec w) (k : ℕ) :
    bitPoly v = bitPoly (v.setWidth k) + X ^ k * bitPoly (v >>> k) := by
  ext i
  rw [coeff_add, coeff_X_pow_mul', coeff_bitPoly, coeff_bitPoly, coeff_bitPoly,
    BitVec.getLsbD_setWidth, BitVec.getLsbD_ushiftRight]
  rcases Nat.lt_or_ge i k with hik | hik
  · simp [hik, Nat.not_le.mpr hik]
  · simp [hik, Nat.not_lt.mpr hik, Nat.add_sub_of_le hik]

/-- The carry-less product, in a word of `v` bits. -/
def clmul (v : ℕ) (a b : BitVec w) : BitVec v :=
  (List.range w).foldl
    (fun acc i => if b.getLsbD i then acc ^^^ (a.setWidth v <<< i) else acc) 0#v

/-- In a wide enough word the carry-less product is the product. -/
theorem bitPoly_clmul {v : ℕ} (h : w + w ≤ v) (a b : BitVec w) :
    bitPoly (clmul v a b) = bitPoly a * bitPoly b := by
  have hsteps (n : ℕ) (hn : n ≤ w) : bitPoly ((List.range n).foldl
      (fun acc i => if b.getLsbD i then acc ^^^ (a.setWidth v <<< i) else acc) 0#v) =
        bitPoly a * ∑ i ∈ Finset.range n, if b.getLsbD i then X ^ i else 0 := by
    induction n with
    | zero => simp
    | succ n ih =>
        have hshift : bitPoly (a.setWidth v <<< n) = X ^ n * bitPoly a := by
          rw [bitPoly_shiftLeft_of_lt (by omega), bitPoly_setWidth a (by omega)]
          intro i hi
          rw [BitVec.getLsbD_setWidth, BitVec.getLsbD_of_ge a i (by omega), Bool.and_false]
        rw [List.range_succ, List.foldl_append, List.foldl_cons, List.foldl_nil,
          Finset.sum_range_succ, mul_add, ← ih (by omega)]
        cases b.getLsbD n with
        | false => simp
        | true => rw [if_pos rfl, if_pos rfl, bitPoly_xor, hshift, mul_comm (bitPoly a)]
  exact hsteps w le_rfl

/-- The word of a residue, when it is narrower than the modulus. -/
theorem bitPoly_eq_modByMonic {m : (ZMod 2)[X]} (hm : m.Monic) {v : BitVec w} (hw : w ≤ m.natDegree)
    {f : (ZMod 2)[X]} (h : AdjoinRoot.mk m (bitPoly v) = AdjoinRoot.mk m f) : bitPoly v = f %ₘ m := by
  have hdegree : (bitPoly v).degree < m.degree := by
    rw [degree_eq_natDegree hm.ne_zero]
    exact (degree_bitPoly_lt v).trans_le (by exact_mod_cast hw)
  rw [← modByMonic_eq_of_dvd_sub hm (AdjoinRoot.mk_eq_mk.mp h),
    (modByMonic_eq_self_iff hm).mpr hdegree]

end VoleAct.Lib
