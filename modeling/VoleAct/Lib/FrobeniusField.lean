/-
  VoleAct.Lib.FrobeniusField

  A finite ring of characteristic `p` with `p ^ n` elements, `n` a prime power,
  is a field as soon as one of its elements generates a Frobenius orbit of full
  length `n`.  This is Rabin's irreducibility test, read off the ring itself:
  two powers of one element decide it.
-/
import Mathlib

namespace VoleAct.Lib

/-- A Frobenius orbit: `p ^ i`-th powers are iterates of the `p`-th power. -/
theorem iterate_frobenius_apply {R : Type*} [CommRing R] (p i : Nat) (x : R) :
    (fun y : R => y ^ p)^[i] x = x ^ p ^ i := by
  induction i with
  | zero => simp
  | succ i ih => rw [Function.iterate_succ_apply', ih, ← pow_mul, Nat.pow_succ]

/-- In a finite field of `p ^ e` elements, an element fixed by `n` but not by
    `n / ℓ` Frobenius steps, `n = ℓ ^ (k + 1)`, has an orbit of length `n`, and
    that length divides `e`. -/
theorem dvd_degree_of_frobenius_orbit {K : Type*} [Field K] [Fintype K] {p e ℓ k : Nat}
    (hℓ : ℓ.Prime) (hcard : Fintype.card K = p ^ e) {x : K}
    (hfix : x ^ p ^ ℓ ^ (k + 1) = x) (hmove : x ^ p ^ ℓ ^ k ≠ x) : ℓ ^ (k + 1) ∣ e := by
  have hN : Function.IsPeriodicPt (fun y : K => y ^ p) (ℓ ^ (k + 1)) x := by
    rw [Function.IsPeriodicPt, Function.IsFixedPt, iterate_frobenius_apply, hfix]
  have he : Function.IsPeriodicPt (fun y : K => y ^ p) e x := by
    rw [Function.IsPeriodicPt, Function.IsFixedPt, iterate_frobenius_apply, ← hcard,
      FiniteField.pow_card]
  obtain ⟨i, hi, hgcd⟩ := (Nat.dvd_prime_pow hℓ).mp (Nat.gcd_dvd_right e (ℓ ^ (k + 1)))
  -- A proper divisor of `ℓ ^ (k + 1)` divides `ℓ ^ k`, which does not fix `x`.
  rcases Nat.lt_or_ge i (k + 1) with hlt | hge
  · have hper : Function.IsPeriodicPt (fun y : K => y ^ p) (ℓ ^ k) x :=
      (he.gcd hN).trans_dvd (hgcd ▸ pow_dvd_pow ℓ (by omega))
    rw [Function.IsPeriodicPt, Function.IsFixedPt, iterate_frobenius_apply] at hper
    exact absurd hper hmove
  · have : i = k + 1 := by omega
    rw [← this, ← hgcd]
    exact Nat.gcd_dvd_left e _

/-- A finite ring of `p ^ n` elements and characteristic `p`, `n = ℓ ^ (k + 1)`,
    that holds an element fixed by the `n`-th Frobenius power and moved by a unit
    under the `n / ℓ`-th, is a field. -/
theorem isField_of_frobenius_orbit {R : Type*} [CommRing R] [Fintype R] [Nontrivial R]
    {p ℓ k : Nat} (hp : p.Prime) (hℓ : ℓ.Prime) [CharP R p]
    (hcard : Fintype.card R = p ^ ℓ ^ (k + 1)) {x : R}
    (hfix : x ^ p ^ ℓ ^ (k + 1) = x) (hunit : IsUnit (x ^ p ^ ℓ ^ k - x)) : IsField R := by
  obtain ⟨M, hM⟩ := Ideal.exists_maximal R
  let K := R ⧸ M
  let _ : Field K := Ideal.Quotient.field M
  let _ : Fintype K := Fintype.ofFinite K
  have hsurj : Function.Surjective (Ideal.Quotient.mk M) := Ideal.Quotient.mk_surjective
  have _ : CharP K p := by
    refine (CharP.charP_iff_prime_eq_zero hp).mpr ?_
    rw [← map_natCast (Ideal.Quotient.mk M), CharP.cast_eq_zero, map_zero]
  have _ : Fact p.Prime := ⟨hp⟩
  obtain ⟨e, -, hKcard⟩ := FiniteField.card K p
  have hxfix : (Ideal.Quotient.mk M x) ^ p ^ ℓ ^ (k + 1) = Ideal.Quotient.mk M x := by
    rw [← map_pow, hfix]
  have hxmove : (Ideal.Quotient.mk M x) ^ p ^ ℓ ^ k ≠ Ideal.Quotient.mk M x := by
    have h := (hunit.map (Ideal.Quotient.mk M)).ne_zero
    rwa [map_sub, map_pow, sub_ne_zero] at h
  have hdvd := dvd_degree_of_frobenius_orbit hℓ hKcard hxfix hxmove
  -- The residue field is as large as the ring, so the ideal is zero.
  have hle : Fintype.card R ≤ Fintype.card K := by
    rw [hcard, hKcard]
    exact Nat.pow_le_pow_right hp.pos (Nat.le_of_dvd e.pos hdvd)
  have hbij : Function.Bijective (Ideal.Quotient.mk M) :=
    (Fintype.bijective_iff_surjective_and_card _).mpr
      ⟨hsurj, le_antisymm hle (Fintype.card_le_of_surjective _ hsurj)⟩
  exact (RingEquiv.ofBijective (Ideal.Quotient.mk M) hbij).toMulEquiv.isField
    (Field.toIsField K)

/-- Fermat's little theorem for a finite ring that is a field. -/
theorem pow_card_sub_one_of_isField {R : Type*} [CommRing R] [Fintype R] (h : IsField R)
    {a : R} (ha : a ≠ 0) : a ^ (Fintype.card R - 1) = 1 := by
  let _ : Field R := h.toField
  exact FiniteField.pow_card_sub_one_eq_one a ha

end VoleAct.Lib
