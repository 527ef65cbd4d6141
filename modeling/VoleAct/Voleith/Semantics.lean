/-
  VoleAct.Voleith.Semantics

  What a circuit program means to each backend.

  A wire denotes the linear polynomial `tag + value·X` and an expression the
  polynomial its products and aligned sums build from those.  The coefficient at
  the degree is the value.  The prover computes the coefficients, the verifier
  evaluates at `Δ`, and the counter computes the degree.
-/
import VoleAct.Lib.Lists
import VoleAct.Voleith.Proof

namespace VoleAct.Voleith

open Polynomial VoleAct.BinaryFields VoleAct.Lib

/-! ## The polynomial of a term -/

/-- `tag + value·X`. -/
noncomputable def Wire.poly (w : Nat → Bool) (v : Nat → GF2p128) (a : Wire) : GF2p128[X] :=
  C (a.tag v) + C (a.value w) * X

/-- The polynomial of an expression; a sum aligns the leading coefficients. -/
noncomputable def Expr.poly (w : Nat → Bool) (v : Nat → GF2p128) : Expr → GF2p128[X]
  | wireExpr a => a.poly w v
  | exprAdd a b =>
      X ^ (max a.degree b.degree - a.degree) * a.poly w v +
        X ^ (max a.degree b.degree - b.degree) * b.poly w v
  | exprMul a b => a.poly w v * b.poly w v

theorem natDegree_tag_add_value_le (p q : GF2p128) : (C p + C q * X).natDegree ≤ 1 := by
  rw [add_comm]
  exact natDegree_linear_le

theorem Expr.natDegree_poly_le (w : Nat → Bool) (v : Nat → GF2p128) (e : Expr) :
    (e.poly w v).natDegree ≤ e.degree := by
  induction e with
  | wireExpr a => exact natDegree_tag_add_value_le _ _
  | exprAdd a b iha ihb =>
      apply natDegree_add_le_of_degree_le
      · refine (natDegree_mul_le_of_le (natDegree_X_pow_le _) iha).trans ?_
        simp only [degree]
        omega
      · refine (natDegree_mul_le_of_le (natDegree_X_pow_le _) ihb).trans ?_
        simp only [degree]
        omega
  | exprMul a b iha ihb => exact natDegree_mul_le_of_le iha ihb

/-- A shift moves the coefficient at the degree to the aligned degree. -/
theorem coeff_align {p : GF2p128[X]} {n m : Nat} (h : n ≤ m) :
    (X ^ (m - n) * p).coeff m = p.coeff n := by
  have hm : m = n + (m - n) := by omega
  conv_lhs => rw [hm]
  rw [show n + (m - n) - n = m - n by omega, coeff_X_pow_mul]

/-- The coefficient at the degree is the value. -/
theorem Expr.coeff_degree (w : Nat → Bool) (v : Nat → GF2p128) (e : Expr) :
    (e.poly w v).coeff e.degree = e.value w := by
  induction e with
  | wireExpr a => simp [poly, Wire.poly, degree, value]
  | exprAdd a b iha ihb =>
      simp only [poly, degree, value, coeff_add]
      rw [coeff_align (Nat.le_max_left _ _), coeff_align (Nat.le_max_right _ _), iha, ihb]
  | exprMul a b iha ihb =>
      simp only [poly, degree, value]
      rw [coeff_mul_add_eq_of_natDegree_le (natDegree_poly_le w v a) (natDegree_poly_le w v b), iha, ihb]

/-! ## The polynomial of a constraint -/

namespace QuadSystem

/-- The folded coefficient `Σ_e φ_e·embed(c_e)` of a term. -/
def foldedCoeff (phis : List GF2p128) (coeffs : List GF16) : GF2p128 :=
  (List.zipWith (fun phi c => phi * embedGf16 c) phis coeffs).sum

/-- The polynomial of a system folded with `phis`: its terms, and `X` times its linear part. -/
noncomputable def poly (w : Nat → Bool) (v : Nat → GF2p128) (s : QuadSystem)
    (phis : List GF2p128) : GF2p128[X] :=
  (s.terms.map fun t => C (foldedCoeff phis t.coeffs) * (t.a.poly w v * t.b.poly w v)).sum +
    X * (List.zipWith (fun phi l => C phi * l.poly w v) phis s.linear).sum

/-- The folded value of the equations. -/
def foldedValue (s : QuadSystem) (w : Nat → Bool) (phis : List GF2p128) : GF2p128 :=
  (List.zipWith (fun phi e => phi * s.equation w e) phis (List.range s.linear.length)).sum

end QuadSystem

namespace Constraint

/-- Number of fold coefficients a constraint draws. -/
def numPhis : Constraint → Nat
  | system s => s.linear.length
  | _ => 0

/-- The error of a constraint: zero when it holds. -/
def error (w : Nat → Bool) (phis : List GF2p128) : Constraint → GF2p128
  | zero a => a.value w
  | mul a b c => a.value w * b.value w + c.value w
  | system s => s.foldedValue w phis
  | expr e => e.value w

/-- The polynomial of a constraint; linear checks are homogenized to degree two. -/
noncomputable def poly (w : Nat → Bool) (v : Nat → GF2p128) (phis : List GF2p128) :
    Constraint → GF2p128[X]
  | zero a => X * a.poly w v
  | mul a b c => a.poly w v * b.poly w v + X * c.poly w v
  | system s => s.poly w v phis
  | expr e => e.poly w v

end Constraint

theorem Wire.coeff_one (w : Nat → Bool) (v : Nat → GF2p128) (a : Wire) :
    (a.poly w v).coeff 1 = a.value w := by
  simp [Wire.poly]

theorem Wire.natDegree_poly_le (w : Nat → Bool) (v : Nat → GF2p128) (a : Wire) :
    (a.poly w v).natDegree ≤ 1 := natDegree_tag_add_value_le _ _

theorem coeff_two_mul (w : Nat → Bool) (v : Nat → GF2p128) (a b : Wire) :
    (a.poly w v * b.poly w v).coeff 2 = a.value w * b.value w := by
  rw [show 2 = 1 + 1 from rfl,
    coeff_mul_add_eq_of_natDegree_le (a.natDegree_poly_le w v) (b.natDegree_poly_le w v),
    Wire.coeff_one, Wire.coeff_one]

theorem coeff_list_sum (l : List GF2p128[X]) (i : Nat) :
    l.sum.coeff i = (l.map fun p => p.coeff i).sum := by
  induction l with
  | nil => simp
  | cons p l ih => simp [ih]

theorem natDegree_list_sum_le {l : List GF2p128[X]} {n : Nat} (h : ∀ p ∈ l, p.natDegree ≤ n) :
    l.sum.natDegree ≤ n := by
  induction l with
  | nil => simp
  | cons p l ih =>
      rw [List.sum_cons]
      exact natDegree_add_le_of_degree_le (h p (by simp)) (ih fun q hq => h q (by simp [hq]))

theorem sum_zipWith_range_getD {α : Type} (f : GF2p128 → α → GF2p128) (d : α)
    {phis : List GF2p128} {xs : List α} (h : phis.length = xs.length) :
    (List.zipWith f phis xs).sum =
      ∑ e ∈ Finset.range xs.length, f (phis.getD e 0) (xs.getD e d) := by
  induction xs generalizing phis with
  | nil => simp
  | cons x xs ih =>
      cases phis with
      | nil => simp at h
      | cons phi phis =>
          rw [List.zipWith_cons_cons, List.sum_cons, ih (by simpa using h), List.length_cons,
            Finset.sum_range_succ']
          simp [add_comm]

/-- Folding the terms with `phis` is folding the equations with `phis`. -/
theorem QuadSystem.foldedValue_eq (s : QuadSystem) (w : Nat → Bool) {phis : List GF2p128}
    (h : phis.length = s.linear.length) :
    s.foldedValue w phis =
      (s.terms.map fun t => foldedCoeff phis t.coeffs * (t.a.value w * t.b.value w)).sum +
        (List.zipWith (fun phi l => phi * l.value w) phis s.linear).sum := by
  have hterm : ∀ t ∈ s.terms, foldedCoeff phis t.coeffs =
      ∑ e ∈ Finset.range s.linear.length, phis.getD e 0 * embedGf16 (t.coeffs.getD e 0) := by
    intro t ht
    rw [foldedCoeff, sum_zipWith_range_getD _ 0 (by rw [h, s.length_coeffs t ht]),
      s.length_coeffs t ht]
  -- the sum over the equations and the sum over the terms change places
  have hterms : (s.terms.map fun t => foldedCoeff phis t.coeffs * (t.a.value w * t.b.value w)).sum =
      ∑ e ∈ Finset.range s.linear.length, phis.getD e 0 *
        (s.terms.map fun t =>
          embedGf16 (t.coeffs.getD e 0) * (t.a.value w * t.b.value w)).sum := by
    have hexpand (t : QuadTerm) (ht : t ∈ s.terms) :
        foldedCoeff phis t.coeffs * (t.a.value w * t.b.value w) =
          ∑ e ∈ Finset.range s.linear.length, phis.getD e 0 *
            (embedGf16 (t.coeffs.getD e 0) * (t.a.value w * t.b.value w)) := by
      rw [hterm t ht, Finset.sum_mul]
      exact Finset.sum_congr rfl fun e _ => mul_assoc _ _ _
    rw [List.map_congr_left hexpand, sum_map_finsetSum]
    exact Finset.sum_congr rfl fun e _ => List.sum_map_mul_left _ _ _
  rw [foldedValue, sum_zipWith_range_getD _ 0 (by simpa using h), hterms,
    sum_zipWith_range_getD _ (Wire.constant 0) h, List.length_range, ← Finset.sum_add_distrib]
  apply Finset.sum_congr rfl
  intro e he
  have he' : e < s.linear.length := Finset.mem_range.mp he
  have hrange : (List.range s.linear.length).getD e 0 = e := by
    rw [List.getD_eq_getElem?_getD, List.getElem?_range he', Option.getD_some]
  rw [hrange, QuadSystem.equation]
  ring

theorem Constraint.natDegree_poly_le (w : Nat → Bool) (v : Nat → GF2p128) (phis : List GF2p128)
    (c : Constraint) : (c.poly w v phis).natDegree ≤ c.degree := by
  -- a homogenized wire and a product of two wires have degree two
  have hX : ∀ a : Wire, (X * a.poly w v).natDegree ≤ 2 := fun a =>
    natDegree_mul_le_of_le natDegree_X_le (a.natDegree_poly_le w v)
  have hmul : ∀ a b : Wire, (a.poly w v * b.poly w v).natDegree ≤ 2 := fun a b =>
    natDegree_mul_le_of_le (a.natDegree_poly_le w v) (b.natDegree_poly_le w v)
  cases c with
  | zero a => exact hX a
  | mul a b c => exact natDegree_add_le_of_degree_le (hmul a b) (hX c)
  | system s =>
      apply natDegree_add_le_of_degree_le
      · apply natDegree_list_sum_le
        intro p hp
        obtain ⟨t, -, rfl⟩ := List.mem_map.mp hp
        exact (natDegree_C_mul_le _ _).trans (hmul t.a t.b)
      · apply natDegree_mul_le_of_le (m := 1) (n := 1) natDegree_X_le
        apply natDegree_list_sum_le
        intro p hp
        obtain ⟨i, h1, rfl⟩ := List.getElem_of_mem hp
        rw [List.getElem_zipWith]
        exact (natDegree_C_mul_le _ _).trans (Wire.natDegree_poly_le w v _)
  | expr e => exact e.natDegree_poly_le w v

/-- The coefficient of a constraint's polynomial at its degree is its error. -/
theorem Constraint.coeff_degree (w : Nat → Bool) (v : Nat → GF2p128) {phis : List GF2p128}
    (c : Constraint) (h : phis.length = c.numPhis) :
    (c.poly w v phis).coeff c.degree = c.error w phis := by
  have hX : ∀ a : Wire, (X * a.poly w v).coeff 2 = a.value w := fun a => by
    rw [show 2 = 1 + 1 from rfl, coeff_X_mul, Wire.coeff_one]
  cases c with
  | zero a => exact hX a
  | mul a b c =>
      simp only [poly, degree, error]
      rw [coeff_add, coeff_two_mul, hX]
  | system s =>
      simp only [poly, degree, error, QuadSystem.poly]
      rw [s.foldedValue_eq w h, coeff_add, coeff_list_sum, List.map_map,
        show 2 = 1 + 1 from rfl, coeff_X_mul, coeff_list_sum, List.map_zipWith]
      congr 1
      · congr 1
        apply List.map_congr_left
        intro t _
        simp only [Function.comp_apply, coeff_C_mul]
        rw [show 1 + 1 = 2 from rfl, coeff_two_mul]
      · simp only [coeff_C_mul, Wire.coeff_one]
  | expr e => exact e.coeff_degree w v

end VoleAct.Voleith
