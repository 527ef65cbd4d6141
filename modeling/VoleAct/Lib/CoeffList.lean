/-
  VoleAct.Lib.CoeffList

  Coefficient lists, low to high, and the polynomials they denote.

  The three loops programs run over such lists are adding a list at an offset,
  the schoolbook product and Horner evaluation.  `toPoly` carries each to the
  operation on polynomials.
-/
import Mathlib

namespace VoleAct.Lib

open Polynomial

variable {R : Type} [CommSemiring R]

/-- Add `cs` to `out` from position `shift` on; entries past the end are dropped. -/
def addAt : (out : List R) → (shift : ℕ) → (cs : List R) → List R
  | out, _, [] => out
  | out, shift, c :: cs => addAt (out.modify shift (· + c)) (shift + 1) cs

/-- The schoolbook product, accumulated into `out` row by row. -/
def mulAt : (out : List R) → (shift : ℕ) → (as bs : List R) → List R
  | out, _, [], _ => out
  | out, shift, a :: as, bs => mulAt (addAt out shift (bs.map (a * ·))) (shift + 1) as bs

/-- Horner evaluation, from the highest coefficient down. -/
def evalCoeffs (cs : List R) (x : R) : R := cs.reverse.foldl (fun acc c => acc * x + c) 0

/-- The polynomial a coefficient list denotes. -/
noncomputable def toPoly : List R → R[X]
  | [] => 0
  | c :: cs => C c + X * toPoly cs

@[simp] theorem toPoly_nil : toPoly ([] : List R) = 0 := rfl

@[simp] theorem toPoly_cons (c : R) (cs : List R) : toPoly (c :: cs) = C c + X * toPoly cs := rfl

theorem coeff_toPoly (cs : List R) (i : ℕ) : (toPoly cs).coeff i = cs.getD i 0 := by
  induction cs generalizing i with
  | nil => simp
  | cons c cs ih =>
      cases i with
      | zero => simp
      | succ i => simp [ih]

theorem toPoly_map_mul (a : R) (cs : List R) : toPoly (cs.map (a * ·)) = C a * toPoly cs := by
  induction cs with
  | nil => simp
  | cons c cs ih =>
      rw [List.map_cons, toPoly_cons, ih, toPoly_cons, C_mul]
      ring

theorem toPoly_concat (cs : List R) (x : R) :
    toPoly (cs ++ [x]) = toPoly cs + C x * X ^ cs.length := by
  induction cs with
  | nil => simp
  | cons c cs ih =>
      rw [List.cons_append, toPoly_cons, ih, toPoly_cons, List.length_cons, pow_succ]
      ring

theorem toPoly_replicate_zero (n : ℕ) : toPoly (List.replicate n (0 : R)) = 0 := by
  induction n with
  | zero => rfl
  | succ n ih => rw [List.replicate_succ, toPoly_cons, ih]; simp

theorem evalCoeffs_eq (cs : List R) (x : R) : evalCoeffs cs x = (toPoly cs).eval x := by
  rw [evalCoeffs, List.foldl_reverse]
  induction cs with
  | nil => simp
  | cons c cs ih =>
      rw [List.foldr_cons, ih, toPoly_cons]
      simp [mul_comm, add_comm]

@[simp] theorem addAt_length (out : List R) (shift : ℕ) (cs : List R) :
    (addAt out shift cs).length = out.length := by
  induction cs generalizing out shift with
  | nil => rfl
  | cons c cs ih => rw [addAt, ih, List.length_modify]

@[simp] theorem mulAt_length (out : List R) (shift : ℕ) (as bs : List R) :
    (mulAt out shift as bs).length = out.length := by
  induction as generalizing out shift with
  | nil => rfl
  | cons a as ih => rw [mulAt, ih, addAt_length]

theorem toPoly_modify {out : List R} {i : ℕ} (c : R) (hi : i < out.length) :
    toPoly (out.modify i (· + c)) = toPoly out + C c * X ^ i := by
  induction out generalizing i with
  | nil => simp at hi
  | cons o out ih =>
      cases i with
      | zero =>
          simp only [List.modify_zero_cons, toPoly_cons, C_add, pow_zero, mul_one]
          ring
      | succ i =>
          rw [List.modify_succ_cons, toPoly_cons, ih (by simpa using hi), toPoly_cons, pow_succ]
          ring

/-- Adding at an offset inside the output adds a shifted polynomial. -/
theorem toPoly_addAt {out : List R} {shift : ℕ} {cs : List R} (h : shift + cs.length ≤ out.length) :
    toPoly (addAt out shift cs) = toPoly out + X ^ shift * toPoly cs := by
  induction cs generalizing out shift with
  | nil => simp [addAt]
  | cons c cs ih =>
      rw [List.length_cons] at h
      rw [addAt, ih (by rw [List.length_modify]; omega), toPoly_modify c (by omega), toPoly_cons,
        pow_succ]
      ring

/-- The schoolbook product inside the output is the product of the polynomials. -/
theorem toPoly_mulAt {out : List R} {shift : ℕ} {as bs : List R}
    (h : shift + as.length + bs.length ≤ out.length + 1) :
    toPoly (mulAt out shift as bs) = toPoly out + X ^ shift * (toPoly as * toPoly bs) := by
  induction as generalizing out shift with
  | nil => simp [mulAt]
  | cons a as ih =>
      rw [List.length_cons] at h
      rw [mulAt, ih (by rw [addAt_length]; omega), toPoly_addAt (by rw [List.length_map]; omega),
        toPoly_map_mul, toPoly_cons, pow_succ]
      ring

theorem natDegree_toPoly_le {cs : List R} {n : ℕ} (h : cs.length ≤ n + 1) :
    (toPoly cs).natDegree ≤ n := by
  rw [natDegree_le_iff_coeff_eq_zero]
  intro i hi
  rw [coeff_toPoly, List.getD_eq_getElem?_getD, List.getElem?_eq_none (by omega)]
  rfl

/-- A polynomial that vanishes from `n` on is a list of `n` coefficients. -/
theorem exists_toPoly_eq {p : R[X]} {n : ℕ} (hdeg : p.natDegree ≤ n) (hlead : p.coeff n = 0) :
    ∃ cs : List R, cs.length = n ∧ toPoly cs = p := by
  refine ⟨(List.range n).map p.coeff, by simp, ?_⟩
  ext i
  rw [coeff_toPoly, List.getD_eq_getElem?_getD, List.getElem?_map]
  rcases Nat.lt_or_ge i n with hi | hi
  · simp [List.getElem?_range hi]
  · rw [List.getElem?_eq_none (by simpa using hi)]
    rcases Nat.eq_or_lt_of_le hi with rfl | hlt
    · exact hlead.symm
    · exact (coeff_eq_zero_of_natDegree_lt (hdeg.trans_lt hlt)).symm

/-- A polynomial of degree exactly `n` agrees with a list of `n` coefficients on at most `n`
    points. -/
theorem card_agreeing_le {K : Type} [CommRing K] [IsDomain K] {p : K[X]} {n : ℕ}
    (hdeg : p.natDegree ≤ n) (hlead : p.coeff n ≠ 0) {cs : List K} (hlen : cs.length = n)
    {points : Finset K} (h : ∀ x ∈ points, p.eval x = (toPoly cs).eval x) :
    points.card ≤ n := by
  have hzero : (toPoly cs).coeff n = 0 := by
    rw [coeff_toPoly, List.getD_eq_getElem?_getD, List.getElem?_eq_none hlen.le]
    rfl
  have hne : p - toPoly cs ≠ 0 := by
    intro hsub
    apply hlead
    rw [sub_eq_zero.mp hsub, hzero]
  have hcs : (toPoly cs).natDegree ≤ n := natDegree_toPoly_le (hlen.le.trans (Nat.le_succ n))
  calc points.card ≤ (p - toPoly cs).natDegree := by
        apply card_le_degree_of_subset_roots
        intro x hx
        rw [mem_roots hne, IsRoot.def, eval_sub, h x hx, sub_self]
    _ ≤ max n n := natDegree_sub_le_of_le hdeg hcs
    _ = n := max_self n

end VoleAct.Lib
