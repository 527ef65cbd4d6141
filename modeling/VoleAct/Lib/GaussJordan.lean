/-
  VoleAct.Lib.GaussJordan

  Gauss-Jordan elimination over a field: one elimination step, the vectors it
  keeps in the kernel, and the reduced form the steps build up; full row rank,
  and how often a solver that corrects a given vector returns each solution.
-/
import Mathlib

namespace VoleAct.Lib

open Matrix

variable {F ι κ : Type*} [Field F] [DecidableEq ι]

/-- Put `row` at place `i` and clear column `p` of every other row with it. -/
def eliminate (A : Matrix ι κ F) (i : ι) (p : κ) (row : κ → F) : Matrix ι κ F :=
  Matrix.of fun r c => if r = i then row c else A r c - A r p * row c

theorem eliminate_row (A : Matrix ι κ F) (i : ι) (p : κ) (row : κ → F) :
    eliminate A i p row i = row := by
  funext c
  simp [eliminate]

theorem eliminate_of_ne (A : Matrix ι κ F) {i r : ι} (h : r ≠ i) (p : κ) (row : κ → F) :
    eliminate A i p row r = A r - A r p • row := by
  funext c
  simp [eliminate, h]

/-- Elimination with a multiple of `A i + w` loses no equation, when `w` vanishes wherever the other
    rows of `A` do. -/
theorem mulVec_of_eliminate [Fintype κ] {A : Matrix ι κ F} {i : ι} {p : κ} {w : κ → F} {s : F}
    (hs : s ≠ 0)
    (hw : ∀ z, (∀ r, r ≠ i → A r ⬝ᵥ z = 0) → w ⬝ᵥ z = 0) {z : κ → F}
    (hz : eliminate A i p (s • (A i + w)) *ᵥ z = 0) : A *ᵥ z = 0 := by
  have hrow (r : ι) : eliminate A i p (s • (A i + w)) r ⬝ᵥ z = 0 := congrFun hz r
  -- the pivot row itself vanishes, so every cleared row did before
  have hpivot : (s • (A i + w)) ⬝ᵥ z = 0 := by
    rw [← eliminate_row A i p (s • (A i + w))]
    exact hrow i
  have hother (r : ι) (hr : r ≠ i) : A r ⬝ᵥ z = 0 := by
    have h := hrow r
    rwa [eliminate_of_ne A hr, sub_dotProduct, smul_dotProduct, hpivot, smul_zero, sub_zero] at h
  have htarget : A i ⬝ᵥ z = 0 := by
    have h : (A i + w) ⬝ᵥ z = 0 := by
      rw [smul_dotProduct, smul_eq_mul] at hpivot
      exact (mul_eq_zero.mp hpivot).resolve_left hs
    rwa [add_dotProduct, hw z hother, add_zero] at h
  funext r
  by_cases hr : r = i
  · exact hr ▸ htarget
  · exact hother r hr

/-- Column `p` is the unit vector of its pivot row, for every column that has one, and no two
    columns share a pivot row. -/
structure Reduced (A : Matrix ι κ F) (pivot : κ → Option ι) : Prop where
  unit : ∀ p i, pivot p = some i → ∀ r, A r p = if r = i then 1 else 0
  inj : ∀ p q i, pivot p = some i → pivot q = some i → p = q

theorem Reduced.none (A : Matrix ι κ F) : Reduced A fun _ => none where
  unit _ _ h := nomatch h
  inj _ _ _ h := nomatch h

/-- Eliminating with a row that is 1 at the new pivot and 0 at the old ones extends the form. -/
theorem Reduced.eliminate [DecidableEq κ] {A : Matrix ι κ F} {pivot : κ → Option ι}
    (h : Reduced A pivot) {i : ι} {p : κ} {row : κ → F} (hp : row p = 1)
    (hfresh : ∀ q, pivot q ≠ some i) (hrow : ∀ q j, q ≠ p → pivot q = some j → row q = 0) :
    Reduced (eliminate A i p row) (Function.update pivot p (some i)) where
  unit q j hq r := by
    by_cases hqp : q = p
    · subst hqp
      obtain rfl : i = j := by simpa using hq
      by_cases hr : r = i
      · rw [hr, eliminate_row, hp, if_pos rfl]
      · rw [eliminate_of_ne A hr, if_neg hr, Pi.sub_apply, Pi.smul_apply, hp, smul_eq_mul, mul_one,
          sub_self]
    · rw [Function.update_of_ne hqp] at hq
      have hji : j ≠ i := fun hji => hfresh q (hji ▸ hq)
      by_cases hr : r = i
      · rw [hr, eliminate_row, hrow q j hqp hq, if_neg hji.symm]
      · rw [eliminate_of_ne A hr, Pi.sub_apply, Pi.smul_apply, hrow q j hqp hq, smul_zero, sub_zero,
          h.unit q j hq]
  inj q q' j hq hq' := by
    -- only `p` has the new pivot
    by_cases hqp : q = p <;> by_cases hqp' : q' = p
    · rw [hqp, hqp']
    · subst hqp
      rw [Function.update_self] at hq
      rw [Function.update_of_ne hqp', ← hq] at hq'
      exact absurd hq' (hfresh q')
    · subst hqp'
      rw [Function.update_self] at hq'
      rw [Function.update_of_ne hqp, ← hq'] at hq
      exact absurd hq (hfresh q)
    · rw [Function.update_of_ne hqp] at hq
      rw [Function.update_of_ne hqp'] at hq'
      exact h.inj q q' j hq hq'

/-- With a pivot in every row, the right-hand side read at the pivots is a solution. -/
theorem Reduced.mulVec_pivots [Fintype κ] {A : Matrix ι κ F} {pivot : κ → Option ι} (h : Reduced A pivot)
    (hfull : ∀ i, ∃ p, pivot p = some i) (b : ι → F) :
    (A *ᵥ fun p => (pivot p).elim 0 b) = b := by
  funext r
  obtain ⟨p, hp⟩ := hfull r
  rw [mulVec, dotProduct, Finset.sum_eq_single p]
  · rw [h.unit p r hp, if_pos rfl, hp, Option.elim_some, one_mul]
  · intro q _ hqp
    cases hq : pivot q with
    | none => rw [Option.elim_none, mul_zero]
    | some i =>
        have hri : r ≠ i := fun hri => hqp (h.inj q p r (hri ▸ hq) hp)
        rw [h.unit q i hq, if_neg hri, zero_mul]
  · exact fun hp => absurd (Finset.mem_univ p) hp

/-- With a pivot in every row there are as many pivots as rows. -/
theorem Reduced.card_pivots [Fintype ι] [Fintype κ] {A : Matrix ι κ F} {pivot : κ → Option ι}
    (h : Reduced A pivot) (hfull : ∀ i, ∃ p, pivot p = some i) :
    (Finset.univ.filter fun p => (pivot p).isSome).card = Fintype.card ι := by
  rw [← Finset.card_univ]
  refine Finset.card_bij (fun p hp => (pivot p).get (Finset.mem_filter.mp hp).2)
    (fun p _ => Finset.mem_univ _) ?_ ?_
  · intro p hp q hq hpq
    exact h.inj p q _ (Option.some_get _).symm (by rw [hpq]; exact (Option.some_get _).symm)
  · intro i _
    obtain ⟨p, hp⟩ := hfull i
    exact ⟨p, by simp [hp], by simp [hp]⟩

/-! ## Full row rank -/

section Rank

variable [Fintype ι] [Fintype κ] {A B : Matrix ι κ F}

omit [DecidableEq ι] in
theorem rank_eq_card_iff_surjective :
    A.rank = Fintype.card ι ↔ Function.Surjective (A *ᵥ ·) := by
  have hrange : LinearMap.range A.mulVecLin = ⊤ ↔ Function.Surjective (A *ᵥ ·) :=
    LinearMap.range_eq_top
  rw [← hrange, Matrix.rank]
  constructor
  · intro h
    exact Submodule.eq_top_of_finrank_eq (by rw [h, Module.finrank_fintype_fun_eq_card])
  · intro h
    rw [h, finrank_top, Module.finrank_fintype_fun_eq_card]

omit [Fintype ι] [DecidableEq ι] in
/-- A system with fewer solutions of its homogeneous equations has at least the rank. -/
theorem rank_le_of_kernel (h : ∀ z, B *ᵥ z = 0 → A *ᵥ z = 0) : A.rank ≤ B.rank := by
  have hker : LinearMap.ker B.mulVecLin ≤ LinearMap.ker A.mulVecLin := fun z hz => h z hz
  have hA := LinearMap.finrank_range_add_finrank_ker A.mulVecLin
  have hB := LinearMap.finrank_range_add_finrank_ker B.mulVecLin
  have hle := Submodule.finrank_mono hker
  rw [Matrix.rank, Matrix.rank]
  omega

/-- A zero row rules out full row rank. -/
theorem rank_ne_card_of_row_eq_zero {i : ι} (h : A i = 0) : A.rank ≠ Fintype.card ι := by
  intro hrank
  obtain ⟨z, hz⟩ := rank_eq_card_iff_surjective.mp hrank (Pi.single i 1)
  have hrow := congrFun hz i
  rw [Pi.single_eq_same] at hrow
  change A i ⬝ᵥ z = 1 at hrow
  rw [h, zero_dotProduct] at hrow
  exact zero_ne_one hrow

end Rank

/-! ## Correcting a random vector -/

section Correction

variable [Fintype ι] [Fintype κ] [DecidableEq κ] {A : Matrix ι κ F} {S : Finset κ}

/-- If the columns of a set, as many as there are rows, span everything, they are independent. -/
theorem eq_zero_of_supported [Fintype F] (hcard : S.card = Fintype.card ι)
    (hspan : ∀ y, ∃ x, (∀ c, c ∉ S → x c = 0) ∧ A *ᵥ x = y) {z : κ → F}
    (hsupp : ∀ c, c ∉ S → z c = 0) (hz : A *ᵥ z = 0) : z = 0 := by
  let extend (u : S → F) : κ → F := fun c => if h : c ∈ S then u ⟨c, h⟩ else 0
  have hextend {x : κ → F} (hx : ∀ c, c ∉ S → x c = 0) : extend (fun c => x c) = x := by
    funext c
    by_cases hc : c ∈ S
    · simp [extend, hc]
    · simp [extend, hc, hx c hc]
  have hsurj : Function.Surjective fun u : S → F => A *ᵥ extend u := by
    intro y
    obtain ⟨x, hx, hAx⟩ := hspan y
    exact ⟨fun c => x c, by rw [← hAx]; exact congrArg _ (hextend hx)⟩
  -- both sides have `|F|` to the number of rows elements
  have hbij := (Fintype.bijective_iff_surjective_and_card fun u : S → F => A *ᵥ extend u).mpr
    ⟨hsurj, by simp [hcard]⟩
  have hu : (fun c : S => z c) = fun _ => 0 := by
    apply hbij.injective
    have hzero : extend (fun _ => 0) = 0 := hextend (x := 0) fun _ _ => rfl
    show A *ᵥ extend (fun c => z c) = A *ᵥ extend fun _ => 0
    rw [hextend hsupp, hz, hzero, mulVec_zero]
  funext c
  by_cases hc : c ∈ S
  · exact congrFun hu ⟨c, hc⟩
  · exact hsupp c hc

/-- A solver that changes the given vector only at such a set of columns returns each solution for
    as many vectors as the set has values. -/
theorem card_corrected_eq [Fintype F] [DecidableEq F] (hcard : S.card = Fintype.card ι)
    (hspan : ∀ y, ∃ x, (∀ c, c ∉ S → x c = 0) ∧ A *ᵥ x = y) {f : (κ → F) → κ → F} {y : ι → F}
    (hsolves : ∀ r, A *ᵥ f r = y) (hkeeps : ∀ r c, c ∉ S → f r c = r c) {x : κ → F}
    (hx : A *ᵥ x = y) :
    (Finset.univ.filter fun r => f r = x).card = Fintype.card F ^ Fintype.card ι := by
  have hiff (r : κ → F) : f r = x ↔ ∀ c, c ∉ S → r c = x c := by
    constructor
    · rintro rfl c hc
      exact (hkeeps r c hc).symm
    · intro h
      -- two solutions that agree off the set are equal
      rw [← sub_eq_zero]
      refine eq_zero_of_supported hcard hspan (fun c hc => ?_) ?_
      · rw [Pi.sub_apply, hkeeps r c hc, h c hc, sub_self]
      · rw [mulVec_sub, hsolves, hx, sub_self]
  have hfiber : (Finset.univ.filter fun r => f r = x) =
      Fintype.piFinset fun c => if c ∈ S then Finset.univ else {x c} := by
    ext r
    rw [Finset.mem_filter, Fintype.mem_piFinset, hiff]
    simp only [Finset.mem_univ, true_and]
    refine forall_congr' fun c => ?_
    by_cases hc : c ∈ S
    · simp [hc]
    · simp [hc]
  rw [hfiber, Fintype.card_piFinset, ← hcard]
  simp only [apply_ite Finset.card, Finset.card_univ, Finset.card_singleton, Finset.prod_ite_mem,
    Finset.univ_inter, Finset.prod_const]

end Correction

end VoleAct.Lib
