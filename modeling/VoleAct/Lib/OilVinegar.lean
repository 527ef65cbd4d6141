/-
  VoleAct.Lib.OilVinegar

  Oil-and-vinegar cancellation: a bilinear form whose quadratic form vanishes
  on a subspace becomes affine in the part of its argument that lies there.
-/
import Mathlib

namespace VoleAct.Lib

variable {F E κ : Type*} [CommRing F] [AddCommGroup E] [Module F E] [DecidableEq κ]

/-- The symmetrized form. -/
def polar (B : LinearMap.BilinForm F E) (x y : E) : F := B x y + B y x

/-- The form of one pair of blocks: quadratic on the diagonal, symmetrized off it. -/
def pairForm (B : LinearMap.BilinForm F E) (s : κ → E) (i j : κ) : F :=
  if i = j then B (s i) (s i) else B (s i) (s j) + B (s j) (s i)

omit [DecidableEq κ] in
/-- Where the quadratic form vanishes, the symmetrized form does. -/
theorem polar_eq_zero {B : LinearMap.BilinForm F E} {W : Submodule F E}
    (hW : ∀ w ∈ W, B w w = 0) {w w' : E} (hw : w ∈ W) (hw' : w' ∈ W) : polar B w w' = 0 := by
  have h := hW (w + w') (W.add_mem hw hw')
  simp only [map_add, LinearMap.add_apply, hW w hw, hW w' hw', zero_add, add_zero] at h
  rw [polar, add_comm]
  exact h

/-- Adding oil to every block adds the symmetrized form of each block with the oil of the other. -/
theorem pairForm_add {B : LinearMap.BilinForm F E} {W : Submodule F E}
    (hW : ∀ w ∈ W, B w w = 0) (v w : κ → E) (hw : ∀ i, w i ∈ W) (i j : κ) :
    pairForm B (v + w) i j =
      pairForm B v i j + (polar B (v j) (w i) + if i = j then 0 else polar B (v i) (w j)) := by
  by_cases h : i = j
  · subst h
    have hii := hW (w i) (hw i)
    simp only [pairForm, polar, if_true, Pi.add_apply, map_add, LinearMap.add_apply, hii, add_zero]
    ring
  · have hij := polar_eq_zero hW (hw i) (hw j)
    simp only [pairForm, polar, if_neg h, Pi.add_apply, map_add, LinearMap.add_apply] at hij ⊢
    linear_combination hij

end VoleAct.Lib
