/-
  VoleAct.Mayo.FormsInjective

  The whipped forms determine the public key.

  The first diagonal block of the forms holds the base matrices, mixed across the
  equations by one power of `z`.  A power of `z` is injective when the tail of `f`
  has a constant coefficient, and a triangular key is its base matrices.
-/
import VoleAct.Mayo.KeyCodec
import VoleAct.Mayo.WhippedForms

namespace VoleAct.Mayo

open VoleAct.BinaryFields VoleAct.Lib Mat Matrix

variable {P : MayoParams}

/-! ## Multiplication by `z` is injective -/

theorem zMap_injective (h : tailCoeff P 0 ≠ 0) : Function.Injective (zMap P) := by
  rw [injective_iff_map_eq_zero]
  intro u hu
  have hcoeff (i : Fin P.M) : (if i.val = 0 then 0 else u ⟨i.val - 1, pred_lt i⟩) +
      u ⟨P.M - 1, pred_m_lt P⟩ * tailCoeff P i = 0 := congrFun hu i
  -- the constant coefficient gives the top one, and then every coefficient the one below it
  have htop : u ⟨P.M - 1, pred_m_lt P⟩ = 0 := by
    have hzero := hcoeff ⟨0, P.m_pos⟩
    rw [if_pos rfl, zero_add] at hzero
    exact (mul_eq_zero.mp hzero).resolve_right h
  funext i
  by_cases hi : i.val + 1 < P.M
  · have hnext := hcoeff ⟨i.val + 1, hi⟩
    rwa [if_neg (Nat.succ_ne_zero _), htop, zero_mul, add_zero] at hnext
  · have hlast : i = ⟨P.M - 1, pred_m_lt P⟩ := Fin.ext (by have := i.isLt; simp only; omega)
    rw [hlast]
    exact htop

theorem zMap_pow_injective (h : tailCoeff P 0 ≠ 0) (ell : Nat) :
    Function.Injective (zMap P ^ ell) := by
  rw [Module.End.coe_pow]
  exact (zMap_injective h).iterate ell

theorem get_ePow (ell : Nat) (b : Fin P.M) :
    ((ePow P ell).get b).get = (zMap P ^ ell) (Pi.single b 1) := by
  rw [ePow, Vector.get_ofFn, get_mulZPow]
  congr 1
  funext a
  rw [Vector.get_eq_getElem, Vector.getElem_set]
  by_cases h : b = a
  · rw [if_pos (congrArg Fin.val h), h, Pi.single_eq_same]
  · rw [if_neg fun heq => h (Fin.ext heq), Pi.single_eq_of_ne (Ne.symm h), Vector.getElem_replicate]

/-- The columns of `E^ell` mix the equations by `z^ell`. -/
theorem sum_ePow (ell : Nat) (x : Fin P.M → GF16) (a : Fin P.M) :
    ∑ b, ((ePow P ell).get b).get a * x b = (zMap P ^ ell) x a := by
  conv_rhs => rw [pi_eq_sum_univ' x, map_sum, Finset.sum_apply]
  refine Finset.sum_congr rfl fun b _ => ?_
  rw [get_ePow, map_smul, Pi.smul_apply, smul_eq_mul, mul_comm]

/-! ## The first diagonal block -/

theorem blockPairs_nodup (k : Nat) : (blockPairs k).Nodup := by
  rw [blockPairs, List.nodup_flatMap]
  refine ⟨fun i _ => ?_, (List.nodup_finRange k).pairwise_of_forall_ne ?_⟩
  · exact (List.nodup_reverse.mpr ((List.nodup_finRange k).filter _)).map
      fun j j' h => (Prod.mk.inj h).2
  · intro i _ i' _ hne p hp hp'
    obtain ⟨j, -, rfl⟩ := List.mem_map.mp hp
    obtain ⟨j', -, h⟩ := List.mem_map.mp hp'
    exact hne (Prod.mk.inj h).1.symm

theorem diagonal_mem_blockPairs {k : Nat} (i : Fin k) : (i, i) ∈ blockPairs k := by
  rw [blockPairs, List.mem_flatMap]
  refine ⟨i, List.mem_finRange i, List.mem_map.mpr ⟨i, ?_, rfl⟩⟩
  rw [List.mem_reverse, List.mem_filter]
  exact ⟨List.mem_finRange i, decide_eq_true (le_refl i)⟩

/-- A sum over the numbered items of a list that selects one of them. -/
theorem sum_zipIdx_ite {α : Type} [DecidableEq α] {l : List α} (hnodup : l.Nodup) {n : Nat} {x : α}
    (hx : l[n]? = some x) (f : α × Nat → GF16) :
    (l.zipIdx.map fun t => if t.1 = x then f t else 0).sum = f (x, n) := by
  have hzip : l.zipIdx.Nodup := by
    refine List.Nodup.of_map Prod.fst ?_
    rwa [List.zipIdx_map_fst]
  have hmem : (x, n) ∈ l.zipIdx.toFinset :=
    List.mem_toFinset.mpr (List.mem_zipIdx_iff_getElem?.mpr hx)
  rw [← List.sum_toFinset _ hzip, Finset.sum_eq_single_of_mem _ hmem, if_pos rfl]
  rintro ⟨y, i⟩ hy hne
  refine if_neg ?_
  rintro rfl
  -- the same item at two places
  have hi := List.mem_zipIdx_iff_getElem?.mp (List.mem_toFinset.mp hy)
  obtain ⟨hlt, -⟩ := List.getElem?_eq_some_iff.mp hi
  exact hne (Prod.ext rfl ((List.getElem?_inj hlt hnodup).mp (hi.trans hx.symm)))

/-- Every diagonal block of the forms is the base forms, mixed by one power of `z`. -/
theorem exists_diagonalBlock (P : MayoParams) (i : Fin P.K) : ∃ ell, ∀ (pk : PublicKey P)
    (a : Fin P.M) (r c : Fin P.N), ((whippedForms pk).get a).get (formRow i r) (formRow i c) =
      (zMap P ^ ell) (fun b => (fullMatrix pk b).upper.get r c) a := by
  obtain ⟨ell, hell⟩ := List.mem_iff_getElem?.mp (diagonal_mem_blockPairs i)
  refine ⟨ell, fun pk a r c => ?_⟩
  have hterm (t : (Fin P.K × Fin P.K) × Nat) : pairTerm pk t a (formRow i r) (formRow i c) =
      if t.1 = (i, i) then (zMap P ^ t.2) (fun b => (fullMatrix pk b).upper.get r c) a else 0 := by
    simp only [pairTerm, Matrix.sum_apply, Matrix.smul_apply, smul_eq_mul, blockForm_formRow]
    by_cases ht : t.1 = (i, i)
    · rw [if_pos ht, ← sum_ePow]
      refine Finset.sum_congr rfl fun b _ => ?_
      rw [ht, if_pos ⟨rfl, rfl⟩, baseForm, if_pos rfl, toMatrix_apply]
    · rw [if_neg ht]
      refine Finset.sum_eq_zero fun b _ => ?_
      rw [if_neg fun h => ht (Prod.ext h.1.symm h.2.symm), mul_zero]
  calc ((whippedForms pk).get a).get (formRow i r) (formRow i c)
    _ = ((blockPairs P.K).zipIdx.map (pairTerm pk · a)).sum (formRow i r) (formRow i c) := by
        rw [← toMatrix_whippedForms, toMatrix_apply]
    _ = ((blockPairs P.K).zipIdx.map fun t =>
          pairTerm pk t a (formRow i r) (formRow i c)).sum := by
        have hsum := map_list_sum (Matrix.entryAddMonoidHom GF16 (formRow i r) (formRow i c))
          ((blockPairs P.K).zipIdx.map (pairTerm pk · a))
        rwa [List.map_map] at hsum
    _ = (zMap P ^ ell) (fun b => (fullMatrix pk b).upper.get r c) a := by
        simp only [hterm]
        exact sum_zipIdx_ite (blockPairs_nodup P.K) hell
          fun t => (zMap P ^ t.2) (fun b => (fullMatrix pk b).upper.get r c) a

/-! ## The base matrices of a triangular key -/

theorem get_fullMatrix_p1 (pk : PublicKey P) (b : Fin P.M) (r c : Fin P.V) :
    (fullMatrix pk b).get ⟨r, by have := P.v_add_o; omega⟩ ⟨c, by have := P.v_add_o; omega⟩ =
      (pk.p1.get b).get r c := by
  rw [fullMatrix, Mat.get_ofFn, dif_pos r.isLt, dif_pos c.isLt]

theorem get_fullMatrix_p2 (pk : PublicKey P) (b : Fin P.M) (r : Fin P.V) (c : Fin P.O) :
    (fullMatrix pk b).get ⟨r, by have := P.v_add_o; omega⟩ ⟨P.V + c, by have := P.v_add_o; omega⟩ =
      (pk.p2.get b).get r c := by
  rw [fullMatrix, Mat.get_ofFn, dif_pos r.isLt, dif_neg (by simp)]
  congr 1
  exact Fin.ext (Nat.add_sub_cancel_left _ _)

theorem get_fullMatrix_p3 (pk : PublicKey P) (b : Fin P.M) (r c : Fin P.O) :
    (fullMatrix pk b).get ⟨P.V + r, by have := P.v_add_o; omega⟩
      ⟨P.V + c, by have := P.v_add_o; omega⟩ = (pk.p3.get b).get r c := by
  rw [fullMatrix, Mat.get_ofFn, dif_neg (by simp), dif_neg (by simp)]
  congr 1 <;> exact Fin.ext (Nat.add_sub_cancel_left _ _)

/-- The base matrix of a triangular key is triangular. -/
theorem upper_fullMatrix {pk : PublicKey P} (h : pk.IsUpper) (b : Fin P.M) :
    (fullMatrix pk b).upper = fullMatrix pk b := by
  have hbelow : ∀ r c : Fin P.N, c < r → (fullMatrix pk b).get r c = 0 := by
    intro r c hcr
    have hlt : c.val < r.val := hcr
    rw [fullMatrix, Mat.get_ofFn]
    by_cases hr : r < P.V
    · rw [dif_pos hr, dif_pos (by omega)]
      exact h.p1 b _ _ hlt
    · rw [dif_neg hr]
      by_cases hc : c < P.V
      · rw [dif_pos hc]
      · rw [dif_neg hc]
        exact h.p3 b _ _ (show c.val - P.V < r.val - P.V by omega)
  refine Mat.ext fun r c => ?_
  rw [Mat.upper, Mat.get_ofFn]
  rcases lt_trichotomy r c with hrc | rfl | hrc
  · rw [if_neg hrc.ne, if_pos hrc, hbelow c r hrc, add_zero]
  · rw [if_pos rfl]
  · rw [if_neg hrc.ne', if_neg hrc.not_gt, hbelow r c hrc]

theorem eq_of_fullMatrix {pk pk' : PublicKey P} (h : fullMatrix pk = fullMatrix pk') : pk = pk' := by
  have hget (b : Fin P.M) (r c : Fin P.N) :
      (fullMatrix pk b).get r c = (fullMatrix pk' b).get r c := by rw [h]
  obtain ⟨p1, p2, p3⟩ := pk
  obtain ⟨p1', p2', p3'⟩ := pk'
  have hp1 : p1 = p1' := Vector.ext fun b hb => Mat.ext fun r c => by
    have hrc := hget ⟨b, hb⟩ ⟨r, by have := P.v_add_o; omega⟩ ⟨c, by have := P.v_add_o; omega⟩
    rwa [get_fullMatrix_p1, get_fullMatrix_p1] at hrc
  have hp2 : p2 = p2' := Vector.ext fun b hb => Mat.ext fun r c => by
    have hrc := hget ⟨b, hb⟩ ⟨r, by have := P.v_add_o; omega⟩
      ⟨P.V + c, by have := P.v_add_o; omega⟩
    rwa [get_fullMatrix_p2, get_fullMatrix_p2] at hrc
  have hp3 : p3 = p3' := Vector.ext fun b hb => Mat.ext fun r c => by
    have hrc := hget ⟨b, hb⟩ ⟨P.V + r, by have := P.v_add_o; omega⟩
      ⟨P.V + c, by have := P.v_add_o; omega⟩
    rwa [get_fullMatrix_p3, get_fullMatrix_p3] at hrc
  rw [hp1, hp2, hp3]

/-- The forms determine the key. -/
theorem eq_of_whippedForms (hK : 0 < P.K) (htail : tailCoeff P 0 ≠ 0) {pk pk' : PublicKey P}
    (h : pk.IsUpper) (h' : pk'.IsUpper) (heq : whippedForms pk = whippedForms pk') : pk = pk' := by
  obtain ⟨ell, hblock⟩ := exists_diagonalBlock P ⟨0, hK⟩
  refine eq_of_fullMatrix (funext fun b => Mat.ext fun r c => ?_)
  have hmixed : (fun b => (fullMatrix pk b).upper.get r c) =
      fun b => (fullMatrix pk' b).upper.get r c := by
    refine zMap_pow_injective htail ell (funext fun a => ?_)
    rw [← hblock, ← hblock, heq]
  have hb := congrFun hmixed b
  rwa [upper_fullMatrix h, upper_fullMatrix h'] at hb

/-- Every supported parameter set has blocks, and a tail with a constant coefficient. -/
theorem supported_tail (hP : P ∈ MayoParams.supported) : 0 < P.K ∧ tailCoeff P 0 ≠ 0 := by
  have hall : ∀ P ∈ MayoParams.supported, 0 < P.K ∧ tailCoeff P 0 ≠ 0 := by decide
  exact hall P hP

end VoleAct.Mayo
