/-
  VoleAct.Mayo.Preimage

  Trapdoor correctness: a sampled preimage evaluates to its target.

  The whipped map is read as a sum over block pairs of powers of `z` applied to
  a bilinear form; on the oil space its quadratic form vanishes, so what is left
  is the linear system the solver was given.
-/
import VoleAct.Lib.OilVinegar
import VoleAct.Mayo.Scheme

namespace VoleAct.Mayo

open VoleAct.BinaryFields VoleAct.Lib Mat Matrix

variable {P : MayoParams}

/-! ## Vector operations -/

theorem get_ofFn_eq {α : Type} {n : Nat} (f : Fin n → α) : (Vector.ofFn f).get = f :=
  funext (Vector.get_ofFn f)

theorem get_addVec {n : Nat} (y u : Vector GF16 n) : (addVec y u).get = y.get + u.get := by
  funext c
  simp only [addVec, Vector.get_eq_getElem, Vector.getElem_zipWith, Pi.add_apply]

theorem get_replicate_zero (n : Nat) : (Vector.replicate n (0 : GF16)).get = 0 := by
  funext c
  simp [Vector.get_eq_getElem]

theorem foldl_mul (l : List (GF16 × GF16)) (acc : GF16) :
    l.foldl (fun acc (a, b) => acc + a * b) acc = acc + (l.map fun p => p.1 * p.2).sum := by
  induction l generalizing acc with
  | nil => simp
  | cons p l ih => rw [List.foldl_cons, ih, List.map_cons, List.sum_cons, add_assoc]

theorem dot_eq {n : Nat} (x y : Vector GF16 n) : dot x y = x.get ⬝ᵥ y.get := by
  have hlist : ((x.zip y).toList.map fun p => p.1 * p.2) =
      (List.finRange n).map fun c => x.get c * y.get c := by
    apply List.ext_getElem
    · simp
    · intro c hc _
      simp [Vector.get_eq_getElem]
  rw [dot, ← Vector.foldl_toList, foldl_mul, zero_add, hlist, dotProduct, Fin.sum_univ_def]

/-- A sum over `n` places split at `v`. -/
theorem sum_split {v o n : Nat} (h : v + o = n) (f : Fin n → GF16) :
    ∑ c, f c = ∑ c : Fin v, f ⟨c, h ▸ Nat.lt_add_right o c.isLt⟩ +
      ∑ c : Fin o, f ⟨v + c, h ▸ Nat.add_lt_add_left c.isLt v⟩ := by
  subst h
  exact Fin.sum_univ_add f

/-! ## Multiplication by `z` is linear -/

/-- The coefficient of `z^i` in the tail of `f`. -/
def tailCoeff (P : MayoParams) (i : Nat) : GF16 :=
  ((P.fTail.filter (·.1 = i)).map fun dc => GF16.new dc.2).sum

/-- The loop over the tail of `f`. -/
theorem get_foldl_tail (tail : List (Nat × U8)) (top : GF16) (out : Vector GF16 P.M) (i : Fin P.M) :
    (tail.foldl (fun out (d, coeff) => Vector.ofFn fun i : Fin P.M =>
      if i.val = d then out.get i + top * GF16.new coeff else out.get i) out).get i =
    out.get i + top * ((tail.filter (·.1 = i.val)).map fun dc => GF16.new dc.2).sum := by
  induction tail generalizing out with
  | nil => simp
  | cons dc tail ih =>
      rw [List.foldl_cons, ih, Vector.get_ofFn]
      by_cases hd : i.val = dc.1
      · rw [List.filter_cons_of_pos (by simp [hd]), List.map_cons, List.sum_cons, if_pos hd]
        ring
      · rw [List.filter_cons_of_neg (by simpa using fun h => hd h.symm), if_neg hd]

theorem get_mulZ (u : Vector GF16 P.M) (i : Fin P.M) :
    (mulZ u).get i =
      (if i.val = 0 then 0 else u.get ⟨i.val - 1, Nat.lt_of_le_of_lt (Nat.sub_le _ _) i.isLt⟩) +
        u.get ⟨P.M - 1, Nat.sub_lt P.m_pos Nat.one_pos⟩ * tailCoeff P i := by
  rw [mulZ, get_foldl_tail, Vector.get_ofFn]
  rfl

theorem pred_lt (i : Fin P.M) : i.val - 1 < P.M := Nat.lt_of_le_of_lt (Nat.sub_le _ _) i.isLt

theorem pred_m_lt (P : MayoParams) : P.M - 1 < P.M := Nat.sub_lt P.m_pos Nat.one_pos

/-- Multiplication by `z` on coefficient vectors. -/
def zMap (P : MayoParams) : (Fin P.M → GF16) →ₗ[GF16] (Fin P.M → GF16) where
  toFun u i :=
    (if i.val = 0 then 0 else u ⟨i.val - 1, pred_lt i⟩) + u ⟨P.M - 1, pred_m_lt P⟩ * tailCoeff P i
  map_add' u v := by
    funext i
    simp only [Pi.add_apply]
    split <;> ring
  map_smul' c u := by
    funext i
    simp only [Pi.smul_apply, smul_eq_mul, RingHom.id_apply]
    split <;> ring

theorem get_mulZPow (u : Vector GF16 P.M) (shift : Nat) :
    (mulZPow u shift).get = (zMap P ^ shift) u.get := by
  induction shift generalizing u with
  | zero => rfl
  | succ shift ih =>
      rw [mulZPow, Function.iterate_succ_apply]
      refine (ih (mulZ u)).trans ?_
      rw [pow_succ, Module.End.mul_apply]
      exact congrArg _ (funext (get_mulZ u))

/-! ## The bilinear forms of a public key -/

/-- A block as its vinegar and oil parts. -/
abbrev Split (P : MayoParams) := (Fin P.V → GF16) × (Fin P.O → GF16)

/-- `s^T (P1_a P2_a; 0 P3_a) s'`. -/
def form (pk : PublicKey P) (a : Fin P.M) : LinearMap.BilinForm GF16 (Split P) :=
  LinearMap.mk₂ GF16
    (fun s s' => s.1 ⬝ᵥ ((pk.p1.get a).toMatrix *ᵥ s'.1 + (pk.p2.get a).toMatrix *ᵥ s'.2) +
      s.2 ⬝ᵥ ((pk.p3.get a).toMatrix *ᵥ s'.2))
    (fun s₁ s₂ s' => by
      simp only [Prod.fst_add, Prod.snd_add, add_dotProduct]
      ring)
    (fun c s s' => by
      simp only [Prod.smul_fst, Prod.smul_snd, smul_dotProduct, smul_add])
    (fun s s'₁ s'₂ => by
      simp only [Prod.fst_add, Prod.snd_add, mulVec_add, dotProduct_add]
      ring)
    (fun c s s' => by
      simp only [Prod.smul_fst, Prod.smul_snd, mulVec_smul, dotProduct_add, dotProduct_smul,
        smul_add])

theorem form_apply (pk : PublicKey P) (a : Fin P.M) (s s' : Split P) :
    form pk a s s' =
      s.1 ⬝ᵥ ((pk.p1.get a).toMatrix *ᵥ s'.1 + (pk.p2.get a).toMatrix *ᵥ s'.2) +
        s.2 ⬝ᵥ ((pk.p3.get a).toMatrix *ᵥ s'.2) := rfl

theorem get_splitV (b : Vector GF16 P.N) (c : Fin P.V) (h : c.val < P.N) :
    (splitV b).get c = b.get ⟨c, h⟩ := Vector.get_ofFn _ c

theorem get_splitO (b : Vector GF16 P.N) (c : Fin P.O) (h : P.V + c.val < P.N) :
    (splitO b).get c = b.get ⟨P.V + c, h⟩ := Vector.get_ofFn _ c

/-- The parts of a block. -/
def split (b : Vector GF16 P.N) : Split P := ((splitV b).get, (splitO b).get)

theorem dot_blockProduct (pk : PublicKey P) (a : Fin P.M) (b b' : Vector GF16 P.N) :
    dot b (blockProduct pk a b') = form pk a (split b) (split b') := by
  have htop (c : Fin P.V) (h : c.val < P.N) : (blockProduct pk a b').get ⟨c, h⟩ =
      ((pk.p1.get a).toMatrix *ᵥ (split b').1 + (pk.p2.get a).toMatrix *ᵥ (split b').2) c := by
    have happ := congrFun (get_addVec ((pk.p1.get a).mulVec (splitV b'))
      ((pk.p2.get a).mulVec (splitO b'))) c
    rw [Pi.add_apply, get_mulVec, get_mulVec] at happ
    rw [blockProduct, Vector.get_eq_getElem, Vector.getElem_cast, Vector.getElem_append_left c.isLt]
    exact happ
  have hbot (c : Fin P.O) (h : P.V + c.val < P.N) : (blockProduct pk a b').get ⟨P.V + c, h⟩ =
      ((pk.p3.get a).toMatrix *ᵥ (split b').2) c := by
    have happ := get_mulVec (pk.p3.get a) (splitO b') c
    simp only [blockProduct, Vector.get_eq_getElem, Vector.getElem_cast]
    rw [Vector.getElem_append_right (by omega) (Nat.le_add_right _ _)]
    simp only [Nat.add_sub_cancel_left]
    exact happ
  rw [dot_eq, dotProduct, sum_split P.v_add_o, form_apply]
  congr 1
  · refine Finset.sum_congr rfl fun c _ => ?_
    rw [htop, ← get_splitV]
    rfl
  · refine Finset.sum_congr rfl fun c _ => ?_
    rw [hbot, ← get_splitO]
    rfl

/-! ## The two sums over block pairs -/

/-- The sum of `z^ell` times a value over the block pairs in order. -/
def pairSum (P : MayoParams) (value : Fin P.K → Fin P.K → Fin P.M → GF16) : Fin P.M → GF16 :=
  ((blockPairs P.K).zipIdx.map fun p => (zMap P ^ p.2) (value p.1.1 p.1.2)).sum

theorem pairSum_add (f g : Fin P.K → Fin P.K → Fin P.M → GF16) :
    pairSum P (fun i j => f i j + g i j) = pairSum P f + pairSum P g := by
  simp only [pairSum, map_add]
  exact List.sum_map_add

/-- The loop over the pairs adds the shifted values. -/
theorem get_foldl_pairs (ps : List ((Fin P.K × Fin P.K) × Nat))
    (value : Fin P.K → Fin P.K → Vector GF16 P.M) (y : Vector GF16 P.M) :
    (ps.foldl (fun y ((i, j), ell) => addVec y (mulZPow (value i j) ell)) y).get =
      y.get + (ps.map fun p => (zMap P ^ p.2) (value p.1.1 p.1.2).get).sum := by
  induction ps generalizing y with
  | nil => simp
  | cons p ps ih =>
      rw [List.foldl_cons, ih, get_addVec, get_mulZPow, List.map_cons, List.sum_cons, add_assoc]

/-- Evaluation is the sum over block pairs of the forms. -/
theorem get_evalBlocks (pk : PublicKey P) (s : Vector GF16 P.KN) :
    (evalBlocks pk s).get =
      pairSum P fun i j a => pairForm (form pk a) (fun i => split (block s i)) i j := by
  have hvalues (i j : Fin P.K) :
      (pairValues (Vector.ofFn (block s)) (Vector.ofFn fun a => Vector.ofFn fun j =>
        blockProduct pk a ((Vector.ofFn (block s)).get j)) i j).get =
        fun a => pairForm (form pk a) (fun i => split (block s i)) i j := by
    funext a
    simp only [pairValues, Vector.get_ofFn, dot_blockProduct, pairForm]
  rw [evalBlocks, get_foldl_pairs _ (pairValues _ _), get_replicate_zero, zero_add, pairSum]
  simp only [hvalues]

/-- A block of the oil variables as a function. -/
theorem get_oilBlock (x : Vector GF16 (P.K * P.O)) (i : Fin P.K) (c : Fin P.O) :
    (oilBlock x i).get c = x.get (finProdFinEquiv (i, c)) := Vector.get_ofFn _ c

/-- A shifted block adds `z^ell` times the product with that block of the unknowns. -/
theorem addShiftedBlock_mulVec (a : Mat P.M (P.K * P.O)) (mMat : Mat P.M P.O) (i : Fin P.K)
    (ell : Nat) (x : Vector GF16 (P.K * P.O)) :
    (addShiftedBlock a mMat i ell).toMatrix *ᵥ x.get =
      a.toMatrix *ᵥ x.get + (zMap P ^ ell) (mMat.toMatrix *ᵥ (oilBlock x i).get) := by
  have hentry (r : Fin P.M) (j : Fin P.K) (c : Fin P.O) :
      (addShiftedBlock a mMat i ell).toMatrix r (finProdFinEquiv (j, c)) =
        a.toMatrix r (finProdFinEquiv (j, c)) +
          if j = i then (zMap P ^ ell) (fun r => mMat.get r c) r else 0 := by
    have h : finProdFinEquiv.symm (finProdFinEquiv (j, c)) = (j, c) := Equiv.symm_apply_apply _ _
    have hdiv : (finProdFinEquiv (j, c)).divNat = j := congrArg Prod.fst h
    have hmod : (finProdFinEquiv (j, c)).modNat = c := congrArg Prod.snd h
    simp only [addShiftedBlock, toMatrix_apply, Mat.get_ofFn, hdiv, hmod, Vector.get_ofFn,
      get_mulZPow, get_ofFn_eq]
    split
    · rfl
    · rw [add_zero]
  have hlinear : mMat.toMatrix *ᵥ (oilBlock x i).get =
      ∑ c, (oilBlock x i).get c • fun r => mMat.get r c := by
    funext r
    simp only [Matrix.mulVec, dotProduct, Finset.sum_apply, Pi.smul_apply, smul_eq_mul,
      toMatrix_apply]
    exact Finset.sum_congr rfl fun c _ => mul_comm _ _
  funext r
  rw [hlinear, map_sum, Pi.add_apply, Finset.sum_apply]
  simp only [Matrix.mulVec, dotProduct, map_smul, Pi.smul_apply, smul_eq_mul]
  rw [← Equiv.sum_comp finProdFinEquiv, ← Equiv.sum_comp finProdFinEquiv, Fintype.sum_prod_type,
    Fintype.sum_prod_type]
  simp only [hentry, add_mul, Finset.sum_add_distrib]
  congr 1
  -- only the columns of block `i` changed
  rw [Finset.sum_eq_single i]
  · refine Finset.sum_congr rfl fun c _ => ?_
    rw [if_pos rfl, get_oilBlock, mul_comm]
  · intro j _ hj
    exact Finset.sum_eq_zero fun c _ => by rw [if_neg hj, zero_mul]
  · exact fun h => absurd (Finset.mem_univ i) h

/-- The linear part of a block pair in the oil variables. -/
def oilTerm (mMats : Fin P.K → Mat P.M P.O) (x : Vector GF16 (P.K * P.O)) (i j : Fin P.K) :
    Fin P.M → GF16 :=
  (mMats j).toMatrix *ᵥ (oilBlock x i).get +
    if i = j then 0 else (mMats i).toMatrix *ᵥ (oilBlock x j).get

/-- The loop from any matrix and right-hand side. -/
theorem foldl_shiftedBlocks (x : Vector GF16 (P.K * P.O)) (ps : List ((Fin P.K × Fin P.K) × Nat))
    (mMats : Vector (Mat P.M P.O) P.K) (value : Fin P.K → Fin P.K → Vector GF16 P.M) : ∀ aMat y,
    let out := ps.foldl (fun (aMat, y) ((i, j), ell) =>
      let y := addVec y (mulZPow (value i j) ell)
      let aMat := addShiftedBlock aMat (mMats.get j) i ell
      (if i ≠ j then addShiftedBlock aMat (mMats.get i) j ell else aMat, y)) (aMat, y)
    out.1.toMatrix *ᵥ x.get = aMat.toMatrix *ᵥ x.get +
        (ps.map fun p => (zMap P ^ p.2) (oilTerm mMats.get x p.1.1 p.1.2)).sum ∧
      out.2.get = y.get + (ps.map fun p => (zMap P ^ p.2) (value p.1.1 p.1.2).get).sum := by
  induction ps with
  | nil => intro aMat y; simp
  | cons p ps ih =>
      obtain ⟨⟨i, j⟩, ell⟩ := p
      intro aMat y
      obtain ⟨hA, hy⟩ := ih
        (if i ≠ j then addShiftedBlock (addShiftedBlock aMat (mMats.get j) i ell) (mMats.get i) j ell
          else addShiftedBlock aMat (mMats.get j) i ell)
        (addVec y (mulZPow (value i j) ell))
      refine ⟨hA.trans ?_, hy.trans ?_⟩
      · rw [List.map_cons, List.sum_cons, ← add_assoc]
        congr 1
        by_cases hij : i = j
        · rw [if_neg (not_not.mpr hij), addShiftedBlock_mulVec, oilTerm, if_pos hij, add_zero]
        · rw [if_pos hij, addShiftedBlock_mulVec, addShiftedBlock_mulVec, oilTerm, if_neg hij,
            map_add, add_assoc]
      · rw [get_addVec, get_mulZPow, List.map_cons, List.sum_cons, add_assoc]

/-- The system's matrix applied to the oil variables, and its right-hand side, as sums over the
    block pairs. -/
theorem linearSystem_spec (sk : SecretKey P) (t : Vector GF16 P.M)
    (vinegar : Vector (Vector GF16 P.V) P.K) (x : Vector GF16 (P.K * P.O)) :
    (linearSystem sk t vinegar).1.toMatrix *ᵥ x.get =
        pairSum P (oilTerm (fun i => oilMatrix sk (vinegar.get i)) x) ∧
      (linearSystem sk t vinegar).2.get = t.get + pairSum P fun i j =>
        (pairValues vinegar (Vector.ofFn fun a => vinegar.map (sk.p1.get a).mulVec) i j).get := by
  have hmap (i : Fin P.K) : (vinegar.map (oilMatrix sk)).get i = oilMatrix sk (vinegar.get i) := by
    simp [Vector.get_eq_getElem]
  obtain ⟨hA, hy⟩ := foldl_shiftedBlocks x (blockPairs P.K).zipIdx (vinegar.map (oilMatrix sk))
    (pairValues vinegar (Vector.ofFn fun a => vinegar.map (sk.p1.get a).mulVec))
    (Mat.zero P.M (P.K * P.O)) t
  refine ⟨hA.trans ?_, hy⟩
  have hzero : (Mat.zero P.M (P.K * P.O)).toMatrix = 0 :=
    Matrix.ext fun r c => congrFun (get_replicate_zero _) _
  rw [hzero, zero_mulVec, zero_add, pairSum]
  simp only [funext hmap]

/-! ## The oil space -/

/-- `Upper` keeps the quadratic form. -/
theorem dotProduct_upper {n : Nat} (a : Mat n n) (x : Fin n → GF16) :
    x ⬝ᵥ (a.upper.toMatrix *ᵥ x) = x ⬝ᵥ (a.toMatrix *ᵥ x) := by
  let f (r c : Fin n) : GF16 := x r * (a.get r c * x c)
  -- above the diagonal `upper` holds both entries of a pair, below it nothing
  have hupper (r c : Fin n) : x r * (a.upper.toMatrix r c * x c) =
      (if r = c then f r c else 0) + (if r < c then f r c else 0) + (if r < c then f c r else 0) := by
    rw [Mat.upper, toMatrix_ofFn, Matrix.of_apply]
    rcases lt_trichotomy r c with h | h | h
    · rw [if_neg h.ne, if_pos h, if_neg h.ne, if_pos h, if_pos h]
      ring
    · subst h
      rw [if_pos rfl, if_pos rfl, if_neg (lt_irrefl r), add_zero, add_zero]
    · rw [if_neg h.ne', if_neg h.not_gt, if_neg h.ne', if_neg h.not_gt, if_neg h.not_gt]
      ring
  have hfull (r c : Fin n) : f r c =
      (if r = c then f r c else 0) + (if r < c then f r c else 0) + (if c < r then f r c else 0) := by
    rcases lt_trichotomy r c with h | h | h
    · rw [if_neg h.ne, if_pos h, if_neg h.not_gt, zero_add, add_zero]
    · subst h
      rw [if_pos rfl, if_neg (lt_irrefl r), add_zero, add_zero]
    · rw [if_neg h.ne', if_neg h.not_gt, if_pos h, zero_add, zero_add]
  calc x ⬝ᵥ (a.upper.toMatrix *ᵥ x)
      = ∑ r, ∑ c, x r * (a.upper.toMatrix r c * x c) := by
        simp only [dotProduct, Matrix.mulVec, Finset.mul_sum]
    _ = ∑ r, ∑ c, (if r = c then f r c else 0) + ∑ r, ∑ c, (if r < c then f r c else 0) +
          ∑ r, ∑ c, (if r < c then f c r else 0) := by
        simp only [hupper, Finset.sum_add_distrib]
    _ = ∑ r, ∑ c, (if r = c then f r c else 0) + ∑ r, ∑ c, (if r < c then f r c else 0) +
          ∑ r, ∑ c, (if c < r then f r c else 0) := by
        congr 1
        exact Finset.sum_comm
    _ = ∑ r, ∑ c, f r c := by
        simp only [← Finset.sum_add_distrib, ← hfull]
    _ = x ⬝ᵥ (a.toMatrix *ᵥ x) := by
        simp only [f, dotProduct, Matrix.mulVec, Finset.mul_sum, toMatrix_apply]

/-- The oil vectors `(O x, x)`. -/
def oilEmbed (sk : SecretKey P) : (Fin P.O → GF16) →ₗ[GF16] Split P :=
  (Matrix.mulVecLin sk.o.toMatrix).prod LinearMap.id

theorem oilEmbed_apply (sk : SecretKey P) (x : Fin P.O → GF16) :
    oilEmbed sk x = (sk.o.toMatrix *ᵥ x, x) := rfl

/-- The oil space of a secret key. -/
def oilSpace (sk : SecretKey P) : Submodule GF16 (Split P) := LinearMap.range (oilEmbed sk)

theorem p2_publicKey (sk : SecretKey P) (a : Fin P.M) :
    (sk.publicKey.p2.get a).toMatrix = (sk.l.get a).toMatrix +
      ((sk.p1.get a).toMatrix + (sk.p1.get a).toMatrix.transpose) * sk.o.toMatrix := by
  rw [SecretKey.publicKey, Vector.get_ofFn, toMatrix_add, symmetricO, toMatrix_mul, toMatrix_add,
    toMatrix_transpose]

/-- The quadratic forms of the derived public key vanish on the oil space. -/
theorem form_oilSpace (sk : SecretKey P) (a : Fin P.M) :
    ∀ w ∈ oilSpace sk, form sk.publicKey a w w = 0 := by
  rintro w ⟨x, rfl⟩
  have hp3 : x ⬝ᵥ ((sk.publicKey.p3.get a).toMatrix *ᵥ x) =
      x ⬝ᵥ ((sk.o.toMatrix.transpose * ((sk.p1.get a).toMatrix * sk.o.toMatrix) +
        sk.o.toMatrix.transpose * (sk.publicKey.p2.get a).toMatrix) *ᵥ x) := by
    simp only [SecretKey.publicKey, Vector.get_ofFn, deriveP3, dotProduct_upper, toMatrix_add,
      toMatrix_mul, toMatrix_transpose]
  have htranspose (y : Fin P.V → GF16) :
      x ⬝ᵥ (sk.o.toMatrix.transpose *ᵥ y) = (sk.o.toMatrix *ᵥ x) ⬝ᵥ y := by
    rw [dotProduct_mulVec, vecMul_transpose]
  rw [oilEmbed_apply, form_apply, hp3]
  simp only [add_mulVec, dotProduct_add, ← mulVec_mulVec, htranspose]
  exact CharTwo.add_self_eq_zero _

/-- Against vinegar, an oil vector contributes through `L_a`. -/
theorem polar_vinegar_oil (sk : SecretKey P) (a : Fin P.M) (v : Fin P.V → GF16)
    (x : Fin P.O → GF16) :
    polar (form sk.publicKey a) (v, 0) (oilEmbed sk x) = v ⬝ᵥ ((sk.l.get a).toMatrix *ᵥ x) := by
  have hp1 : sk.publicKey.p1.get a = sk.p1.get a := rfl
  have hswap : (sk.o.toMatrix *ᵥ x) ⬝ᵥ ((sk.p1.get a).toMatrix *ᵥ v) =
      v ⬝ᵥ ((sk.p1.get a).toMatrix.transpose *ᵥ (sk.o.toMatrix *ᵥ x)) := by
    rw [dotProduct_mulVec, ← mulVec_transpose, dotProduct_comm]
  rw [polar, form_apply, form_apply, oilEmbed_apply, hp1, p2_publicKey]
  simp only [mulVec_zero, add_zero, zero_dotProduct, dotProduct_zero, hswap, add_mulVec,
    dotProduct_add, ← mulVec_mulVec]
  -- the terms of `(P1 + P1^T) O` cancel in pairs
  linear_combination CharTwo.add_self_eq_zero
      (v ⬝ᵥ ((sk.p1.get a).toMatrix *ᵥ (sk.o.toMatrix *ᵥ x))) +
    CharTwo.add_self_eq_zero
      (v ⬝ᵥ ((sk.p1.get a).toMatrix.transpose *ᵥ (sk.o.toMatrix *ᵥ x)))

/-- The rows of `M_i` are `v_i^T L_a`. -/
theorem oilMatrix_mulVec (sk : SecretKey P) (v : Vector GF16 P.V) (x : Fin P.O → GF16)
    (a : Fin P.M) :
    ((oilMatrix sk v).toMatrix *ᵥ x) a = v.get ⬝ᵥ ((sk.l.get a).toMatrix *ᵥ x) := by
  have hrow : (oilMatrix sk v).toMatrix a = v.get ᵥ* (sk.l.get a).toMatrix := by
    funext c
    rw [oilMatrix, toMatrix_ofFn, Matrix.of_apply, Vector.get_ofFn, get_vecMul]
  rw [dotProduct_mulVec, ← hrow]
  rfl

/-! ## Trapdoor correctness -/

/-- The block `i` of an assembled preimage is vinegar plus oil. -/
theorem split_block_assemble (sk : SecretKey P) (vinegar : Vector (Vector GF16 P.V) P.K)
    (x : Vector GF16 (P.K * P.O)) (i : Fin P.K) :
    split (block (assemble sk vinegar x) i) =
      ((vinegar.get i).get, 0) + oilEmbed sk (oilBlock x i).get := by
  have hget (c : Fin P.N) : (block (assemble sk vinegar x) i).get c =
      if h : c.val < P.V then
        (vinegar.get i).get ⟨c, h⟩ + (sk.o.mulVec (oilBlock x i)).get ⟨c, h⟩
      else (oilBlock x i).get ⟨c - P.V, by
        have := c.isLt
        have := P.v_add_o
        omega⟩ := by
    have hpos : (⟨i * P.N + c, block_lt i c⟩ : Fin (P.K * P.N)) = finProdFinEquiv (i, c) := by
      apply Fin.ext
      rw [finProdFinEquiv_apply_val]
      show i.val * P.N + c.val = c.val + P.N * i.val
      rw [Nat.mul_comm, Nat.add_comm]
    have h : finProdFinEquiv.symm (finProdFinEquiv (i, c)) = (i, c) := Equiv.symm_apply_apply _ _
    have hdiv : (finProdFinEquiv (i, c)).divNat = i := congrArg Prod.fst h
    have hmod : (finProdFinEquiv (i, c)).modNat = c := congrArg Prod.snd h
    rw [block, Vector.get_ofFn, hpos, assemble, Vector.get_ofFn]
    simp only [hdiv, hmod, Vector.get_ofFn]
  refine Prod.ext ?_ ?_
  · funext c
    have hc : c.val < P.N := Nat.lt_of_lt_of_le c.isLt (Nat.sub_le _ _)
    show (splitV _).get c = _
    rw [get_splitV _ _ hc, hget, dif_pos c.isLt, get_mulVec]
    rfl
  · funext c
    have hc : P.V + c.val < P.N := P.v_add_o ▸ Nat.add_lt_add_left c.isLt P.V
    show (splitO _).get c = _
    rw [get_splitO _ _ hc, hget, dif_neg (Nat.not_lt.mpr (Nat.le_add_right _ _))]
    simp only [Nat.add_sub_cancel_left, oilEmbed_apply]
    exact (zero_add _).symm

/-- The vinegar forms on the right-hand side are the public forms without oil. -/
theorem pairValues_vinegar (sk : SecretKey P) (vinegar : Vector (Vector GF16 P.V) P.K)
    (i j : Fin P.K) (a : Fin P.M) :
    (pairValues vinegar (Vector.ofFn fun a => vinegar.map (sk.p1.get a).mulVec) i j).get a =
      pairForm (form sk.publicKey a) (fun i => ((vinegar.get i).get, 0)) i j := by
  have hdot (i j : Fin P.K) : dot (vinegar.get i) ((vinegar.map (sk.p1.get a).mulVec).get j) =
      form sk.publicKey a ((vinegar.get i).get, 0) ((vinegar.get j).get, 0) := by
    have hw : ((vinegar.map (sk.p1.get a).mulVec).get j).get =
        (sk.p1.get a).toMatrix *ᵥ (vinegar.get j).get := by
      have hmap : (vinegar.map (sk.p1.get a).mulVec).get j =
          (sk.p1.get a).mulVec (vinegar.get j) := by
        simp [Vector.get_eq_getElem]
      rw [hmap]
      exact funext (get_mulVec _ _)
    have hp1 : sk.publicKey.p1.get a = sk.p1.get a := rfl
    rw [dot_eq, hw, form_apply, hp1]
    simp only [mulVec_zero, add_zero, zero_dotProduct]
  simp only [pairValues, Vector.get_ofFn, hdot, pairForm]

/-- A pair of assembled blocks: its vinegar form plus its term of the linear system. -/
theorem pairForm_assemble (sk : SecretKey P) (vinegar : Vector (Vector GF16 P.V) P.K)
    (x : Vector GF16 (P.K * P.O)) (i j : Fin P.K) (a : Fin P.M) :
    pairForm (form sk.publicKey a) (fun i => split (block (assemble sk vinegar x) i)) i j =
      pairForm (form sk.publicKey a) (fun i => ((vinegar.get i).get, 0)) i j +
        oilTerm (fun i => oilMatrix sk (vinegar.get i)) x i j a := by
  let v (i : Fin P.K) : Split P := ((vinegar.get i).get, 0)
  let w (i : Fin P.K) : Split P := oilEmbed sk (oilBlock x i).get
  have hsplit : (fun i => split (block (assemble sk vinegar x) i)) = v + w :=
    funext fun i => split_block_assemble sk vinegar x i
  rw [hsplit, pairForm_add (form_oilSpace sk a) v w fun i => ⟨_, rfl⟩]
  congr 1
  rw [oilTerm, Pi.add_apply, oilMatrix_mulVec, polar_vinegar_oil]
  congr 1
  by_cases hij : i = j
  · rw [if_pos hij, if_pos hij, Pi.zero_apply]
  · rw [if_neg hij, if_neg hij, oilMatrix_mulVec, polar_vinegar_oil]

/-- A solution of the linear system assembles to a preimage of the target. -/
theorem evalBlocks_assemble (sk : SecretKey P) (t : Vector GF16 P.M)
    (vinegar : Vector (Vector GF16 P.V) P.K) (x : Vector GF16 (P.K * P.O))
    (hx : (linearSystem sk t vinegar).1.toMatrix *ᵥ x.get = (linearSystem sk t vinegar).2.get) :
    evalBlocks sk.publicKey (assemble sk vinegar x) = t := by
  let v (i : Fin P.K) : Split P := ((vinegar.get i).get, 0)
  obtain ⟨hA, hy⟩ := linearSystem_spec sk t vinegar x
  -- the map is its vinegar part plus the image of the linear system
  have heval : (evalBlocks sk.publicKey (assemble sk vinegar x)).get =
      pairSum P (fun i j a => pairForm (form sk.publicKey a) v i j) +
        pairSum P (oilTerm (fun i => oilMatrix sk (vinegar.get i)) x) := by
    rw [get_evalBlocks, ← pairSum_add]
    congr 1
    funext i j a
    exact pairForm_assemble sk vinegar x i j a
  have hvinegar : (pairSum P fun i j =>
      (pairValues vinegar (Vector.ofFn fun a => vinegar.map (sk.p1.get a).mulVec) i j).get) =
        pairSum P fun i j a => pairForm (form sk.publicKey a) v i j := by
    congr 1
    funext i j a
    exact pairValues_vinegar sk vinegar i j a
  rw [hA, hy, hvinegar] at hx
  -- the right-hand side is the target plus the vinegar part, so that part cancels
  have hget : (evalBlocks sk.publicKey (assemble sk vinegar x)).get = t.get := by
    rw [heval, hx]
    funext a
    simp only [Pi.add_apply]
    rw [add_comm (t.get a), ← add_assoc, CharTwo.add_self_eq_zero, zero_add]
  apply Vector.ext
  intro a ha
  exact congrFun hget ⟨a, ha⟩

theorem eval_toList (pk : PublicKey P) (s : Vector GF16 P.KN) :
    eval pk s.toList = .ok (evalBlocks pk s).toList := by
  rw [eval, dif_pos s.length_toList]
  rfl

/-- A round that returns a preimage ends the loop with it. -/
theorem spreLoop_spec {ρ : Type} [CryptoRngCore ρ] {sk : SecretKey P} {t : Vector GF16 P.M}
    {s : List GF16} {attempts : Nat} {rng rng' : ρ} (h : spreLoop sk t attempts rng = (.ok s, rng')) :
    ∃ out : Vector GF16 P.KN, s = out.toList ∧ evalBlocks sk.publicKey out = t := by
  have hm : P.M < 2 ^ 63 := Nat.lt_of_le_of_lt P.m_le (by decide)
  induction attempts generalizing rng with
  | zero => simp [spreLoop] at h
  | succ attempts ih =>
      rw [spreLoop] at h
      split at h
      · next out rng'' hattempt =>
          obtain ⟨rfl, -⟩ : out.toList = s ∧ rng'' = rng' := by simpa using h
          refine ⟨out, rfl, ?_⟩
          simp only [spreAttempt, Prod.mk.injEq, Option.map_eq_some_iff] at hattempt
          obtain ⟨⟨x, hx, rfl⟩, -⟩ := hattempt
          exact evalBlocks_assemble sk t _ x (sampleSolution_spec hm hx)
      · exact ih h

/-- A returned preimage has the whipped length and evaluates to the target. -/
theorem spre_spec {ρ : Type} [CryptoRngCore ρ] {sk : SecretKey P} {t s : List GF16} {rng rng' : ρ}
    (h : spre sk t rng = (.ok s, rng')) : s.length = P.KN ∧ eval sk.publicKey s = .ok t := by
  rw [spre] at h
  split at h
  · next ht =>
      obtain ⟨out, rfl, hout⟩ := spreLoop_spec h
      refine ⟨out.length_toList, ?_⟩
      rw [eval_toList, hout]
      rfl
  · simp at h

/-- The public key `trapgen` returns is the one its secret key determines. -/
theorem publicKey_trapgen {ρ : Type} [CryptoRngCore ρ] (P : MayoParams) (rng : ρ) :
    (trapgen P rng).1.1.publicKey = (trapgen P rng).1.2 := by
  have hcancel (a b : Mat P.V P.O) : (a.add b).add a = b := by
    apply toMatrix_injective
    refine Matrix.ext fun r c => ?_
    rw [toMatrix_add, toMatrix_add, Matrix.add_apply, Matrix.add_apply, add_comm, ← add_assoc,
      CharTwo.add_self_eq_zero, zero_add]
  generalize h : trapgen P rng = out
  obtain ⟨⟨sk, pk⟩, rng'⟩ := out
  simp only [trapgen, Prod.mk.injEq] at h
  obtain ⟨⟨rfl, rfl⟩, -⟩ := h
  simp only [SecretKey.publicKey, Vector.get_eq_getElem, Vector.getElem_map, hcancel]
  congr 1 <;> (apply Vector.ext; intro a ha; simp)

/-- Trapdoor correctness: whatever `spre` returns evaluates to the target under the public key the
    secret key determines, and `trapgen` returns that public key. -/
theorem trapdoor_correct (P : MayoParams) {ρ : Type} [CryptoRngCore ρ] :
    (∀ (sk : SecretKey P) (t s : List GF16) (rng rng' : ρ), spre sk t rng = (.ok s, rng') →
      s.length = P.K * P.N ∧ eval sk.publicKey s = .ok t) ∧
    ∀ rng : ρ, (trapgen P rng).1.1.publicKey = (trapgen P rng).1.2 :=
  ⟨fun _ _ _ _ _ h => spre_spec h, publicKey_trapgen P⟩

/-- A two-equation map with one oil variable, `f = z^2 + x`. -/
def tinyParams : MayoParams where
  name := "TINY"
  wireId := 0#8
  N := 2
  M := 2
  O := 1
  K := 2
  fTail := [(0, 0x2#8)]
  oil_le := by decide
  m_pos := by decide
  tail_lt := by decide
  m_le := by decide
  kn_le := by decide

/-- A trapdoor of the tiny map. -/
def tinyKey : SecretKey tinyParams where
  o := Mat.ofFn fun _ _ => GF16.new 3#8
  p1 := Vector.ofFn fun a => Mat.ofFn fun _ _ => GF16.new (BitVec.ofNat 8 (5 + a))
  l := Vector.ofFn fun a => Mat.ofFn fun _ _ => GF16.new (BitVec.ofNat 8 (1 + a))

/-- A preimage the tiny trapdoor samples. -/
theorem spre_tinyKey : spre tinyKey ([9#8, 4#8].map GF16.new) (RepeatRng.mk 7#32) =
    (.ok ([10#8, 10#8, 1#8, 2#8].map GF16.new), RepeatRng.mk 7#32) := by
  decide +kernel

theorem trapdoor_correct_tiny :
    ([10#8, 10#8, 1#8, 2#8].map GF16.new).length = 2 * 2 ∧
      eval tinyKey.publicKey ([10#8, 10#8, 1#8, 2#8].map GF16.new) =
        .ok ([9#8, 4#8].map GF16.new) :=
  (trapdoor_correct tinyParams).1 tinyKey _ _ (RepeatRng.mk 7#32) (RepeatRng.mk 7#32) spre_tinyKey

end VoleAct.Mayo
