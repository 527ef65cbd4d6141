/-
  VoleAct.Mayo.WhippedForms

  The whipped quadratic forms of a public key (`PublicKey::whipped_forms`).

  `eval` works block by block and shifts each pair of blocks by a power of `z`.
  `whippedForms` builds, for every equation, one upper-triangular matrix over the
  whole input, by adding scaled blocks of the symmetrized base matrices.  Every
  step of the builder adds a fixed array to the forms, so the result is a sum
  over block pairs and base equations, and its quadratic form is `eval`.
-/
import VoleAct.Mayo.Preimage

namespace VoleAct.Mayo

open VoleAct.BinaryFields VoleAct.BinaryFields.Packed VoleAct.Lib Mat Matrix

/-! ## Row kernels -/

section Kernels

variable {n len : Nat}

/-- `packed_axpy`: `dst ^= scalar · src`, eight lanes at a time and a scalar tail. -/
def packedAxpy (dst : Vector GF16 n) (scalar : GF16) (src : Vector GF16 n) : Vector GF16 n :=
  Vector.ofFn fun c =>
    let start := 8 * (c.val / 8)
    if start + 8 ≤ n then
      let word := wordAt (bytes dst) start ^^^ mulScalar8 (wordAt (bytes src) start) scalar
      GF16.new (lane word (c % 8))
    else GF16.new ((dst.get c).toU8 ^^^ (src.get c * scalar).toU8)

/-- `row[start..start + len]`. -/
def segment (row : Vector GF16 n) (start : Nat) (h : start + len ≤ n) : Vector GF16 len :=
  Vector.ofFn fun c => row.get ⟨start + c, by omega⟩

/-- `packed_axpy(&mut row[start..start + len], scalar, src)`. -/
def axpyAt (row : Vector GF16 n) (start : Nat) (h : start + len ≤ n) (scalar : GF16)
    (src : Vector GF16 len) : Vector GF16 n :=
  let out := packedAxpy (segment row start h) scalar src
  Vector.ofFn fun c =>
    if hc : start ≤ c ∧ c - start < len then out.get ⟨c - start, hc.2⟩ else row.get c

/-- `row[c] += x`. -/
def addAtColumn (row : Vector GF16 n) (c : Fin n) (x : GF16) : Vector GF16 n :=
  row.set c (row.get c + x) c.isLt

/-- `row_mut(r)`, changed by `f`. -/
def modifyRow {rows : Nat} (a : Mat rows n) (r : Fin rows) (f : Vector GF16 n → Vector GF16 n) :
    Mat rows n :=
  let out := f (a.row r)
  Mat.ofFn fun r' c => if r' = r then out.get c else a.get r' c

/-- The packed kernel is entry-wise. -/
theorem get_packedAxpy (dst : Vector GF16 n) (scalar : GF16) (src : Vector GF16 n) (c : Fin n) :
    (packedAxpy dst scalar src).get c = dst.get c + scalar * src.get c := by
  have hbyte (v : Vector GF16 n) : lane (wordAt (bytes v) (8 * (c.val / 8))) (c % 8) =
      (v.get c).toU8 := by
    have hpos : 8 * (c.val / 8) + c.val % 8 = c := Nat.div_add_mod c.val 8
    rw [lane_wordAt _ _ (Nat.mod_lt _ (by decide)), hpos, bytes_getD, dif_pos c.isLt]
  simp only [packedAxpy, Vector.get_ofFn]
  split
  · rw [lane_xor, lane_mulScalar8 (wordAt_canonical src _) _ (Nat.mod_lt _ (by decide)), hbyte,
      hbyte, new_xor, GF16.new_toU8, GF16.new_toU8, GF16.new_toU8, mul_comm scalar]
  · rw [new_xor, GF16.new_toU8, GF16.new_toU8, mul_comm scalar]

theorem get_axpyAt (row : Vector GF16 n) (start : Nat) (h : start + len ≤ n) (scalar : GF16)
    (src : Vector GF16 len) (c : Fin n) :
    (axpyAt row start h scalar src).get c =
      row.get c + if hc : start ≤ c ∧ c - start < len then scalar * src.get ⟨c - start, hc.2⟩
        else 0 := by
  simp only [axpyAt, Vector.get_ofFn]
  split
  · next hc =>
      have hpos : (⟨start + (c.val - start), by omega⟩ : Fin n) = c := Fin.ext (by simp; omega)
      rw [get_packedAxpy, segment, Vector.get_ofFn]
      simp only [hpos]
  · rw [add_zero]

theorem get_addAtColumn (row : Vector GF16 n) (c c' : Fin n) (x : GF16) :
    (addAtColumn row c x).get c' = row.get c' + if c' = c then x else 0 := by
  simp only [addAtColumn, Vector.get_eq_getElem, Vector.getElem_set, Fin.ext_iff]
  by_cases h : c.val = c'.val
  · simp [h]
  · simp [h, Ne.symm h]

theorem get_modifyRow {rows : Nat} (a : Mat rows n) (r r' : Fin rows)
    (f : Vector GF16 n → Vector GF16 n) (c : Fin n) :
    (modifyRow a r f).get r' c = if r' = r then (f (a.row r)).get c else a.get r' c :=
  Mat.get_ofFn _ _ _

end Kernels

/-! ## The builder -/

variable {P : MayoParams}

/-- `full_matrix`: the matrix `((P1_b, P2_b), (0, P3_b))`. -/
def fullMatrix (pk : PublicKey P) (b : Fin P.M) : Mat P.N P.N :=
  Mat.ofFn fun r c =>
    if hr : r < P.V then
      if hc : c < P.V then (pk.p1.get b).get ⟨r, hr⟩ ⟨c, hc⟩
      else (pk.p2.get b).get ⟨r, hr⟩ ⟨c - P.V, by have := P.v_add_o; omega⟩
    else if hc : c < P.V then 0
    else (pk.p3.get b).get ⟨r - P.V, by have := P.v_add_o; omega⟩
      ⟨c - P.V, by have := P.v_add_o; omega⟩

/-- `Mb + Mb^T`. -/
def symmetrized (mb : Mat P.N P.N) : Mat P.N P.N := mb.add mb.transpose

/-- The columns of `E^ell`: column `b` is `z^ell · z^b`. -/
def ePow (P : MayoParams) (ell : Nat) : Vector (Vector GF16 P.M) P.M :=
  Vector.ofFn fun b => mulZPow ((Vector.replicate P.M 0).set b 1) ell

/-- Row `i * n + r` of a form. -/
def formRow (i : Fin P.K) (r : Fin P.N) : Fin P.KN := ⟨i * P.N + r, block_lt i r⟩

theorem formRow_eq (i : Fin P.K) (r : Fin P.N) : formRow i r = finProdFinEquiv (i, r) := by
  apply Fin.ext
  rw [finProdFinEquiv_apply_val]
  show i.val * P.N + r.val = r.val + P.N * i.val
  ring

theorem tail_le (i : Fin P.K) (r : Fin P.N) :
    i * P.N + r + 1 + (P.N - r - 1) ≤ P.KN := by
  have hr := r.isLt
  have hlast := block_lt i (⟨P.N - 1, by omega⟩ : Fin P.N)
  simp only at hlast
  omega

theorem block_le (j : Fin P.K) (hn : 0 < P.N) : j * P.N + P.N ≤ P.KN := by
  have hlast := block_lt j (⟨P.N - 1, by omega⟩ : Fin P.N)
  simp only at hlast
  omega

/-- Row `r` of a diagonal block: the diagonal from `Mb`, the strict upper part from `sym`. -/
def placeDiagonalRow (mb symB : Mat P.N P.N) (coeff : GF16) (i : Fin P.K) (ga : Mat P.KN P.KN)
    (r : Fin P.N) : Mat P.KN P.KN :=
  modifyRow ga (formRow i r) fun row =>
    axpyAt (addAtColumn row (formRow i r) (coeff * mb.get r r)) (i * P.N + r + 1) (tail_le i r)
      coeff (segment (symB.row r) (r + 1) (by have := r.isLt; omega))

/-- Row `r` of an off-diagonal block. -/
def placeRow (symB : Mat P.N P.N) (coeff : GF16) (i j : Fin P.K) (ga : Mat P.KN P.KN)
    (r : Fin P.N) : Mat P.KN P.KN :=
  modifyRow ga (formRow i r) fun row =>
    axpyAt row (j * P.N) (block_le j (Nat.lt_of_le_of_lt (Nat.zero_le _) r.isLt)) coeff (symB.row r)

/-- `coeff` times the base form, placed in block `(i, j)`. -/
def placeBlock (mb symB : Mat P.N P.N) (coeff : GF16) (i j : Fin P.K) (ga : Mat P.KN P.KN) :
    Mat P.KN P.KN :=
  if i = j then (List.finRange P.N).foldl (placeDiagonalRow mb symB coeff i) ga
  else (List.finRange P.N).foldl (placeRow symB coeff i j) ga

/-- One base equation and one target equation; zero coefficients are skipped. -/
def addEquation (mb symB : Mat P.N P.N) (column : Vector GF16 P.M) (i j : Fin P.K)
    (g : Vector (Mat P.KN P.KN) P.M) (a : Fin P.M) : Vector (Mat P.KN P.KN) P.M :=
  let coeff := column.get a
  if coeff = 0 then g else g.set a (placeBlock mb symB coeff i j (g.get a))

/-- One pair of blocks. -/
def addPair (full sym : Vector (Mat P.N P.N) P.M) (g : Vector (Mat P.KN P.KN) P.M)
    (pair : (Fin P.K × Fin P.K) × Nat) : Vector (Mat P.KN P.KN) P.M :=
  let eCols := ePow P pair.2
  (List.finRange P.M).foldl
    (fun g b => (List.finRange P.M).foldl
      (addEquation (full.get b) (sym.get b) (eCols.get b) pair.1.1 pair.1.2) g) g

/-- `whipped_forms`: the `m` upper-triangular forms `G_a` of the public map. -/
def whippedForms (pk : PublicKey P) : Vector (Mat P.KN P.KN) P.M :=
  let full := Vector.ofFn (fullMatrix pk)
  let sym := full.map symmetrized
  (blockPairs P.K).zipIdx.foldl (addPair full sym) (Vector.replicate P.M (Mat.zero P.KN P.KN))

/-! ## What one placement adds -/

theorem formRow_inj {i i' : Fin P.K} {r r' : Fin P.N} :
    formRow i r = formRow i' r' ↔ i = i' ∧ r = r' := by
  rw [formRow_eq, formRow_eq, finProdFinEquiv.injective.eq_iff, Prod.mk.injEq]

theorem exists_formRow (p : Fin P.KN) : ∃ (i : Fin P.K) (r : Fin P.N), p = formRow i r := by
  refine ⟨p.divNat, p.modNat, ?_⟩
  rw [formRow_eq]
  exact (finProdFinEquiv.apply_symm_apply p).symm

/-- A position inside block `i` is of block `i`. -/
theorem block_of_between {i j : Fin P.K} {c : Fin P.N} (hlo : i * P.N ≤ formRow j c)
    (hhi : (formRow j c).val < i * P.N + P.N) : j = i := by
  have hc := c.isLt
  have hval : (formRow j c).val = j * P.N + c := rfl
  rcases lt_trichotomy j i with h | h | h
  · have hstart : (j.val + 1) * P.N ≤ i * P.N := Nat.mul_le_mul_right _ h
    rw [Nat.succ_mul] at hstart
    omega
  · exact h
  · have hstart : (i.val + 1) * P.N ≤ j * P.N := Nat.mul_le_mul_right _ h
    rw [Nat.succ_mul] at hstart
    omega

/-- The form of one pair of blocks: `Upper(mb)` on the diagonal, symmetrized off it. -/
def baseForm (mb : Mat P.N P.N) (i j : Fin P.K) : Matrix (Fin P.N) (Fin P.N) GF16 :=
  if i = j then mb.upper.toMatrix else mb.toMatrix + mb.toMatrix.transpose

/-- The base form `mb`, placed in block `(i, j)`. -/
def blockForm (mb : Mat P.N P.N) (i j : Fin P.K) : Matrix (Fin P.KN) (Fin P.KN) GF16 :=
  fun p q => if p.divNat = i ∧ q.divNat = j then baseForm mb i j p.modNat q.modNat else 0

theorem blockForm_formRow (mb : Mat P.N P.N) (i j i' j' : Fin P.K) (r c : Fin P.N) :
    blockForm mb i j (formRow i' r) (formRow j' c) =
      if i' = i ∧ j' = j then baseForm mb i j r c else 0 := by
  have hdiv (i : Fin P.K) (r : Fin P.N) : (finProdFinEquiv (i, r)).divNat = i :=
    congrArg Prod.fst (finProdFinEquiv.symm_apply_apply (i, r))
  have hmod (i : Fin P.K) (r : Fin P.N) : (finProdFinEquiv (i, r)).modNat = r :=
    congrArg Prod.snd (finProdFinEquiv.symm_apply_apply (i, r))
  rw [blockForm, formRow_eq, formRow_eq, hdiv, hdiv, hmod, hmod]

theorem get_symmetrized (mb : Mat P.N P.N) (r c : Fin P.N) :
    (symmetrized mb).get r c = mb.get r c + mb.get c r := by
  have h := congrFun (congrFun (toMatrix_add mb mb.transpose) r) c
  rwa [toMatrix_transpose, Matrix.add_apply, Matrix.transpose_apply] at h

theorem get_row {rows cols : Nat} (a : Mat rows cols) (r : Fin rows) (c : Fin cols) :
    (a.row r).get c = a.get r c := Vector.get_ofFn _ c

/-- A diagonal row adds its row of `coeff · Upper(mb)`. -/
theorem get_placeDiagonalRow (mb : Mat P.N P.N) (coeff : GF16) (i : Fin P.K) (ga : Mat P.KN P.KN)
    (r : Fin P.N) (i' j' : Fin P.K) (r' c : Fin P.N) :
    (placeDiagonalRow mb (symmetrized mb) coeff i ga r).get (formRow i' r') (formRow j' c) =
      ga.get (formRow i' r') (formRow j' c) +
        if r' = r then (if i' = i ∧ j' = i then coeff * mb.upper.get r c else 0) else 0 := by
  have hr := r.isLt
  have hc := c.isLt
  rw [placeDiagonalRow, get_modifyRow]
  simp only [formRow_inj]
  by_cases hrow : i' = i ∧ r' = r
  · obtain ⟨rfl, rfl⟩ := hrow
    rw [if_pos ⟨rfl, rfl⟩, get_axpyAt, get_addAtColumn, get_row, if_pos rfl, add_assoc]
    simp only [formRow_inj, true_and]
    congr 1
    have hval : (formRow j' c).val = j' * P.N + c := rfl
    -- inside the block: below the diagonal nothing is placed, on it and above it one entry
    by_cases hj : j' = i'
    · subst hj
      rw [if_pos (rfl : j' = j'), Mat.upper, Mat.get_ofFn]
      rcases lt_trichotomy r' c with h | h | h
      · have hlt : r'.val < c.val := h
        rw [if_neg (fun h' => h.ne' h'.2), zero_add, dif_pos (by omega), if_neg h.ne, if_pos h,
          segment, Vector.get_ofFn, get_row]
        have hpos : (⟨r' + 1 + ((formRow j' c).val - (j' * P.N + r' + 1)), by omega⟩ : Fin P.N) = c :=
          Fin.ext (by simp only; omega)
        simp only [hpos, get_symmetrized]
      · subst h
        rw [if_pos (And.intro rfl rfl), dif_neg (by omega), add_zero, if_pos rfl]
      · have hlt : c.val < r'.val := h
        rw [if_neg (fun h' => h.ne h'.2), dif_neg (by omega), if_neg h.ne', if_neg h.not_gt, add_zero,
          mul_zero]
    · have hout : ¬ (i' * P.N + r' + 1 ≤ (formRow j' c).val ∧
          (formRow j' c).val - (i' * P.N + r' + 1) < P.N - r' - 1) := by
        rintro ⟨hlo, hhi⟩
        exact hj (block_of_between (c := c) (by omega) (by omega))
      rw [if_neg (fun h => hj h.1), dif_neg hout, if_neg hj, add_zero]
  · rw [if_neg hrow]
    by_cases hr' : r' = r
    · rw [if_pos hr', if_neg fun h => hrow ⟨h.1, hr'⟩, add_zero]
    · rw [if_neg hr', add_zero]

/-- An off-diagonal row adds its row of `coeff · (mb + mbᵀ)`. -/
theorem get_placeRow (mb : Mat P.N P.N) (coeff : GF16) (i j : Fin P.K) (ga : Mat P.KN P.KN)
    (r : Fin P.N) (i' j' : Fin P.K) (r' c : Fin P.N) :
    (placeRow (symmetrized mb) coeff i j ga r).get (formRow i' r') (formRow j' c) =
      ga.get (formRow i' r') (formRow j' c) +
        if r' = r then
          (if i' = i ∧ j' = j then coeff * (mb.get r c + mb.get c r) else 0) else 0 := by
  have hc := c.isLt
  rw [placeRow, get_modifyRow]
  simp only [formRow_inj]
  by_cases hrow : i' = i ∧ r' = r
  · obtain ⟨rfl, rfl⟩ := hrow
    rw [if_pos ⟨rfl, rfl⟩, get_axpyAt, get_row, if_pos rfl]
    congr 1
    have hval : (formRow j' c).val = j' * P.N + c := rfl
    by_cases hj : j' = j
    · subst hj
      rw [if_pos ⟨rfl, rfl⟩, dif_pos (by omega), get_row]
      have hpos : (⟨(formRow j' c).val - j' * P.N, by omega⟩ : Fin P.N) = c :=
        Fin.ext (by simp only; omega)
      rw [hpos, get_symmetrized]
    · have hout : ¬ (j * P.N ≤ (formRow j' c).val ∧ (formRow j' c).val - j * P.N < P.N) := by
        rintro ⟨hlo, hhi⟩
        exact hj (block_of_between (c := c) hlo (by omega))
      rw [dif_neg hout, if_neg fun h => hj h.2]
  · rw [if_neg hrow]
    by_cases hr' : r' = r
    · rw [if_pos hr', if_neg fun h => hrow ⟨h.1, hr'⟩, add_zero]
    · rw [if_neg hr', add_zero]

/-- A placement adds `coeff` times the placed form. -/
theorem toMatrix_placeBlock (mb : Mat P.N P.N) (coeff : GF16) (i j : Fin P.K)
    (ga : Mat P.KN P.KN) :
    (placeBlock mb (symmetrized mb) coeff i j ga).toMatrix =
      ga.toMatrix + coeff • blockForm mb i j := by
  refine Matrix.ext fun p q => ?_
  obtain ⟨i', r', rfl⟩ := exists_formRow p
  obtain ⟨j', c, rfl⟩ := exists_formRow q
  rw [Matrix.add_apply, Matrix.smul_apply, smul_eq_mul, blockForm_formRow, baseForm]
  -- the loop over the rows adds at row `r'` only
  have hrows (d : Fin P.N → GF16) :
      ((List.finRange P.N).map fun r => if r' = r then d r else 0).sum = d r' := by
    rw [← Fin.sum_univ_def, Finset.sum_ite_eq, if_pos (Finset.mem_univ r')]
  by_cases hij : i = j
  · subst hij
    rw [placeBlock, if_pos rfl]
    refine (foldl_add (fun ga : Mat P.KN P.KN => ga.get (formRow i' r') (formRow j' c)) _ _
      (fun ga r => get_placeDiagonalRow mb coeff i ga r i' j' r' c) _ _).trans ?_
    rw [hrows, if_pos rfl, mul_ite, mul_zero]
    rfl
  · rw [placeBlock, if_neg hij]
    refine (foldl_add (fun ga : Mat P.KN P.KN => ga.get (formRow i' r') (formRow j' c)) _ _
      (fun ga r => get_placeRow mb coeff i j ga r i' j' r' c) _ _).trans ?_
    rw [hrows, if_neg hij, mul_ite, mul_zero]
    rfl

/-! ## The forms as sums over block pairs -/

/-- What the pair `((i, j), ell)` contributes to form `a`. -/
def pairTerm (pk : PublicKey P) (p : (Fin P.K × Fin P.K) × Nat) (a : Fin P.M) :
    Matrix (Fin P.KN) (Fin P.KN) GF16 :=
  ∑ b, ((ePow P p.2).get b).get a • blockForm (fullMatrix pk b) p.1.1 p.1.2

theorem toMatrix_addEquation (mb : Mat P.N P.N) (column : Vector GF16 P.M) (i j : Fin P.K)
    (g : Vector (Mat P.KN P.KN) P.M) (a a' : Fin P.M) :
    ((addEquation mb (symmetrized mb) column i j g a').get a).toMatrix =
      (g.get a).toMatrix + if a = a' then column.get a' • blockForm mb i j else 0 := by
  rw [addEquation]
  by_cases hcoeff : column.get a' = 0
  · rw [if_pos hcoeff, hcoeff, zero_smul, ite_self, add_zero]
  · rw [if_neg hcoeff, get_set]
    by_cases ha : a = a'
    · rw [if_pos ha, if_pos ha.symm, toMatrix_placeBlock, ha]
    · rw [if_neg ha, if_neg (Ne.symm ha), add_zero]

theorem toMatrix_addPair (pk : PublicKey P) (g : Vector (Mat P.KN P.KN) P.M)
    (p : (Fin P.K × Fin P.K) × Nat) (a : Fin P.M) :
    ((addPair (Vector.ofFn (fullMatrix pk)) ((Vector.ofFn (fullMatrix pk)).map symmetrized) g p).get
        a).toMatrix = (g.get a).toMatrix + pairTerm pk p a := by
  have hsym (b : Fin P.M) :
      ((Vector.ofFn (fullMatrix pk)).map symmetrized).get b = symmetrized (fullMatrix pk b) := by
    simp [Vector.get_eq_getElem]
  rw [addPair, pairTerm, Fin.sum_univ_def]
  refine foldl_add (fun g : Vector (Mat P.KN P.KN) P.M => (g.get a).toMatrix) _ _ (fun g b => ?_) _ _
  -- the inner loop reaches equation `a` once
  rw [Vector.get_ofFn, hsym]
  refine (foldl_add (fun g : Vector (Mat P.KN P.KN) P.M => (g.get a).toMatrix) _ _
    (fun g a' => toMatrix_addEquation (fullMatrix pk b) ((ePow P p.2).get b) p.1.1 p.1.2 g a a')
    _ _).trans ?_
  rw [← Fin.sum_univ_def, Finset.sum_ite_eq, if_pos (Finset.mem_univ a)]

theorem toMatrix_whippedForms (pk : PublicKey P) (a : Fin P.M) :
    ((whippedForms pk).get a).toMatrix =
      ((blockPairs P.K).zipIdx.map (pairTerm pk · a)).sum := by
  rw [whippedForms]
  refine (foldl_add (fun g : Vector (Mat P.KN P.KN) P.M => (g.get a).toMatrix) _ (pairTerm pk · a)
    (fun g p => toMatrix_addPair pk g p a) _ _).trans ?_
  have hzero : ((Vector.replicate P.M (Mat.zero P.KN P.KN)).get a).toMatrix = 0 := by
    refine Matrix.ext fun p q => ?_
    rw [Vector.get_replicate]
    exact congrFun (get_replicate_zero _) _
  rw [hzero, zero_add]

/-! ## Triangular shape -/

theorem le_of_mem_blockPairs {k : Nat} {p : Fin k × Fin k} (h : p ∈ blockPairs k) : p.1 ≤ p.2 := by
  rw [blockPairs, List.mem_flatMap] at h
  obtain ⟨i, -, hp⟩ := h
  obtain ⟨j, hj, rfl⟩ := List.mem_map.mp hp
  rw [List.mem_reverse, List.mem_filter] at hj
  exact of_decide_eq_true hj.2

theorem blockForm_below (mb : Mat P.N P.N) {i j : Fin P.K} (hij : i ≤ j) {p q : Fin P.KN}
    (h : q < p) : blockForm mb i j p q = 0 := by
  obtain ⟨i', r, rfl⟩ := exists_formRow p
  obtain ⟨j', c, rfl⟩ := exists_formRow q
  rw [blockForm_formRow]
  by_cases hblock : i' = i ∧ j' = j
  · obtain ⟨rfl, rfl⟩ := hblock
    have hc := c.isLt
    have hr := r.isLt
    have hval : j' * P.N + c.val < i' * P.N + r.val := h
    -- blocks above the diagonal lie above it entirely
    have hji : i' = j' := by
      refine Fin.ext (Nat.le_antisymm hij (Nat.le_of_not_lt fun hlt => ?_))
      have hstart : (i'.val + 1) * P.N ≤ j' * P.N := Nat.mul_le_mul_right _ hlt
      rw [Nat.succ_mul] at hstart
      omega
    subst hji
    have hcr : c < r := by
      rw [Fin.lt_def]
      omega
    rw [if_pos ⟨rfl, rfl⟩, baseForm, if_pos rfl, toMatrix_apply, Mat.upper, Mat.get_ofFn,
      if_neg hcr.ne', if_neg hcr.not_gt]
  · rw [if_neg hblock]

/-- The forms are zero strictly below the diagonal. -/
theorem whippedForms_below (pk : PublicKey P) (a : Fin P.M) {p q : Fin P.KN} (h : q < p) :
    ((whippedForms pk).get a).get p q = 0 := by
  have hterm : ∀ t ∈ (blockPairs P.K).zipIdx, pairTerm pk t a p q = 0 := by
    intro t ht
    have hle := le_of_mem_blockPairs (List.fst_mem_of_mem_zipIdx ht)
    rw [pairTerm, Matrix.sum_apply]
    refine Finset.sum_eq_zero fun b _ => ?_
    rw [Matrix.smul_apply, blockForm_below _ hle h, smul_zero]
  have hentry : ((blockPairs P.K).zipIdx.map (pairTerm pk · a)).sum p q = 0 := by
    generalize (blockPairs P.K).zipIdx = ts at hterm
    induction ts with
    | nil => rfl
    | cons t ts ih =>
        rw [List.map_cons, List.sum_cons, Matrix.add_apply, hterm t List.mem_cons_self,
          ih fun t' ht' => hterm t' (List.mem_cons_of_mem _ ht'), add_zero]
  rwa [← toMatrix_whippedForms] at hentry

/-! ## The quadratic form -/

/-- `xᵀ A x`, as a function of the matrix. -/
def quadForm {n : Nat} (x : Fin n → GF16) : Matrix (Fin n) (Fin n) GF16 →ₗ[GF16] GF16 where
  toFun A := x ⬝ᵥ (A *ᵥ x)
  map_add' A B := by rw [Matrix.add_mulVec, dotProduct_add]
  map_smul' c A := by rw [Matrix.smul_mulVec, dotProduct_smul, RingHom.id_apply]

theorem quadForm_apply {n : Nat} (x : Fin n → GF16) (A : Matrix (Fin n) (Fin n) GF16) :
    quadForm x A = x ⬝ᵥ (A *ᵥ x) := rfl

theorem get_block (s : Vector GF16 P.KN) (i : Fin P.K) (r : Fin P.N) :
    (block s i).get r = s.get (formRow i r) := Vector.get_ofFn _ r

/-- A sum over positions, block by block. -/
theorem sum_formRow (f : Fin P.KN → GF16) : ∑ p, f p = ∑ i, ∑ r, f (formRow i r) := by
  rw [← Equiv.sum_comp finProdFinEquiv, Fintype.sum_prod_type]
  simp only [formRow_eq]

/-- A placed block is a form in two blocks of the input. -/
theorem quadForm_blockForm (mb : Mat P.N P.N) (s : Vector GF16 P.KN) (i j : Fin P.K) :
    quadForm s.get (blockForm mb i j) =
      (block s i).get ⬝ᵥ (baseForm mb i j *ᵥ (block s j).get) := by
  rw [quadForm_apply]
  simp only [dotProduct, Matrix.mulVec, sum_formRow, blockForm_formRow, get_block]
  rw [Finset.sum_eq_single i]
  · refine Finset.sum_congr rfl fun r _ => ?_
    congr 1
    rw [Finset.sum_eq_single j]
    · refine Finset.sum_congr rfl fun c _ => ?_
      rw [if_pos ⟨rfl, rfl⟩]
    · intro j' _ hj
      exact Finset.sum_eq_zero fun c _ => by rw [if_neg fun h => hj h.2, zero_mul]
    · exact fun h => absurd (Finset.mem_univ j) h
  · intro i' _ hi
    refine Finset.sum_eq_zero fun r _ => ?_
    rw [Finset.sum_eq_zero fun j' _ => Finset.sum_eq_zero fun c _ => ?_, mul_zero]
    rw [if_neg fun h => hi h.1, zero_mul]
  · exact fun h => absurd (Finset.mem_univ i) h

/-- The base map's matrix is the form the evaluator computes with. -/
theorem dotProduct_fullMatrix (pk : PublicKey P) (b : Fin P.M) (x y : Vector GF16 P.N) :
    x.get ⬝ᵥ ((fullMatrix pk b).toMatrix *ᵥ y.get) = form pk b (split x) (split y) := by
  have hvo := P.v_add_o
  have hvinegar (v : Fin P.V) : ((fullMatrix pk b).toMatrix *ᵥ y.get) ⟨v, by omega⟩ =
      ((pk.p1.get b).toMatrix *ᵥ (split y).1 + (pk.p2.get b).toMatrix *ᵥ (split y).2) v := by
    simp only [Matrix.mulVec, dotProduct, Pi.add_apply, sum_split hvo, toMatrix_apply, fullMatrix,
      Mat.get_ofFn]
    congr 1
    · refine Finset.sum_congr rfl fun c _ => ?_
      rw [dif_pos v.isLt, dif_pos c.isLt]
      exact congrArg _ (get_splitV y c _).symm
    · refine Finset.sum_congr rfl fun c _ => ?_
      have hcol : (⟨P.V + c - P.V, by omega⟩ : Fin P.O) = c := Fin.ext (Nat.add_sub_cancel_left _ _)
      rw [dif_pos v.isLt, dif_neg (by omega), hcol]
      exact congrArg _ (get_splitO y c _).symm
  have hoil (o : Fin P.O) : ((fullMatrix pk b).toMatrix *ᵥ y.get) ⟨P.V + o, by omega⟩ =
      ((pk.p3.get b).toMatrix *ᵥ (split y).2) o := by
    have hrow : (⟨P.V + o - P.V, by omega⟩ : Fin P.O) = o := Fin.ext (Nat.add_sub_cancel_left _ _)
    simp only [Matrix.mulVec, dotProduct, sum_split hvo, toMatrix_apply, fullMatrix, Mat.get_ofFn]
    -- the lower left block is zero
    rw [Finset.sum_eq_zero fun c _ => ?_, zero_add]
    · refine Finset.sum_congr rfl fun c _ => ?_
      have hcol : (⟨P.V + c - P.V, by omega⟩ : Fin P.O) = c := Fin.ext (Nat.add_sub_cancel_left _ _)
      rw [dif_neg (by omega), dif_neg (by omega), hrow, hcol]
      exact congrArg _ (get_splitO y c _).symm
    · rw [dif_neg (by omega), dif_pos (Fin.isLt _), zero_mul]
  rw [form_apply]
  simp only [dotProduct, sum_split hvo, hvinegar, hoil]
  congr 1
  · refine Finset.sum_congr rfl fun v _ => ?_
    exact congrArg (· * _) (get_splitV x v _).symm
  · refine Finset.sum_congr rfl fun o _ => ?_
    exact congrArg (· * _) (get_splitO x o _).symm

/-- A base form on two blocks is the pair's value in the evaluator. -/
theorem dotProduct_baseForm (pk : PublicKey P) (b : Fin P.M) (s : Vector GF16 P.KN)
    (i j : Fin P.K) :
    (block s i).get ⬝ᵥ (baseForm (fullMatrix pk b) i j *ᵥ (block s j).get) =
      pairForm (form pk b) (fun i => split (block s i)) i j := by
  rw [baseForm, pairForm]
  by_cases hij : i = j
  · subst hij
    rw [if_pos rfl, if_pos rfl, dotProduct_upper, dotProduct_fullMatrix]
  · rw [if_neg hij, if_neg hij, Matrix.add_mulVec, dotProduct_add, dotProduct_fullMatrix,
      Matrix.mulVec_transpose, dotProduct_comm, ← Matrix.dotProduct_mulVec, dotProduct_fullMatrix]

/-- A power of `z` in coordinates. -/
theorem zMap_pow_apply (ell : Nat) (u : Fin P.M → GF16) (a : Fin P.M) :
    (zMap P ^ ell) u a = ∑ b, u b * ((ePow P ell).get b).get a := by
  have hcolumn (b : Fin P.M) : ((ePow P ell).get b).get = (zMap P ^ ell) (Pi.single b 1) := by
    rw [ePow, Vector.get_ofFn, get_mulZPow]
    congr 1
    funext c
    rw [get_set, get_replicate_zero, Pi.single_apply]
    exact if_congr eq_comm rfl rfl
  have hbasis : u = ∑ b, u b • Pi.single b (1 : GF16) := pi_eq_sum_univ' u
  conv_lhs => rw [hbasis]
  rw [map_sum, Finset.sum_apply]
  refine Finset.sum_congr rfl fun b _ => ?_
  rw [map_smul, Pi.smul_apply, smul_eq_mul, hcolumn]

/-- The form of equation `a` at `s` is the value of equation `a`. -/
theorem quadForm_whippedForms (pk : PublicKey P) (s : Vector GF16 P.KN) (a : Fin P.M) :
    quadForm s.get ((whippedForms pk).get a).toMatrix = (evalBlocks pk s).get a := by
  have happly (l : List (Fin P.M → GF16)) : l.sum a = (l.map (· a)).sum := by
    induction l with
    | nil => rfl
    | cons f l ih => rw [List.sum_cons, Pi.add_apply, ih, List.map_cons, List.sum_cons]
  rw [toMatrix_whippedForms, map_list_sum, List.map_map, get_evalBlocks, pairSum, happly,
    List.map_map]
  refine congrArg List.sum (List.map_congr_left fun p _ => ?_)
  simp only [Function.comp_apply, pairTerm, map_sum, map_smul, smul_eq_mul, quadForm_blockForm,
    dotProduct_baseForm, zMap_pow_apply]
  exact Finset.sum_congr rfl fun b _ => mul_comm _ _

end VoleAct.Mayo
