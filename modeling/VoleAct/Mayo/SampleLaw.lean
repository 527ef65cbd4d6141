/-
  VoleAct.Mayo.SampleLaw

  When the solver succeeds, and how often it returns each solution.

  The pivots are a function of the matrix alone: two runs with different right-hand
  sides and different random vectors agree outside the last column.  A run without a
  pivot in every row leaves a zero row, so success is full row rank; and a successful
  run changes the random vector only at the pivots.
-/
import VoleAct.Mayo.SampleSolution

namespace VoleAct.Mayo

open VoleAct.BinaryFields VoleAct.Lib Matrix

variable {m cols : Nat}

/-- The elimination of one call. -/
def eliminated (a : Mat m cols) (y : Vector GF16 m) (r : Vector GF16 cols) : Elimination m cols :=
  (List.finRange cols).foldl pivotStep (Elimination.start (augmented a y r))

theorem eliminated_inv (hm : m < 2 ^ 63) (a : Mat m cols) (y : Vector GF16 m)
    (r : Vector GF16 cols) : (eliminated a y r).Inv (augmented a y r) cols :=
  foldl_finRange (fun t (s : Elimination m cols) => s.Inv (augmented a y r) t) _ (.start _)
    fun _ _ hs => hs.pivotStep hm

theorem sampleSolution_eq (a : Mat m cols) (y : Vector GF16 m) (r : Vector GF16 cols) :
    sampleSolution a y r = if (eliminated a y r).pivotRow ≠ m then none
      else some (Vector.ofFn fun column =>
        r.get column + GF16.new (correction (eliminated a y r) column)) := rfl

theorem sampleSolution_isSome_iff_pivotRow (a : Mat m cols) (y : Vector GF16 m)
    (r : Vector GF16 cols) : (sampleSolution a y r).isSome ↔ (eliminated a y r).pivotRow = m := by
  rw [sampleSolution_eq]
  by_cases h : (eliminated a y r).pivotRow = m <;> simp [h]

/-! ## The pivots are those of the matrix -/

/-- Two states that differ in the last column only. -/
structure Elimination.SamePivots (s s' : Elimination m cols) : Prop where
  left : ∀ (row : Fin m) (c : Fin cols), s.aug.get row c.castSucc = s'.aug.get row c.castSucc
  pivotRow : s.pivotRow = s'.pivotRow
  pivotRows : s.pivotRows = s'.pivotRows
  pivotColumns : s.pivotColumns = s'.pivotColumns

theorem selectRow_congr {aug aug' : Mat m (cols + 1)}
    (h : ∀ (row : Fin m) (c : Fin cols), aug.get row c.castSucc = aug'.get row c.castSucc)
    (pivotRow : Nat) (c : Fin cols) :
    (selectRow aug pivotRow c.castSucc).2 = (selectRow aug' pivotRow c.castSucc).2 ∧
      ∀ p : Fin cols, (selectRow aug pivotRow c.castSucc).1.get p.castSucc =
        (selectRow aug' pivotRow c.castSucc).1.get p.castSucc := by
  refine List.foldl_rel (r := fun (st st' : Vector GF16 (cols + 1) × U8) => st.2 = st'.2 ∧
    ∀ p : Fin cols, st.1.get p.castSucc = st'.1.get p.castSucc) ⟨rfl, fun _ => rfl⟩ ?_
  -- one row of the scan decides on an entry left of the last column
  rintro row - ⟨selected, found⟩ ⟨selected', found'⟩ ⟨hfound, hselected⟩
  dsimp only at hfound hselected
  constructor
  · simp only [scanRow, hfound, h]
  · intro p
    simp only [scanRow, Vector.get_ofFn, hfound, hselected, h]

theorem Elimination.SamePivots.pivotStep {s s' : Elimination m cols} (h : s.SamePivots s')
    (c : Fin cols) : (pivotStep s c).SamePivots (pivotStep s' c) := by
  obtain ⟨hfound, hselected⟩ := selectRow_congr h.left s.pivotRow c
  rw [h.pivotRow] at hfound hselected
  constructor
  · intro row p
    simp only [Mayo.pivotStep, clearColumn, writePivot, Mat.get_ofFn, Vector.get_ofFn, h.pivotRow,
      hfound, hselected, h.left]
  · simp only [Mayo.pivotStep, h.pivotRow, hfound]
  · simp only [Mayo.pivotStep, h.pivotRow, h.pivotRows]
  · simp only [Mayo.pivotStep, h.pivotRow, hfound, h.pivotColumns]

theorem Elimination.SamePivots.start {aug aug' : Mat m (cols + 1)}
    (h : ∀ (row : Fin m) (c : Fin cols), aug.get row c.castSucc = aug'.get row c.castSucc) :
    (Elimination.start aug).SamePivots (Elimination.start aug') := ⟨h, rfl, rfl, rfl⟩

theorem eliminated_samePivots (a : Mat m cols) (y y' : Vector GF16 m) (r r' : Vector GF16 cols) :
    (eliminated a y r).SamePivots (eliminated a y' r') := by
  have hstart : (Elimination.start (augmented a y r)).SamePivots
      (Elimination.start (augmented a y' r')) :=
    .start fun row c => by simp only [augmented, Mat.get_ofFn, Fin.lastCases_castSucc]
  unfold eliminated
  exact List.foldl_rel (r := Elimination.SamePivots) hstart fun c _ s s' h => h.pivotStep c

/-! ## Success is full row rank -/

/-- The rows without a pivot are zero in the columns below `t`. -/
def Elimination.Zeroed (t : Nat) (s : Elimination m cols) : Prop :=
  ∀ row : Fin m, s.pivotRow ≤ row → ∀ c : Fin cols, c.val < t → s.aug.get row c.castSucc = 0

theorem Elimination.Zeroed.pivotStep (hm : m < 2 ^ 63) {s : Elimination m cols}
    (hle : s.pivotRow ≤ m) {c : Fin cols} (h : s.Zeroed c) : (pivotStep s c).Zeroed (c + 1) := by
  intro row hrow p hp
  rcases pivotStep_cases hm hle c with
    ⟨-, hzero, haug, hrow'⟩ | ⟨-, hlt, w, inverse, -, hw, hone, haug, hrow'⟩
  · rw [hrow'] at hrow
    rw [haug]
    rcases Nat.lt_succ_iff_lt_or_eq.mp hp with hp | hp
    · exact h row hrow p hp
    · rw [Fin.ext hp]
      exact hzero row hrow
  · rw [hrow'] at hrow
    have hne : row ≠ ⟨s.pivotRow, hlt⟩ := by
      rintro rfl
      exact absurd hrow (Nat.lt_irrefl _)
    rw [← Mat.toMatrix_apply, haug, eliminate_of_ne _ hne, Pi.sub_apply, Pi.smul_apply, smul_eq_mul]
    rcases Nat.lt_succ_iff_lt_or_eq.mp hp with hp | hp
    · -- the old rows from the pivot row on were zero here, and so was their combination
      have hold (q : Fin m) (hq : s.pivotRow ≤ q) : s.aug.toMatrix q p.castSucc = 0 := h q hq p hp
      have hwp : w p.castSucc = 0 := by
        rcases hw with rfl | ⟨q, hq, rfl⟩
        · rfl
        · exact hold q (Nat.le_of_lt hq)
      rw [hold row (Nat.le_of_lt hrow), Pi.smul_apply, Pi.add_apply, hold _ le_rfl, hwp, add_zero,
        smul_zero, mul_zero, sub_zero]
    · rw [Fin.ext hp, hone, mul_one, sub_self]

theorem eliminated_zeroed (hm : m < 2 ^ 63) (a : Mat m cols) (y : Vector GF16 m)
    (r : Vector GF16 cols) : (eliminated a y r).Zeroed cols := by
  have hboth := foldl_finRange
    (fun t (s : Elimination m cols) => s.Inv (augmented a y r) t ∧ s.Zeroed t) pivotStep
    (b := Elimination.start (augmented a y r))
    ⟨.start _, fun _ _ c hc => absurd hc (Nat.not_lt_zero _)⟩
    fun c s hs => ⟨hs.1.pivotStep hm, hs.2.pivotStep hm hs.1.pivotRow_le⟩
  exact hboth.2

/-- The matrix of a state without its right-hand side. -/
def Elimination.leftMatrix (s : Elimination m cols) : Matrix (Fin m) (Fin cols) GF16 :=
  Matrix.of fun row c => s.aug.get row c.castSucc

theorem leftMatrix_mulVec (s : Elimination m cols) (z : Fin cols → GF16) :
    s.aug.toMatrix *ᵥ (Fin.snoc z 0 : Fin (cols + 1) → GF16) = s.leftMatrix *ᵥ z := by
  funext row
  rw [mulVec, dotProduct, Fin.sum_univ_castSucc, Fin.snoc_last, mul_zero, add_zero]
  simp only [Fin.snoc_castSucc]
  rfl

theorem augmented_mulVec_snoc_zero (a : Mat m cols) (y : Vector GF16 m) (r : Vector GF16 cols)
    (z : Fin cols → GF16) :
    (augmented a y r).toMatrix *ᵥ (Fin.snoc z 0 : Fin (cols + 1) → GF16) = a.toMatrix *ᵥ z := by
  refine (leftMatrix_mulVec (Elimination.start (augmented a y r)) z).trans ?_
  congr 1
  refine Matrix.ext fun row c => ?_
  simp only [Elimination.leftMatrix, Elimination.start, augmented, Matrix.of_apply, Mat.get_ofFn,
    Fin.lastCases_castSucc]
  rfl

/-- The random vector is changed at pivot columns only. -/
theorem sampleSolution_keeps {a : Mat m cols} {y : Vector GF16 m} {r x : Vector GF16 cols}
    (h : sampleSolution a y r = some x) {c : Fin cols}
    (hc : (eliminated a y r).pivotColumns.get c = 0#8) : x.get c = r.get c := by
  rw [sampleSolution_eq] at h
  split at h
  · cases h
  · obtain rfl := Option.some.inj h
    rw [Vector.get_ofFn, correction, hc]
    show r.get c + GF16.new (_ &&& 0#8) = r.get c
    rw [BitVec.and_zero]
    exact add_zero _

/-- The solver succeeds exactly on full row rank, whatever the right-hand side and the random
    vector. -/
theorem sampleSolution_isSome_iff (hm : m < 2 ^ 63) (a : Mat m cols) (y : Vector GF16 m)
    (r : Vector GF16 cols) : (sampleSolution a y r).isSome ↔ a.toMatrix.rank = m := by
  rw [sampleSolution_isSome_iff_pivotRow]
  constructor
  · -- the run with any other right-hand side succeeds too, so every system is solvable
    intro hrow
    refine (rank_eq_card_iff_surjective.mpr fun b => ?_).trans (Fintype.card_fin m)
    have hb : (sampleSolution a (Vector.ofFn b) r).isSome := by
      rw [sampleSolution_isSome_iff_pivotRow,
        (eliminated_samePivots a (Vector.ofFn b) y r r).pivotRow, hrow]
    obtain ⟨x, hx⟩ := Option.isSome_iff_exists.mp hb
    exact ⟨x.get, (sampleSolution_spec hm hx).trans (funext (Vector.get_ofFn b))⟩
  · -- otherwise a zero row is left, and the rank has not dropped on the way
    intro hrank
    by_contra hne
    have inv := eliminated_inv hm a y r
    have hlt : (eliminated a y r).pivotRow < m := lt_of_le_of_ne inv.pivotRow_le hne
    have hzero : (eliminated a y r).leftMatrix ⟨_, hlt⟩ = 0 := by
      funext c
      exact eliminated_zeroed hm a y r ⟨_, hlt⟩ le_rfl c c.isLt
    have hle : a.toMatrix.rank ≤ (eliminated a y r).leftMatrix.rank := by
      refine rank_le_of_kernel fun z hz => ?_
      rw [← augmented_mulVec_snoc_zero a y r]
      exact inv.kernel _ ((leftMatrix_mulVec _ z).trans hz)
    have hle' := Matrix.rank_le_card_height (eliminated a y r).leftMatrix
    refine rank_ne_card_of_row_eq_zero hzero ?_
    rw [Fintype.card_fin] at hle' ⊢
    omega

/-! ## The distribution of the solutions -/

/-- The pivot columns of a matrix. -/
def pivotSet (a : Mat m cols) : Finset (Fin cols) :=
  Finset.univ.filter fun c =>
    ((eliminated a (Vector.replicate m 0) (Vector.replicate cols 0)).pivot c.castSucc).isSome

theorem card_pivotSet (hm : m < 2 ^ 63) {a : Mat m cols} (hrank : a.toMatrix.rank = m) :
    (pivotSet a).card = m := by
  have inv := eliminated_inv hm a (Vector.replicate m 0) (Vector.replicate cols 0)
  have hrow := (sampleSolution_isSome_iff_pivotRow a _ _).mp
    ((sampleSolution_isSome_iff hm a (Vector.replicate m 0) (Vector.replicate cols 0)).mpr hrank)
  have hreduced : Reduced (eliminated a (Vector.replicate m 0) (Vector.replicate cols 0)).leftMatrix
      fun c => (eliminated a _ _).pivot c.castSucc :=
    ⟨fun p i hp row => inv.reduced.unit p.castSucc i hp row,
      fun p q i hp hq => Fin.castSucc_injective _ (inv.reduced.inj _ _ i hp hq)⟩
  exact (hreduced.card_pivots fun i => inv.full i (by rw [hrow]; exact i.isLt)).trans
    (Fintype.card_fin m)

theorem pivotColumns_of_notMem (hm : m < 2 ^ 63) (a : Mat m cols) (y : Vector GF16 m)
    (r : Vector GF16 cols) {c : Fin cols} (hc : c ∉ pivotSet a) :
    (eliminated a y r).pivotColumns.get c = 0#8 := by
  have inv := eliminated_inv hm a (Vector.replicate m 0) (Vector.replicate cols 0)
  rw [(eliminated_samePivots a y (Vector.replicate m 0) r (Vector.replicate cols 0)).pivotColumns]
  rcases inv.flag c with h | h
  · exact h
  · refine absurd (Finset.mem_filter.mpr ⟨Finset.mem_univ c, ?_⟩) hc
    rw [pivot_castSucc, dif_pos h]
    rfl

/-- A vector of field elements as a function. -/
def vectorEquiv (n : Nat) : Vector GF16 n ≃ (Fin n → GF16) where
  toFun := Vector.get
  invFun := Vector.ofFn
  left_inv v := Vector.ext fun i hi => by simp [Vector.get_eq_getElem]
  right_inv f := funext (Vector.get_ofFn f)

theorem card_sampleSolution_eq (hm : m < 2 ^ 63) {a : Mat m cols} (hrank : a.toMatrix.rank = m)
    {y : Vector GF16 m} {x : Vector GF16 cols} (hx : a.toMatrix *ᵥ x.get = y.get) :
    Nat.card {r : Vector GF16 cols // sampleSolution a y r = some x} = 16 ^ m := by
  have hsome (y : Vector GF16 m) (r : Vector GF16 cols) : ∃ x, sampleSolution a y r = some x :=
    Option.isSome_iff_exists.mp ((sampleSolution_isSome_iff hm a y r).mpr hrank)
  -- under full rank the solver is a function of the random vector
  let solve (r : Fin cols → GF16) : Vector GF16 cols := (hsome y (Vector.ofFn r)).choose
  have hsolve (r : Fin cols → GF16) : sampleSolution a y (Vector.ofFn r) = some (solve r) :=
    (hsome y (Vector.ofFn r)).choose_spec
  have hcount := card_corrected_eq (A := a.toMatrix) (S := pivotSet a) (y := y.get)
    (f := fun r => (solve r).get) ((card_pivotSet hm hrank).trans (Fintype.card_fin m).symm)
    (fun b => by
      -- from the zero vector the solver returns a solution supported on the pivots
      obtain ⟨z, hz⟩ := hsome (Vector.ofFn b) (Vector.replicate cols 0)
      refine ⟨z.get, fun c hc => ?_, (sampleSolution_spec hm hz).trans (funext (Vector.get_ofFn b))⟩
      rw [sampleSolution_keeps hz (pivotColumns_of_notMem hm a _ _ hc)]
      simp [Vector.get_eq_getElem])
    (fun r => sampleSolution_spec hm (hsolve r))
    (fun r c hc => by
      rw [sampleSolution_keeps (hsolve r) (pivotColumns_of_notMem hm a _ _ hc), Vector.get_ofFn]) hx
  -- the same runs, with the random vectors as functions
  have hequiv : {r : Vector GF16 cols // sampleSolution a y r = some x} ≃
      {r : Fin cols → GF16 // (solve r).get = x.get} := by
    refine (vectorEquiv cols).subtypeEquiv fun r => ?_
    have hr : Vector.ofFn (vectorEquiv cols r) = r := (vectorEquiv cols).left_inv r
    have hrun := hsolve (vectorEquiv cols r)
    rw [hr] at hrun
    rw [hrun, Option.some_inj]
    exact (vectorEquiv cols).injective.eq_iff.symm
  rw [Nat.card_congr hequiv, Nat.card_eq_fintype_card, Fintype.card_subtype, hcount,
    Fintype.card_congr GF16.equivFin, Fintype.card_fin, Fintype.card_fin]

/-- The masked Gauss-Jordan solver, with rows that a slice can index.  It returns a vector exactly
    when the matrix has full row rank, so independently of the right-hand side and the random
    vector; the vector solves the system; and each solution is returned for `16 ^ m` of the random
    vectors. -/
theorem sampleSolution_law (hm : m < 2 ^ 63) (a : Mat m cols) :
    (∀ (y : Vector GF16 m) (r : Vector GF16 cols),
      (∃ x, sampleSolution a y r = some x) ↔ a.toMatrix.rank = m) ∧
    (∀ (y : Vector GF16 m) (r x : Vector GF16 cols), sampleSolution a y r = some x →
      a.toMatrix *ᵥ x.get = y.get) ∧
    (a.toMatrix.rank = m → ∀ (y : Vector GF16 m) (x : Vector GF16 cols),
      a.toMatrix *ᵥ x.get = y.get →
      Nat.card {r : Vector GF16 cols // sampleSolution a y r = some x} = 16 ^ m) := by
  refine ⟨fun y r => ?_, fun y r x => sampleSolution_spec hm,
    fun hrank y x hx => card_sampleSolution_eq hm hrank hx⟩
  rw [← Option.isSome_iff_exists]
  exact sampleSolution_isSome_iff hm a y r

/-- Of the 256 vectors, sixteen lead to the zero solution of `x0 + x1 = 0`. -/
theorem sampleSolution_law_row :
    Nat.card {r : Vector GF16 2 // sampleSolution (Mat.ofFn fun _ _ => 1 : Mat 1 2)
      (Vector.replicate 1 0) r = some (Vector.replicate 2 0)} = 16 ^ 1 := by
  have law := sampleSolution_law (by decide) (Mat.ofFn fun _ _ => 1 : Mat 1 2)
  have hrun : sampleSolution (Mat.ofFn fun _ _ => 1 : Mat 1 2) (Vector.replicate 1 0)
      (Vector.replicate 2 0) = some (Vector.replicate 2 0) := by decide +kernel
  exact law.2.2 ((law.1 _ _).mp ⟨_, hrun⟩) _ _ (law.2.1 _ _ _ hrun)

end VoleAct.Mayo
