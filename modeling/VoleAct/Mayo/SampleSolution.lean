/-
  VoleAct.Mayo.SampleSolution

  The fixed-schedule, masked Gauss-Jordan solver (`mat.rs`,
  `sample_solution`), and that a returned vector solves the system.
-/
import VoleAct.Mayo.Mat
import VoleAct.Lib.GaussJordan
import VoleAct.Lib.Lists

namespace VoleAct.Mayo

open VoleAct.BinaryFields VoleAct.Lib Matrix

/-! ## Mask helpers, each returning a one-bit byte -/

/-- `1` when the word is zero. -/
def ctIsZero (value : U64) : U8 :=
  (((value ||| (0#64 - value)) >>> 63) ^^^ 1#64).setWidth 8

/-- `1` when the indices are equal. -/
def ctEq (left right : Nat) : U8 := ctIsZero (BitVec.ofNat 64 left ^^^ BitVec.ofNat 64 right)

/-- `1` when `left < right`, by wrapping subtraction. -/
def ctLt (left right : Nat) : U8 :=
  ((BitVec.ofNat 64 left - BitVec.ofNat 64 right) >>> 63).setWidth 8

/-- `1` when the element is not zero. -/
def gfNonzero (value : GF16) : U8 := 1#8 ^^^ ctIsZero (value.toU8.setWidth 64)

/-- The low nibble of a masked byte. -/
def masked (x : GF16) (bit : U8) : GF16 := GF16.new (x.toU8 &&& (0#8 - bit))

/-! ## One pivot column -/

/-- The elimination state across pivot columns. -/
structure Elimination (m cols : Nat) where
  aug : Mat m (cols + 1)
  pivotRow : Nat
  pivotRows : Vector Nat cols
  pivotColumns : Vector U8 cols

variable {m cols : Nat}

/-- One row of the pivot scan: the target row is always included, the first usable lower row when
    the target's entry is zero. -/
def scanRow (aug : Mat m (cols + 1)) (pivotRow : Nat) (pivotColumn : Fin (cols + 1))
    (state : Vector GF16 (cols + 1) × U8) (row : Fin m) : Vector GF16 (cols + 1) × U8 :=
  let (selected, found) := state
  let atOrBelow := 1#8 ^^^ ctLt row pivotRow
  let isTarget := ctEq row pivotRow
  let nonzero := gfNonzero (aug.get row pivotColumn)
  let takeLower := atOrBelow &&& (isTarget ^^^ 1#8) &&& nonzero &&& (found ^^^ 1#8)
  let include_ := isTarget ||| takeLower
  (Vector.ofFn fun column => selected.get column + masked (aug.get row column) include_,
    found ||| (atOrBelow &&& nonzero))

/-- The scan over all rows: the selected row and whether a pivot was found. -/
def selectRow (aug : Mat m (cols + 1)) (pivotRow : Nat) (pivotColumn : Fin (cols + 1)) :
    Vector GF16 (cols + 1) × U8 :=
  (List.finRange m).foldl (scanRow aug pivotRow pivotColumn) (Vector.replicate _ 0, 0#8)

/-- Put the normalized row at index `pivotRow` via a full scan. -/
def writePivot (aug : Mat m (cols + 1)) (pivotRow : Nat) (found : U8)
    (normalized : Vector GF16 (cols + 1)) : Mat m (cols + 1) :=
  Mat.ofFn fun row column =>
    let writeMask := 0#8 - (found &&& ctEq row pivotRow)
    let keepMask := ~~~writeMask
    let old := (aug.get row column).toU8
    let new := (normalized.get column).toU8
    GF16.new ((old &&& keepMask) ||| (new &&& writeMask))

/-- Eliminate the pivot column from every other row. -/
def clearColumn (aug : Mat m (cols + 1)) (pivotRow : Nat) (pivotColumn : Fin (cols + 1))
    (found : U8) (normalized : Vector GF16 (cols + 1)) : Mat m (cols + 1) :=
  Mat.ofFn fun row column =>
    let factor := masked (aug.get row pivotColumn) (found &&& (1#8 ^^^ ctEq row pivotRow))
    aug.get row column + factor * normalized.get column

/-- The body of the loop over pivot columns. -/
def pivotStep (s : Elimination m cols) (pivotColumn : Fin cols) : Elimination m cols :=
  let (selected, found) := selectRow s.aug s.pivotRow pivotColumn.castSucc
  let inverse := (selected.get pivotColumn.castSucc).inv
  let normalized := Vector.ofFn fun column => inverse * selected.get column
  let aug := writePivot s.aug s.pivotRow found normalized
  { aug := clearColumn aug s.pivotRow pivotColumn.castSucc found normalized
    pivotRow := s.pivotRow + found.toNat
    pivotRows := s.pivotRows.set pivotColumn s.pivotRow
    pivotColumns := s.pivotColumns.set pivotColumn found }

/-- The augmented matrix `[A | y - A r]`. -/
def augmented (a : Mat m cols) (y : Vector GF16 m) (r : Vector GF16 cols) : Mat m (cols + 1) :=
  let ar := a.mulVec r
  Mat.ofFn fun row column => Fin.lastCases (y.get row + ar.get row) (a.get row) column

/-- The state before the first pivot column. -/
def Elimination.start (aug : Mat m (cols + 1)) : Elimination m cols where
  aug := aug
  pivotRow := 0
  pivotRows := Vector.replicate cols 0
  pivotColumns := Vector.replicate cols 0#8

/-- The correction of one column: the right-hand side of its pivot row, by a full scan. -/
def correction (s : Elimination m cols) (column : Fin cols) : U8 :=
  ((List.finRange m).foldl
    (fun acc row => acc ^^^
      ((s.aug.get row (Fin.last cols)).toU8 &&& (0#8 - ctEq row (s.pivotRows.get column)))) 0#8)
    &&& (0#8 - s.pivotColumns.get column)

/-- Solve `A * x = y`, randomized by `r`; `none` when `A` does not have full row rank. -/
def sampleSolution (a : Mat m cols) (y : Vector GF16 m) (r : Vector GF16 cols) :
    Option (Vector GF16 cols) :=
  let s := (List.finRange cols).foldl pivotStep (Elimination.start (augmented a y r))
  if s.pivotRow ≠ m then none
  else some (Vector.ofFn fun column => r.get column + GF16.new (correction s column))

/-! ## What the masks compute -/

/-- A mask bit as a byte. -/
def oneBit (b : Bool) : U8 := if b then 1#8 else 0#8

@[simp] theorem oneBit_and (a b : Bool) : oneBit a &&& oneBit b = oneBit (a && b) := by
  cases a <;> cases b <;> rfl

@[simp] theorem oneBit_or (a b : Bool) : oneBit a ||| oneBit b = oneBit (a || b) := by
  cases a <;> cases b <;> rfl

@[simp] theorem one_xor_oneBit (b : Bool) : 1#8 ^^^ oneBit b = oneBit !b := by
  cases b <;> rfl

@[simp] theorem oneBit_xor_one (b : Bool) : oneBit b ^^^ 1#8 = oneBit !b := by
  cases b <;> rfl

theorem and_mask (x : U8) (b : Bool) : x &&& (0#8 - oneBit b) = if b then x else 0#8 := by
  cases b
  · exact BitVec.and_zero
  · exact BitVec.and_allOnes

@[simp] theorem masked_oneBit (x : GF16) (b : Bool) : masked x (oneBit b) = if b then x else 0 := by
  rw [masked, and_mask]
  cases b
  · rw [if_neg Bool.false_ne_true, if_neg Bool.false_ne_true]
    rfl
  · rw [if_pos rfl, if_pos rfl, GF16.new_toU8]

theorem ushiftRight_63 (w : U64) : w >>> 63 = if w.msb then 1#64 else 0#64 := by
  have hlt := w.isLt
  apply BitVec.eq_of_toNat_eq
  rw [BitVec.toNat_ushiftRight, BitVec.msb_eq_decide, Nat.shiftRight_eq_div_pow]
  split
  · next h => simp at h ⊢; omega
  · next h => simp at h ⊢; omega

theorem ctIsZero_eq (value : U64) : ctIsZero value = oneBit (value == 0#64) := by
  have hmsb : (value ||| (0#64 - value)).msb = !(value == 0#64) := by
    rw [BitVec.msb_or]
    by_cases h : value = 0#64
    · subst h; rfl
    · have hpos : value.toNat ≠ 0 := fun h0 => h (BitVec.eq_of_toNat_eq h0)
      have hlt := value.isLt
      have hbeq : (value == 0#64) = false := beq_eq_false_iff_ne.mpr h
      rw [BitVec.msb_eq_decide, BitVec.msb_eq_decide, BitVec.toNat_sub, hbeq, Bool.not_false,
        ← Bool.decide_or, decide_eq_true_eq]
      simp only [BitVec.toNat_ofNat]
      omega
  rw [ctIsZero, ushiftRight_63, hmsb]
  cases value == 0#64 <;> rfl

theorem ctEq_eq {left right : Nat} (hl : left < 2 ^ 63) (hr : right < 2 ^ 63) :
    ctEq left right = oneBit (left = right) := by
  rw [ctEq, ctIsZero_eq]
  congr 1
  rw [Bool.eq_iff_iff]
  simp only [beq_iff_eq, BitVec.xor_eq_zero_iff, decide_eq_true_eq]
  constructor
  · intro h
    have hnat := congrArg BitVec.toNat h
    simp only [BitVec.toNat_ofNat] at hnat
    omega
  · exact fun h => congrArg _ h

theorem ctLt_eq {left right : Nat} (hl : left < 2 ^ 63) (hr : right < 2 ^ 63) :
    ctLt left right = oneBit (left < right) := by
  have hmsb : (BitVec.ofNat 64 left - BitVec.ofNat 64 right).msb = decide (left < right) := by
    rw [BitVec.msb_eq_decide, BitVec.toNat_sub]
    simp only [BitVec.toNat_ofNat, decide_eq_decide]
    omega
  rw [ctLt, ushiftRight_63, hmsb]
  cases decide (left < right) <;> rfl

theorem gfNonzero_eq (x : GF16) : gfNonzero x = oneBit (x ≠ 0) := by
  rw [gfNonzero, ctIsZero_eq, one_xor_oneBit]
  congr 1
  revert x
  simp only [GF16.forall_iff]
  decide +kernel

/-! ## The pivot scan -/

/-- What the scan holds after the rows below `t`: nothing found and the target row if it was passed,
    or a usable row built from the target row. -/
def ScanInv (aug : Mat m (cols + 1)) (pivotRow : Nat) (pivotColumn : Fin (cols + 1)) (t : Nat)
    (state : Vector GF16 (cols + 1) × U8) : Prop :=
  (state.2 = oneBit false ∧
    (∀ row : Fin m, row < t → pivotRow ≤ row → aug.get row pivotColumn = 0) ∧
    (∀ h : pivotRow < m, pivotRow < t → state.1.get = aug.get ⟨pivotRow, h⟩) ∧
    (t ≤ pivotRow → state.1.get = 0)) ∨
  (state.2 = oneBit true ∧ pivotRow < t ∧ state.1.get pivotColumn ≠ 0 ∧
    ∃ (h : pivotRow < m) (w : Fin (cols + 1) → GF16),
      state.1.get = aug.get ⟨pivotRow, h⟩ + w ∧
      (w = 0 ∨ ∃ q : Fin m, pivotRow < q ∧ w = aug.get q))

/-- The body of the scan with its masks read as booleans. -/
theorem scanRow_eq (hm : m < 2 ^ 63) (aug : Mat m (cols + 1)) {pivotRow : Nat} (hpr : pivotRow ≤ m)
    (pivotColumn : Fin (cols + 1)) (selected : Vector GF16 (cols + 1)) (found : Bool) (row : Fin m) :
    let nonzero : Bool := aug.get row pivotColumn ≠ 0
    let take : Bool := pivotRow < row && nonzero && !found
    scanRow aug pivotRow pivotColumn (selected, oneBit found) row =
      (Vector.ofFn fun column => selected.get column +
        if row = pivotRow || take then aug.get row column else 0,
       oneBit (found || (pivotRow ≤ row && nonzero))) := by
  have hrow := row.isLt
  have htake : (decide (pivotRow ≤ row.val) && !decide (row.val = pivotRow)) =
      decide (pivotRow < row.val) := by
    rw [Bool.eq_iff_iff]
    simp only [Bool.and_eq_true, Bool.not_eq_true', decide_eq_true_eq, decide_eq_false_iff_not]
    omega
  have hbelow : (!decide (row.val < pivotRow)) = decide (pivotRow ≤ row.val) := by
    rw [Bool.eq_iff_iff]
    simp
  simp only [scanRow, ctEq_eq (show row.val < 2 ^ 63 by omega) (show pivotRow < 2 ^ 63 by omega),
    ctLt_eq (show row.val < 2 ^ 63 by omega) (show pivotRow < 2 ^ 63 by omega), gfNonzero_eq,
    one_xor_oneBit, oneBit_xor_one, oneBit_and, oneBit_or, masked_oneBit, hbelow, htake]

/-- A row above the target: nothing is taken. -/
theorem scanInv_above (hm : m < 2 ^ 63) (aug : Mat m (cols + 1)) {pivotRow : Nat}
    (hpr : pivotRow ≤ m) (pivotColumn : Fin (cols + 1)) {row : Fin m} (hrow : row < pivotRow)
    {selected : Vector GF16 (cols + 1)} (hsel : selected.get = 0) :
    ScanInv aug pivotRow pivotColumn (row + 1)
      (scanRow aug pivotRow pivotColumn (selected, oneBit false) row) := by
  rw [scanRow_eq hm aug hpr]
  refine .inl ⟨?_, ?_, ?_, ?_⟩
  · simp [show ¬ pivotRow ≤ row.val by omega]
  · intro r hr hle
    omega
  · intro _ _
    omega
  · intro _
    funext c
    rw [Vector.get_ofFn, hsel]
    simp [show ¬ row.val = pivotRow by omega, show ¬ pivotRow < row.val by omega]

/-- The target row itself is always taken. -/
theorem scanInv_target (hm : m < 2 ^ 63) (aug : Mat m (cols + 1)) {pivotRow : Nat}
    (hpr : pivotRow ≤ m) (pivotColumn : Fin (cols + 1)) {row : Fin m} (hrow : row.val = pivotRow)
    {selected : Vector GF16 (cols + 1)} (hsel : selected.get = 0) :
    ScanInv aug pivotRow pivotColumn (row + 1)
      (scanRow aug pivotRow pivotColumn (selected, oneBit false) row) := by
  have hpm : pivotRow < m := hrow ▸ row.isLt
  have hrow' : row = ⟨pivotRow, hpm⟩ := Fin.ext hrow
  have hnew : ∀ c, selected.get c +
      (if (decide (row.val = pivotRow) || (decide (pivotRow < row.val) &&
        decide (aug.get row pivotColumn ≠ 0) && !false)) = true
        then aug.get row c else 0) = aug.get ⟨pivotRow, hpm⟩ c := by
    intro c
    rw [hsel, if_pos (by simp [hrow]), hrow']
    exact zero_add _
  rw [scanRow_eq hm aug hpr]
  by_cases hne : aug.get row pivotColumn = 0
  · refine .inl ⟨by simp [hne], ?_, ?_, ?_⟩
    · intro r hr hle
      rw [show r = row from Fin.ext (by omega), hne]
    · intro _ _
      exact funext fun c => (Vector.get_ofFn _ c).trans (hnew c)
    · intro _
      omega
  · refine .inr ⟨by simp [hne, hrow], by omega, ?_, hpm, 0, ?_, Or.inl rfl⟩
    · rw [Vector.get_ofFn, hnew, ← hrow']
      exact hne
    · rw [add_zero]
      exact funext fun c => (Vector.get_ofFn _ c).trans (hnew c)

/-- A row below the target is taken when it is the first that is nonzero. -/
theorem scanInv_below (hm : m < 2 ^ 63) (aug : Mat m (cols + 1)) {pivotRow : Nat}
    (hpr : pivotRow ≤ m) (pivotColumn : Fin (cols + 1)) {row : Fin m} (hrow : pivotRow < row)
    {selected : Vector GF16 (cols + 1)} (hpm : pivotRow < m)
    (hzero : ∀ r : Fin m, r.val < row → pivotRow ≤ r → aug.get r pivotColumn = 0)
    (hsel : selected.get = aug.get ⟨pivotRow, hpm⟩) :
    ScanInv aug pivotRow pivotColumn (row + 1)
      (scanRow aug pivotRow pivotColumn (selected, oneBit false) row) := by
  rw [scanRow_eq hm aug hpr]
  by_cases hne : aug.get row pivotColumn = 0
  · refine .inl ⟨by simp [hne], ?_, ?_, ?_⟩
    · intro r hr hle
      rcases Nat.lt_or_ge r row with hlt | hge
      · exact hzero r hlt hle
      · rw [show r = row from Fin.ext (by omega), hne]
    · intro _ _
      funext c
      rw [Vector.get_ofFn, hsel]
      simp [hne, show ¬ row.val = pivotRow by omega]
    · intro _
      omega
  · have hnew : ∀ c, selected.get c +
        (if (decide (row.val = pivotRow) || (decide (pivotRow < row.val) &&
          decide (aug.get row pivotColumn ≠ 0) && !false)) = true
          then aug.get row c else 0) = aug.get ⟨pivotRow, hpm⟩ c + aug.get row c := by
      intro c
      rw [hsel, if_pos (by simp [hne, hrow])]
    refine .inr ⟨by simp [hne, Nat.le_of_lt hrow], by omega, ?_, hpm, aug.get row, ?_,
      Or.inr ⟨row, hrow, rfl⟩⟩
    · rw [Vector.get_ofFn, hnew, hzero ⟨pivotRow, hpm⟩ hrow le_rfl, zero_add]
      exact hne
    · exact funext fun c => (Vector.get_ofFn _ c).trans (hnew c)

/-- Once a row was found the rest of the scan adds nothing. -/
theorem scanInv_found (hm : m < 2 ^ 63) (aug : Mat m (cols + 1)) {pivotRow : Nat}
    (hpr : pivotRow ≤ m) (pivotColumn : Fin (cols + 1)) {row : Fin m} (hlt : pivotRow < row)
    {selected : Vector GF16 (cols + 1)} (hne : selected.get pivotColumn ≠ 0) (hpm : pivotRow < m)
    {w : Fin (cols + 1) → GF16} (hsel : selected.get = aug.get ⟨pivotRow, hpm⟩ + w)
    (hw : w = 0 ∨ ∃ q : Fin m, pivotRow < q ∧ w = aug.get q) :
    ScanInv aug pivotRow pivotColumn (row + 1)
      (scanRow aug pivotRow pivotColumn (selected, oneBit true) row) := by
  have hnew : ∀ c, selected.get c +
      (if (decide (row.val = pivotRow) || (decide (pivotRow < row.val) &&
        decide (aug.get row pivotColumn ≠ 0) && !true)) = true
        then aug.get row c else 0) = selected.get c := by
    intro c
    simp [show ¬ row.val = pivotRow by omega]
  rw [scanRow_eq hm aug hpr]
  refine .inr ⟨by simp, by omega, ?_, hpm, w, ?_, hw⟩
  · rw [Vector.get_ofFn, hnew]
    exact hne
  · rw [← hsel]
    exact funext fun c => (Vector.get_ofFn _ c).trans (hnew c)

theorem scanInv_step (hm : m < 2 ^ 63) (aug : Mat m (cols + 1)) {pivotRow : Nat}
    (hpr : pivotRow ≤ m) (pivotColumn : Fin (cols + 1)) (row : Fin m)
    (state : Vector GF16 (cols + 1) × U8) (h : ScanInv aug pivotRow pivotColumn row state) :
    ScanInv aug pivotRow pivotColumn (row + 1) (scanRow aug pivotRow pivotColumn state row) := by
  obtain ⟨selected, found⟩ := state
  rcases h with ⟨rfl, hzero, htarget, hbefore⟩ | ⟨rfl, hlt, hne, hpm, w, hsel, hw⟩
  · rcases Nat.lt_trichotomy row pivotRow with hrow | hrow | hrow
    · exact scanInv_above hm aug hpr pivotColumn hrow (hbefore (by omega))
    · exact scanInv_target hm aug hpr pivotColumn hrow (hbefore (by omega))
    · have hpm : pivotRow < m := by omega
      exact scanInv_below hm aug hpr pivotColumn hrow hpm hzero (htarget hpm hrow)
  · exact scanInv_found hm aug hpr pivotColumn hlt hne hpm hsel hw

theorem selectRow_spec (hm : m < 2 ^ 63) (aug : Mat m (cols + 1)) {pivotRow : Nat}
    (hpr : pivotRow ≤ m) (pivotColumn : Fin (cols + 1)) :
    ScanInv aug pivotRow pivotColumn m (selectRow aug pivotRow pivotColumn) := by
  refine foldl_finRange (ScanInv aug pivotRow pivotColumn) _ ?_
    fun row state => scanInv_step hm aug hpr pivotColumn row state
  left
  refine ⟨rfl, fun _ h => absurd h (Nat.not_lt_zero _), fun _ h => absurd h (Nat.not_lt_zero _),
    fun _ => ?_⟩
  funext c
  simp [Vector.get]

/-! ## One elimination step -/

theorem clear_writePivot_found (hm : m < 2 ^ 63) (aug : Mat m (cols + 1)) {pivotRow : Nat}
    (hpr : pivotRow < m) (pivotColumn : Fin (cols + 1)) (normalized : Vector GF16 (cols + 1)) :
    (clearColumn (writePivot aug pivotRow (oneBit true) normalized) pivotRow pivotColumn
        (oneBit true) normalized).toMatrix =
      eliminate aug.toMatrix ⟨pivotRow, hpr⟩ pivotColumn normalized.get := by
  have hwrite (row : Fin m) (c : Fin (cols + 1)) :
      (writePivot aug pivotRow (oneBit true) normalized).get row c =
        if row.val = pivotRow then normalized.get c else aug.get row c := by
    have hrow := row.isLt
    rw [writePivot, Mat.get_ofFn, ctEq_eq (by omega) (by omega), oneBit_and]
    dsimp only
    by_cases h : row.val = pivotRow
    · rw [if_pos h, decide_eq_true h]
      show GF16.new ((_ &&& 0#8) ||| (_ &&& BitVec.allOnes 8)) = _
      rw [BitVec.and_zero, BitVec.zero_or, BitVec.and_allOnes, GF16.new_toU8]
    · rw [if_neg h, decide_eq_false h]
      show GF16.new ((_ &&& BitVec.allOnes 8) ||| (_ &&& 0#8)) = _
      rw [BitVec.and_zero, BitVec.or_zero, BitVec.and_allOnes, GF16.new_toU8]
  refine Matrix.ext fun row c => ?_
  have hrow := row.isLt
  rw [Mat.toMatrix_apply, clearColumn, Mat.get_ofFn, ctEq_eq (by omega) (by omega), one_xor_oneBit,
    oneBit_and, masked_oneBit, hwrite, hwrite, eliminate, Matrix.of_apply]
  by_cases h : row.val = pivotRow
  · rw [if_pos (Fin.ext h), if_neg (by simp [h])]
    dsimp only
    rw [if_pos h, zero_mul, add_zero]
  · rw [if_neg fun he => h (congrArg Fin.val he), if_neg h, if_neg h, if_pos (by simp [h])]
    rfl

theorem clear_writePivot_missing (aug : Mat m (cols + 1)) (pivotRow : Nat)
    (pivotColumn : Fin (cols + 1)) (normalized : Vector GF16 (cols + 1)) :
    clearColumn (writePivot aug pivotRow (oneBit false) normalized) pivotRow pivotColumn
      (oneBit false) normalized = aug := by
  have hzero (bit : U8) : oneBit false &&& bit = oneBit false := BitVec.zero_and
  have hwrite : writePivot aug pivotRow (oneBit false) normalized = aug := by
    refine Mat.ext fun row c => ?_
    rw [writePivot, Mat.get_ofFn, hzero]
    show GF16.new ((_ &&& BitVec.allOnes 8) ||| (_ &&& 0#8)) = _
    rw [BitVec.and_zero, BitVec.or_zero, BitVec.and_allOnes, GF16.new_toU8]
  refine Mat.ext fun row c => ?_
  rw [hwrite, clearColumn, Mat.get_ofFn, hzero, masked_oneBit, if_neg Bool.false_ne_true]
  dsimp only
  rw [zero_mul, add_zero]

/-! ## The loop over pivot columns -/

/-- The pivot row recorded for a column of the augmented matrix. -/
def Elimination.pivot (s : Elimination m cols) : Fin (cols + 1) → Option (Fin m) :=
  Fin.lastCases none fun c =>
    if h : s.pivotColumns.get c = 1#8 ∧ s.pivotRows.get c < m then some ⟨s.pivotRows.get c, h.2⟩
    else none

/-- The invariant of the elimination of `start`, with the columns below `t` processed. -/
structure Elimination.Inv (start : Mat m (cols + 1)) (t : Nat) (s : Elimination m cols) : Prop where
  pivotRow_le : s.pivotRow ≤ m
  kernel : ∀ z, s.aug.toMatrix *ᵥ z = 0 → start.toMatrix *ᵥ z = 0
  reduced : Reduced s.aug.toMatrix s.pivot
  done : ∀ (c : Fin cols) i, s.pivot c.castSucc = some i → c.val < t ∧ i.val < s.pivotRow
  full : ∀ i : Fin m, i.val < s.pivotRow → ∃ c : Fin cols, s.pivot c.castSucc = some i
  fresh : ∀ c : Fin cols, t ≤ c.val → s.pivotColumns.get c = 0#8
  flag : ∀ c : Fin cols, s.pivotColumns.get c = 0#8 ∨
    s.pivotColumns.get c = 1#8 ∧ s.pivotRows.get c < m

theorem pivot_castSucc (s : Elimination m cols) (c : Fin cols) :
    s.pivot c.castSucc =
      if h : s.pivotColumns.get c = 1#8 ∧ s.pivotRows.get c < m then some ⟨s.pivotRows.get c, h.2⟩
      else none :=
  Fin.lastCases_castSucc ..

theorem pivot_last (s : Elimination m cols) : s.pivot (Fin.last cols) = none := Fin.lastCases_last

theorem get_set {α : Type} {n : Nat} (v : Vector α n) (i j : Fin n) (x : α) :
    (v.set i x).get j = if i = j then x else v.get j := by
  rw [Vector.get_eq_getElem, Vector.get_eq_getElem, Vector.getElem_set]
  simp only [Fin.ext_iff]

/-- The pivots after a step in which one was found. -/
theorem pivot_pivotStep_found (s : Elimination m cols) (c : Fin cols) (h : s.pivotRow < m)
    (hfound : (selectRow s.aug s.pivotRow c.castSucc).2 = oneBit true) :
    (pivotStep s c).pivot = Function.update s.pivot c.castSucc (some ⟨s.pivotRow, h⟩) := by
  funext p
  induction p using Fin.lastCases with
  | last =>
      rw [pivot_last, Function.update_of_ne (Fin.castSucc_ne_last c).symm, pivot_last]
  | cast p =>
      rw [pivot_castSucc]
      simp only [pivotStep, get_set, hfound]
      by_cases hp : c = p
      · subst hp
        rw [Function.update_self]
        simp [oneBit, h]
      · rw [Function.update_of_ne fun he => hp (Fin.castSucc_injective _ he).symm, pivot_castSucc]
        simp only [hp, if_false]

/-- A step that finds no pivot leaves the matrix and the pivots alone. -/
theorem pivot_pivotStep_missing (s : Elimination m cols) (c : Fin cols)
    (hfresh : s.pivotColumns.get c = 0#8)
    (hfound : (selectRow s.aug s.pivotRow c.castSucc).2 = oneBit false) :
    (pivotStep s c).pivot = s.pivot := by
  funext p
  induction p using Fin.lastCases with
  | last => rw [pivot_last, pivot_last]
  | cast p =>
      rw [pivot_castSucc, pivot_castSucc]
      simp only [pivotStep, get_set, hfound]
      by_cases hp : c = p
      · subst hp
        simp [oneBit, hfresh]
      · simp only [hp, if_false]

/-- What one pivot column does to the matrix: nothing when every row from the pivot row on is zero
    there, else one elimination with a multiple of the pivot row, to which a lower row may be added.
    -/
theorem pivotStep_cases (hm : m < 2 ^ 63) {s : Elimination m cols} (hle : s.pivotRow ≤ m)
    (c : Fin cols) :
    ((selectRow s.aug s.pivotRow c.castSucc).2 = oneBit false ∧
      (∀ row : Fin m, s.pivotRow ≤ row → s.aug.get row c.castSucc = 0) ∧
      (pivotStep s c).aug = s.aug ∧ (pivotStep s c).pivotRow = s.pivotRow) ∨
    ((selectRow s.aug s.pivotRow c.castSucc).2 = oneBit true ∧
      ∃ (h : s.pivotRow < m) (w : Fin (cols + 1) → GF16) (inverse : GF16), inverse ≠ 0 ∧
        (w = 0 ∨ ∃ q : Fin m, s.pivotRow < q ∧ w = s.aug.get q) ∧
        (inverse • (s.aug.toMatrix ⟨s.pivotRow, h⟩ + w)) c.castSucc = 1 ∧
        (pivotStep s c).aug.toMatrix = eliminate s.aug.toMatrix ⟨s.pivotRow, h⟩ c.castSucc
          (inverse • (s.aug.toMatrix ⟨s.pivotRow, h⟩ + w)) ∧
        (pivotStep s c).pivotRow = s.pivotRow + 1) := by
  rcases selectRow_spec hm s.aug hle c.castSucc with
    ⟨hfound, hzero, -⟩ | ⟨hfound, -, hne, hlt, w, hsel, hw⟩
  · -- no row has a pivot here, and all writes are masked out
    refine .inl ⟨hfound, fun row hrow => hzero row row.isLt hrow, ?_, ?_⟩
    · simp only [pivotStep, hfound]
      exact clear_writePivot_missing ..
    · simp only [pivotStep, hfound]
      rfl
  · -- the selected row is scaled, written at the pivot row and cleared from the others
    let inverse := ((selectRow s.aug s.pivotRow c.castSucc).1.get c.castSucc).inv
    have hnorm : (Vector.ofFn fun column =>
        inverse * (selectRow s.aug s.pivotRow c.castSucc).1.get column).get =
          inverse • (s.aug.toMatrix ⟨s.pivotRow, hlt⟩ + w) := by
      funext column
      rw [Vector.get_ofFn, hsel]
      rfl
    refine .inr ⟨hfound, hlt, w, inverse, inv_ne_zero hne, hw, ?_, ?_, ?_⟩
    · rw [← hnorm, Vector.get_ofFn]
      exact inv_mul_cancel₀ hne
    · rw [← hnorm]
      simp only [pivotStep, hfound]
      exact clear_writePivot_found hm s.aug hlt c.castSucc _
    · simp only [pivotStep, hfound]
      rfl

/-- No usable row: the step only records that the column has no pivot. -/
theorem Elimination.Inv.pivotStep_missing {start : Mat m (cols + 1)} {c : Fin cols}
    {s : Elimination m cols} (inv : s.Inv start c)
    (hfound : (selectRow s.aug s.pivotRow c.castSucc).2 = oneBit false)
    (haug : (Mayo.pivotStep s c).aug = s.aug)
    (hrow : (Mayo.pivotStep s c).pivotRow = s.pivotRow) :
    (Mayo.pivotStep s c).Inv start (c + 1) := by
  have hfresh := inv.fresh c le_rfl
  have hpivot := pivot_pivotStep_missing s c hfresh hfound
  -- the flag written is the one that was there
  have hcolumns (p : Fin cols) : (Mayo.pivotStep s c).pivotColumns.get p =
      s.pivotColumns.get p := by
    simp only [Mayo.pivotStep, get_set, hfound]
    split
    · next hp => rw [← hp, hfresh]; rfl
    · rfl
  refine ⟨by rw [hrow]; exact inv.pivotRow_le, by rw [haug]; exact inv.kernel,
    by rw [haug, hpivot]; exact inv.reduced, ?_, ?_, ?_, ?_⟩
  · -- the pivots are those of the columns before
    intro p i hp
    rw [hpivot] at hp
    rw [hrow]
    exact ⟨Nat.lt_succ_of_lt (inv.done p i hp).1, (inv.done p i hp).2⟩
  · rw [hrow, hpivot]
    exact inv.full
  · intro p hp
    rw [hcolumns]
    exact inv.fresh p (by omega)
  · intro p
    rw [hcolumns]
    rcases inv.flag p with h | ⟨h, hrows⟩
    · exact Or.inl h
    · -- a set flag is of an earlier column
      refine Or.inr ⟨h, ?_⟩
      have hcp : c ≠ p := by
        rintro rfl
        rw [hfresh] at h
        exact absurd h (by decide)
      simpa only [Mayo.pivotStep, get_set, hcp, if_false] using hrows

/-- A usable row: the step is one elimination, and the column has the next pivot row. -/
theorem Elimination.Inv.pivotStep_found {start : Mat m (cols + 1)} {c : Fin cols}
    {s : Elimination m cols} (inv : s.Inv start c)
    (hfound : (selectRow s.aug s.pivotRow c.castSucc).2 = oneBit true) (hlt : s.pivotRow < m)
    {w : Fin (cols + 1) → GF16} {inverse : GF16} (hinverse : inverse ≠ 0)
    (hw : w = 0 ∨ ∃ q : Fin m, s.pivotRow < q ∧ w = s.aug.get q)
    (hone : (inverse • (s.aug.toMatrix ⟨s.pivotRow, hlt⟩ + w)) c.castSucc = 1)
    (haug : (Mayo.pivotStep s c).aug.toMatrix = eliminate s.aug.toMatrix ⟨s.pivotRow, hlt⟩
      c.castSucc (inverse • (s.aug.toMatrix ⟨s.pivotRow, hlt⟩ + w)))
    (hrow : (Mayo.pivotStep s c).pivotRow = s.pivotRow + 1) :
    (Mayo.pivotStep s c).Inv start (c + 1) := by
  have hpivot := pivot_pivotStep_found s c hlt hfound
  have hpos : ∀ (p : Fin (cols + 1)) j, s.pivot p = some j → j.val < s.pivotRow := by
    intro p j hp
    induction p using Fin.lastCases with
    | last => rw [pivot_last] at hp; cases hp
    | cast p => exact (inv.done p j hp).2
  have hwother (z : Fin (cols + 1) → GF16)
      (hz : ∀ r, r ≠ (⟨s.pivotRow, hlt⟩ : Fin m) → s.aug.toMatrix r ⬝ᵥ z = 0) : w ⬝ᵥ z = 0 := by
    rcases hw with rfl | ⟨q, hq, rfl⟩
    · exact zero_dotProduct z
    · exact hz q fun he => by rw [he] at hq; exact absurd hq (Nat.lt_irrefl _)
  refine ⟨by rw [hrow]; exact hlt, ?_, ?_, ?_, ?_, ?_, ?_⟩
  · -- an elimination keeps the kernel
    intro z hz
    rw [haug] at hz
    exact inv.kernel z (mulVec_of_eliminate hinverse hwother hz)
  · -- the earlier pivot columns are zero in the row that is eliminated with
    rw [haug, hpivot]
    refine inv.reduced.eliminate hone ?_ ?_
    · exact fun q hq => absurd (hpos q _ hq) (Nat.lt_irrefl _)
    · intro q j hqc hq
      have hj := hpos q j hq
      have hzero (r : Fin m) (hr : s.pivotRow ≤ r.val) : s.aug.toMatrix r q = 0 := by
        rw [inv.reduced.unit q j hq, if_neg]
        intro he
        rw [he] at hr
        omega
      have hwq : w q = 0 := by
        rcases hw with rfl | ⟨r, hr, rfl⟩
        · rfl
        · exact hzero r (Nat.le_of_lt hr)
      rw [Pi.smul_apply, Pi.add_apply, hzero _ le_rfl, hwq, add_zero, smul_zero]
  -- a pivot is among the rows and columns already passed
  · intro p i hp
    rw [hpivot] at hp
    rw [hrow]
    by_cases hpc : p = c
    · subst hpc
      rw [Function.update_self] at hp
      cases hp
      exact ⟨Nat.lt_succ_self _, Nat.lt_succ_self _⟩
    · rw [Function.update_of_ne fun he => hpc (Fin.castSucc_injective _ he)] at hp
      exact ⟨Nat.lt_succ_of_lt (inv.done p i hp).1, Nat.lt_succ_of_lt (inv.done p i hp).2⟩
  · -- every row above the new pivot row is the pivot row of a column
    intro i hi
    rw [hpivot]
    rcases Nat.lt_succ_iff_lt_or_eq.mp (hrow ▸ hi) with hi | hi
    · obtain ⟨p, hp⟩ := inv.full i hi
      have hpc : p ≠ c := by
        rintro rfl
        exact absurd (inv.done p i hp).1 (Nat.lt_irrefl _)
      exact ⟨p, by rw [Function.update_of_ne fun he => hpc (Fin.castSucc_injective _ he), hp]⟩
    · exact ⟨c, by rw [Function.update_self]; exact congrArg some (Fin.ext hi.symm)⟩
  -- the later columns are untouched, and the flag of this one is set
  · intro p hp
    have hcp : c ≠ p := by
      rintro rfl
      omega
    simpa only [Mayo.pivotStep, get_set, hcp, if_false] using inv.fresh p (by omega)
  · intro p
    simp only [Mayo.pivotStep, get_set, hfound]
    by_cases hcp : c = p
    · exact Or.inr ⟨by rw [if_pos hcp]; rfl, by rw [if_pos hcp]; exact hlt⟩
    · simpa only [hcp, if_false] using inv.flag p

theorem Elimination.Inv.pivotStep (hm : m < 2 ^ 63) {start : Mat m (cols + 1)} {c : Fin cols}
    {s : Elimination m cols} (inv : s.Inv start c) : (pivotStep s c).Inv start (c + 1) := by
  rcases pivotStep_cases hm inv.pivotRow_le c with
    ⟨hfound, -, haug, hrow⟩ | ⟨hfound, hlt, w, inverse, hinverse, hw, hone, haug, hrow⟩
  · exact inv.pivotStep_missing hfound haug hrow
  · exact inv.pivotStep_found hfound hlt hinverse hw hone haug hrow

/-! ## The returned vector -/

theorem Elimination.Inv.start (aug : Mat m (cols + 1)) : (Elimination.start aug).Inv aug 0 := by
  have hcolumn (c : Fin cols) : (Elimination.start aug).pivotColumns.get c = 0#8 := by
    simp [Elimination.start, Vector.get]
  have hpivot : (Elimination.start aug).pivot = fun _ => none := by
    funext p
    induction p using Fin.lastCases with
    | last => exact pivot_last _
    | cast c =>
        rw [pivot_castSucc, dif_neg]
        rw [hcolumn c]
        exact fun h => absurd h.1 (by decide)
  refine ⟨Nat.zero_le m, fun z hz => hz, ?_, ?_, fun i hi => absurd hi (Nat.not_lt_zero _),
    fun c _ => hcolumn c, fun c => Or.inl (hcolumn c)⟩
  · rw [hpivot]
    exact Reduced.none _
  · intro c i h
    rw [hpivot] at h
    cases h

/-- The scan for a correction reads the right-hand side of the column's pivot row. -/
theorem new_correction (hm : m < 2 ^ 63) {start : Mat m (cols + 1)} {t : Nat}
    {s : Elimination m cols} (inv : s.Inv start t) (c : Fin cols) :
    GF16.new (correction s c) =
      (s.pivot c.castSucc).elim 0 fun i => s.aug.get i (Fin.last cols) := by
  rcases inv.flag c with h | ⟨h, hrow⟩
  · rw [correction, h, pivot_castSucc, dif_neg (by rw [h]; exact fun h => absurd h.1 (by decide))]
    exact congrArg GF16.new BitVec.and_zero
  · rw [correction, h, pivot_castSucc, dif_pos ⟨h, hrow⟩, Option.elim_some]
    have hloop : (List.finRange m).foldl
        (fun acc row => acc ^^^
          ((s.aug.get row (Fin.last cols)).toU8 &&& (0#8 - ctEq row (s.pivotRows.get c)))) 0#8 =
        if s.pivotRows.get c < m then
          (s.aug.get ⟨s.pivotRows.get c, hrow⟩ (Fin.last cols)).toU8 else 0#8 := by
      refine foldl_finRange (fun t acc => acc = if s.pivotRows.get c < t then
        (s.aug.get ⟨s.pivotRows.get c, hrow⟩ (Fin.last cols)).toU8 else 0#8) _ rfl ?_
      rintro row acc rfl
      have hlt := row.isLt
      rw [ctEq_eq (by omega) (by omega), and_mask]
      rcases Nat.lt_trichotomy row (s.pivotRows.get c) with hr | hr | hr
      · simp [show ¬ s.pivotRows.get c < row.val by omega, show ¬ row.val = s.pivotRows.get c by omega,
          show ¬ s.pivotRows.get c < row.val + 1 by omega]
      · have hrow' : row = ⟨s.pivotRows.get c, hrow⟩ := Fin.ext hr
        simp [hrow']
      · simp [hr, show ¬ row.val = s.pivotRows.get c by omega,
          show s.pivotRows.get c < row.val + 1 by omega]
    rw [hloop, if_pos hrow]
    show GF16.new (_ &&& BitVec.allOnes 8) = _
    rw [BitVec.and_allOnes, GF16.new_toU8]

/-- The augmented system at a vector with `-1` in the last place. -/
theorem augmented_mulVec (a : Mat m cols) (y : Vector GF16 m) (r : Vector GF16 cols)
    (x : Fin cols → GF16) (row : Fin m) :
    ((augmented a y r).toMatrix *ᵥ (Fin.snoc x (-1) : Fin (cols + 1) → GF16)) row =
      (a.toMatrix *ᵥ x) row - (y.get row + (a.toMatrix *ᵥ r.get) row) := by
  rw [mulVec, dotProduct, Fin.sum_univ_castSucc]
  simp only [augmented, Mat.toMatrix_ofFn, Matrix.of_apply, Fin.lastCases_castSucc,
    Fin.lastCases_last, Fin.snoc_castSucc, Fin.snoc_last, Mat.get_mulVec, mul_neg, mul_one]
  exact (sub_eq_add_neg _ _).symm

/-- A vector the solver returns solves the system. -/
theorem sampleSolution_spec (hm : m < 2 ^ 63) {a : Mat m cols} {y : Vector GF16 m}
    {r x : Vector GF16 cols} (h : sampleSolution a y r = some x) :
    a.toMatrix *ᵥ x.get = y.get := by
  rw [sampleSolution] at h
  have inv : ((List.finRange cols).foldl pivotStep (Elimination.start (augmented a y r))).Inv
      (augmented a y r) cols :=
    foldl_finRange (fun t (s : Elimination m cols) => s.Inv (augmented a y r) t) _ (.start _)
      fun c s hs => hs.pivotStep hm
  generalize (List.finRange cols).foldl pivotStep (Elimination.start (augmented a y r)) = s
    at h inv
  split at h
  · cases h
  next hrank =>
  obtain rfl := Option.some.inj h
  -- every row has a pivot, so the right-hand sides read at the pivots solve the reduced system
  let b (i : Fin m) : GF16 := s.aug.get i (Fin.last cols)
  let corr (c : Fin cols) : GF16 := (s.pivot c.castSucc).elim 0 b
  have hfull (i : Fin m) : ∃ p, s.pivot p = some i := by
    obtain ⟨c, hc⟩ := inv.full i (by rw [not_not.mp hrank]; exact i.isLt)
    exact ⟨c.castSucc, hc⟩
  have hreduced := inv.reduced.mulVec_pivots hfull b
  have hkernel : s.aug.toMatrix *ᵥ (Fin.snoc corr (-1) : Fin (cols + 1) → GF16) = 0 := by
    funext row
    have hrow := congrFun hreduced row
    rw [mulVec, dotProduct, Fin.sum_univ_castSucc, pivot_last, Option.elim_none, mul_zero,
      add_zero] at hrow
    rw [mulVec, dotProduct, Fin.sum_univ_castSucc]
    simp only [Fin.snoc_castSucc, Fin.snoc_last, mul_neg, mul_one]
    rw [hrow]
    exact add_neg_cancel (b row)
  have hx : (Vector.ofFn fun column => r.get column + GF16.new (correction s column)).get =
      r.get + corr := by
    funext c
    rw [Vector.get_ofFn, new_correction hm inv]
    rfl
  rw [hx, mulVec_add]
  funext row
  have hsolve := congrFun (inv.kernel _ hkernel) row
  rw [augmented_mulVec, Pi.zero_apply, sub_eq_zero] at hsolve
  rw [Pi.add_apply, hsolve, add_comm (y.get row), ← add_assoc, CharTwo.add_self_eq_zero, zero_add]

end VoleAct.Mayo
