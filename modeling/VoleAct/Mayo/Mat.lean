/-
  VoleAct.Mayo.Mat

  Dense row-major matrices over `GF(16)` (`mayo/src/mat.rs`): the packed
  product kernels, and what they compute.
-/
import VoleAct.BinaryFields.Packed
import VoleAct.Rng

namespace VoleAct.BinaryFields

/-- `GF16::random`. -/
def GF16.random {ρ : Type} [CryptoRngCore ρ] (rng : ρ) : GF16 × ρ :=
  let (word, rng) := CryptoRngCore.nextU32 rng
  (GF16.new (word.setWidth 8), rng)

end VoleAct.BinaryFields

namespace VoleAct.Mayo

open VoleAct.BinaryFields VoleAct.BinaryFields.Packed VoleAct.Lib

/-! ## Matrices -/

/-- A dense row-major matrix over `GF(16)`. -/
structure Mat (rows cols : Nat) where
  data : Vector GF16 (rows * cols)
  deriving DecidableEq

namespace Mat

variable {rows cols inner : Nat}

/-- Entry `(r, c)`, at position `r * cols + c`. -/
def get (a : Mat rows cols) (r : Fin rows) (c : Fin cols) : GF16 :=
  a.data.get (finProdFinEquiv (r, c))

/-- The matrix with the given entries. -/
def ofFn (f : Fin rows → Fin cols → GF16) : Mat rows cols where
  data := Vector.ofFn fun i => f i.divNat i.modNat

@[simp] theorem get_ofFn (f : Fin rows → Fin cols → GF16) (r : Fin rows) (c : Fin cols) :
    (ofFn f).get r c = f r c := by
  have h : finProdFinEquiv.symm (finProdFinEquiv (r, c)) = (r, c) := Equiv.symm_apply_apply _ _
  have hr : (finProdFinEquiv (r, c)).divNat = r := congrArg Prod.fst h
  have hc : (finProdFinEquiv (r, c)).modNat = c := congrArg Prod.snd h
  rw [get, ofFn, Vector.get_ofFn, hr, hc]

@[ext] theorem ext {a b : Mat rows cols} (h : ∀ r c, a.get r c = b.get r c) : a = b := by
  obtain ⟨a⟩ := a
  obtain ⟨b⟩ := b
  congr 1
  apply Vector.ext
  intro i hi
  have hget := h (⟨i, hi⟩ : Fin (rows * cols)).divNat (⟨i, hi⟩ : Fin (rows * cols)).modNat
  have hpos : finProdFinEquiv ((⟨i, hi⟩ : Fin (rows * cols)).divNat,
      (⟨i, hi⟩ : Fin (rows * cols)).modNat) = ⟨i, hi⟩ :=
    Equiv.apply_symm_apply finProdFinEquiv (⟨i, hi⟩ : Fin (rows * cols))
  rw [get, get, hpos] at hget
  exact hget

/-- A zero matrix. -/
def zero (rows cols : Nat) : Mat rows cols where
  data := Vector.replicate (rows * cols) 0

/-- `m[(r, c)] = x`. -/
def set (a : Mat rows cols) (r : Fin rows) (c : Fin cols) (x : GF16) : Mat rows cols where
  data := a.data.set (finProdFinEquiv (r, c)) x

/-- Row `r`. -/
def row (a : Mat rows cols) (r : Fin rows) : Vector GF16 cols := Vector.ofFn (a.get r)

/-- The entries viewed as their canonical nibble bytes. -/
def bytes {n : Nat} (v : Vector GF16 n) : List U8 := v.toList.map GF16.toU8

/-! ## Sampling -/

/-- `n` successive uniform elements. -/
def randomVec {ρ : Type} [CryptoRngCore ρ] : (n : Nat) → ρ → Vector GF16 n × ρ
  | 0, rng => (#v[], rng)
  | n + 1, rng =>
      let (v, rng) := randomVec n rng
      let (x, rng) := GF16.random rng
      (v.push x, rng)

/-- `k` vectors of `n` successive uniform elements. -/
def randomRows {ρ : Type} [CryptoRngCore ρ] (n : Nat) : (k : Nat) → ρ → Vector (Vector GF16 n) k × ρ
  | 0, rng => (#v[], rng)
  | k + 1, rng =>
      let (rows, rng) := randomRows n k rng
      let (row, rng) := randomVec n rng
      (rows.push row, rng)

/-- A uniformly random matrix. -/
def random {ρ : Type} [CryptoRngCore ρ] (rows cols : Nat) (rng : ρ) : Mat rows cols × ρ :=
  let (data, rng) := randomVec (rows * cols) rng
  (⟨data⟩, rng)

/-- The positions a matrix is written at, row by row: all of them, or from the diagonal on. -/
def positions (rows cols : Nat) (upper : Bool) : List (Fin rows × Fin cols) :=
  (List.finRange rows).flatMap fun r =>
    ((List.finRange cols).filter fun c => !upper || decide (r.val ≤ c.val)).map (r, ·)

theorem mem_positions {upper : Bool} {p : Fin rows × Fin cols} :
    p ∈ positions rows cols upper ↔ (upper = true → p.1.val ≤ p.2.val) := by
  have hguard (r : Fin rows) (c : Fin cols) :
      (!upper || decide (r.val ≤ c.val)) = true ↔ (upper = true → r.val ≤ c.val) := by
    cases upper <;> simp
  rw [positions, List.mem_flatMap]
  constructor
  · rintro ⟨r, -, hp⟩
    obtain ⟨c, hc, rfl⟩ := List.mem_map.mp hp
    exact (hguard r c).mp (List.mem_filter.mp hc).2
  · intro h
    exact ⟨p.1, List.mem_finRange _, List.mem_map.mpr
      ⟨p.2, List.mem_filter.mpr ⟨List.mem_finRange _, (hguard _ _).mpr h⟩, rfl⟩⟩

theorem positions_nodup (rows cols : Nat) (upper : Bool) : (positions rows cols upper).Nodup := by
  rw [positions, List.nodup_flatMap]
  refine ⟨fun r _ => ?_, ?_⟩
  · exact ((List.nodup_finRange cols).filter _).map fun c c' h => congrArg Prod.snd h
  · refine (List.nodup_finRange rows).imp fun {r r'} hne => ?_
    rw [Function.onFun, List.disjoint_left]
    rintro p hp hp'
    obtain ⟨c, -, rfl⟩ := List.mem_map.mp hp
    obtain ⟨c', -, h⟩ := List.mem_map.mp hp'
    exact hne (congrArg Prod.fst h).symm

/-- The positions on and above the diagonal, row by row. -/
def upperPositions (dim : Nat) : List (Fin dim × Fin dim) :=
  (List.finRange dim).flatMap fun r => ((List.finRange dim).filter (r ≤ ·)).map (r, ·)

/-- A uniformly random upper-triangular square matrix. -/
def randomUpper {ρ : Type} [CryptoRngCore ρ] (dim : Nat) (rng : ρ) : Mat dim dim × ρ :=
  (upperPositions dim).foldl
    (fun (m, rng) (r, c) =>
      let (x, rng) := GF16.random rng
      (m.set r c x, rng))
    (zero dim dim, rng)

/-! ## Entry-wise operations -/

/-- Transpose. -/
def transpose (a : Mat rows cols) : Mat cols rows := ofFn fun r c => a.get c r

/-- Entry-wise sum. -/
def add (a b : Mat rows cols) : Mat rows cols where
  data := Vector.zipWith (· + ·) a.data b.data

/-- `Upper(M)`: `U_ii = M_ii`, `U_ij = M_ij + M_ji` for `i < j`, zero below. -/
def upper (a : Mat rows rows) : Mat rows rows :=
  ofFn fun r c =>
    if r = c then a.get r r
    else if r < c then a.get r c + a.get c r
    else 0

/-! ## The packed kernels -/

/-- One packed 8-lane word of canonical bytes, zero-padded. -/
def wordAt (bytes : List U8) (start : Nat) : U64 :=
  let buf := (bytes.drop start).take 8
  pack (buf ++ List.replicate (8 - buf.length) 0#8)

/-- `cols.div_ceil(8).max(1)`: the number of packed words of a row accumulator. -/
def accWords (cols : Nat) : Nat := max ((cols + 7) / 8) 1

/-- The row accumulator shared by `mul` and `vec_mul`: `Σ_i v_i * row_i` in packed lanes. -/
def accumulate (v : Vector GF16 rows) (a : Mat rows cols) : Vector U64 (accWords cols) :=
  (List.finRange rows).foldl
    (fun acc (i : Fin rows) => Vector.ofFn fun w =>
      acc.get w ^^^ mulScalar8 (wordAt (bytes a.data) (i * cols + 8 * w)) (v.get i))
    (Vector.replicate _ 0#64)

theorem lt_accWords (c : Fin cols) : c / 8 < accWords cols := by
  have := c.isLt
  unfold accWords
  omega

/-- `GF16::new((acc[c / 8] >> (8 * (c % 8))) as u8)` for every column `c`. -/
def unpack (acc : Vector U64 (accWords cols)) : Vector GF16 cols :=
  Vector.ofFn fun c => GF16.new ((acc.get ⟨c / 8, lt_accWords c⟩ >>> (8 * (c.val % 8))).setWidth 8)

/-- `v^T * M`: row-vector times matrix. -/
def vecMul (a : Mat rows cols) (v : Vector GF16 rows) : Vector GF16 cols := unpack (accumulate v a)

/-- Matrix product. -/
def mul (a : Mat rows inner) (rhs : Mat inner cols) : Mat rows cols :=
  let out := Vector.ofFn fun r => unpack (accumulate (a.row r) rhs)
  ofFn fun r c => (out.get r).get c

/-- The packed row word `w` of `mul_vec`, masked to the true row length. -/
def rowWord (a : Mat rows cols) (r : Fin rows) (w : Nat) : U64 :=
  let word := wordAt (bytes a.data) (r * cols + 8 * w)
  let remaining := cols - 8 * w
  if remaining < 8 then word &&& ((1#64 <<< (8 * remaining)) - 1#64) else word

/-- `M * v`: matrix times column vector. -/
def mulVec (a : Mat rows cols) (v : Vector GF16 cols) : Vector GF16 rows :=
  Vector.ofFn fun r => fold8 <|
    (List.range ((cols + 7) / 8)).foldl
      (fun acc w => acc ^^^ mulLanes8 (a.rowWord r w) (wordAt (bytes v) (8 * w))) 0#64

/-! ## Bytes and words -/

@[simp] theorem bytes_length {n : Nat} (v : Vector GF16 n) : (bytes v).length = n := by
  simp [bytes]

theorem bytes_getD {n : Nat} (v : Vector GF16 n) (i : Nat) :
    (bytes v).getD i 0#8 = if h : i < n then (v.get ⟨i, h⟩).toU8 else 0#8 := by
  by_cases h : i < n
  · simp [bytes, h, Vector.get]
  · simp [bytes, h]

theorem bytes_getD_lt {n : Nat} (v : Vector GF16 n) (i : Nat) :
    ((bytes v).getD i 0#8).toNat < 16 := by
  rw [bytes_getD]
  split
  · exact GF16.canonical _
  · decide

theorem lane_wordAt (bytes : List U8) (start : Nat) {c : Nat} (hc : c < 8) :
    lane (wordAt bytes start) c = bytes.getD (start + c) 0#8 := by
  rw [wordAt, lane_pack _ hc]
  simp only [List.getD_eq_getElem?_getD]
  by_cases h : start + c < bytes.length
  · have hbuf : c < ((bytes.drop start).take 8).length := by
      rw [List.length_take, List.length_drop]
      omega
    rw [List.getElem?_append_left hbuf, List.getElem?_take_of_lt hc, List.getElem?_drop]
    rfl
  · -- past the end both sides are the zero padding
    have hbuf : ((bytes.drop start).take 8).length ≤ c := by
      rw [List.length_take, List.length_drop]
      omega
    rw [List.getElem?_append_right hbuf, List.getElem?_replicate,
      List.getElem?_eq_none (Nat.le_of_not_lt h)]
    split <;> rfl

theorem wordAt_canonical {n : Nat} (v : Vector GF16 n) (start : Nat) :
    Canonical (wordAt (bytes v) start) := by
  intro c hc
  rw [lane_wordAt _ _ hc]
  exact bytes_getD_lt v _

/-- The byte at `r * cols + c` is the entry `(r, c)`. -/
theorem bytes_getD_entry (a : Mat rows cols) (r : Fin rows) (c : Fin cols) :
    (bytes a.data).getD (r * cols + c) 0#8 = (a.get r c).toU8 := by
  have hval : (finProdFinEquiv (r, c)).val = r * cols + c := by
    rw [finProdFinEquiv_apply_val, Nat.mul_comm, Nat.add_comm]
  have hlt : r * cols + c < rows * cols := hval ▸ (finProdFinEquiv (r, c)).isLt
  have hpos : (⟨r * cols + c, hlt⟩ : Fin (rows * cols)) = finProdFinEquiv (r, c) := Fin.ext hval.symm
  rw [bytes_getD, dif_pos hlt, hpos, get]

/-! ## What the kernels compute -/

/-- The matrix as a Mathlib matrix. -/
def toMatrix (a : Mat rows cols) : Matrix (Fin rows) (Fin cols) GF16 := Matrix.of a.get

@[simp] theorem toMatrix_apply (a : Mat rows cols) (r : Fin rows) (c : Fin cols) :
    a.toMatrix r c = a.get r c := rfl

theorem toMatrix_injective :
    Function.Injective (toMatrix : Mat rows cols → Matrix (Fin rows) (Fin cols) GF16) := by
  intro a b h
  exact Mat.ext fun r c => congrFun (congrFun h r) c

@[simp] theorem toMatrix_ofFn (f : Fin rows → Fin cols → GF16) : (ofFn f).toMatrix = Matrix.of f := by
  exact Matrix.ext fun r c => get_ofFn f r c

@[simp] theorem toMatrix_transpose (a : Mat rows cols) :
    a.transpose.toMatrix = a.toMatrix.transpose := by
  exact Matrix.ext fun r c => get_ofFn _ r c

@[simp] theorem toMatrix_add (a b : Mat rows cols) :
    (a.add b).toMatrix = a.toMatrix + b.toMatrix := by
  refine Matrix.ext fun r c => ?_
  show (Vector.zipWith (· + ·) a.data b.data).get _ = a.data.get _ + b.data.get _
  simp only [Vector.get_eq_getElem, Vector.getElem_zipWith]

/-- Each accumulator word holds canonical lanes, lane `c` the partial sum of column `8 w + c`. -/
theorem accumulate_lanes (v : Vector GF16 rows) (a : Mat rows cols) (w : Fin (accWords cols)) :
    Canonical ((accumulate v a).get w) ∧
      ∀ c < 8, ∀ h : 8 * w + c < cols,
        GF16.new (lane ((accumulate v a).get w) c) = ∑ r, v.get r * a.get r ⟨8 * w + c, h⟩ := by
  rw [accumulate]
  -- the loop over rows, from any list of rows
  have hloop (rs : List (Fin rows)) :
      ∀ acc : Vector U64 (accWords cols), Canonical (acc.get w) →
      Canonical ((rs.foldl (fun acc (i : Fin rows) => Vector.ofFn fun w =>
        acc.get w ^^^ mulScalar8 (wordAt (bytes a.data) (i * cols + 8 * w)) (v.get i)) acc).get w) ∧
      ∀ c < 8, ∀ h : 8 * w + c < cols,
        GF16.new (lane ((rs.foldl (fun acc (i : Fin rows) => Vector.ofFn fun w =>
          acc.get w ^^^ mulScalar8 (wordAt (bytes a.data) (i * cols + 8 * w)) (v.get i)) acc).get w) c)
          = GF16.new (lane (acc.get w) c) +
            (rs.map fun r => v.get r * a.get r ⟨8 * w + c, h⟩).sum := by
    induction rs with
    | nil => exact fun acc hacc => ⟨hacc, fun c _ _ => by simp⟩
    | cons r rs ih =>
        intro acc hacc
        have hword := wordAt_canonical a.data (r * cols + 8 * w)
        have hstep := Canonical.xor hacc (mulScalar8_canonical hword (v.get r))
        obtain ⟨hcan, hsum⟩ := ih (Vector.ofFn fun w =>
          acc.get w ^^^ mulScalar8 (wordAt (bytes a.data) (r * cols + 8 * w)) (v.get r))
          (by rw [Vector.get_ofFn]; exact hstep)
        refine ⟨hcan, fun c hc h => ?_⟩
        have hentry : lane (wordAt (bytes a.data) (r * cols + 8 * w)) c =
            (a.get r ⟨8 * w + c, h⟩).toU8 := by
          rw [lane_wordAt _ _ hc, Nat.add_assoc]
          exact bytes_getD_entry a r ⟨8 * w + c, h⟩
        rw [List.foldl_cons, hsum c hc h, Vector.get_ofFn, lane_xor, new_xor,
          lane_mulScalar8 hword _ hc, hentry, GF16.new_toU8, GF16.new_toU8, List.map_cons,
          List.sum_cons, mul_comm (a.get r _), add_assoc]
  have hzero : (Vector.replicate (accWords cols) 0#64).get w = 0#64 := by
    simp [Vector.get]
  obtain ⟨hcan, hsum⟩ := hloop (List.finRange rows) (Vector.replicate _ 0#64)
    (by rw [hzero]; exact Canonical.zero)
  refine ⟨hcan, fun c hc h => ?_⟩
  rw [hsum c hc h, hzero, lane_zero, Fin.sum_univ_def]
  exact zero_add _

/-- The unpacked accumulator is the row combination. -/
theorem get_unpack_accumulate (v : Vector GF16 rows) (a : Mat rows cols) (c : Fin cols) :
    (unpack (accumulate v a)).get c = ∑ r, v.get r * a.get r c := by
  have hcol : 8 * (c.val / 8) + c.val % 8 = c := Nat.div_add_mod c.val 8
  have hlane := (accumulate_lanes v a ⟨c / 8, lt_accWords c⟩).2 (c.val % 8)
    (Nat.mod_lt _ (by decide)) (hcol.symm ▸ c.isLt)
  rw [unpack, Vector.get_ofFn]
  refine hlane.trans (Finset.sum_congr rfl fun r _ => ?_)
  congr 2
  exact Fin.ext hcol

theorem get_vecMul (a : Mat rows cols) (v : Vector GF16 rows) (c : Fin cols) :
    (a.vecMul v).get c = Matrix.vecMul v.get a.toMatrix c :=
  get_unpack_accumulate v a c

@[simp] theorem toMatrix_mul (a : Mat rows inner) (b : Mat inner cols) :
    (a.mul b).toMatrix = a.toMatrix * b.toMatrix := by
  refine Matrix.ext fun r c => ?_
  rw [mul, toMatrix_ofFn, Matrix.of_apply, Vector.get_ofFn, get_unpack_accumulate,
    Matrix.mul_apply]
  refine Finset.sum_congr rfl fun i _ => ?_
  rw [row, Vector.get_ofFn, toMatrix_apply, toMatrix_apply]

theorem lane_mask {remaining c : Nat} (hrem : remaining < 8) (hc : c < 8) :
    lane ((1#64 <<< (8 * remaining)) - 1#64) c = if c < remaining then 0xFF#8 else 0#8 := by
  have hall : ∀ remaining < 8, ∀ c < 8,
      lane ((1#64 <<< (8 * remaining)) - 1#64) c = if c < remaining then 0xFF#8 else 0#8 := by
    decide
  exact hall remaining hrem c hc

/-- A masked row word holds the entries of the row and zeros past its end. -/
theorem lane_rowWord (a : Mat rows cols) (r : Fin rows) (w : Nat) {c : Nat} (hc : c < 8) :
    lane (a.rowWord r w) c = if h : 8 * w + c < cols then (a.get r ⟨8 * w + c, h⟩).toU8 else 0#8 := by
  have hword : lane (wordAt (bytes a.data) (r * cols + 8 * w)) c =
      (bytes a.data).getD (r * cols + (8 * w + c)) 0#8 := by
    rw [lane_wordAt _ _ hc, Nat.add_assoc]
  unfold rowWord
  dsimp only
  by_cases h : 8 * w + c < cols
  · rw [dif_pos h, ← bytes_getD_entry a r ⟨8 * w + c, h⟩, ← hword]
    split
    · next hrem =>
        rw [lane_and, lane_mask hrem hc, if_pos (by omega)]
        exact BitVec.and_allOnes
    · rfl
  · have hrem : cols - 8 * w < 8 := by omega
    rw [dif_neg h, if_pos hrem, lane_and, lane_mask hrem hc, if_neg (by omega), BitVec.and_zero]

theorem rowWord_canonical (a : Mat rows cols) (r : Fin rows) (w : Nat) :
    Canonical (a.rowWord r w) := by
  intro c hc
  rw [lane_rowWord a r w hc]
  split
  · exact GF16.canonical _
  · decide

theorem new_lane_foldl_xor (f : Nat → U64) (words c : Nat) :
    GF16.new (lane ((List.range words).foldl (fun acc w => acc ^^^ f w) 0#64) c) =
      ∑ w ∈ Finset.range words, GF16.new (lane (f w) c) := by
  induction words with
  | zero => rw [List.range_zero, List.foldl_nil, lane_zero]; rfl
  | succ words ih =>
      rw [List.range_succ, List.foldl_append, List.foldl_cons, List.foldl_nil, lane_xor, new_xor,
        ih, Finset.sum_range_succ]

/-- Summing eight lanes of each word sums all positions. -/
theorem sum_range_words (f : Nat → GF16) (words : Nat) :
    ∑ w ∈ Finset.range words, ∑ c ∈ Finset.range 8, f (8 * w + c) =
      ∑ j ∈ Finset.range (8 * words), f j := by
  induction words with
  | zero => rfl
  | succ words ih => rw [Finset.sum_range_succ, ih, Nat.mul_succ, Finset.sum_range_add]

theorem get_mulVec (a : Mat rows cols) (v : Vector GF16 cols) (r : Fin rows) :
    (a.mulVec v).get r = Matrix.mulVec a.toMatrix v.get r := by
  -- the product at position `j`, zero past the row
  let term (j : Nat) : GF16 := if h : j < cols then a.get r ⟨j, h⟩ * v.get ⟨j, h⟩ else 0
  have hlane (w c : Nat) (hc : c < 8) :
      GF16.new (lane (mulLanes8 (a.rowWord r w) (wordAt (bytes v) (8 * w))) c) =
        term (8 * w + c) := by
    rw [lane_mulLanes8 (rowWord_canonical a r w) (wordAt_canonical v _) hc, GF16.new_toU8,
      lane_rowWord a r w hc, lane_wordAt _ _ hc, bytes_getD]
    by_cases h : 8 * w + c < cols
    · simp only [term, h, dif_pos, GF16.new_toU8]
    · simp only [term, h, dif_neg, not_false_iff]
      exact mul_zero _
  have hwords : cols ≤ 8 * ((cols + 7) / 8) := by omega
  rw [mulVec, Vector.get_ofFn, fold8_eq]
  calc ∑ c ∈ Finset.range 8, GF16.new (lane ((List.range ((cols + 7) / 8)).foldl
          (fun acc w => acc ^^^ mulLanes8 (a.rowWord r w) (wordAt (bytes v) (8 * w))) 0#64) c)
      = ∑ c ∈ Finset.range 8, ∑ w ∈ Finset.range ((cols + 7) / 8), term (8 * w + c) := by
        refine Finset.sum_congr rfl fun c hc => ?_
        rw [new_lane_foldl_xor]
        exact Finset.sum_congr rfl fun w _ => hlane w c (Finset.mem_range.mp hc)
    _ = ∑ j ∈ Finset.range (8 * ((cols + 7) / 8)), term j := by
        rw [Finset.sum_comm, sum_range_words]
    _ = ∑ j ∈ Finset.range cols, term j := by
        refine (Finset.sum_subset (Finset.range_mono hwords) fun j _ hj => ?_).symm
        exact dif_neg (by simpa using hj)
    _ = Matrix.mulVec a.toMatrix v.get r := by
        rw [Finset.sum_range]
        exact Finset.sum_congr rfl fun j _ => dif_pos j.isLt

end Mat

end VoleAct.Mayo
