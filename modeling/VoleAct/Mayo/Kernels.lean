/-
  VoleAct.Mayo.Kernels

  The packed kernels of `mayo/src/mat.rs` with every bound they rely on, and the
  scalar loops they replace.

  In `Mat` a word read past the data is padded.  Here the subtraction, the slices,
  the indices and the shifts of the source panic out of range, and the kernels
  still return: every word they read starts inside the data, every shift is below
  the width of the word.  A slice has at most `isize::MAX` bytes, so an offset
  into one cannot wrap.
-/
import VoleAct.Mayo.KeyCodec
import VoleAct.Mayo.WhippedForms

namespace VoleAct.Mayo

open VoleAct.BinaryFields VoleAct.BinaryFields.Packed VoleAct.Lib

variable {ε : Type} {rows cols inner : Nat}

/-! ## The scalar loops -/

namespace Mat

/-- The definitional matrix product. -/
def mulReference (a : Mat rows inner) (rhs : Mat inner cols) : Mat rows cols :=
  (List.finRange rows).foldl (fun out r =>
    (List.finRange inner).foldl (fun out i =>
      let s := a.get r i
      (List.finRange cols).foldl (fun out c =>
        out.set r c (out.get r c + s * rhs.get i c)) out) out) (zero rows cols)

/-- The definitional matrix-vector product. -/
def mulVecReference (m : Mat rows cols) (v : Vector GF16 cols) : Vector GF16 rows :=
  Vector.ofFn fun r => (List.finRange cols).foldl (fun elem c => elem + m.get r c * v.get c) 0

/-- The definitional vector-matrix product. -/
def vecMulReference (m : Mat rows cols) (v : Vector GF16 rows) : Vector GF16 cols :=
  (List.finRange rows).foldl
    (fun out r => Vector.ofFn fun c => out.get c + v.get r * m.get r c) (Vector.replicate cols 0)

/-- The definitional quadratic form. -/
def quadFormReference (m : Mat rows rows) (v : Vector GF16 rows) : GF16 :=
  (List.finRange rows).foldl (fun acc r =>
    (List.finRange rows).foldl (fun acc c => acc + v.get r * (m.get r c * v.get c)) acc) 0

/-- Each turn of the product loop adds one product to one entry. -/
theorem get_mulReference (a : Mat rows inner) (rhs : Mat inner cols) (r : Fin rows) (c : Fin cols) :
    (a.mulReference rhs).get r c = ∑ i, a.get r i * rhs.get i c := by
  -- one write, then the writes of a row, then those of all rows
  have hwrite (r' : Fin rows) (i : Fin inner) (out : Mat rows cols) (c' : Fin cols) :
      (out.set r' c' (out.get r' c' + a.get r' i * rhs.get i c')).get r c =
        out.get r c + if c' = c then (if r' = r then a.get r i * rhs.get i c else 0) else 0 := by
    rw [get_set]
    by_cases h : (r', c') = (r, c)
    · obtain ⟨rfl, rfl⟩ := Prod.mk.inj h
      rw [if_pos rfl, if_pos rfl, if_pos rfl]
    · rw [if_neg h]
      by_cases hc : c' = c
      · have hr : r' ≠ r := fun hr => h (by rw [hr, hc])
        rw [if_pos hc, if_neg hr, add_zero]
      · rw [if_neg hc, add_zero]
  have hrow (r' : Fin rows) (out : Mat rows cols) (i : Fin inner) :
      ((List.finRange cols).foldl (fun out c' =>
        out.set r' c' (out.get r' c' + a.get r' i * rhs.get i c')) out).get r c =
          out.get r c + if r' = r then a.get r i * rhs.get i c else 0 := by
    rw [foldl_add (fun out : Mat rows cols => out.get r c) _ _ (hwrite r' i), ← Fin.sum_univ_def,
      Finset.sum_ite_eq', if_pos (Finset.mem_univ c)]
  have hsum (out : Mat rows cols) (r' : Fin rows) :
      ((List.finRange inner).foldl (fun out i => (List.finRange cols).foldl (fun out c' =>
        out.set r' c' (out.get r' c' + a.get r' i * rhs.get i c')) out) out).get r c =
          out.get r c + if r' = r then ∑ i, a.get r i * rhs.get i c else 0 := by
    rw [foldl_add (fun out : Mat rows cols => out.get r c) _ _ (hrow r'), ← Fin.sum_univ_def]
    by_cases h : r' = r
    · simp only [if_pos h]
    · simp only [if_neg h, Finset.sum_const_zero]
  rw [mulReference, foldl_add (fun out : Mat rows cols => out.get r c) _ _ hsum, get_zero, zero_add,
    ← Fin.sum_univ_def, Finset.sum_ite_eq', if_pos (Finset.mem_univ r)]

theorem get_mulVecReference (m : Mat rows cols) (v : Vector GF16 cols) (r : Fin rows) :
    (m.mulVecReference v).get r = ∑ c, m.get r c * v.get c := by
  rw [mulVecReference, Vector.get_ofFn,
    foldl_add (fun x : GF16 => x) _ (fun c => m.get r c * v.get c) fun _ _ => rfl, zero_add,
    Fin.sum_univ_def]

theorem get_vecMulReference (m : Mat rows cols) (v : Vector GF16 rows) (c : Fin cols) :
    (m.vecMulReference v).get c = ∑ r, v.get r * m.get r c := by
  have hstart : (Vector.replicate cols (0 : GF16)).get c = 0 := by simp [Vector.get_eq_getElem]
  rw [vecMulReference, foldl_add (fun out : Vector GF16 cols => out.get c) _
    (fun r => v.get r * m.get r c) fun out r => Vector.get_ofFn _ c, hstart, zero_add,
    Fin.sum_univ_def]

theorem quadFormReference_eq (m : Mat rows rows) (v : Vector GF16 rows) :
    m.quadFormReference v = ∑ r, v.get r * ∑ c, m.get r c * v.get c := by
  have hrow (acc : GF16) (r : Fin rows) :
      (List.finRange rows).foldl (fun acc c => acc + v.get r * (m.get r c * v.get c)) acc =
        acc + v.get r * ∑ c, m.get r c * v.get c := by
    rw [foldl_add (fun x : GF16 => x) _ (fun c => v.get r * (m.get r c * v.get c)) fun _ _ => rfl,
      ← Fin.sum_univ_def, Finset.mul_sum]
  rw [quadFormReference, foldl_add (fun x : GF16 => x) _ _ hrow, zero_add, Fin.sum_univ_def]

end Mat

/-! ## The kernels with their bounds -/

namespace Kernel

/-- `a - b` on `usize`. -/
def sub (a b : Nat) : Outcome ε Nat := if b ≤ a then .ok (a - b) else Outcome.panic

/-- `&xs[start..stop]`. -/
def slice {α : Type} (xs : List α) (start stop : Nat) : Outcome ε (List α) :=
  if start ≤ stop ∧ stop ≤ xs.length then .ok ((xs.take stop).drop start) else Outcome.panic

/-- `w << n`. -/
def shl (w : U64) (n : Nat) : Outcome ε U64 := if n < 64 then .ok (w <<< n) else Outcome.panic

/-- `w >> n`. -/
def shr (w : U64) (n : Nat) : Outcome ε U64 := if n < 64 then .ok (w >>> n) else Outcome.panic

/-- `word_at`. -/
def wordAt (bytes : List U8) (start : Nat) : Outcome ε U64 := do
  let stop := min (start + 8) bytes.length
  let len ← sub stop start
  let buf : List U8 := List.replicate 8 0
  let dst ← slice buf 0 len
  let src ← slice bytes start stop
  Outcome.assert (dst.length = src.length)
  -- past the copy the buffer keeps its zeros
  return pack (src ++ buf.drop len)

/-- The row accumulator of `mul` and `vec_mul`. -/
def accumulate (v : Vector GF16 rows) (a : Mat rows cols) :
    Outcome ε (Vector U64 (Mat.accWords cols)) :=
  (List.finRange rows).foldlM
    (fun acc (i : Fin rows) => Vector.ofFnM fun w => do
      let word ← wordAt (Mat.bytes a.data) (i * cols + 8 * w)
      return acc.get w ^^^ mulScalar8 word (v.get i))
    (Vector.replicate _ 0#64)

/-- `GF16::new((acc[c / 8] >> (8 * (c % 8))) as u8)` for every column `c`. -/
def unpack (acc : Vector U64 (Mat.accWords cols)) : Outcome ε (Vector GF16 cols) :=
  Vector.ofFnM fun c => do
    let word ← Outcome.index acc.toList (c / 8)
    let shifted ← shr word (8 * (c.val % 8))
    return GF16.new (shifted.setWidth 8)

/-- `Mat::vec_mul`. -/
def vecMul (a : Mat rows cols) (v : Vector GF16 rows) : Outcome ε (Vector GF16 cols) := do
  let acc ← accumulate v a
  unpack acc

/-- `Mat::mul`. -/
def mul (a : Mat rows inner) (rhs : Mat inner cols) : Outcome ε (Mat rows cols) := do
  let out ← Vector.ofFnM fun r => do
    let acc ← accumulate (a.row r) rhs
    unpack acc
  return Mat.ofFn fun r c => (out.get r).get c

/-- The row word `w` of `mul_vec`, masked to the true row length. -/
def rowWord (a : Mat rows cols) (r : Fin rows) (w : Nat) : Outcome ε U64 := do
  let word ← wordAt (Mat.bytes a.data) (r * cols + 8 * w)
  let remaining ← sub cols (8 * w)
  if remaining < 8 then
    let bit ← shl 1#64 (8 * remaining)
    let mask ← sub bit.toNat 1
    return word &&& BitVec.ofNat 64 mask
  else
    return word

/-- `Mat::mul_vec`. -/
def mulVec (a : Mat rows cols) (v : Vector GF16 cols) : Outcome ε (Vector GF16 rows) :=
  Vector.ofFnM fun r => do
    let acc ← (List.range ((cols + 7) / 8)).foldlM (fun acc w => do
      let word ← rowWord a r w
      let vWord ← wordAt (Mat.bytes v) (8 * w)
      return acc ^^^ mulLanes8 word vWord) 0#64
    return fold8 acc

/-- `Mat::quad_form`. -/
def quadForm (a : Mat rows rows) (v : Vector GF16 rows) : Outcome ε GF16 := do
  let mv ← mulVec a v
  return (v.toList.zip mv.toList).foldl (fun acc p => acc + p.1 * p.2) 0

/-- `packed_axpy` on the byte views: eight bytes at a time, then the tail; the bytes written to
    `dst`. -/
def packedAxpy (dst : List GF16) (scalar : GF16) (src : List GF16) : Outcome ε (List U8) := do
  Outcome.assert (dst.length = src.length)
  let dstBytes := dst.map GF16.toU8
  let srcBytes := src.map GF16.toU8
  let words := dst.length / 8
  let chunk (bytes : List U8) (w : Nat) : U64 := pack ((bytes.drop (8 * w)).take 8)
  let head := (List.range words).flatMap fun w =>
    (List.range 8).map (lane (chunk dstBytes w ^^^ mulScalar8 (chunk srcBytes w) scalar))
  -- fewer than eight elements are left
  let tail := List.zipWith (fun d s => d ^^^ (GF16.new s * scalar).toU8)
    (dstBytes.drop (8 * words)) (srcBytes.drop (8 * words))
  return head ++ tail

/-! ## No bound is exceeded -/

/-- Entries that are all computed. -/
theorem ofFnM_ok {α : Type} {n : Nat} {f : Fin n → Outcome ε α} {g : Fin n → α}
    (h : ∀ i, f i = .ok (g i)) : Vector.ofFnM f = .ok (Vector.ofFn g) := by
  rw [funext h]
  exact Vector.ofFnM_pure

/-- A loop whose every turn succeeds. -/
theorem foldlM_ok {σ α : Type} {l : List α} {f : σ → α → Outcome ε σ} {g : σ → α → σ}
    (h : ∀ s, ∀ x ∈ l, f s x = .ok (g s x)) (s : σ) : l.foldlM f s = .ok (l.foldl g s) := by
  induction l generalizing s with
  | nil => rfl
  | cons x l ih =>
      rw [List.foldlM_cons, h s x List.mem_cons_self, Outcome.ok_bind, List.foldl_cons]
      exact ih (fun s y hy => h s y (List.mem_cons_of_mem _ hy)) (g s x)

theorem sub_of_le {a b : Nat} (h : b ≤ a) : (sub a b : Outcome ε Nat) = .ok (a - b) := if_pos h

/-- A word that starts inside the data is read. -/
theorem wordAt_eq {bytes : List U8} {start : Nat} (h : start ≤ bytes.length) :
    (wordAt bytes start : Outcome ε U64) = .ok (Mat.wordAt bytes start) := by
  have hstop : start ≤ min (start + 8) bytes.length := by omega
  have hlen : min (start + 8) bytes.length - start = min 8 (bytes.length - start) := by omega
  have hsrc : (bytes.take (min (start + 8) bytes.length)).drop start = (bytes.drop start).take 8 := by
    rw [List.drop_take, hlen, List.take_eq_take_iff, List.length_drop]
    omega
  have hdst : (slice (List.replicate 8 (0 : U8)) 0 (min 8 (bytes.length - start)) :
      Outcome ε (List U8)) = .ok (List.replicate (min 8 (bytes.length - start)) 0) := by
    rw [slice, if_pos ⟨Nat.zero_le _, by rw [List.length_replicate]; omega⟩, List.drop_zero,
      List.take_replicate, Nat.min_eq_left (Nat.min_le_left _ _)]
  have hread : (slice bytes start (min (start + 8) bytes.length) : Outcome ε (List U8)) =
      .ok ((bytes.drop start).take 8) := by
    rw [slice, if_pos ⟨hstop, Nat.min_le_right _ _⟩, hsrc]
  have hcount : ((bytes.drop start).take 8).length = min 8 (bytes.length - start) := by
    rw [List.length_take, List.length_drop]
  rw [wordAt]
  dsimp only
  rw [sub_of_le hstop, Outcome.ok_bind, hlen, hdst, Outcome.ok_bind, hread, Outcome.ok_bind,
    List.length_replicate, hcount, decide_eq_true rfl, Outcome.assert_true, Outcome.ok_bind,
    Mat.wordAt, hcount, List.drop_replicate]
  rfl

/-- The words of a row start inside the data, also where the row is empty. -/
theorem row_offset_le {i w : Nat} (hi : i < rows) (hw : 8 * w ≤ cols) :
    i * cols + 8 * w ≤ rows * cols :=
  calc i * cols + 8 * w ≤ i * cols + cols := Nat.add_le_add_left hw _
    _ = (i + 1) * cols := (Nat.succ_mul i cols).symm
    _ ≤ rows * cols := Nat.mul_le_mul_right cols hi

theorem accumulate_eq (v : Vector GF16 rows) (a : Mat rows cols) :
    (accumulate v a : Outcome ε _) = .ok (Mat.accumulate v a) := by
  refine foldlM_ok (fun acc i _ => ofFnM_ok fun w => ?_) _
  have hw : 8 * w.val ≤ cols := by
    have := w.isLt
    unfold Mat.accWords at this
    omega
  rw [wordAt_eq (by rw [Mat.bytes_length]; exact row_offset_le i.isLt hw)]
  rfl

theorem unpack_eq (acc : Vector U64 (Mat.accWords cols)) :
    (unpack acc : Outcome ε _) = .ok (Mat.unpack acc) := by
  refine ofFnM_ok fun c => ?_
  have hc : c / 8 < acc.toList.length := by
    rw [Vector.length_toList]
    exact Mat.lt_accWords c
  have hshift : 8 * (c.val % 8) < 64 := by omega
  rw [Outcome.index_of_lt hc, Outcome.ok_bind, shr, if_pos hshift, Outcome.ok_bind,
    Vector.getElem_toList]
  rfl

theorem vecMul_eq (a : Mat rows cols) (v : Vector GF16 rows) :
    (vecMul a v : Outcome ε _) = .ok (a.vecMul v) := by
  rw [vecMul, accumulate_eq, Outcome.ok_bind, unpack_eq, Mat.vecMul]

theorem mul_eq (a : Mat rows inner) (rhs : Mat inner cols) :
    (mul a rhs : Outcome ε _) = .ok (a.mul rhs) := by
  have hrow (r : Fin rows) : (do
      let acc ← accumulate (a.row r) rhs
      unpack acc : Outcome ε (Vector GF16 cols)) =
        .ok (Mat.unpack (Mat.accumulate (a.row r) rhs)) := by
    rw [accumulate_eq, Outcome.ok_bind, unpack_eq]
  rw [mul, ofFnM_ok hrow, Outcome.ok_bind, Mat.mul]
  rfl

theorem rowWord_eq (a : Mat rows cols) (r : Fin rows) {w : Nat} (hw : w < (cols + 7) / 8) :
    (rowWord a r w : Outcome ε _) = .ok (a.rowWord r w) := by
  have hstart : 8 * w ≤ cols := by omega
  rw [rowWord, wordAt_eq (by rw [Mat.bytes_length]; exact row_offset_le r.isLt hstart),
    Outcome.ok_bind, sub_of_le hstart, Outcome.ok_bind, Mat.rowWord]
  by_cases h : cols - 8 * w < 8
  · -- the mask has a set bit below it, since the row still has an entry
    have hbit : 8 * (cols - 8 * w) < 64 := by omega
    have hval : (1#64 <<< (8 * (cols - 8 * w))).toNat = 2 ^ (8 * (cols - 8 * w)) := by
      rw [BitVec.toNat_shiftLeft, BitVec.toNat_ofNat, Nat.one_mod, Nat.one_shiftLeft,
        Nat.mod_eq_of_lt (Nat.pow_lt_pow_right (by omega) hbit)]
    have hone : 1 ≤ (1#64 <<< (8 * (cols - 8 * w))).toNat := hval ▸ Nat.one_le_two_pow
    have hmask : BitVec.ofNat 64 ((1#64 <<< (8 * (cols - 8 * w))).toNat - 1) =
        (1#64 <<< (8 * (cols - 8 * w))) - 1#64 := by
      apply BitVec.eq_of_toNat_eq
      rw [BitVec.toNat_sub_of_le (by exact hone), BitVec.toNat_ofNat, Nat.mod_eq_of_lt]
      · rfl
      · exact Nat.lt_of_le_of_lt (Nat.sub_le _ _) (BitVec.isLt _)
    rw [if_pos h, if_pos h, shl, if_pos hbit, Outcome.ok_bind, sub_of_le hone, Outcome.ok_bind,
      hmask]
    rfl
  · rw [if_neg h, if_neg h]
    rfl

theorem mulVec_eq (a : Mat rows cols) (v : Vector GF16 cols) :
    (mulVec a v : Outcome ε _) = .ok (a.mulVec v) := by
  refine ofFnM_ok fun r => ?_
  rw [foldlM_ok (g := fun acc w => acc ^^^ mulLanes8 (a.rowWord r w)
    (Mat.wordAt (Mat.bytes v) (8 * w)))]
  · rfl
  · intro acc w hw
    have hlt : w < (cols + 7) / 8 := List.mem_range.mp hw
    rw [rowWord_eq a r hlt, Outcome.ok_bind, wordAt_eq (by rw [Mat.bytes_length]; omega)]
    rfl

/-! ## The kernels are the loops -/

theorem mul_eq_reference (a : Mat rows inner) (rhs : Mat inner cols) :
    (mul a rhs : Outcome ε _) = .ok (a.mulReference rhs) := by
  rw [mul_eq]
  congr 1
  refine Mat.ext fun r c => ?_
  rw [← Mat.toMatrix_apply, Mat.toMatrix_mul, Mat.get_mulReference, Matrix.mul_apply]
  rfl

theorem mulVec_eq_reference (m : Mat rows cols) (v : Vector GF16 cols) :
    (mulVec m v : Outcome ε _) = .ok (m.mulVecReference v) := by
  rw [mulVec_eq]
  congr 1
  apply Vector.ext
  intro r hr
  have h : (m.mulVec v).get ⟨r, hr⟩ = (m.mulVecReference v).get ⟨r, hr⟩ := by
    rw [Mat.get_mulVec, Mat.get_mulVecReference]
    rfl
  exact h

theorem vecMul_eq_reference (m : Mat rows cols) (v : Vector GF16 rows) :
    (vecMul m v : Outcome ε _) = .ok (m.vecMulReference v) := by
  rw [vecMul_eq]
  congr 1
  apply Vector.ext
  intro c hc
  have h : (m.vecMul v).get ⟨c, hc⟩ = (m.vecMulReference v).get ⟨c, hc⟩ := by
    rw [Mat.get_vecMul, Mat.get_vecMulReference]
    rfl
  exact h

/-- A loop over two zipped vectors adds the products. -/
theorem foldl_zip_mul {n : Nat} (v u : Vector GF16 n) :
    (v.toList.zip u.toList).foldl (fun acc p => acc + p.1 * p.2) 0 = ∑ i, v.get i * u.get i := by
  have hzip : v.toList.zip u.toList = (List.finRange n).map fun i => (v.get i, u.get i) := by
    apply List.ext_getElem
    · simp
    · intro i hi hi'
      simp [Vector.get_eq_getElem]
  rw [hzip, List.foldl_map, foldl_add (fun x : GF16 => x) _ (fun i => v.get i * u.get i) fun _ _ => rfl,
    zero_add, Fin.sum_univ_def]

theorem quadForm_eq_reference (m : Mat rows rows) (v : Vector GF16 rows) :
    (quadForm m v : Outcome ε _) = .ok (m.quadFormReference v) := by
  rw [quadForm, mulVec_eq_reference, Outcome.ok_bind, Mat.quadFormReference_eq]
  show Except.ok _ = _
  rw [foldl_zip_mul]
  simp only [Mat.get_mulVecReference]

/-- Byte `i` of the result of the scalar loop. -/
theorem getElem_axpy (dst : List GF16) (scalar : GF16) (src : List GF16) {i : Nat}
    (hd : i < dst.length) (hs : i < src.length) :
    ((List.zipWith (fun d s => d + scalar * s) dst src).map GF16.toU8)[i]? =
      some (dst[i].toU8 ^^^ (src[i] * scalar).toU8) := by
  have hz : i < (List.zipWith (fun d s => d + scalar * s) dst src).length := by
    rw [List.length_zipWith]
    omega
  rw [List.getElem?_map, List.getElem?_eq_getElem hz, Option.map_some, List.getElem_zipWith,
    GF16.toU8_add, mul_comm scalar]

/-- A lane of eight bytes of a view. -/
theorem lane_chunk {xs : List GF16} {w c : Nat} (hc : c < 8) (h : 8 * w + c < xs.length) :
    lane (pack (((xs.map GF16.toU8).drop (8 * w)).take 8)) c = xs[8 * w + c].toU8 := by
  rw [lane_pack _ hc, List.getD_eq_getElem?_getD, List.getElem?_take_of_lt hc, List.getElem?_drop,
    List.getElem?_map, List.getElem?_eq_getElem h]
  rfl

/-- The words written back are the first bytes of the result. -/
theorem axpy_words {dst src : List GF16} (scalar : GF16) (hlen : dst.length = src.length) :
    (List.range (dst.length / 8)).flatMap (fun w => (List.range 8).map (lane
        (pack (((dst.map GF16.toU8).drop (8 * w)).take 8) ^^^
          mulScalar8 (pack (((src.map GF16.toU8).drop (8 * w)).take 8)) scalar))) =
      ((List.zipWith (fun d s => d + scalar * s) dst src).map GF16.toU8).take
        (8 * (dst.length / 8)) := by
  apply List.ext_getElem?
  intro t
  have ht : t = t / 8 * 8 + t % 8 := by omega
  have hc : t % 8 < 8 := Nat.mod_lt _ (by omega)
  rw [List.flatMap_def]
  conv_lhs => rw [ht]
  rw [getElem?_flatten_of_length (by simp) hc, List.getElem?_map]
  by_cases hw : t / 8 < dst.length / 8
  · have hpos : 8 * (t / 8) + t % 8 = t := by omega
    have hd : t < dst.length := by omega
    have hs : t < src.length := by omega
    have hsrc : Canonical (pack (((src.map GF16.toU8).drop (8 * (t / 8))).take 8)) := by
      intro c hc
      rw [lane_chunk hc (by omega)]
      exact GF16.canonical _
    rw [List.getElem?_range hw, Option.map_some, Option.bind_some, List.getElem?_map,
      List.getElem?_range hc, Option.map_some, lane_xor, lane_mulScalar8 hsrc scalar hc,
      lane_chunk hc (by omega), lane_chunk hc (by omega), GF16.new_toU8,
      List.getElem?_take_of_lt (by omega), getElem_axpy dst scalar src hd hs]
    simp only [hpos]
  · rw [List.getElem?_eq_none (by rw [List.length_range]; omega), Option.map_none, Option.bind_none,
      List.getElem?_eq_none (by rw [List.length_take]; omega)]

theorem packedAxpy_eq_reference (dst : List GF16) (scalar : GF16) (src : List GF16) :
    (packedAxpy dst scalar src : Outcome ε _) =
      if dst.length = src.length then
        .ok ((List.zipWith (fun d s => d + scalar * s) dst src).map GF16.toU8)
      else Outcome.panic := by
  rw [packedAxpy]
  by_cases hlen : dst.length = src.length
  · have htail : List.zipWith (fun d s => d ^^^ (GF16.new s * scalar).toU8)
        ((dst.map GF16.toU8).drop (8 * (dst.length / 8)))
        ((src.map GF16.toU8).drop (8 * (dst.length / 8))) =
        ((List.zipWith (fun d s => d + scalar * s) dst src).map GF16.toU8).drop
          (8 * (dst.length / 8)) := by
      rw [← List.drop_zipWith, List.zipWith_map, List.map_zipWith]
      simp only [GF16.new_toU8, GF16.toU8_add, mul_comm scalar]
    rw [if_pos hlen, decide_eq_true hlen, Outcome.assert_true, Outcome.ok_bind]
    dsimp only
    rw [axpy_words scalar hlen, htail, List.take_append_drop]
    rfl
  · rw [if_neg hlen, decide_eq_false hlen]
    rfl

/-- The row update of the whipped forms is the kernel. -/
theorem packedAxpy_eq {n : Nat} (dst : Vector GF16 n) (scalar : GF16) (src : Vector GF16 n) :
    (packedAxpy dst.toList scalar src.toList : Outcome ε _) =
      .ok (Mat.bytes (Mayo.packedAxpy dst scalar src)) := by
  rw [packedAxpy_eq_reference, if_pos (by simp), Mat.bytes]
  congr 2
  apply List.ext_getElem
  · simp
  · intro c hc hc'
    have hlt : c < n := by simpa using hc'
    have hget := get_packedAxpy dst scalar src ⟨c, hlt⟩
    simp only [Vector.get_eq_getElem] at hget
    simp [hget]

end Kernel

/-- The packed kernels are the scalar loops, on all dimensions: with every subtraction, slice, index
    and shift checked they return what the loops compute.  Every byte an accumulator or the row
    update leaves behind is a nibble, so reading an entry back loses nothing; and the row update
    that builds the whipped forms is the kernel. -/
theorem packed_kernels_match_reference :
    (∀ {rows inner cols : Nat} (a : Mat rows inner) (rhs : Mat inner cols),
      (Kernel.mul a rhs : Outcome Empty _) = .ok (a.mulReference rhs)) ∧
    (∀ {rows cols : Nat} (m : Mat rows cols) (v : Vector GF16 cols),
      (Kernel.mulVec m v : Outcome Empty _) = .ok (m.mulVecReference v)) ∧
    (∀ {rows cols : Nat} (m : Mat rows cols) (v : Vector GF16 rows),
      (Kernel.vecMul m v : Outcome Empty _) = .ok (m.vecMulReference v) ∧
        ∃ acc, (Kernel.accumulate v m : Outcome Empty _) = .ok acc ∧ ∀ w, Canonical (acc.get w)) ∧
    (∀ {n : Nat} (m : Mat n n) (v : Vector GF16 n),
      (Kernel.quadForm m v : Outcome Empty _) = .ok (m.quadFormReference v)) ∧
    (∀ (dst : List GF16) (scalar : GF16) (src : List GF16),
      (Kernel.packedAxpy dst scalar src : Outcome Empty _) =
          (if dst.length = src.length then
            .ok ((List.zipWith (fun d s => d + scalar * s) dst src).map GF16.toU8)
          else Outcome.panic) ∧
        ∀ bytes, (Kernel.packedAxpy dst scalar src : Outcome Empty _) = .ok bytes →
          ∀ b ∈ bytes, b.toNat < 16) ∧
    ∀ {n : Nat} (dst : Vector GF16 n) (scalar : GF16) (src : Vector GF16 n),
      (Kernel.packedAxpy dst.toList scalar src.toList : Outcome Empty _) =
        .ok (Mat.bytes (packedAxpy dst scalar src)) := by
  refine ⟨Kernel.mul_eq_reference, Kernel.mulVec_eq_reference,
    fun m v => ⟨Kernel.vecMul_eq_reference m v,
    _, Kernel.accumulate_eq v m, fun w => (Mat.accumulate_lanes v m w).1⟩,
    Kernel.quadForm_eq_reference, fun dst scalar src => ⟨Kernel.packedAxpy_eq_reference _ _ _, ?_⟩,
    Kernel.packedAxpy_eq⟩
  intro bytes hbytes b hb
  rw [Kernel.packedAxpy_eq_reference] at hbytes
  split at hbytes
  · obtain ⟨x, -, rfl⟩ := List.mem_map.mp (Except.ok.inj hbytes ▸ hb)
    exact x.canonical
  · exact nomatch hbytes

end VoleAct.Mayo
