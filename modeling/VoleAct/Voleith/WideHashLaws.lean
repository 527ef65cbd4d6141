/-
  VoleAct.Voleith.WideHashLaws

  The two wide hashes agree, and how often a column hashes to zero.

  The chunks before the last 128 bits are the coefficients of a polynomial, and
  the hash combines its values at two points of the key.  The last 128 bits are
  added to that, so they shift the hash over the whole field.
-/
import VoleAct.Lib.PolynomialHash
import VoleAct.Voleith.WideHash

namespace VoleAct.Voleith

open VoleAct.BinaryFields VoleAct.Lib

/-! ## Columns and rows -/

/-- Column `c` of a row-packed matrix. -/
def columnVector (rows : List GF2p128) (c : Nat) : BitVector :=
  BitVector.ofFn rows.length (rowsColumn rows c)

theorem wideHashBits_columnVector (ε : Type) (key : WideHashKey) {rows : List GF2p128}
    (h : 128 ≤ rows.length) (c : Nat) :
    (wideHashBits key (columnVector rows c) : Outcome ε GF2p128) =
      .ok (columnHash key rows.length (rowsColumn rows c)) := by
  rw [wideHashBits_spec key (by exact h)]
  exact congrArg _ (columnHash_congr key h fun t ht => BitVector.bit_ofFn _ ht)

theorem rowsColumn_zipWith {rows rows' : List GF2p128} (h : rows.length = rows'.length) (c t : Nat) :
    rowsColumn (List.zipWith (· + ·) rows rows') c t =
      (rowsColumn rows c t ^^ rowsColumn rows' c t) := by
  simp only [rowsColumn, List.getD_eq_getElem?_getD, List.getElem?_zipWith]
  by_cases ht : t < rows.length
  · rw [List.getElem?_eq_getElem ht, List.getElem?_eq_getElem (h ▸ ht)]
    simp
  · rw [List.getElem?_eq_none (Nat.le_of_not_lt ht), List.getElem?_eq_none (h ▸ Nat.le_of_not_lt ht)]
    simp

/-- `wide_hash_bits` is linear. -/
theorem wideHashBits_xor (ε : Type) (key : WideHashKey) {x y : BitVector} (h : x.len = y.len)
    (hlen : 128 ≤ x.len) :
    ∃ hx hy, (wideHashBits key x : Outcome ε GF2p128) = .ok hx ∧
      (wideHashBits key y : Outcome ε GF2p128) = .ok hy ∧
      (wideHashBits key (x.xor y h) : Outcome ε GF2p128) = .ok (hx + hy) := by
  refine ⟨_, _, wideHashBits_spec key hlen, wideHashBits_spec key (h ▸ hlen), ?_⟩
  rw [wideHashBits_spec key (by exact hlen), BitVector.xor_len, ← h, ← columnHash_xor]
  simp only [funext (BitVector.bit_xor x y h)]

/-- `wide_hash_rows` is linear. -/
theorem wideHashRows_add (ε : Type) (key : WideHashKey) {rows rows' : List GF2p128}
    (h : rows.length = rows'.length) (hlen : 128 ≤ rows.length) :
    ∃ out out', (wideHashRows key rows : Outcome ε _) = .ok out ∧
      (wideHashRows key rows' : Outcome ε _) = .ok out' ∧
      (wideHashRows key (List.zipWith (· + ·) rows rows') : Outcome ε _) =
        .ok (List.zipWith (· + ·) out out') := by
  have hsum : (List.zipWith (· + ·) rows rows').length = rows.length := by
    rw [List.length_zipWith, h, Nat.min_self]
  obtain ⟨out, hout, houtlen, hbits⟩ := wideHashRows_spec ε key hlen
  obtain ⟨out', hout', houtlen', hbits'⟩ := wideHashRows_spec ε key (h ▸ hlen)
  obtain ⟨both, hboth, hbothlen, hbitsboth⟩ := wideHashRows_spec ε key (hsum.symm ▸ hlen)
  refine ⟨out, out', hout, hout', hboth.trans (congrArg _ ?_)⟩
  apply List.ext_getElem?
  intro r
  by_cases hr : r < 128
  · have hget {l : List GF2p128} (hl : l.length = 128) : l[r]? = some (l.getD r 0) := by
      rw [List.getD_eq_getElem?_getD, List.getElem?_eq_getElem (hl ▸ hr), Option.getD_some]
    rw [List.getElem?_zipWith, hget hbothlen, hget houtlen, hget houtlen']
    refine congrArg some (GF2p128.ext_bit fun c hc => ?_)
    rw [GF2p128.bit_add, hbitsboth r hr c hc, hbits r hr c hc, hbits' r hr c hc, ← GF2p128.bit_add,
      hsum, ← h, ← columnHash_xor, funext (rowsColumn_zipWith h c)]
  · rw [List.getElem?_eq_none (by omega), List.getElem?_eq_none (by
      rw [List.length_zipWith]
      omega)]

/-! ## Keys that hash a column to zero -/

/-- The polynomial of a column: its chunks, the first one at the highest power. -/
noncomputable def columnPoly (x0Len : Nat) (f : Nat → Bool) : Polynomial GF2p128 :=
  toPoly ((blockBases x0Len).map (columnChunk x0Len f)).reverse

theorem eval_columnPoly (x0Len : Nat) (f : Nat → Bool) (point : GF2p128) :
    (columnPoly x0Len f).eval point =
      horner point ((blockBases x0Len).map (columnChunk x0Len f)) := by
  rw [columnPoly, ← evalCoeffs_eq, evalCoeffs, List.reverse_reverse, horner]

@[simp] theorem blockBases_length (x0Len : Nat) : (blockBases x0Len).length = (x0Len + 127) / 128 := by
  simp [blockBases]

theorem natDegree_columnPoly_le (x0Len : Nat) (f : Nat → Bool) :
    (columnPoly x0Len f).natDegree ≤ (x0Len + 127) / 128 - 1 := by
  rw [Polynomial.natDegree_le_iff_coeff_eq_zero]
  intro i hi
  rw [columnPoly, coeff_toPoly, List.getD_eq_getElem?_getD, List.getElem?_eq_none, Option.getD_none]
  simp only [List.length_reverse, List.length_map, blockBases_length]
  omega

/-- A column with a bit before its last 128 has a nonzero polynomial. -/
theorem columnPoly_ne_zero {x0Len : Nat} {f : Nat → Bool} {t : Nat} (ht : t < x0Len)
    (hf : f t = true) : columnPoly x0Len f ≠ 0 := by
  intro hzero
  have hw : t / 128 < (x0Len + 127) / 128 := by omega
  -- the chunk that holds the bit is a coefficient
  have hmem : columnChunk x0Len f (128 * (t / 128)) ∈
      ((blockBases x0Len).map (columnChunk x0Len f)).reverse :=
    List.mem_reverse.mpr (List.mem_map.mpr ⟨_, List.mem_map.mpr ⟨_, List.mem_range.mpr hw, rfl⟩, rfl⟩)
  obtain ⟨i, hi⟩ := List.mem_iff_getElem?.mp hmem
  have hcoeff : (columnPoly x0Len f).coeff i = columnChunk x0Len f (128 * (t / 128)) := by
    rw [columnPoly, coeff_toPoly, List.getD_eq_getElem?_getD, hi, Option.getD_some]
  have hbit : (columnChunk x0Len f (128 * (t / 128))).bit (t % 128) = true := by
    have hpos : 128 * (t / 128) + t % 128 = t := Nat.div_add_mod t 128
    rw [columnChunk, GF2p128.bit_ofBits _ (Nat.mod_lt _ (by decide)), hpos, decide_eq_true ht, hf]
    rfl
  rw [← hcoeff, hzero, Polynomial.coeff_zero, GF2p128.bit_zero] at hbit
  exact Bool.false_ne_true hbit

/-- A key, its points first. -/
def WideHashKey.equivPairs : WideHashKey ≃ (GF2p128 × GF2p128) × (GF2p128 × GF2p128) where
  toFun key := ((key.s, key.t), (key.r0, key.r1))
  invFun p := ⟨p.2.1, p.2.2, p.1.1, p.1.2⟩
  left_inv _ := rfl
  right_inv _ := rfl

/-- The keys under which the hash of a vector is zero. -/
def zeroKeys (x : BitVector) : Set WideHashKey :=
  {key | (wideHashBits key x : Outcome Empty GF2p128) = .ok 0}

theorem mem_zeroKeys {x : BitVector} (hlen : 128 ≤ x.len) {key : WideHashKey} :
    key ∈ zeroKeys x ↔ columnHash key x.len x.bit = 0 := by
  rw [zeroKeys, Set.mem_ofPred_eq, wideHashBits_spec key hlen]
  exact ⟨fun h => Except.ok.inj h, fun h => congrArg Except.ok h⟩

/-- A column that is nonzero before its last 128 bits. -/
theorem ncard_zeroKeys_le {x : BitVector} (hlen : 128 ≤ x.len) {t : Nat} (ht : t < x.len - 128)
    (hx : x.bit t = true) :
    (zeroKeys x).ncard ≤
      (2 ^ 128) ^ 3 + ((x.len - 128 + 127) / 128 - 1) ^ 2 * (2 ^ 128) ^ 2 := by
  have hcount := ncard_two_point_le (columnPoly_ne_zero ht hx)
    (natDegree_columnPoly_le (x.len - 128) x.bit) (GF2p128.ofBits fun i => x.bit (x.len - 128 + i))
  rw [GF2p128.card_eq] at hcount
  refine (Set.ncard_le_ncard_of_injOn WideHashKey.equivPairs ?_
    WideHashKey.equivPairs.injective.injOn (Set.toFinite _)).trans hcount
  intro key hkey
  rw [mem_zeroKeys hlen] at hkey
  rw [Set.mem_ofPred_eq, eval_columnPoly, eval_columnPoly]
  exact hkey

/-- A column that is zero before its last 128 bits hashes to these. -/
theorem columnHash_of_head_false (key : WideHashKey) {len : Nat} {f : Nat → Bool}
    (h : ∀ t < len - 128, f t = false) :
    columnHash key len f = GF2p128.ofBits fun i => f (len - 128 + i) := by
  have hbody : columnBody key (len - 128) f = 0 := by
    have hself := columnBody_xor key (len - 128) f f
    rw [columnBody_congr key (g := f) fun t ht => by rw [h t ht]; rfl] at hself
    exact left_eq_add.mp hself
  rw [columnHash, hbody, zero_add]

theorem zeroKeys_eq_empty {x : BitVector} (hlen : 128 ≤ x.len)
    (hhead : ∀ t < x.len - 128, x.bit t = false) (hx : ∃ t, x.bit t = true) : zeroKeys x = ∅ := by
  obtain ⟨t, ht⟩ := hx
  have hlast : x.len - 128 ≤ t := by
    by_contra hlt
    rw [hhead t (Nat.lt_of_not_le hlt)] at ht
    exact Bool.false_ne_true ht
  have hlt : t < x.len := by
    by_contra hge
    rw [x.bit_of_le (Nat.le_of_not_lt hge)] at ht
    exact Bool.false_ne_true ht
  refine Set.eq_empty_of_forall_notMem fun key hkey => ?_
  rw [mem_zeroKeys hlen, columnHash_of_head_false key hhead] at hkey
  -- the bit is one of the last 128, so it is a bit of the hash
  have hbit : (GF2p128.ofBits fun i => x.bit (x.len - 128 + i)).bit (t - (x.len - 128)) = true := by
    rw [GF2p128.bit_ofBits _ (by omega), Nat.add_sub_cancel' hlast, ht]
  rw [hkey, GF2p128.bit_zero] at hbit
  exact Bool.false_ne_true hbit

/-! ## The last 128 bits -/

/-- The vector with its last 128 bits replaced. -/
def withTail (x : BitVector) (y : U128) : BitVector :=
  BitVector.ofFn x.len fun t =>
    if t < x.len - 128 then x.bit t else y.getLsbD (t - (x.len - 128))

theorem wideHashBits_withTail (ε : Type) (key : WideHashKey) {x : BitVector} (hlen : 128 ≤ x.len)
    (y : U128) :
    (wideHashBits key (withTail x y) : Outcome ε GF2p128) =
      .ok (columnBody key (x.len - 128) x.bit + ⟨y⟩) := by
  rw [wideHashBits_spec key (by exact hlen)]
  refine congrArg Except.ok ?_
  have hbit {t : Nat} (ht : t < x.len) : (withTail x y).bit t =
      if t < x.len - 128 then x.bit t else y.getLsbD (t - (x.len - 128)) := BitVector.bit_ofFn _ ht
  have htail : (GF2p128.ofBits fun i => (withTail x y).bit (x.len - 128 + i)) = ⟨y⟩ := by
    refine GF2p128.ext_bit fun i hi => ?_
    rw [GF2p128.bit_ofBits _ hi, hbit (by omega), if_neg (by omega), Nat.add_sub_cancel_left]
    rfl
  rw [columnHash, show (withTail x y).len = x.len from rfl, htail,
    columnBody_congr key (g := x.bit) fun t ht => by rw [hbit (by omega), if_pos ht]]

/-- The wide consistency hash, for inputs of any length from 128 bits on.  The hash of the rows is
    the hash of every column, both hashes are linear, a nonzero column hashes to zero under at most
    `q³ + (n-1)²q²` of the `q⁴` keys and under none when only its last 128 bits are nonzero, and for
    a fixed key and fixed first bits the hash is a bijection of the last 128 bits. -/
theorem wide_hash_laws :
    (∀ (key : WideHashKey) (rows : List GF2p128), 128 ≤ rows.length →
      ∃ out, (wideHashRows key rows : Outcome Empty _) = .ok out ∧ out.length = 128 ∧
        ∀ c < 128, ∃ h, (wideHashBits key (columnVector rows c) : Outcome Empty _) = .ok h ∧
          ∀ r < 128, h.bit r = (out.getD r 0).bit c) ∧
    (∀ (key : WideHashKey) (x y : BitVector) (h : x.len = y.len), 128 ≤ x.len →
      ∃ hx hy, (wideHashBits key x : Outcome Empty _) = .ok hx ∧
        (wideHashBits key y : Outcome Empty _) = .ok hy ∧
        (wideHashBits key (x.xor y h) : Outcome Empty _) = .ok (hx + hy)) ∧
    (∀ (key : WideHashKey) (rows rows' : List GF2p128), rows.length = rows'.length →
      128 ≤ rows.length →
      ∃ out out', (wideHashRows key rows : Outcome Empty _) = .ok out ∧
        (wideHashRows key rows' : Outcome Empty _) = .ok out' ∧
        (wideHashRows key (List.zipWith (· + ·) rows rows') : Outcome Empty _) =
          .ok (List.zipWith (· + ·) out out')) ∧
    (∀ x : BitVector, 128 ≤ x.len → (∃ t, x.bit t = true) →
      (zeroKeys x).ncard ≤
          (2 ^ 128) ^ 3 + ((x.len - 128 + 127) / 128 - 1) ^ 2 * (2 ^ 128) ^ 2 ∧
        ((∀ t < x.len - 128, x.bit t = false) → (zeroKeys x).ncard = 0)) ∧
    ∀ (key : WideHashKey) (x : BitVector), 128 ≤ x.len →
      ∃ g : U128 → GF2p128, Function.Bijective g ∧
        ∀ y, (wideHashBits key (withTail x y) : Outcome Empty _) = .ok (g y) := by
  refine ⟨fun key rows hlen => ?_, fun key x y h hlen => wideHashBits_xor Empty key h hlen,
    fun key rows rows' h hlen => wideHashRows_add Empty key h hlen, fun x hlen hx => ?_,
    fun key x hlen => ?_⟩
  · obtain ⟨out, hout, houtlen, hbits⟩ := wideHashRows_spec Empty key hlen
    exact ⟨out, hout, houtlen, fun c hc => ⟨_, wideHashBits_columnVector Empty key hlen c,
      fun r hr => (hbits r hr c hc).symm⟩⟩
  · by_cases hhead : ∀ t < x.len - 128, x.bit t = false
    · -- only the tail is set, and the hash copies it
      have hempty : (zeroKeys x).ncard = 0 := by rw [zeroKeys_eq_empty hlen hhead hx, Set.ncard_empty]
      exact ⟨hempty ▸ Nat.zero_le _, fun _ => hempty⟩
    · refine ⟨?_, fun h => absurd h hhead⟩
      push Not at hhead
      obtain ⟨t, ht, hbit⟩ := hhead
      exact ncard_zeroKeys_le hlen ht ((Bool.not_eq_false _).mp hbit)
  · -- the tail is added to the hash of the rest
    refine ⟨fun y => columnBody key (x.len - 128) x.bit + ⟨y⟩, ⟨fun y y' h => ?_, fun e => ?_⟩,
      wideHashBits_withTail Empty key hlen⟩
    · exact congrArg GF2p128.toU128 (add_left_cancel h)
    · exact ⟨(e - columnBody key (x.len - 128) x.bit).toU128, add_sub_cancel _ _⟩

end VoleAct.Voleith
