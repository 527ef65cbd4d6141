/-
  VoleAct.Voleith.Bits

  The bit-vector utility of the proof system (`voleith/src/bits.rs`).

  A `BitVector` is the crate's `BitVec`: little-endian bytes whose padding bits
  are zero.  The structure carries that invariant, so two vectors are equal as
  soon as their lengths and bits agree.
-/
import VoleAct.Sha3
import VoleAct.Lib.LeBytes

namespace VoleAct.Voleith

open VoleAct.Lib

/-- `mask_tail`: zero any bits beyond `len` in the final byte. -/
def maskTail (len : Nat) (bytes : List U8) : List U8 :=
  let used := len % 8
  if used = 0 then bytes
  else bytes.modify (bytes.length - 1) (· &&& ((1#8 <<< used) - 1#8))

theorem length_maskTail (len : Nat) (bytes : List U8) :
    (maskTail len bytes).length = bytes.length := by
  simp only [maskTail]
  split <;> simp

/-- The tail mask of `used` bits, `0 < used < 8`. -/
theorem getLsbD_tailMask {used : Nat} (h : used < 8) (i : Nat) :
    ((1#8 <<< used) - 1#8).getLsbD i = decide (i < used) := by
  have hdec : ∀ u : Fin 8, ∀ i : Fin 8,
      ((1#8 <<< u.val) - 1#8).getLsbD i.val = decide (i.val < u.val) := by decide
  rcases Nat.lt_or_ge i 8 with hi | hi
  · exact hdec ⟨used, h⟩ ⟨i, hi⟩
  · rw [BitVec.getLsbD_of_ge _ _ hi]
    simp; omega

/-- The low mask of a 128-bit word. -/
theorem toNat_lowMask {n : Nat} (h : n < 128) : ((1#128 <<< n) - 1#128).toNat = 2 ^ n - 1 := by
  have hlt : 2 ^ n < 2 ^ 128 := Nat.pow_lt_pow_right (by decide) h
  have hone : (1#128 <<< n).toNat = 2 ^ n := by
    rw [BitVec.toNat_shiftLeft, Nat.shiftLeft_eq]
    simpa using Nat.mod_eq_of_lt hlt
  rw [BitVec.toNat_sub_of_le]
  · rw [hone]
    rfl
  · rw [BitVec.le_def, hone]
    exact Nat.one_le_two_pow

theorem getLsbD_lowMask {n : Nat} (h : n < 128) (i : Nat) :
    ((1#128 <<< n) - 1#128).getLsbD i = decide (i < n) := by
  rw [← BitVec.testBit_toNat, toNat_lowMask h, Nat.testBit_two_pow_sub_one]

theorem leBit_maskTail {len : Nat} {bytes : List U8} (h : bytes.length = (len + 7) / 8) (t : Nat) :
    leBit (maskTail len bytes) t = (decide (t < len) && leBit bytes t) := by
  simp only [maskTail]
  split
  · next hused =>
      rcases Nat.lt_or_ge t len with ht | ht
      · simp [ht]
      · rw [leBit_of_length_le (by omega)]
        simp
  · next hused =>
      simp only [leBit, List.getD_eq_getElem?_getD, List.getElem?_modify]
      -- only the last byte is masked
      by_cases hlast : bytes.length - 1 = t / 8
      · obtain ⟨b, hb⟩ : ∃ b, bytes[t / 8]? = some b :=
          ⟨_, List.getElem?_eq_getElem (show t / 8 < bytes.length by omega)⟩
        have hlt : t % 8 < len % 8 ↔ t < len := by omega
        simp only [hb, hlast, if_true, Option.map_eq_map, Option.map_some, Option.getD_some,
          BitVec.getLsbD_and, getLsbD_tailMask (Nat.mod_lt len (by decide)), hlt]
        rw [Bool.and_comm]
      · simp only [hlast, if_false, Option.map_eq_map, Option.map_id_fun', id_eq]
        rcases Nat.lt_or_ge t len with ht | ht
        · simp [ht]
        · rw [List.getElem?_eq_none (by omega)]
          simp

/-- A fixed-length bit vector: bit `t` is `bytes[t/8] >> (t%8) & 1`. -/
structure BitVector where
  len : Nat
  bytes : List U8
  length_bytes : bytes.length = (len + 7) / 8
  padding_zero : ∀ t, len ≤ t → leBit bytes t = false
  deriving DecidableEq

namespace BitVector

variable {ε : Type}

/-- Bit `t`, false past the end. -/
def bit (v : BitVector) (t : Nat) : Bool := leBit v.bytes t

@[ext] theorem ext {v w : BitVector} (hlen : v.len = w.len)
    (h : ∀ t < v.len, v.bit t = w.bit t) : v = w := by
  have hbytes : v.bytes = w.bytes := by
    apply ext_leBit (by rw [v.length_bytes, w.length_bytes, hlen])
    intro t
    rcases Nat.lt_or_ge t v.len with ht | ht
    · exact h t ht
    · rw [v.padding_zero t ht, w.padding_zero t (hlen ▸ ht)]
  cases v; cases w; cases hlen; cases hbytes; rfl

theorem bit_of_le (v : BitVector) {t : Nat} (h : v.len ≤ t) : v.bit t = false :=
  v.padding_zero t h

/-- `mask_tail` applied to `div_ceil(len, 8)` arbitrary bytes. -/
def ofBytesMasked (len : Nat) (bytes : List U8) (h : bytes.length = (len + 7) / 8) :
    BitVector where
  len := len
  bytes := maskTail len bytes
  length_bytes := by rw [length_maskTail, h]
  padding_zero t ht := by simp [leBit_maskTail h, Nat.not_lt.mpr ht]

/-- `BitVec::zero`. -/
def zero (len : Nat) : BitVector where
  len := len
  bytes := List.replicate ((len + 7) / 8) 0#8
  length_bytes := List.length_replicate
  padding_zero t _ := by
    simp only [leBit, List.getD_eq_getElem?_getD, List.getElem?_replicate]
    split <;> simp

/-- `BitVec::from_xof`; the reader advances by the whole byte length. -/
def fromXof (reader : XofReader) (len : Nat) : BitVector :=
  ofBytesMasked len (reader.peek ((len + 7) / 8)) (by simp)

/-- `BitVec::from_bytes`: `None` unless the bytes are the canonical encoding. -/
def fromBytes (bytes : List U8) (len : Nat) : Option BitVector :=
  if h : bytes.length = (len + 7) / 8 then
    if maskTail len bytes = bytes then some (ofBytesMasked len bytes h) else none
  else none

/-- `BitVec::get`; asserts `t < len`. -/
def get (v : BitVector) (t : Nat) : Outcome ε Bool := do
  Outcome.assert (decide (t < v.len))
  return v.bit t

/-- The bytes `BitVec::set` leaves. -/
def setBytes (v : BitVector) (t : Nat) (b : Bool) : List U8 :=
  let mask := 1#8 <<< (t % 8)
  v.bytes.modify (t / 8) fun x => if b then x ||| mask else x &&& ~~~mask

theorem getLsbD_setBit (x : U8) (b : Bool) {i j : Nat} (hi : i < 8) (hj : j < 8) :
    (if b then x ||| (1#8 <<< i) else x &&& ~~~(1#8 <<< i)).getLsbD j =
      if j = i then b else x.getLsbD j := by
  have hmask : (1#8 <<< i).getLsbD j = decide (j = i) := by
    rw [← BitVec.twoPow_eq, BitVec.getLsbD_twoPow]
    simp only [hi, decide_true, Bool.true_and, eq_comm]
  cases b
  · simp only [Bool.false_eq_true, if_false, BitVec.getLsbD_and, BitVec.getLsbD_not, hmask, hj]
    by_cases h : j = i <;> simp [h]
  · simp only [if_true, BitVec.getLsbD_or, hmask]
    by_cases h : j = i <;> simp [h]

theorem leBit_setBytes (v : BitVector) {t : Nat} (b : Bool) (ht : t < v.len) (s : Nat) :
    leBit (v.setBytes t b) s = if s = t then b else v.bit s := by
  have hlen := v.length_bytes
  simp only [leBit, setBytes, bit, List.getD_eq_getElem?_getD, List.getElem?_modify]
  by_cases hbyte : t / 8 = s / 8
  · obtain ⟨x, hx⟩ : ∃ x, v.bytes[s / 8]? = some x :=
      ⟨_, List.getElem?_eq_getElem (show s / 8 < v.bytes.length by omega)⟩
    have hst : s % 8 = t % 8 ↔ s = t := by omega
    simp only [hx, hbyte, if_true, Option.map_eq_map, Option.map_some, Option.getD_some]
    rw [getLsbD_setBit x b (Nat.mod_lt t (by decide)) (Nat.mod_lt s (by decide))]
    simp only [hst]
  · have hst : s ≠ t := by omega
    simp [hbyte, hst]

/-- `BitVec::set`; asserts `t < len`. -/
def set (v : BitVector) (t : Nat) (b : Bool) : Outcome ε BitVector :=
  if ht : t < v.len then
    .ok
      { len := v.len
        bytes := v.setBytes t b
        length_bytes := by rw [← v.length_bytes, setBytes, List.length_modify]
        padding_zero := fun s hs => by
          rw [leBit_setBytes v b ht, if_neg (by omega), v.bit_of_le hs] }
  else Outcome.panic

theorem leBit_zipWith_xor {bs cs : List U8} (h : bs.length = cs.length) (t : Nat) :
    leBit (List.zipWith (· ^^^ ·) bs cs) t = (leBit bs t ^^ leBit cs t) := by
  simp only [leBit, List.getD_eq_getElem?_getD, List.getElem?_zipWith]
  rcases Nat.lt_or_ge (t / 8) bs.length with ht | ht
  · rw [List.getElem?_eq_getElem ht, List.getElem?_eq_getElem (h ▸ ht)]
    simp
  · rw [List.getElem?_eq_none ht, List.getElem?_eq_none (h ▸ ht)]
    simp

/-- The xor of two vectors of one length. -/
def xor (v w : BitVector) (h : v.len = w.len) : BitVector where
  len := v.len
  bytes := List.zipWith (· ^^^ ·) v.bytes w.bytes
  length_bytes := by rw [List.length_zipWith, v.length_bytes, w.length_bytes, h, Nat.min_self]
  padding_zero t ht := by
    rw [leBit_zipWith_xor (by rw [v.length_bytes, w.length_bytes, h]), v.padding_zero t ht,
      w.padding_zero t (h ▸ ht)]
    rfl

/-- `BitVec::xor_assign`; asserts equal lengths. -/
def xorAssign (v w : BitVector) : Outcome ε BitVector :=
  if h : v.len = w.len then .ok (v.xor w h) else Outcome.panic

/-- `BitVec::as_bytes`: the canonical encoding. -/
def asBytes (v : BitVector) : List U8 := v.bytes

/-- `from_bytes` accepts exactly the canonical encodings. -/
theorem fromBytes_eq_some {bytes : List U8} {len : Nat} {v : BitVector} :
    fromBytes bytes len = some v ↔ v.len = len ∧ v.asBytes = bytes := by
  rw [fromBytes]
  constructor
  · intro h
    split at h
    · split at h
      · next hmask =>
          obtain rfl := Option.some.inj h
          exact ⟨rfl, hmask⟩
      · cases h
    · cases h
  · rintro ⟨rfl, rfl⟩
    rw [dif_pos (by exact v.length_bytes)]
    -- the padding of a vector is zero, so masking its tail changes nothing
    have hmask : maskTail v.len v.asBytes = v.asBytes := by
      apply ext_leBit (length_maskTail _ _)
      intro t
      rw [leBit_maskTail (by exact v.length_bytes)]
      rcases Nat.lt_or_ge t v.len with ht | ht
      · simp [ht]
      · simp [asBytes, v.padding_zero t ht]
    rw [if_pos hmask]
    congr 1
    refine BitVector.ext (by rfl) fun t _ => ?_
    exact congrArg (leBit · t) hmask

/-- `BitVec::word64`: bits `[64w, 64w + 64)`, zero-padded past the end. -/
def word64 (v : BitVector) (w : Nat) : U64 :=
  BitVec.ofNat 64 (ofLeBytes ((v.bytes.drop (w * 8)).take 8))

/-! ## Bits of the operations -/

@[simp] theorem zero_len (len : Nat) : (zero len).len = len := rfl

@[simp] theorem bit_zero (len t : Nat) : (zero len).bit t = false := by
  simp only [bit, zero, leBit, List.getD_eq_getElem?_getD, List.getElem?_replicate]
  split <;> simp

@[simp] theorem xor_len (v w : BitVector) (h : v.len = w.len) : (v.xor w h).len = v.len := rfl

@[simp] theorem bit_xor (v w : BitVector) (h : v.len = w.len) (t : Nat) :
    (v.xor w h).bit t = (v.bit t ^^ w.bit t) :=
  leBit_zipWith_xor (by rw [v.length_bytes, w.length_bytes, h]) t

theorem xorAssign_of_len {v w : BitVector} (h : v.len = w.len) :
    (v.xorAssign w : Outcome ε BitVector) = .ok (v.xor w h) := by
  rw [xorAssign, dif_pos h]

theorem get_of_lt {v : BitVector} {t : Nat} (h : t < v.len) :
    (v.get t : Outcome ε Bool) = .ok (v.bit t) := by
  simp [get, h, pure, Except.pure]

@[simp] theorem fromXof_len (reader : XofReader) (len : Nat) : (fromXof reader len).len = len := rfl

/-- A successful `set` changes one bit. -/
theorem set_of_lt (ε : Type) (v : BitVector) {t : Nat} (b : Bool) (ht : t < v.len) :
    ∃ w : BitVector, (v.set t b : Outcome ε BitVector) = .ok w ∧ w.len = v.len ∧
      ∀ s, w.bit s = if s = t then b else v.bit s := by
  rw [set, dif_pos ht]
  exact ⟨_, rfl, rfl, leBit_setBytes v b ht⟩

theorem getLsbD_word64 (v : BitVector) (w : Nat) {i : Nat} (hi : i < 64) :
    (v.word64 w).getLsbD i = v.bit (64 * w + i) := by
  have hd : (64 * w + i) / 8 = w * 8 + i / 8 := by omega
  have hm : (64 * w + i) % 8 = i % 8 := by omega
  rw [word64, BitVec.getLsbD_ofNat, testBit_ofLeBytes]
  simp only [hi, decide_true, Bool.true_and, leBit, bit, hd, hm, List.getD_eq_getElem?_getD,
    List.getElem?_take, List.getElem?_drop]
  rw [if_pos (by omega)]

/-- The vector with given bits. -/
def ofFn (len : Nat) (f : Nat → Bool) : BitVector :=
  ofBytesMasked len
    ((List.range ((len + 7) / 8)).map fun i =>
      BitVec.ofFnLE fun j : Fin 8 => f (8 * i + j)) (by simp)

@[simp] theorem ofFn_len (len : Nat) (f : Nat → Bool) : (ofFn len f).len = len := rfl

theorem bit_ofFn {len : Nat} (f : Nat → Bool) {t : Nat} (ht : t < len) :
    (ofFn len f).bit t = f t := by
  rw [bit, ofFn, ofBytesMasked, leBit_maskTail (by simp)]
  have hlt : t / 8 < (len + 7) / 8 := by omega
  have hsplit : 8 * (t / 8) + t % 8 = t := by omega
  simp [ht, leBit, hlt, hsplit, Nat.mod_lt t (show 0 < 8 by decide)]

end BitVector

end VoleAct.Voleith
