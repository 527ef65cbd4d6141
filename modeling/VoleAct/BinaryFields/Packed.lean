/-
  VoleAct.BinaryFields.Packed

  Eight-lane packed `GF(16)` arithmetic (`gf16.rs`, module `packed`): one
  element per byte of a 64-bit word.  Every lane of a product word is the
  product of the lanes.
-/
import VoleAct.BinaryFields.GF16
import VoleAct.Lib.LeBytes

namespace VoleAct.BinaryFields.Packed

open VoleAct.Lib

/-- One set bit in each byte lane. -/
def laneLsb : U64 := 0x0101010101010101#64

/-- Reduce per-lane carry-less products of degree at most 6. -/
def reduce (p : U64) : U64 :=
  let hits6 := (p >>> 6) &&& laneLsb
  let p := p ^^^ (hits6 * (0b10011#64 <<< 2))
  let hits5 := (p >>> 5) &&& laneLsb
  let p := p ^^^ (hits5 * (0b10011#64 <<< 1))
  let hits4 := (p >>> 4) &&& laneLsb
  p ^^^ (hits4 * 0b10011#64)

/-- Multiply every lane of `word` by the scalar `s`. -/
def mulScalar8 (word : U64) (s : GF16) : U64 :=
  reduce ((List.range 4).foldl
    (fun p i => p ^^^ ((word <<< i) &&& (0#64 - ((s.toU8 >>> i) &&& 1#8).setWidth 64))) 0#64)

/-- Lane-wise product of two packed words. -/
def mulLanes8 (a b : U64) : U64 :=
  reduce ((List.range 4).foldl
    (fun p i => p ^^^ ((a <<< i) &&& (((b >>> i) &&& laneLsb) * 0xFF#64))) 0#64)

/-- XOR-fold the eight lanes into a single element. -/
def fold8 (w : U64) : GF16 :=
  let w := w ^^^ (w >>> 32)
  let w := w ^^^ (w >>> 16)
  let w := w ^^^ (w >>> 8)
  GF16.new (w.setWidth 8)

/-! ## Lanes -/

/-- Byte lane `c` of a word. -/
def lane (w : U64) (c : Nat) : U8 := (w >>> (8 * c)).setWidth 8

/-- A word all of whose lanes are nibbles. -/
def Canonical (w : U64) : Prop := ∀ c < 8, (lane w c).toNat < 16

theorem getLsbD_lane (w : U64) (c i : Nat) :
    (lane w c).getLsbD i = (decide (i < 8) && w.getLsbD (8 * c + i)) := by
  simp [lane]

@[simp] theorem lane_zero (c : Nat) : lane 0#64 c = 0#8 := by
  simp [lane]

@[simp] theorem lane_xor (a b : U64) (c : Nat) : lane (a ^^^ b) c = lane a c ^^^ lane b c := by
  apply BitVec.eq_of_getLsbD_eq
  intro i hi
  simp only [getLsbD_lane, BitVec.getLsbD_xor, hi, decide_true, Bool.true_and]

@[simp] theorem lane_and (a b : U64) (c : Nat) : lane (a &&& b) c = lane a c &&& lane b c := by
  apply BitVec.eq_of_getLsbD_eq
  intro i hi
  simp only [getLsbD_lane, BitVec.getLsbD_and, hi, decide_true, Bool.true_and]

theorem Canonical.zero : Canonical 0#64 := by
  intro c _
  simp

theorem Canonical.xor {a b : U64} (ha : Canonical a) (hb : Canonical b) : Canonical (a ^^^ b) := by
  intro c hc
  rw [lane_xor, BitVec.toNat_xor]
  exact Nat.xor_lt_two_pow (n := 4) (ha c hc) (hb c hc)

/-- The bits of a nibble from the fourth on are zero. -/
theorem getLsbD_of_lt_16 {b : U8} (h : b.toNat < 16) {i : Nat} (hi : 4 ≤ i) :
    b.getLsbD i = false := by
  have hpow : 2 ^ 4 ≤ 2 ^ i := Nat.pow_le_pow_right (by omega) hi
  rw [← BitVec.testBit_toNat]
  exact Nat.testBit_lt_two_pow (Nat.lt_of_lt_of_le h hpow)

/-- A shift by at most three places does not leave the lanes of a canonical word. -/
theorem lane_shiftLeft {w : U64} (hw : Canonical w) {i c : Nat} (hi : i < 4) (hc : c < 8) :
    lane (w <<< i) c = lane w c <<< i := by
  apply BitVec.eq_of_getLsbD_eq
  intro j hj
  simp only [getLsbD_lane, BitVec.getLsbD_shiftLeft, hj, decide_true, Bool.true_and]
  have hlt : 8 * c + j < 64 := by omega
  by_cases hji : j < i
  · -- the bits shifted in come from the high nibble of the lane below
    simp only [hji, decide_true, Bool.not_true, Bool.false_and, hlt, Bool.true_and]
    by_cases hc0 : c = 0
    · subst hc0
      simp [hji]
    · have hbelow : w.getLsbD (8 * c + j - i) = (lane w (c - 1)).getLsbD (8 + j - i) := by
        rw [getLsbD_lane, show 8 * (c - 1) + (8 + j - i) = 8 * c + j - i by omega]
        simp [show 8 + j - i < 8 by omega]
      rw [hbelow, getLsbD_of_lt_16 (hw (c - 1) (by omega)) (by omega)]
      simp
  · have hsub : 8 * c + j - i = 8 * c + (j - i) := by omega
    simp [hji, hlt, hsub, show ¬ 8 * c + j < i by omega, show j - i < 8 by omega]

/-- Bit `j` of every lane, moved to the lowest place of the lane. -/
theorem lane_hits (p : U64) {j c : Nat} (hj : j < 8) (hc : c < 8) :
    lane ((p >>> j) &&& laneLsb) c = (lane p c >>> j) &&& 1#8 := by
  have hlsb : lane laneLsb c = 1#8 := by
    revert c
    decide
  rw [lane_and, hlsb]
  apply BitVec.eq_of_getLsbD_eq
  intro i hi
  by_cases hi0 : i = 0
  · subst hi0
    simp only [BitVec.getLsbD_and, BitVec.getLsbD_ushiftRight, getLsbD_lane, hj, hi, Nat.add_zero,
      decide_true, Bool.true_and, Nat.add_comm j (8 * c)]
  · simp [hi0]

/-- The word with the given lanes. -/
def pack (bytes : List U8) : U64 := BitVec.ofNat 64 (ofLeBytes bytes)

theorem pack_lanes (w : U64) : pack ((List.range 8).map (lane w)) = w := by
  have hlane (c : Nat) : (lane w c).toNat = w.toNat / 256 ^ c % 256 := by
    rw [lane, BitVec.toNat_setWidth, BitVec.toNat_ushiftRight, Nat.shiftRight_eq_div_pow,
      show (256 : Nat) = 2 ^ 8 from rfl, ← Nat.pow_mul]
  have hw := w.isLt
  apply BitVec.eq_of_toNat_eq
  simp only [pack, show List.range 8 = [0, 1, 2, 3, 4, 5, 6, 7] from rfl, List.map_cons,
    List.map_nil, ofLeBytes_cons, ofLeBytes_nil, hlane, BitVec.toNat_ofNat]
  omega

theorem lane_pack (bytes : List U8) {c : Nat} (hc : c < 8) :
    lane (pack bytes) c = bytes.getD c 0 := by
  apply BitVec.eq_of_getLsbD_eq
  intro i hi
  rw [getLsbD_lane, pack, BitVec.getLsbD_ofNat, testBit_ofLeBytes, leBit]
  simp [hi, show 8 * c + i < 64 by omega, show (8 * c + i) / 8 = c by omega,
    show (8 * c + i) % 8 = i by omega]

/-- Lanes that hold 0 or 1 are multiplied by a byte without carries. -/
theorem lane_mul_byte {h : U64} (hbit : ∀ c < 8, (lane h c).toNat ≤ 1) {k : Nat} (hk : k < 256)
    {c : Nat} (hc : c < 8) :
    lane (h * BitVec.ofNat 64 k) c = lane h c * BitVec.ofNat 8 k := by
  -- byte by byte, no product reaches the next lane
  have hmul (bytes : List U8) (hb : ∀ b ∈ bytes, b.toNat ≤ 1) :
      ofLeBytes (bytes.map (· * BitVec.ofNat 8 k)) = ofLeBytes bytes * k := by
    induction bytes with
    | nil => simp
    | cons b rest ih =>
        have hb1 : b.toNat ≤ 1 := hb b (by simp)
        have hbk : b.toNat * k < 256 := by
          calc b.toNat * k ≤ 1 * k := Nat.mul_le_mul_right k hb1
            _ < 256 := by omega
        have hbyte : (b * BitVec.ofNat 8 k).toNat = b.toNat * k := by
          rw [BitVec.toNat_mul, BitVec.toNat_ofNat, Nat.mod_eq_of_lt (a := k) (by omega),
            Nat.mod_eq_of_lt hbk]
        rw [List.map_cons, ofLeBytes_cons, hbyte, ih fun b hb' => hb b (by simp [hb'])]
        simp only [ofLeBytes_cons]
        ring
  have hpack : h * BitVec.ofNat 64 k =
      pack (((List.range 8).map (lane h)).map (· * BitVec.ofNat 8 k)) := by
    rw [pack, hmul]
    · rw [BitVec.ofNat_mul]
      conv_lhs => rw [← pack_lanes h]
      rfl
    · intro b hb
      obtain ⟨c', hc', rfl⟩ := List.mem_map.mp hb
      exact hbit c' (List.mem_range.mp hc')
  rw [hpack, lane_pack _ hc]
  simp [hc]

/-! ## The reduction and the products, lane by lane -/

/-- One reduction step on a single lane. -/
def reduceLane (p : U8) : U8 :=
  let p := p ^^^ (((p >>> 6) &&& 1#8) * 76#8)
  let p := p ^^^ (((p >>> 5) &&& 1#8) * 38#8)
  p ^^^ (((p >>> 4) &&& 1#8) * 19#8)

theorem toNat_and_one_le (b : U8) : (b &&& 1#8).toNat ≤ 1 := by
  rw [BitVec.toNat_and]
  exact Nat.and_le_right

theorem lane_reduce (p : U64) {c : Nat} (hc : c < 8) : lane (reduce p) c = reduceLane (lane p c) := by
  have hstep (p : U64) (j k : Nat) (hj : j < 8) (hk : k < 256) :
      lane (p ^^^ (((p >>> j) &&& laneLsb) * BitVec.ofNat 64 k)) c =
        lane p c ^^^ (((lane p c >>> j) &&& 1#8) * BitVec.ofNat 8 k) := by
    rw [lane_xor, lane_mul_byte _ hk hc, lane_hits p hj hc]
    intro c' hc'
    rw [lane_hits p hj hc']
    exact toNat_and_one_le _
  unfold reduce reduceLane
  rw [show (0b10011#64 <<< 2) = BitVec.ofNat 64 76 from rfl,
    show (0b10011#64 <<< 1) = BitVec.ofNat 64 38 from rfl]
  dsimp only
  -- from the outermost step inwards: bit 4, then 5, then 6
  rw [hstep _ 4 19 (by omega) (by omega), hstep _ 5 38 (by omega) (by omega),
    hstep p 6 76 (by omega) (by omega)]

/-- The carry-less product of a nibble lane by four selected shifts. -/
def clmulLane (a : U8) (select : Nat → Bool) : U8 :=
  (List.range 4).foldl (fun p i => p ^^^ (if select i then a <<< i else 0#8)) 0#8

/-- The lane formula computes the scalar product. -/
theorem reduceLane_clmulLane : ∀ a b : GF16,
    reduceLane (clmulLane a.toU8 b.toU8.getLsbD) = (a * b).toU8 := by
  simp only [GF16.forall_iff]
  decide

/-- A canonical lane read as a field element. -/
theorem toU8_new {b : U8} (h : b.toNat < 16) : (GF16.new b).toU8 = b :=
  congrArg GF16.toU8 (GF16.new_toU8 ⟨b, h⟩)

/-- Accumulating masked shifts accumulates the lanes. -/
theorem lane_foldl_masked {w : U64} (hw : Canonical w) {mask : Nat → U64} {select : Nat → Bool}
    {c : Nat} (hc : c < 8)
    (hmask : ∀ i < 4, lane (mask i) c = if select i then 0xFF#8 else 0#8) :
    lane ((List.range 4).foldl (fun p i => p ^^^ ((w <<< i) &&& mask i)) 0#64) c =
      clmulLane (lane w c) select := by
  have hterm (i : Nat) (hi : i < 4) :
      lane ((w <<< i) &&& mask i) c = if select i then lane w c <<< i else 0#8 := by
    rw [lane_and, lane_shiftLeft hw hi hc, hmask i hi]
    cases select i
    · simp
    · exact BitVec.and_allOnes
  simp only [clmulLane, show List.range 4 = [0, 1, 2, 3] from rfl, List.foldl_cons, List.foldl_nil,
    lane_xor, lane_zero, hterm 0 (by omega), hterm 1 (by omega), hterm 2 (by omega),
    hterm 3 (by omega)]

/-- Bit `i` of a byte, as the byte the masks are made from. -/
theorem shift_and_one (b : U8) (i : Nat) :
    (b >>> i) &&& 1#8 = if b.getLsbD i then 1#8 else 0#8 := by
  apply BitVec.eq_of_getLsbD_eq
  intro j hj
  by_cases hj0 : j = 0
  · subst hj0
    cases h : b.getLsbD i <;> simp [h]
  · cases b.getLsbD i <;> simp [hj0]

theorem lane_mulScalar8 {w : U64} (hw : Canonical w) (s : GF16) {c : Nat} (hc : c < 8) :
    lane (mulScalar8 w s) c = (GF16.new (lane w c) * s).toU8 := by
  rw [mulScalar8, lane_reduce _ hc, ← reduceLane_clmulLane, toU8_new (hw c hc),
    lane_foldl_masked hw hc]
  intro i _
  rw [shift_and_one]
  have hones : lane (0#64 - 1#64) c = 0xFF#8 := by
    revert c
    decide
  cases s.toU8.getLsbD i
  · simp
  · simpa using hones

theorem lane_mulLanes8 {a b : U64} (ha : Canonical a) (hb : Canonical b) {c : Nat} (hc : c < 8) :
    lane (mulLanes8 a b) c = (GF16.new (lane a c) * GF16.new (lane b c)).toU8 := by
  rw [mulLanes8, lane_reduce _ hc, ← reduceLane_clmulLane, toU8_new (ha c hc), toU8_new (hb c hc),
    lane_foldl_masked ha hc]
  intro i hi
  have hbit (c' : Nat) (hc' : c' < 8) : (lane ((b >>> i) &&& laneLsb) c').toNat ≤ 1 := by
    rw [lane_hits b (by omega) hc']
    exact toNat_and_one_le _
  rw [show (0xFF#64) = BitVec.ofNat 64 255 from rfl, lane_mul_byte hbit (by omega) hc,
    lane_hits b (by omega) hc, shift_and_one]
  cases (lane b c).getLsbD i <;> rfl

theorem mulScalar8_canonical {w : U64} (hw : Canonical w) (s : GF16) :
    Canonical (mulScalar8 w s) := by
  intro c hc
  rw [lane_mulScalar8 hw s hc]
  exact GF16.canonical _

theorem new_xor (a b : U8) : GF16.new (a ^^^ b) = GF16.new a + GF16.new b := by
  apply GF16.ext
  rw [GF16.toU8_add]
  show (a ^^^ b) &&& 0x0F#8 = (a &&& 0x0F#8) ^^^ (b &&& 0x0F#8)
  apply BitVec.eq_of_getLsbD_eq
  intro i _
  simp only [BitVec.getLsbD_and, BitVec.getLsbD_xor, Bool.and_xor_distrib_right]

/-- The fold is the sum of the lanes. -/
theorem fold8_eq (w : U64) : fold8 w = ∑ c ∈ Finset.range 8, GF16.new (lane w c) := by
  have hshift (w : U64) (c j : Nat) : lane (w >>> (8 * j)) c = lane w (c + j) := by
    apply BitVec.eq_of_getLsbD_eq
    intro i hi
    simp only [getLsbD_lane, BitVec.getLsbD_ushiftRight, hi, decide_true, Bool.true_and]
    rw [show 8 * j + (8 * c + i) = 8 * (c + j) + i by ring]
  have hlow (w : U64) : w.setWidth 8 = lane w 0 := by simp [lane]
  have h32 (w : U64) (c : Nat) : lane (w >>> 32) c = lane w (c + 4) := hshift w c 4
  have h16 (w : U64) (c : Nat) : lane (w >>> 16) c = lane w (c + 2) := hshift w c 2
  have h8 (w : U64) (c : Nat) : lane (w >>> 8) c = lane w (c + 1) := hshift w c 1
  -- after the three halvings lane 0 is the sum of all eight
  simp only [fold8, hlow, lane_xor, h32, h16, h8, new_xor, Finset.sum_range_succ,
    Finset.sum_range_zero]
  ring

end VoleAct.BinaryFields.Packed
