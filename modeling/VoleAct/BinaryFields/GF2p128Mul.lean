/-
  VoleAct.BinaryFields.GF2p128Mul

  The multiplication paths of the tag field: the portable loop and the two
  Karatsuba paths over carry-less multiply instructions.

  Each is compared with the product of polynomials modulo the field polynomial, in
  the quotient ring, where `x^128` is the low part of the modulus.
-/
import VoleAct.BinaryFields.GF2p128Field
import VoleAct.Lib.BinaryPoly

namespace VoleAct.BinaryFields

open Polynomial VoleAct.Lib

namespace GF2p128

/-! ## The fast paths -/

/-- Reduce a 256-bit carry-less product; multiplying by `0x87` overflows by at most seven bits,
    which are folded once more. -/
def reduceProduct (low high : U128) : U128 :=
  let folded := high ^^^ (high <<< 1) ^^^ (high <<< 2) ^^^ (high <<< 7)
  let overflow := (high >>> 127) ^^^ (high >>> 126) ^^^ (high >>> 121)
  let foldedOverflow := overflow ^^^ (overflow <<< 1) ^^^ (overflow <<< 2) ^^^ (overflow <<< 7)
  low ^^^ folded ^^^ foldedOverflow

def reduceKaratsuba (p0 p1 middle : U128) : U128 :=
  let low := (p0.setWidth 64).setWidth 128 |||
    (((p0 >>> 64) ^^^ (middle.setWidth 64).setWidth 128) <<< 64)
  let high := ((middle >>> 64) ^^^ (p1.setWidth 64).setWidth 128) ||| ((p1 >>> 64) <<< 64)
  reduceProduct low high

/-- `vmull_p64`: the carry-less product of two words. -/
def vmullP64 (a b : U64) : U128 := clmul 128 a b

/-- Three PMULL instructions with Karatsuba. -/
def mulPmull (a b : U128) : U128 :=
  let a0 := a.setWidth 64
  let a1 := (a >>> 64).setWidth 64
  let b0 := b.setWidth 64
  let b1 := (b >>> 64).setWidth 64
  let p0 := vmullP64 a0 b0
  let p1 := vmullP64 a1 b1
  let middle := vmullP64 (a0 ^^^ a1) (b0 ^^^ b1) ^^^ p0 ^^^ p1
  reduceKaratsuba p0 p1 middle

/-- Lane `0` or `1` of a 128-bit register. -/
def lane64 (v : U128) (upper : Bool) : U64 := if upper then (v >>> 64).setWidth 64 else v.setWidth 64

/-- `_mm_clmulepi64_si128`: bits 0 and 4 of the immediate select the lanes. -/
def mmClmulepi64Si128 (imm : U8) (a b : U128) : U128 :=
  clmul 128 (lane64 a (imm.getLsbD 0)) (lane64 b (imm.getLsbD 4))

/-- Three PCLMULQDQ instructions with Karatsuba. -/
def mulPclmul (a b : U128) : U128 :=
  let p0 := mmClmulepi64Si128 0x00#8 a b
  let p1 := mmClmulepi64Si128 0x11#8 a b
  let ax := a.setWidth 64 ^^^ (a >>> 64).setWidth 64
  let bx := b.setWidth 64 ^^^ (b >>> 64).setWidth 64
  let middleProduct := mmClmulepi64Si128 0x00#8 (ax.setWidth 128) (bx.setWidth 128)
  let middle := middleProduct ^^^ p0 ^^^ p1
  reduceKaratsuba p0 p1 middle

/-! ## The quotient ring -/

/-- The field polynomial. -/
noncomputable def modulus : (ZMod 2)[X] :=
  Polynomial.X ^ 128 + Polynomial.X ^ 7 + Polynomial.X ^ 2 + Polynomial.X + 1

theorem modulus_eq : modulus =
    Polynomial.X ^ 128 + Polynomial.X ^ 7 + Polynomial.X ^ 2 + Polynomial.X + 1 := by
  unfold modulus
  rfl

theorem natDegree_modulus : modulus.natDegree = 128 := by
  unfold modulus
  compute_degree!

theorem monic_modulus : modulus.Monic := by
  unfold modulus
  monicity!

/-- The class of a word. -/
noncomputable def residue (v : U128) : AdjoinRoot modulus := AdjoinRoot.mk modulus (bitPoly v)

theorem mk_bitPoly (v : U128) : AdjoinRoot.mk modulus (bitPoly v) = residue v := rfl

@[simp] theorem residue_zero : residue 0#128 = 0 := by rw [residue, bitPoly_zero, map_zero]

@[simp] theorem residue_one : residue 1#128 = 1 := by
  rw [residue, bitPoly_one (by decide), map_one]

theorem residue_xor (a b : U128) : residue (a ^^^ b) = residue a + residue b := by
  rw [residue, bitPoly_xor, map_add]
  rfl

theorem two_eq_zero : (2 : AdjoinRoot modulus) = 0 := by
  have htwo : (2 : (ZMod 2)[X]) = 0 := CharTwo.two_eq_zero
  have h := congrArg (AdjoinRoot.mk modulus) htwo
  rwa [map_ofNat, map_zero] at h

theorem root_pow_128 : AdjoinRoot.root modulus ^ 128 =
    AdjoinRoot.root modulus ^ 7 + AdjoinRoot.root modulus ^ 2 + AdjoinRoot.root modulus + 1 := by
  have h := congrArg (AdjoinRoot.mk modulus) modulus_eq
  rw [AdjoinRoot.mk_self] at h
  simp only [map_add, map_pow, map_one, AdjoinRoot.mk_X] at h
  linear_combination -h - (AdjoinRoot.root modulus ^ 7 + AdjoinRoot.root modulus ^ 2 +
    AdjoinRoot.root modulus + 1) * two_eq_zero

theorem residue_polyLow : residue polyLow = AdjoinRoot.root modulus ^ 128 := by
  have hshift {k : ℕ} (hk : k ≤ 127) : bitPoly (1#128 <<< k) = Polynomial.X ^ k := by
    rw [bitPoly_shiftLeft_of_lt (by omega), bitPoly_one (by decide), mul_one]
    intro i hi
    rw [BitVec.getLsbD_one, decide_eq_false (show ¬ i = 0 by omega), Bool.and_false]
  have hsplit : polyLow = (1#128 <<< 7) ^^^ (1#128 <<< 2) ^^^ (1#128 <<< 1) ^^^ (1#128 <<< 0) := by
    decide
  rw [residue, hsplit, bitPoly_xor, bitPoly_xor, bitPoly_xor, hshift (by decide), hshift (by decide),
    hshift (by decide), hshift (by decide), root_pow_128]
  simp only [map_add, map_pow, AdjoinRoot.mk_X, pow_one, pow_zero, map_one]

/-- The class of a shifted word, up to the bits shifted out. -/
theorem residue_shiftLeft (v : U128) {k : ℕ} (hk : k ≤ 128) : residue (v <<< k) =
    AdjoinRoot.root modulus ^ k * residue v +
      AdjoinRoot.root modulus ^ 128 * residue (v >>> (128 - k)) := by
  have h := congrArg (AdjoinRoot.mk modulus) (bitPoly_shiftLeft v hk)
  simp only [map_add, map_mul, map_pow, AdjoinRoot.mk_X, mk_bitPoly] at h
  linear_combination -h -
    AdjoinRoot.root modulus ^ 128 * residue (v >>> (128 - k)) * two_eq_zero

/-! ## The portable loop -/

theorem residue_mulX (v : U128) : residue (mulX v) = AdjoinRoot.root modulus * residue v := by
  -- the bit shifted out decides whether the low part of the modulus is added
  have htop : v >>> 127 = if v.getLsbD 127 then 1#128 else 0#128 := by
    apply BitVec.eq_of_getLsbD_eq
    intro i hi
    rw [BitVec.getLsbD_ushiftRight]
    rcases Nat.eq_zero_or_pos i with rfl | hpos
    · cases v.getLsbD 127 <;> rfl
    · rw [BitVec.getLsbD_of_ge v _ (by omega)]
      cases v.getLsbD 127
      · simp
      · simp
        omega
  rw [mulX_eq, residue_xor, residue_shiftLeft v (by decide), htop, pow_one]
  cases v.getLsbD 127 with
  | false =>
      rw [if_neg Bool.false_ne_true, if_neg Bool.false_ne_true, residue_zero, mul_zero, add_zero,
        add_zero]
  | true =>
      rw [if_pos rfl, if_pos rfl, residue_one, residue_polyLow]
      linear_combination AdjoinRoot.root modulus ^ 128 * two_eq_zero

theorem residue_timesX_pow (a : GF2p128) (i : ℕ) :
    residue ((timesX ^ i) a).toU128 = AdjoinRoot.root modulus ^ i * residue a.toU128 := by
  induction i with
  | zero => rw [pow_zero, pow_zero, one_mul]; rfl
  | succ i ih =>
      rw [pow_succ', pow_succ', mul_assoc, ← ih]
      exact residue_mulX _

/-- The portable loop multiplies classes. -/
theorem residue_mulPortable (a b : U128) : residue (mulPortable a b) = residue a * residue b := by
  have hsum (f : ℕ → GF2p128) (n : ℕ) : residue (∑ i ∈ Finset.range n, f i).toU128 =
      ∑ i ∈ Finset.range n, residue (f i).toU128 := by
    induction n with
    | zero => exact residue_zero
    | succ n ih =>
        rw [Finset.sum_range_succ, Finset.sum_range_succ, ← ih]
        exact residue_xor _ _
  -- the second factor, as the powers its bits select
  have hb : residue b = ∑ i ∈ Finset.range 128,
      if b.getLsbD i then AdjoinRoot.root modulus ^ i else 0 := by
    rw [residue, bitPoly, map_sum]
    apply Finset.sum_congr rfl
    intro i _
    cases b.getLsbD i <;> simp
  have hmul : mulPortable a b = ((⟨a⟩ : GF2p128) * ⟨b⟩).toU128 := rfl
  rw [hmul, mul_eq_act, act_apply, hsum, hb, Finset.mul_sum]
  apply Finset.sum_congr rfl
  intro i _
  show residue (if b.getLsbD i then _ else _ : GF2p128).toU128 = _
  cases b.getLsbD i with
  | false =>
      rw [if_neg Bool.false_ne_true, if_neg Bool.false_ne_true, mul_zero]
      exact residue_zero
  | true => rw [if_pos rfl, if_pos rfl, residue_timesX_pow, mul_comm]

/-! ## The Karatsuba paths -/

theorem residue_reduceProduct (low high : U128) : residue (reduceProduct low high) =
    residue low + AdjoinRoot.root modulus ^ 128 * residue high := by
  -- seven bits of overflow leave room for another shift by seven
  have hoverflow : ∀ i, 121 ≤ i →
      ((high >>> 127) ^^^ (high >>> 126) ^^^ (high >>> 121)).getLsbD i = false := by
    intro i hi
    simp only [BitVec.getLsbD_xor, BitVec.getLsbD_ushiftRight]
    rw [BitVec.getLsbD_of_ge _ _ (by omega), BitVec.getLsbD_of_ge _ _ (by omega),
      BitVec.getLsbD_of_ge _ _ (by omega)]
    rfl
  have hfold {k : ℕ} (hk : k ≤ 7) (v : U128) (hv : ∀ i, 121 ≤ i → v.getLsbD i = false) :
      residue (v <<< k) = AdjoinRoot.root modulus ^ k * residue v := by
    rw [residue, bitPoly_shiftLeft_of_lt (by omega) fun i hi => hv i (by omega)]
    simp only [map_mul, map_pow, AdjoinRoot.mk_X]
    rfl
  simp only [reduceProduct, residue_xor, hfold (show 1 ≤ 7 by decide) _ hoverflow,
    hfold (show 2 ≤ 7 by decide) _ hoverflow, hfold le_rfl _ hoverflow,
    residue_shiftLeft high (show 1 ≤ 128 by decide), residue_shiftLeft high (show 2 ≤ 128 by decide),
    residue_shiftLeft high (show 7 ≤ 128 by decide), Nat.reduceSub, root_pow_128]
  linear_combination (AdjoinRoot.root modulus ^ 7 + AdjoinRoot.root modulus ^ 2 +
    AdjoinRoot.root modulus + 1) * (residue (high >>> 127) + residue (high >>> 126) +
      residue (high >>> 121)) * two_eq_zero

/-- The three products of Karatsuba, as one 256-bit polynomial. -/
theorem residue_reduceKaratsuba (p0 p1 middle : U128) : residue (reduceKaratsuba p0 p1 middle) =
    AdjoinRoot.mk modulus
      (bitPoly p0 + Polynomial.X ^ 64 * bitPoly middle + Polynomial.X ^ 128 * bitPoly p1) := by
  have hnarrow (v : U128) : ∀ i, 64 ≤ i → ((v.setWidth 64).setWidth 128).getLsbD i = false := by
    intro i hi
    rw [BitVec.getLsbD_setWidth, BitVec.getLsbD_of_ge _ _ hi, Bool.and_false]
  have hhigh (v : U128) : ∀ i, 64 ≤ i → (v >>> 64).getLsbD i = false := by
    intro i hi
    rw [BitVec.getLsbD_ushiftRight, BitVec.getLsbD_of_ge _ _ (by omega)]
  -- a low half and a shifted high half occupy different bits
  have hjoin (lo hi : U128) (hlo : ∀ i, 64 ≤ i → lo.getLsbD i = false)
      (hhi : ∀ i, 64 ≤ i → hi.getLsbD i = false) :
      bitPoly (lo ||| (hi <<< 64)) = bitPoly lo + Polynomial.X ^ 64 * bitPoly hi := by
    rw [bitPoly_or, bitPoly_shiftLeft_of_lt (by decide) hhi]
    intro i hi'
    have hlt : i < 64 := by
      by_contra hge
      rw [hlo i (by omega)] at hi'
      exact Bool.false_ne_true hi'
    rw [BitVec.getLsbD_shiftLeft, decide_eq_true hlt, Bool.not_true, Bool.and_false, Bool.false_and]
  have hxor (a b : U128) (ha : ∀ i, 64 ≤ i → a.getLsbD i = false)
      (hb : ∀ i, 64 ≤ i → b.getLsbD i = false) : ∀ i, 64 ≤ i → (a ^^^ b).getLsbD i = false := by
    intro i hi
    rw [BitVec.getLsbD_xor, ha i hi, hb i hi]
    rfl
  have hwide (v : U64) : bitPoly (v.setWidth 128) = bitPoly v := bitPoly_setWidth v (by decide)
  rw [reduceKaratsuba, residue_reduceProduct, residue, residue,
    hjoin _ _ (hnarrow p0) (hxor _ _ (hhigh p0) (hnarrow middle)),
    hjoin _ _ (hxor _ _ (hhigh middle) (hnarrow p1)) (hhigh p1), bitPoly_xor, bitPoly_xor,
    hwide, hwide, hwide, bitPoly_split p0 64, bitPoly_split p1 64, bitPoly_split middle 64]
  simp only [map_add, map_mul, map_pow, AdjoinRoot.mk_X]
  ring

theorem bitPoly_halves (v : U128) :
    bitPoly v = bitPoly (v.setWidth 64) + Polynomial.X ^ 64 * bitPoly ((v >>> 64).setWidth 64) := by
  have hzero : v >>> 64 >>> 64 = 0#128 := by
    apply BitVec.eq_of_getLsbD_eq
    intro i _
    rw [BitVec.getLsbD_ushiftRight, BitVec.getLsbD_ushiftRight, BitVec.getLsbD_of_ge _ _ (by omega),
      BitVec.getLsbD_zero]
  have hhigh := bitPoly_split (v >>> 64) 64
  rw [hzero, bitPoly_zero, mul_zero, add_zero] at hhigh
  rw [bitPoly_split v 64, hhigh]

/-- Three half-size products give the class of the whole product. -/
theorem residue_karatsuba (a b : U128) :
    residue (reduceKaratsuba (clmul 128 (a.setWidth 64) (b.setWidth 64))
      (clmul 128 ((a >>> 64).setWidth 64) ((b >>> 64).setWidth 64))
      (clmul 128 (a.setWidth 64 ^^^ (a >>> 64).setWidth 64)
          (b.setWidth 64 ^^^ (b >>> 64).setWidth 64) ^^^
        clmul 128 (a.setWidth 64) (b.setWidth 64) ^^^
        clmul 128 ((a >>> 64).setWidth 64) ((b >>> 64).setWidth 64))) =
      AdjoinRoot.mk modulus (bitPoly a * bitPoly b) := by
  rw [residue_reduceKaratsuba, bitPoly_xor, bitPoly_xor]
  simp only [bitPoly_clmul (show 64 + 64 ≤ 128 by decide), bitPoly_xor]
  rw [bitPoly_halves a, bitPoly_halves b]
  congr 1
  -- the outer products occur twice in the middle, and cancel
  have htwo : (2 : (ZMod 2)[X]) = 0 := CharTwo.two_eq_zero
  linear_combination (Polynomial.X ^ 64 * (bitPoly (a.setWidth 64) * bitPoly (b.setWidth 64) +
    bitPoly ((a >>> 64).setWidth 64) * bitPoly ((b >>> 64).setWidth 64))) * htwo

theorem mulPclmul_eq_mulPmull (a b : U128) : mulPclmul a b = mulPmull a b := by
  have hlane (v : U64) : lane64 (v.setWidth 128) false = v := by
    rw [lane64, if_neg Bool.false_ne_true, BitVec.setWidth_setWidth_of_le _ (by decide),
      BitVec.setWidth_eq]
  -- the immediates select both lower lanes, or both upper ones
  have h0 : (0x00#8).getLsbD 0 = false ∧ (0x00#8).getLsbD 4 = false := by decide
  have h1 : (0x11#8).getLsbD 0 = true ∧ (0x11#8).getLsbD 4 = true := by decide
  simp only [mulPclmul, mulPmull, mmClmulepi64Si128, h0, h1, hlane]
  rfl

theorem bitPoly_mulPortable (a b : U128) :
    bitPoly (mulPortable a b) = (bitPoly a * bitPoly b) %ₘ modulus :=
  bitPoly_eq_modByMonic monic_modulus natDegree_modulus.ge
    ((residue_mulPortable a b).trans (map_mul (AdjoinRoot.mk modulus) _ _).symm)

theorem mulPmull_eq_mulPortable (a b : U128) : mulPmull a b = mulPortable a b :=
  bitPoly_inj ((bitPoly_eq_modByMonic monic_modulus natDegree_modulus.ge (residue_karatsuba a b)).trans
    (bitPoly_mulPortable a b).symm)

/-- The path the host's features select. -/
inductive MulPath where
  | pmull
  | pclmul
  | portable
  deriving DecidableEq

/-- `Mul for GF2p128`. -/
def mulOn (path : MulPath) (a b : GF2p128) : GF2p128 :=
  match path with
  | .pmull => ⟨mulPmull a.toU128 b.toU128⟩
  | .pclmul => ⟨mulPclmul a.toU128 b.toU128⟩
  | .portable => ⟨mulPortable a.toU128 b.toU128⟩

theorem mulOn_eq (path : MulPath) (a b : GF2p128) : mulOn path a b = a * b := by
  have hportable : (⟨mulPortable a.toU128 b.toU128⟩ : GF2p128) = a * b := rfl
  cases path with
  | pmull => rw [mulOn, mulPmull_eq_mulPortable, hportable]
  | pclmul => rw [mulOn, mulPclmul_eq_mulPmull, mulPmull_eq_mulPortable, hportable]
  | portable => exact hportable

/-- The multiplication paths of the tag field agree and make it a field.  The two Karatsuba paths
    return what the portable loop returns, the product of the polynomials modulo `x^128 + x^7 + x^2
    + x + 1`; on every host multiplication is commutative, associative, distributes over exclusive
    or and has unit one, and the power `2^128 - 2` inverts every nonzero element and fixes zero. -/
theorem mul_paths_agree :
    (∀ a b : U128, mulPmull a b = mulPortable a b ∧ mulPclmul a b = mulPortable a b ∧
      bitPoly (mulPortable a b) = (bitPoly a * bitPoly b) %ₘ modulus) ∧
    (∀ (path : MulPath) (a b : GF2p128), mulOn path a b = a * b) ∧
    (∀ a b : GF2p128, a * b = b * a) ∧
    (∀ a b c : GF2p128, a * b * c = a * (b * c)) ∧
    (∀ a b c : GF2p128, a * (b + c) = a * b + a * c) ∧
    (∀ a b : GF2p128, (a + b).toU128 = a.toU128 ^^^ b.toU128) ∧
    (∀ a : GF2p128, a * 1 = a) ∧
    (∀ (a : GF2p128) (e : U128), e.toNat = 2 ^ 128 - 2 → inv a = pow a e) ∧
    (∀ a : GF2p128, a ≠ 0 → a * inv a = 1) ∧
    inv 0 = 0 := by
  refine ⟨fun a b => ⟨mulPmull_eq_mulPortable a b, ?_, bitPoly_mulPortable a b⟩, mulOn_eq, mul_comm,
    mul_assoc, mul_add, fun _ _ => rfl, mul_one, fun a e he => ?_, fun a => mul_inv_cancel, inv_zero⟩
  · rw [mulPclmul_eq_mulPmull, mulPmull_eq_mulPortable]
  · rw [inv_eq, pow_eq, he]

end GF2p128

end VoleAct.BinaryFields
