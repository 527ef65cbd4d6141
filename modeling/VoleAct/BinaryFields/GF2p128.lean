/-
  VoleAct.BinaryFields.GF2p128

  `GF(2^128) = F_2[x] / (x^128 + x^7 + x^2 + x + 1)`, the VOLE tag field
  (`binary-fields/src/gf2p128.rs`).

  The element `Σ a_i x^i` is the word with bit `i` holding `a_i`.  Multiplication
  is the portable loop; it is read as the polynomial in the endomorphism
  "multiply by `x`" whose coefficients are the bits of the second factor, and
  the ring laws follow because such polynomials commute and act transitively
  on `1`.
-/
import VoleAct.Basics
import VoleAct.Lib.FrobeniusField
import VoleAct.Lib.LeBytes

namespace VoleAct.BinaryFields

/-- An element of the tag field, as its canonical `u128` representation. -/
@[ext]
structure GF2p128 where
  toU128 : U128
  deriving DecidableEq, Repr

namespace GF2p128

/-- Low bits of the reduction polynomial: `x^7 + x^2 + x + 1`. -/
def polyLow : U128 := 0x87#128

/-- Multiply by `x` (a single reduction step). -/
def mulX (v : U128) : U128 :=
  let carry := 0#128 - (v >>> 127)
  (v <<< 1) ^^^ (carry &&& polyLow)

/-- The loop of `mulPortable`: `fuel` iterations from bit `i` on. -/
def mulPortableLoop (b : U128) : (fuel i : Nat) → (acc shifted : U128) → U128
  | 0, _, acc, _ => acc
  | fuel + 1, i, acc, shifted =>
      let mask := 0#128 - ((b >>> i) &&& 1#128)
      mulPortableLoop b fuel (i + 1) (acc ^^^ (shifted &&& mask)) (mulX shifted)

/-- Portable multiplication: 128 shift-and-add steps. -/
@[irreducible] def mulPortable (a b : U128) : U128 := mulPortableLoop b 128 0 0#128 a

/-- `to_bytes`: little-endian. -/
def toBytes (a : GF2p128) : Bytes 16 := ⟨(Lib.leBytes 16 a.toU128.toNat).toArray, by simp⟩

/-- `from_bytes`: little-endian. -/
def fromBytes (bytes : Bytes 16) : GF2p128 := ⟨BitVec.ofNat 128 (Lib.ofLeBytes bytes.toList)⟩

theorem fromBytes_toBytes (a : GF2p128) : fromBytes a.toBytes = a := by
  show (⟨BitVec.ofNat 128 (Lib.ofLeBytes (Lib.leBytes 16 a.toU128.toNat))⟩ : GF2p128) = a
  rw [Lib.ofLeBytes_leBytes (by exact a.toU128.isLt), BitVec.ofNat_toNat, BitVec.setWidth_eq]

theorem toBytes_fromBytes (bytes : Bytes 16) : (fromBytes bytes).toBytes = bytes := by
  have hlen : bytes.toList.length = 16 := by simp
  have hlt : Lib.ofLeBytes bytes.toList < 2 ^ 128 := by
    have h := Lib.ofLeBytes_lt bytes.toList
    rw [hlen] at h
    exact h
  apply Vector.toList_inj.mp
  show Lib.leBytes 16 (BitVec.ofNat 128 (Lib.ofLeBytes bytes.toList)).toNat = _
  rw [BitVec.toNat_ofNat, Nat.mod_eq_of_lt hlt]
  have h := Lib.leBytes_ofLeBytes bytes.toList
  rwa [hlen] at h

instance : Zero GF2p128 := ⟨⟨0#128⟩⟩
instance : One GF2p128 := ⟨⟨1#128⟩⟩
instance : Add GF2p128 := ⟨fun a b => ⟨a.toU128 ^^^ b.toU128⟩⟩
instance : Sub GF2p128 := ⟨fun a b => a + b⟩
instance : Neg GF2p128 := ⟨fun a => a⟩
instance : Mul GF2p128 := ⟨fun a b => ⟨mulPortable a.toU128 b.toU128⟩⟩

/-- `BinaryField::square`. -/
def square (a : GF2p128) : GF2p128 := a * a

/-- The loop of `BinaryField::pow`; the exponent halves until it is zero. -/
def powLoop : (fuel : Nat) → (e : Nat) → (acc base : GF2p128) → GF2p128
  | 0, _, acc, _ => acc
  | fuel + 1, e, acc, base =>
      if e = 0 then acc
      else powLoop fuel (e / 2) (if e % 2 = 1 then acc * base else acc) (square base)

/-- `BinaryField::pow`: square-and-multiply over a `u128` exponent. -/
def pow (a : GF2p128) (e : U128) : GF2p128 := powLoop 128 e.toNat 1 a

/-- Inverse via Fermat, `a^(2^128 - 2)`, with `inv(0) = 0`. -/
@[irreducible] def inv (a : GF2p128) : GF2p128 := pow a (BitVec.allOnes 128 - 1#128)

/-! ## Addition is xor -/

/-- Bit `i` of the representation, the coefficient of `x^i`. -/
def bit (a : GF2p128) (i : Nat) : Bool := a.toU128.getLsbD i

theorem ext_bit {a b : GF2p128} (h : ∀ i < 128, a.bit i = b.bit i) : a = b := by
  apply GF2p128.ext
  exact BitVec.eq_of_getLsbD_eq h

@[simp] theorem bit_zero (i : Nat) : (0 : GF2p128).bit i = false := by
  show (0#128).getLsbD i = false
  simp

@[simp] theorem bit_add (a b : GF2p128) (i : Nat) : (a + b).bit i = (a.bit i ^^ b.bit i) := by
  show (a.toU128 ^^^ b.toU128).getLsbD i = _
  simp [bit]

instance : AddCommGroup GF2p128 where
  add_assoc a b c := ext_bit fun i _ => by simp
  zero_add a := ext_bit fun i _ => by simp
  add_zero a := ext_bit fun i _ => by simp
  neg_add_cancel a := ext_bit fun i _ => by
    show (a + a).bit i = _
    simp
  add_comm a b := ext_bit fun i _ => by simp [Bool.xor_comm]
  sub_eq_add_neg a b := rfl
  nsmul := nsmulRec
  zsmul := zsmulRec

theorem add_self (a : GF2p128) : a + a = 0 := ext_bit fun i _ => by simp

/-- The element of a bit: `1` when it is set. -/
def ofBool (b : Bool) : GF2p128 := if b then 1 else 0

@[simp] theorem ofBool_true : ofBool true = 1 := rfl

@[simp] theorem ofBool_false : ofBool false = 0 := rfl

/-- The element with given bits. -/
def ofBits (f : Nat → Bool) : GF2p128 := ⟨BitVec.ofFnLE fun i : Fin 128 => f i⟩

theorem bit_ofBits (f : Nat → Bool) {i : Nat} (hi : i < 128) : (ofBits f).bit i = f i := by
  rw [bit, ofBits, BitVec.getLsbD_eq_getElem hi, BitVec.getElem_ofFnLE]

/-! ## Multiplication by `x` -/

/-- The all-or-nothing mask of a one-bit word. -/
theorem neg_bit_eq_mask (v : U128) (i : Nat) :
    0#128 - ((v >>> i) &&& 1#128) = if v.getLsbD i then BitVec.allOnes 128 else 0#128 := by
  have h : (v >>> i) &&& 1#128 = if v.getLsbD i then 1#128 else 0#128 := by
    rw [BitVec.and_one_eq_setWidth_ofBool_getLsbD, BitVec.getLsbD_ushiftRight, Nat.add_zero]
    cases v.getLsbD i <;> rfl
  rw [h]
  cases v.getLsbD i <;> rfl

theorem mulX_eq (v : U128) :
    mulX v = (v <<< 1) ^^^ (if v.getLsbD 127 then polyLow else 0#128) := by
  have h : v >>> 127 = (v >>> 127) &&& 1#128 := by
    apply BitVec.eq_of_getLsbD_eq
    intro i hi
    rcases Nat.eq_zero_or_pos i with rfl | hpos
    · simp
    · simp only [BitVec.getLsbD_and, BitVec.getLsbD_ushiftRight]
      rw [BitVec.getLsbD_of_ge v (127 + i) (by omega)]
      simp
  rw [mulX, h, neg_bit_eq_mask]
  cases v.getLsbD 127 <;> simp [polyLow]

/-- Multiplication by `x` as an additive endomorphism. -/
def timesX : AddMonoid.End GF2p128 where
  toFun a := ⟨mulX a.toU128⟩
  map_zero' := rfl
  map_add' a b := by
    apply GF2p128.ext
    show mulX (a.toU128 ^^^ b.toU128) = mulX a.toU128 ^^^ mulX b.toU128
    have hmask : ∀ p q : Bool, (if p ^^ q then polyLow else 0#128) =
        (if p then polyLow else 0#128) ^^^ (if q then polyLow else 0#128) := by decide
    rw [mulX_eq, mulX_eq, mulX_eq, BitVec.shiftLeft_xor_distrib, BitVec.getLsbD_xor, hmask]
    ac_rfl

/-- Below the top bit, multiplying by `x` is a shift. -/
theorem timesX_pow_one {i : Nat} (hi : i < 128) :
    (timesX ^ i) (1 : GF2p128) = ⟨1#128 <<< i⟩ := by
  induction i with
  | zero => rfl
  | succ i ih =>
      rw [pow_succ']
      show timesX ((timesX ^ i) 1) = _
      rw [ih (by omega)]
      apply GF2p128.ext
      show mulX (1#128 <<< i) = 1#128 <<< (i + 1)
      -- nothing is shifted out yet, so nothing is reduced
      have htop : (1#128 <<< i).getLsbD 127 = false := by
        rw [← BitVec.twoPow_eq, BitVec.getLsbD_twoPow]
        simp; omega
      rw [mulX_eq, htop, BitVec.shiftLeft_add]
      simp

/-! ## Multiplication as a polynomial in `timesX` -/

theorem end_sum_apply {G ι : Type*} [AddCommGroup G] (s : Finset ι) (f : ι → AddMonoid.End G)
    (a : G) : (∑ i ∈ s, f i) a = ∑ i ∈ s, f i a := by
  classical
  induction s using Finset.induction_on with
  | empty => rfl
  | insert i s hi ih =>
      rw [Finset.sum_insert hi, Finset.sum_insert hi, ← ih]
      rfl

theorem end_commute_apply {G : Type*} [AddCommGroup G] {f g : AddMonoid.End G}
    (h : Commute f g) (a : G) : f (g a) = g (f a) :=
  DFunLike.congr_fun h.eq a

/-- The endomorphism `Σ b_i X^i`. -/
def act (b : GF2p128) : AddMonoid.End GF2p128 :=
  ∑ i ∈ Finset.range 128, if b.bit i then timesX ^ i else 0

theorem act_apply (b a : GF2p128) :
    act b a = ∑ i ∈ Finset.range 128, if b.bit i then (timesX ^ i) a else 0 := by
  rw [act, end_sum_apply]
  exact Finset.sum_congr rfl fun i _ => by split <;> rfl

theorem mulPortableLoop_eq (b acc shifted : GF2p128) (fuel i : Nat) :
    (⟨mulPortableLoop b.toU128 fuel i acc.toU128 shifted.toU128⟩ : GF2p128) =
      acc + ∑ j ∈ Finset.range fuel, if b.bit (i + j) then (timesX ^ j) shifted else 0 := by
  induction fuel generalizing i acc shifted with
  | zero => simp [mulPortableLoop]
  | succ fuel ih =>
      -- one turn adds what bit `i` selects and moves on to the next power
      have hstep : mulPortableLoop b.toU128 (fuel + 1) i acc.toU128 shifted.toU128 =
          mulPortableLoop b.toU128 fuel (i + 1)
            (acc + if b.bit i then shifted else 0).toU128 (timesX shifted).toU128 := by
        rw [mulPortableLoop, neg_bit_eq_mask]
        congr 1
        show acc.toU128 ^^^ (shifted.toU128 &&& if b.bit i then _ else _) = _ ^^^ _
        cases b.bit i
        · simp only [Bool.false_eq_true, if_false, BitVec.and_zero]; rfl
        · simp only [if_true, BitVec.and_allOnes]
      rw [hstep, ih, Finset.sum_range_succ', add_assoc]
      congr 1
      rw [add_comm, Nat.add_zero, pow_zero]
      congr 1
      apply Finset.sum_congr rfl
      intro j _
      rw [show i + 1 + j = i + (j + 1) by omega, pow_succ]
      rfl

theorem mul_eq_act (a b : GF2p128) : a * b = act b a := by
  have hdef : a * b = ⟨mulPortableLoop b.toU128 128 0 (0 : GF2p128).toU128 a.toU128⟩ := by
    show (⟨mulPortable a.toU128 b.toU128⟩ : GF2p128) = _
    rw [mulPortable]
    rfl
  rw [hdef, mulPortableLoop_eq, zero_add, act_apply]
  simp only [Nat.zero_add]

/-- A bit of a sum of distinct powers of `x`. -/
theorem bit_sum_shift (b : GF2p128) (n t : Nat) (ht : t < 128) :
    (∑ i ∈ Finset.range n, if b.bit i then (⟨1#128 <<< i⟩ : GF2p128) else 0).bit t =
      (decide (t < n) && b.bit t) := by
  induction n with
  | zero => simp
  | succ n ih =>
      have hshift : (⟨1#128 <<< n⟩ : GF2p128).bit t = decide (t = n) := by
        rw [bit, ← BitVec.twoPow_eq, BitVec.getLsbD_twoPow]
        simp only [eq_comm]
        simp; omega
      rw [Finset.sum_range_succ, bit_add, ih]
      -- the last power has its one bit at `n`
      rcases Nat.lt_trichotomy t n with h | rfl | h
      · have : (if b.bit n then (⟨1#128 <<< n⟩ : GF2p128) else 0).bit t = false := by
          split <;> simp [hshift, Nat.ne_of_lt h]
        simp [this, h, Nat.lt_succ_of_lt h]
      · cases hb : b.bit t <;> simp [hshift]
      · have : (if b.bit n then (⟨1#128 <<< n⟩ : GF2p128) else 0).bit t = false := by
          split <;> simp [hshift, Nat.ne_of_gt h]
        simp [this, Nat.not_lt.mpr (Nat.le_of_lt h), Nat.not_lt.mpr h]

theorem act_one (b : GF2p128) : act b 1 = b := by
  rw [act_apply]
  have h : ∀ i ∈ Finset.range 128, (if b.bit i then (timesX ^ i) (1 : GF2p128) else 0) =
      if b.bit i then (⟨1#128 <<< i⟩ : GF2p128) else 0 := by
    intro i hi
    rw [timesX_pow_one (Finset.mem_range.mp hi)]
  rw [Finset.sum_congr rfl h]
  exact ext_bit fun t ht => by simp [bit_sum_shift b 128 t ht, ht]

theorem act_commute (a b : GF2p128) : Commute (act a) (act b) := by
  refine Commute.sum_left _ _ _ fun i _ => Commute.sum_right _ _ _ fun j _ => ?_
  split <;> split <;> simp

theorem act_add (b c : GF2p128) : act (b + c) = act b + act c := by
  rw [act, act, act, ← Finset.sum_add_distrib]
  apply Finset.sum_congr rfl
  intro i _
  have hself : timesX ^ i + timesX ^ i = 0 := AddMonoidHom.ext fun a => add_self _
  rw [bit_add]
  cases b.bit i <;> cases c.bit i <;> simp [hself]

protected theorem mul_comm (a b : GF2p128) : a * b = b * a := by
  calc a * b = act b (act a 1) := by rw [mul_eq_act, act_one]
    _ = act a (act b 1) := end_commute_apply (act_commute b a) 1
    _ = b * a := by rw [act_one, mul_eq_act]

protected theorem mul_assoc (a b c : GF2p128) : a * b * c = a * (b * c) := by
  calc a * b * c = act c (act a b) := by rw [mul_eq_act, GF2p128.mul_comm a b, mul_eq_act b a]
    _ = act a (act c b) := end_commute_apply (act_commute c a) b
    _ = a * (b * c) := by rw [← mul_eq_act b c, ← mul_eq_act, GF2p128.mul_comm]

protected theorem mul_add (a b c : GF2p128) : a * (b + c) = a * b + a * c := by
  simp only [mul_eq_act, act_add]
  rfl

instance : CommRing GF2p128 where
  mul_assoc := GF2p128.mul_assoc
  one_mul a := by rw [GF2p128.mul_comm, GF2p128.mul_comm, mul_eq_act, act_one]
  mul_one a := by rw [GF2p128.mul_comm, mul_eq_act, act_one]
  left_distrib := GF2p128.mul_add
  right_distrib a b c := by simp only [GF2p128.mul_comm _ c, GF2p128.mul_add]
  zero_mul a := by rw [mul_eq_act, map_zero]
  mul_zero a := by rw [GF2p128.mul_comm, mul_eq_act, map_zero]
  mul_comm := GF2p128.mul_comm
  neg_add_cancel := neg_add_cancel
  zsmul := zsmulRec

end GF2p128

end VoleAct.BinaryFields
