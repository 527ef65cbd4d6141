/-
  VoleAct.BinaryFields.GF16

  `GF(16) = F_2[x] / (x^4 + x + 1)`, the field of MAYO's multivariate system
  (`binary-fields/src/gf16.rs`).  An element is a byte whose high nibble is
  zero; the structure carries that invariant.
-/
import VoleAct.Basics

namespace VoleAct.BinaryFields

/-- An element of `GF(16)`: the nibble `a_3 a_2 a_1 a_0` in the low half of a byte. -/
structure GF16 where
  toU8 : U8
  canonical : toU8.toNat < 16
  deriving DecidableEq

namespace GF16

@[ext] theorem ext {a b : GF16} (h : a.toU8 = b.toU8) : a = b := by
  cases a; cases b; cases h; rfl

/-- The reduction polynomial `x^4 + x + 1`. -/
def modulus : BitVec 16 := 0b10011#16

/-- `GF16::new`: the low four bits of `v`. -/
def new (v : U8) : GF16 where
  toU8 := v &&& 0x0F#8
  canonical := by
    rw [BitVec.toNat_and]
    exact Nat.lt_of_le_of_lt Nat.and_le_right (by decide)

@[simp] theorem new_toU8 (a : GF16) : new a.toU8 = a := by
  apply GF16.ext
  show a.toU8 &&& 0x0F#8 = a.toU8
  apply BitVec.eq_of_toNat_eq
  rw [BitVec.toNat_and]
  show a.toU8.toNat &&& (2 ^ 4 - 1) = _
  rw [Nat.and_two_pow_sub_one_eq_mod, Nat.mod_eq_of_lt a.canonical]

/-- Carry-less product of two nibbles, at most seven bits. -/
def clmulLoop (a : BitVec 16) (b : U8) : (fuel i : Nat) → BitVec 16 → BitVec 16
  | 0, _, p => p
  | fuel + 1, i, p =>
      let mask := 0#16 - ((b >>> i) &&& 1#8).setWidth 16
      clmulLoop a b fuel (i + 1) (p ^^^ ((a <<< i) &&& mask))

/-- Reduction of bits 6, 5, 4, from the top. -/
def reduceLoop : (fuel j : Nat) → BitVec 16 → BitVec 16
  | 0, _, p => p
  | fuel + 1, j, p =>
      let mask := 0#16 - ((p >>> j) &&& 1#16)
      reduceLoop fuel (j - 1) (p ^^^ ((modulus <<< (j - 4)) &&& mask))

/-- Carry-less multiply followed by reduction modulo `x^4 + x + 1`. -/
def mulInternal (a b : U8) : U8 :=
  let p := clmulLoop (a.setWidth 16) b 4 0 0#16
  ((reduceLoop 3 6 p) &&& 0x0F#16).setWidth 8

theorem mulInternal_lt (a b : U8) : (mulInternal a b).toNat < 16 := by
  rw [mulInternal, BitVec.toNat_setWidth, BitVec.toNat_and]
  exact Nat.lt_of_le_of_lt (Nat.mod_le _ _) (Nat.lt_of_le_of_lt Nat.and_le_right (by decide))

theorem xor_lt (a b : GF16) : (a.toU8 ^^^ b.toU8).toNat < 16 := by
  rw [BitVec.toNat_xor]
  exact Nat.xor_lt_two_pow (n := 4) a.canonical b.canonical

instance : Zero GF16 := ⟨⟨0#8, by decide⟩⟩
instance : One GF16 := ⟨⟨1#8, by decide⟩⟩
instance : Add GF16 := ⟨fun a b => ⟨a.toU8 ^^^ b.toU8, xor_lt a b⟩⟩
instance : Sub GF16 := ⟨fun a b => a + b⟩
instance : Neg GF16 := ⟨fun a => a⟩
instance : Mul GF16 := ⟨fun a b => ⟨mulInternal a.toU8 b.toU8, mulInternal_lt _ _⟩⟩

/-- `BinaryField::square`. -/
def square (a : GF16) : GF16 := a * a

/-- Inverse via Fermat, `a^14 = a^2 a^4 a^8`, with `inv(0) = 0`. -/
def inv (a : GF16) : GF16 :=
  let a2 := square a
  let a4 := square a2
  let a8 := square a4
  a2 * a4 * a8

/-! ## The sixteen elements form a field -/

/-- The canonical nibble as an equivalence. -/
def equivFin : GF16 ≃ Fin 16 where
  toFun a := ⟨a.toU8.toNat, a.canonical⟩
  invFun i := ⟨BitVec.ofNat 8 i, by rw [BitVec.toNat_ofNat]; omega⟩
  left_inv a := by
    apply GF16.ext
    apply BitVec.eq_of_toNat_eq
    have := a.canonical
    simp only [BitVec.toNat_ofNat]
    omega
  right_inv i := by
    apply Fin.ext
    simp only [BitVec.toNat_ofNat]
    omega

instance : Fintype GF16 := Fintype.ofEquiv _ equivFin.symm

/-- A law of `GF(16)` holds when it holds on the sixteen nibbles. -/
theorem forall_iff {p : GF16 → Prop} : (∀ a, p a) ↔ ∀ i : Fin 16, p (equivFin.symm i) :=
  equivFin.symm.forall_congr_right.symm

protected theorem mul_comm : ∀ a b : GF16, a * b = b * a := by
  simp only [forall_iff]
  decide

protected theorem one_mul : ∀ a : GF16, 1 * a = a := by
  simp only [forall_iff]
  decide

protected theorem zero_mul : ∀ a : GF16, 0 * a = 0 := by
  simp only [forall_iff]
  decide

theorem mul_inv : ∀ a : GF16, a ≠ 0 → a * inv a = 1 := by
  simp only [forall_iff]
  decide

theorem toU8_add (a b : GF16) : (a + b).toU8 = a.toU8 ^^^ b.toU8 := rfl

theorem add_self (a : GF16) : a + a = 0 := by
  apply GF16.ext
  rw [toU8_add, BitVec.xor_self]
  rfl

instance : AddCommGroup GF16 where
  add_assoc a b c := GF16.ext (by simp only [toU8_add, BitVec.xor_assoc])
  zero_add a := GF16.ext BitVec.zero_xor
  add_zero a := GF16.ext BitVec.xor_zero
  neg_add_cancel := add_self
  add_comm a b := GF16.ext (by simp only [toU8_add, BitVec.xor_comm])
  sub_eq_add_neg a b := rfl
  nsmul := nsmulRec
  zsmul := zsmulRec

/-- Bit `i` of the nibble, the coefficient of `x^i`. -/
def bit (a : GF16) (i : Nat) : Bool := a.toU8.getLsbD i

@[simp] theorem bit_add (a b : GF16) (i : Nat) : (a + b).bit i = (a.bit i ^^ b.bit i) := by
  rw [bit, toU8_add, BitVec.getLsbD_xor]
  rfl

/-- The power `x^i` of the generator. -/
def xPow (i : Nat) : GF16 := new (1#8 <<< i)

/-- An element is the sum of the powers of `x` its bits select. -/
theorem eq_sum_xPow : ∀ a : GF16, a = ∑ i ∈ Finset.range 4, if a.bit i then xPow i else 0 := by
  simp only [forall_iff, Finset.sum_range_succ, Finset.sum_range_zero]
  decide

/-- The nibble with the given bits. -/
def ofBits (f : Nat → Bool) : GF16 := ∑ i ∈ Finset.range 4, if f i then xPow i else 0

theorem bit_ofBits (f : Nat → Bool) {i : Nat} (hi : i < 4) : (ofBits f).bit i = f i := by
  have hcases : ∀ b0 b1 b2 b3 : Bool,
      let a := (if b0 then xPow 0 else 0) + (if b1 then xPow 1 else 0) +
        (if b2 then xPow 2 else 0) + (if b3 then xPow 3 else 0)
      (a.bit 0 = b0 ∧ a.bit 1 = b1) ∧ a.bit 2 = b2 ∧ a.bit 3 = b3 := by decide
  obtain ⟨⟨h0, h1⟩, h2, h3⟩ := hcases (f 0) (f 1) (f 2) (f 3)
  simp only [ofBits, Finset.sum_range_succ, Finset.sum_range_zero, zero_add]
  interval_cases i <;> assumption

/-- The bits determine the nibble. -/
theorem ext_bit {a b : GF16} (h : ∀ i < 4, a.bit i = b.bit i) : a = b := by
  rw [eq_sum_xPow a, eq_sum_xPow b]
  exact Finset.sum_congr rfl fun i hi => by rw [h i (Finset.mem_range.mp hi)]

theorem mul_add_xPow : ∀ (a b : GF16) (i : Fin 4), a * (b + xPow i) = a * b + a * xPow i := by
  simp only [forall_iff]
  decide

theorem mul_xPow_assoc : ∀ (a b : GF16) (i : Fin 4), a * b * xPow i = a * (b * xPow i) := by
  simp only [forall_iff]
  decide

protected theorem mul_zero (a : GF16) : a * 0 = 0 := by rw [GF16.mul_comm, GF16.zero_mul]

/-- Additive maps out of `GF(16)` are determined by the powers of `x`. -/
theorem induction_xPow {p : GF16 → Prop} (zero : p 0)
    (step : ∀ (a : GF16) (i : Fin 4), p a → p (a + xPow i)) (a : GF16) : p a := by
  rw [eq_sum_xPow a]
  have hsum : ∀ n ≤ 4, p (∑ i ∈ Finset.range n, if a.bit i then xPow i else 0) := by
    intro n hn
    induction n with
    | zero => exact zero
    | succ n ih =>
        rw [Finset.sum_range_succ]
        split
        · exact step _ ⟨n, by omega⟩ (ih (by omega))
        · rw [add_zero]; exact ih (by omega)
  exact hsum 4 le_rfl

protected theorem mul_add (a b c : GF16) : a * (b + c) = a * b + a * c := by
  induction c using induction_xPow with
  | zero => rw [GF16.mul_zero, add_zero, add_zero]
  | step c i ih => rw [← add_assoc, mul_add_xPow, ih, mul_add_xPow, add_assoc]

protected theorem mul_assoc (a b c : GF16) : a * b * c = a * (b * c) := by
  induction c using induction_xPow with
  | zero => simp only [GF16.mul_zero]
  | step c i ih => rw [GF16.mul_add, ih, GF16.mul_add, GF16.mul_add, mul_xPow_assoc]

instance : CommRing GF16 where
  mul_assoc := GF16.mul_assoc
  one_mul := GF16.one_mul
  mul_one a := by rw [GF16.mul_comm, GF16.one_mul]
  left_distrib := GF16.mul_add
  right_distrib a b c := by simp only [GF16.mul_comm _ c, GF16.mul_add]
  zero_mul := GF16.zero_mul
  mul_zero := GF16.mul_zero
  mul_comm := GF16.mul_comm
  neg_add_cancel := neg_add_cancel
  zsmul := zsmulRec

instance : Nontrivial GF16 := ⟨0, 1, by decide⟩

instance : Field GF16 where
  inv := inv
  exists_pair_ne := exists_pair_ne GF16
  mul_inv_cancel := mul_inv
  inv_zero := by decide
  nnqsmul := _
  nnqsmul_def _ _ := rfl
  qsmul := _
  qsmul_def _ _ := rfl

instance : CharP GF16 2 := by
  refine (CharP.charP_iff_prime_eq_zero Nat.prime_two).mpr ?_
  rw [Nat.cast_ofNat, ← one_add_one_eq_two]
  exact add_self 1

end GF16

end VoleAct.BinaryFields
