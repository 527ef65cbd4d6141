/-
  VoleAct.Lib.LeBytes

  Little-endian byte strings: the number a byte list encodes, the fixed-width
  encoding of a number, and their bits.
-/
import Mathlib

namespace VoleAct.Lib

/-- Little-endian value of a byte list: the first byte is least significant. -/
def ofLeBytes : List (BitVec 8) → Nat
  | [] => 0
  | b :: rest => b.toNat + 256 * ofLeBytes rest

/-- The `k`-byte little-endian encoding of `n` (its low `8 * k` bits). -/
def leBytes : Nat → Nat → List (BitVec 8)
  | 0, _ => []
  | k + 1, n => BitVec.ofNat 8 n :: leBytes k (n / 256)

/-- Bit `t` of a little-endian byte string, false past its end. -/
def leBit (bs : List (BitVec 8)) (t : Nat) : Bool := (bs.getD (t / 8) 0).getLsbD (t % 8)

@[simp] theorem ofLeBytes_nil : ofLeBytes [] = 0 := rfl

@[simp] theorem ofLeBytes_cons (b : BitVec 8) (rest : List (BitVec 8)) :
    ofLeBytes (b :: rest) = b.toNat + 256 * ofLeBytes rest := rfl

@[simp] theorem leBytes_length (k n : Nat) : (leBytes k n).length = k := by
  induction k generalizing n with
  | zero => rfl
  | succ k ih => simp [leBytes, ih]

theorem ofLeBytes_lt (bs : List (BitVec 8)) : ofLeBytes bs < 256 ^ bs.length := by
  induction bs with
  | nil => simp
  | cons b rest ih =>
      have hb : b.toNat < 256 := b.isLt
      simp only [ofLeBytes_cons, List.length_cons, Nat.pow_succ]
      omega

theorem ofLeBytes_leBytes {k n : Nat} (h : n < 256 ^ k) : ofLeBytes (leBytes k n) = n := by
  induction k generalizing n with
  | zero => simp at h; simp [leBytes, h]
  | succ k ih =>
      have hq : n / 256 < 256 ^ k := by
        rw [Nat.pow_succ, Nat.mul_comm] at h
        exact Nat.div_lt_of_lt_mul h
      simp only [leBytes, ofLeBytes_cons, ih hq, BitVec.toNat_ofNat]
      omega

theorem ofLeBytes_leBytes_mod (k n : Nat) : ofLeBytes (leBytes k n) = n % 256 ^ k := by
  induction k generalizing n with
  | zero => simp [leBytes, Nat.mod_one]
  | succ k ih =>
      rw [leBytes, ofLeBytes_cons, ih, BitVec.toNat_ofNat]
      show n % 256 + 256 * (n / 256 % 256 ^ k) = n % (256 ^ k * 256)
      rw [Nat.mul_comm (256 ^ k) 256, Nat.mod_mul]

/-- Fixed-width encodings of numbers in range are injective. -/
theorem leBytes_inj {k n n' : Nat} (hn : n < 256 ^ k) (hn' : n' < 256 ^ k)
    (h : leBytes k n = leBytes k n') : n = n' := by
  rw [← ofLeBytes_leBytes hn, h, ofLeBytes_leBytes hn']

theorem leBytes_ofLeBytes (bs : List (BitVec 8)) : leBytes bs.length (ofLeBytes bs) = bs := by
  induction bs with
  | nil => rfl
  | cons b rest ih =>
      have hb : b.toNat < 256 := b.isLt
      have hq : (b.toNat + 256 * ofLeBytes rest) / 256 = ofLeBytes rest := by omega
      simp only [List.length_cons, ofLeBytes_cons, leBytes, hq, ih]
      congr 1
      apply BitVec.eq_of_toNat_eq
      simp only [BitVec.toNat_ofNat]
      omega

/-- Equal values of equal lengths are equal byte strings. -/
theorem ofLeBytes_inj {bs bs' : List (BitVec 8)} (hlen : bs.length = bs'.length)
    (h : ofLeBytes bs = ofLeBytes bs') : bs = bs' := by
  rw [← leBytes_ofLeBytes bs, ← leBytes_ofLeBytes bs', hlen, h]

theorem testBit_ofLeBytes (bs : List (BitVec 8)) (t : Nat) :
    (ofLeBytes bs).testBit t = leBit bs t := by
  induction bs generalizing t with
  | nil => simp [leBit]
  | cons b rest ih =>
      have hsplit : ofLeBytes (b :: rest) = 2 ^ 8 * ofLeBytes rest + b.toNat := by
        simp only [ofLeBytes_cons]; omega
      rw [hsplit, Nat.testBit_two_pow_mul_add _ b.isLt]
      split
      · next h =>
          have hd : t / 8 = 0 := by omega
          have hm : t % 8 = t := by omega
          simp [leBit, hd, hm, BitVec.testBit_toNat]
      · next h =>
          have hd : t / 8 = (t - 8) / 8 + 1 := by omega
          have hm : t % 8 = (t - 8) % 8 := by omega
          rw [ih]
          simp [leBit, hd, hm]

/-- A byte list is determined by its length and its bits. -/
theorem ext_leBit {bs bs' : List (BitVec 8)} (hlen : bs.length = bs'.length)
    (h : ∀ t, leBit bs t = leBit bs' t) : bs = bs' := by
  apply ofLeBytes_inj hlen
  apply Nat.eq_of_testBit_eq
  intro t
  rw [testBit_ofLeBytes, testBit_ofLeBytes, h]

theorem leBit_of_length_le {bs : List (BitVec 8)} {t : Nat} (h : bs.length ≤ t / 8) :
    leBit bs t = false := by
  simp [leBit, List.getElem?_eq_none h]

end VoleAct.Lib
