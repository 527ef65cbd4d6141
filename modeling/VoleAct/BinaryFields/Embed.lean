/-
  VoleAct.BinaryFields.Embed

  The canonical embedding of `GF(16)` into `GF(2^128)`
  (`binary-fields/src/embed.rs`): `x` goes to a root `β` of `x^4 + x + 1` found
  by a fixed search.  It is an injective ring homomorphism.
-/
import VoleAct.BinaryFields.GF16
import VoleAct.BinaryFields.GF2p128Field

namespace VoleAct.BinaryFields

/-- `(2^128 - 1) / 15`. -/
def cofactorExp : U128 := 0x11111111111111111111111111111111#128

/-- The candidate `h` is an element of order exactly 15. -/
def hasOrder15 (h : GF2p128) : Bool :=
  !(h == 1 || GF2p128.pow h 3#128 == 1 || GF2p128.pow h 5#128 == 1)

/-- `h` or `h^7`, whichever satisfies `c^4 + c + 1 = 0`. -/
def quarticRoot (h : GF2p128) : Option GF2p128 :=
  [h, GF2p128.pow h 7#128].find? fun c =>
    GF2p128.square (GF2p128.square c) + c + 1 == 0

/-- The search of `compute_beta` over its base elements; `none` is `unreachable!`. -/
def searchBeta : List GF2p128 → Option GF2p128
  | [] => none
  | g :: gs =>
      let h := GF2p128.pow g cofactorExp
      if hasOrder15 h then quarticRoot h else searchBeta gs

/-- The canonical root `β` of `x^4 + x + 1`. -/
def computeBeta : Option GF2p128 :=
  searchBeta [⟨2#128⟩, ⟨3#128⟩, ⟨4#128⟩, ⟨5#128⟩, ⟨6#128⟩, ⟨7#128⟩]

/-- The value the search finds. -/
@[irreducible] def beta : GF2p128 := ⟨0x8b49849339334e30987a355cbf0c842b#128⟩

/-- One entry of `embed_table`: the sum of the powers of `b1` the nibble selects. -/
def embedTable (b1 : GF2p128) (a : GF16) : GF2p128 :=
  let b2 := GF2p128.square b1
  let b3 := b2 * b1
  [(0, 1), (1, b1), (2, b2), (3, b3)].foldl
    (fun acc (bit, base) => if a.bit bit then acc + base else acc) 0

/-- `embed_gf16`: the table lookup. -/
def embedGf16 (a : GF16) : GF2p128 :=
  match computeBeta with
  | none => 0
  | some b1 => embedTable b1 a

/-! ## The embedding is a ring homomorphism -/

theorem computeBeta_eq : computeBeta = some beta := by decide +kernel

theorem beta_pow_four : beta ^ 4 = beta + 1 := by
  have h : GF2p128.square (GF2p128.square beta) = beta + 1 := by decide +kernel
  rw [← h, GF2p128.square, GF2p128.square, ← pow_two, ← pow_two, ← pow_mul]

theorem embedTable_eq (b : GF2p128) (a : GF16) :
    embedTable b a = ∑ i ∈ Finset.range 4, if a.bit i then b ^ i else 0 := by
  have h2 : GF2p128.square b = b ^ 2 := (pow_two b).symm
  have h3 : b ^ 2 * b = b ^ 3 := (pow_succ b 2).symm
  simp only [embedTable, List.foldl_cons, List.foldl_nil, h2, h3,
    Finset.sum_range_succ, Finset.sum_range_zero, zero_add, pow_zero, pow_one]
  cases a.bit 0 <;> cases a.bit 1 <;> cases a.bit 2 <;> cases a.bit 3 <;> simp

theorem embedGf16_eq (a : GF16) :
    embedGf16 a = ∑ i ∈ Finset.range 4, if a.bit i then beta ^ i else 0 := by
  rw [embedGf16, computeBeta_eq]
  exact embedTable_eq beta a

theorem embedGf16_add (a b : GF16) : embedGf16 (a + b) = embedGf16 a + embedGf16 b := by
  simp only [embedGf16_eq, ← Finset.sum_add_distrib]
  apply Finset.sum_congr rfl
  intro i _
  rw [GF16.bit_add]
  cases a.bit i <;> cases b.bit i <;> simp [GF2p128.add_self]

@[simp] theorem embedGf16_zero : embedGf16 0 = 0 := by
  have h := embedGf16_add 0 0
  rw [add_zero] at h
  simpa using h

theorem embedGf16_xPow : ∀ i : Fin 4, embedGf16 (GF16.xPow i) = beta ^ (i : Nat) := by
  intro i
  have hbit : ∀ i j : Fin 4, (GF16.xPow i).bit j = decide (i = j) := by decide
  rw [embedGf16_eq, Finset.sum_range]
  simp [hbit]

/-- Multiplying by `x` in `GF(16)` is multiplying by `β` in the tag field. -/
theorem embedGf16_mul_x (a : GF16) : embedGf16 (a * GF16.xPow 1) = embedGf16 a * beta := by
  have hcarry : GF16.xPow 3 * GF16.xPow 1 = GF16.xPow 1 + GF16.xPow 0 := by decide
  have hshift : ∀ i : Fin 3, GF16.xPow i.castSucc * GF16.xPow 1 = GF16.xPow i.succ := by decide
  have hbasis : ∀ i : Fin 4, embedGf16 (GF16.xPow i * GF16.xPow 1) = beta ^ (i : Nat) * beta := by
    intro i
    induction i using Fin.lastCases with
    | last =>
        show embedGf16 (GF16.xPow 3 * GF16.xPow 1) = beta ^ 3 * beta
        have h0 : embedGf16 (GF16.xPow 0) = 1 := by simpa using embedGf16_xPow 0
        have h1 : embedGf16 (GF16.xPow 1) = beta := by simpa using embedGf16_xPow 1
        rw [hcarry, embedGf16_add, h0, h1, ← pow_succ, beta_pow_four]
    | cast i => rw [hshift, embedGf16_xPow, ← pow_succ]; simp
  induction a using GF16.induction_xPow with
  | zero => simp
  | step a i ih => rw [add_mul, embedGf16_add, ih, hbasis, embedGf16_add, embedGf16_xPow, add_mul]

theorem embedGf16_mul (a b : GF16) : embedGf16 (a * b) = embedGf16 a * embedGf16 b := by
  have hpow : ∀ i : Fin 4, GF16.xPow i = GF16.xPow 1 ^ (i : Nat) := by decide
  have hmul : ∀ i : Nat, embedGf16 (a * GF16.xPow 1 ^ i) = embedGf16 a * beta ^ i := by
    intro i
    induction i with
    | zero => simp
    | succ i ih => rw [pow_succ, ← mul_assoc, embedGf16_mul_x, ih, pow_succ, mul_assoc]
  induction b using GF16.induction_xPow with
  | zero => simp
  | step b i ih =>
      rw [mul_add, embedGf16_add, ih, hpow, hmul, ← hpow, embedGf16_add, embedGf16_xPow, mul_add]

@[simp] theorem embedGf16_one : embedGf16 1 = 1 := by
  have h : GF16.xPow 0 = 1 := by decide
  rw [← h]
  simpa using embedGf16_xPow 0

/-- The canonical embedding `GF(16) → GF(2^128)` as a ring homomorphism. -/
def embedHom : GF16 →+* GF2p128 where
  toFun := embedGf16
  map_one' := embedGf16_one
  map_mul' := embedGf16_mul
  map_zero' := embedGf16_zero
  map_add' := embedGf16_add

end VoleAct.BinaryFields
