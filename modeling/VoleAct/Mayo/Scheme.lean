/-
  VoleAct.Mayo.Scheme

  TrapGen, Eval and SPre, the MAYO trapdoor function (`mayo/src/scheme.rs`).
-/
import VoleAct.Mayo.Params
import VoleAct.Mayo.SampleSolution

namespace VoleAct.Mayo

open VoleAct.BinaryFields VoleAct.Lib Mat

/-- Errors from the MAYO algorithms. -/
inductive MayoError where
  | preimageSamplingFailed
  | invalidLength
  | invalidEncoding
  deriving DecidableEq, Repr

variable {P : MayoParams}

/-- The matrices of the quadratic map. -/
structure PublicKey (P : MayoParams) where
  p1 : Vector (Mat P.V P.V) P.M
  p2 : Vector (Mat P.V P.O) P.M
  p3 : Vector (Mat P.O P.O) P.M

/-- The oil-space matrix `O`, the `P1_a` and the derived `L_a`. -/
structure SecretKey (P : MayoParams) where
  o : Mat P.V P.O
  p1 : Vector (Mat P.V P.V) P.M
  l : Vector (Mat P.V P.O) P.M

/-! ## Keys -/

/-- `P3_a = Upper(O^T P1_a O + O^T P2_a)`. -/
def deriveP3 (o : Mat P.V P.O) (p1 : Mat P.V P.V) (p2 : Mat P.V P.O) : Mat P.O P.O :=
  ((o.transpose.mul (p1.mul o)).add (o.transpose.mul p2)).upper

/-- `(P1_a + P1_a^T) O`. -/
def symmetricO (o : Mat P.V P.O) (p1 : Mat P.V P.V) : Mat P.V P.O :=
  (p1.add p1.transpose).mul o

/-- The pairs `(P1_a, P2_a)`, drawn equation by equation. -/
def sampleEquations {ρ : Type} [CryptoRngCore ρ] (P : MayoParams) :
    (m : Nat) → ρ → Vector (Mat P.V P.V × Mat P.V P.O) m × ρ
  | 0, rng => (#v[], rng)
  | m + 1, rng =>
      let (equations, rng) := sampleEquations P m rng
      let (p1, rng) := Mat.randomUpper P.V rng
      let (p2, rng) := Mat.random P.V P.O rng
      (equations.push (p1, p2), rng)

/-- Key generation: `O`, `P1_a` and `P2_a` are sampled, `P3_a` and `L_a` derived. -/
def trapgen {ρ : Type} [CryptoRngCore ρ] (P : MayoParams) (rng : ρ) :
    (SecretKey P × PublicKey P) × ρ :=
  let (o, rng) := Mat.random P.V P.O rng
  let (equations, rng) := sampleEquations P P.M rng
  let p3 := equations.map fun (p1, p2) => deriveP3 o p1 p2
  let l := equations.map fun (p1, p2) => (symmetricO o p1).add p2
  (({ o := o, p1 := equations.map Prod.fst, l := l },
    { p1 := equations.map Prod.fst, p2 := equations.map Prod.snd, p3 := p3 }), rng)

/-- The public map determined by the expanded trapdoor: `P2 = L + (P1 + P1^T) O`. -/
def SecretKey.publicKey (sk : SecretKey P) : PublicKey P where
  p1 := sk.p1
  p2 := Vector.ofFn fun a => (sk.l.get a).add (symmetricO sk.o (sk.p1.get a))
  p3 := Vector.ofFn fun a =>
    deriveP3 sk.o (sk.p1.get a) ((sk.l.get a).add (symmetricO sk.o (sk.p1.get a)))

/-! ## The extension field -/

/-- One multiplication by `z` in `F16[z] / f(z)`. -/
def mulZ (u : Vector GF16 P.M) : Vector GF16 P.M :=
  let top := u.get ⟨P.M - 1, Nat.sub_lt P.m_pos Nat.one_pos⟩
  let shifted := Vector.ofFn fun i : Fin P.M =>
    if i.val = 0 then 0 else u.get ⟨i.val - 1, Nat.lt_of_le_of_lt (Nat.sub_le _ _) i.isLt⟩
  P.fTail.foldl
    (fun out (d, coeff) => Vector.ofFn fun i : Fin P.M =>
      if i.val = d then out.get i + top * GF16.new coeff else out.get i)
    shifted

/-- Multiply by `z^shift`. -/
def mulZPow (u : Vector GF16 P.M) (shift : Nat) : Vector GF16 P.M := mulZ^[shift] u

/-! ## The whipped map -/

/-- The pairs `for i in 0..k, for j in (i..k).rev()`. -/
def blockPairs (k : Nat) : List (Fin k × Fin k) :=
  (List.finRange k).flatMap fun i => (((List.finRange k).filter (i ≤ ·)).reverse).map (i, ·)

/-- `Σ x_c * y_c`. -/
def dot {n : Nat} (x y : Vector GF16 n) : GF16 :=
  (x.zip y).foldl (fun acc (a, b) => acc + a * b) 0

/-- `y[b] += u[b]` for every `b`. -/
def addVec {n : Nat} (y u : Vector GF16 n) : Vector GF16 n := Vector.zipWith (· + ·) y u

/-- The value of one pair of blocks in every equation, from the products `w[a][j]`. -/
def pairValues {n m k : Nat} (blocks : Vector (Vector GF16 n) k)
    (w : Vector (Vector (Vector GF16 n) k) m) (i j : Fin k) : Vector GF16 m :=
  Vector.ofFn fun a =>
    if i = j then dot (blocks.get i) ((w.get a).get i)
    else dot (blocks.get i) ((w.get a).get j) + dot (blocks.get j) ((w.get a).get i)

theorem block_lt (i : Fin P.K) (c : Fin P.N) : i * P.N + c < P.KN := by
  have hval : (finProdFinEquiv (i, c)).val = i * P.N + c := by
    rw [finProdFinEquiv_apply_val, Nat.mul_comm, Nat.add_comm]
  exact hval ▸ (finProdFinEquiv (i, c)).isLt

/-- Block `i` of a whipped input. -/
def block (s : Vector GF16 P.KN) (i : Fin P.K) : Vector GF16 P.N :=
  Vector.ofFn fun c => s.get ⟨i * P.N + c, block_lt i c⟩

/-- The vinegar part of a block. -/
def splitV (b : Vector GF16 P.N) : Vector GF16 P.V :=
  Vector.ofFn fun c => b.get ⟨c, Nat.lt_of_lt_of_le c.isLt (Nat.sub_le _ _)⟩

/-- The oil part of a block. -/
def splitO (b : Vector GF16 P.N) : Vector GF16 P.O :=
  Vector.ofFn fun c => b.get ⟨P.V + c, P.v_add_o ▸ Nat.add_lt_add_left c.isLt P.V⟩

/-- `(P1_a P2_a; 0 P3_a) * s_j`, blockwise. -/
def blockProduct (pk : PublicKey P) (a : Fin P.M) (b : Vector GF16 P.N) : Vector GF16 P.N :=
  let top := addVec ((pk.p1.get a).mulVec (splitV b)) ((pk.p2.get a).mulVec (splitO b))
  (top ++ (pk.p3.get a).mulVec (splitO b)).cast P.v_add_o

/-- The whipped map on an input of the right length. -/
def evalBlocks (pk : PublicKey P) (s : Vector GF16 P.KN) : Vector GF16 P.M :=
  let blocks := Vector.ofFn (block s)
  let w := Vector.ofFn fun a => Vector.ofFn fun j => blockProduct pk a (blocks.get j)
  (blockPairs P.K).zipIdx.foldl
    (fun y ((i, j), ell) => addVec y (mulZPow (pairValues blocks w i j) ell))
    (Vector.replicate P.M 0)

/-- Evaluate the whipped map `P*(s)`. -/
def eval (pk : PublicKey P) (s : List GF16) : Except MayoError (List GF16) :=
  if h : s.length = P.KN then .ok (evalBlocks pk ⟨s.toArray, h⟩).toList
  else .error .invalidLength

/-- Only inputs of the right length evaluate. -/
theorem length_of_eval {pk : PublicKey P} {s t : List GF16} (h : eval pk s = .ok t) :
    s.length = P.KN := by
  rw [eval] at h
  by_contra hlen
  rw [dif_neg hlen] at h
  exact absurd h (by simp)

/-! ## Preimage sampling -/

/-- `A[:, i*o..i*o+o] += E^ell * M`. -/
def addShiftedBlock (a : Mat P.M (P.K * P.O)) (mMat : Mat P.M P.O) (i : Fin P.K) (ell : Nat) :
    Mat P.M (P.K * P.O) :=
  let shifted := Vector.ofFn fun c => mulZPow (Vector.ofFn fun r => mMat.get r c) ell
  Mat.ofFn fun r q =>
    if q.divNat = i then a.get r q + (shifted.get q.modNat).get r else a.get r q

/-- `M_i`, with rows `v_i^T L_a`. -/
def oilMatrix (sk : SecretKey P) (vinegar : Vector GF16 P.V) : Mat P.M P.O :=
  let rows := Vector.ofFn fun a => (sk.l.get a).vecMul vinegar
  Mat.ofFn fun a c => (rows.get a).get c

/-- The linear system `A * x = y` for the oil variables. -/
def linearSystem (sk : SecretKey P) (t : Vector GF16 P.M) (vinegar : Vector (Vector GF16 P.V) P.K) :
    Mat P.M (P.K * P.O) × Vector GF16 P.M :=
  let mMats := vinegar.map (oilMatrix sk)
  let w := Vector.ofFn fun a => vinegar.map (sk.p1.get a).mulVec
  (blockPairs P.K).zipIdx.foldl
    (fun (aMat, y) ((i, j), ell) =>
      let y := addVec y (mulZPow (pairValues vinegar w i j) ell)
      let aMat := addShiftedBlock aMat (mMats.get j) i ell
      (if i ≠ j then addShiftedBlock aMat (mMats.get i) j ell else aMat, y))
    (Mat.zero P.M (P.K * P.O), t)

/-- Block `i` of the oil variables. -/
def oilBlock (x : Vector GF16 (P.K * P.O)) (i : Fin P.K) : Vector GF16 P.O :=
  Vector.ofFn fun c => x.get (finProdFinEquiv (i, c))

/-- `s_i = (v_i + O x_i) ‖ x_i`. -/
def assemble (sk : SecretKey P) (vinegar : Vector (Vector GF16 P.V) P.K)
    (x : Vector GF16 (P.K * P.O)) : Vector GF16 P.KN :=
  let ox := Vector.ofFn fun i => sk.o.mulVec (oilBlock x i)
  Vector.ofFn fun p : Fin (P.K * P.N) =>
    let i := p.divNat
    if h : p.modNat.val < P.V then
      (vinegar.get i).get ⟨p.modNat, h⟩ + (ox.get i).get ⟨p.modNat, h⟩
    else
      (oilBlock x i).get ⟨p.modNat - P.V, by
        have := p.modNat.isLt
        have := P.v_add_o
        omega⟩

/-- One sampling attempt with fresh vinegar values and system randomness. -/
def spreAttempt {ρ : Type} [CryptoRngCore ρ] (sk : SecretKey P) (t : Vector GF16 P.M) (rng : ρ) :
    Option (Vector GF16 P.KN) × ρ :=
  let (vinegar, rng) := randomRows P.V P.K rng
  let (r, rng) := randomVec (P.K * P.O) rng
  let (aMat, y) := linearSystem sk t vinegar
  ((sampleSolution aMat y r).map (assemble sk vinegar), rng)

/-- Up to `attempts` attempts. -/
def spreLoop {ρ : Type} [CryptoRngCore ρ] (sk : SecretKey P) (t : Vector GF16 P.M) :
    (attempts : Nat) → ρ → Except MayoError (List GF16) × ρ
  | 0, rng => (.error .preimageSamplingFailed, rng)
  | attempts + 1, rng =>
      match spreAttempt sk t rng with
      | (some s, rng) => (.ok s.toList, rng)
      | (none, rng) => spreLoop sk t attempts rng

/-- Sample a preimage `s` with `P*(s) = t` using the oil-space trapdoor. -/
def spre {ρ : Type} [CryptoRngCore ρ] (sk : SecretKey P) (t : List GF16) (rng : ρ) :
    Except MayoError (List GF16) × ρ :=
  if h : t.length = P.M then spreLoop sk ⟨t.toArray, h⟩ 256 rng
  else (.error .invalidLength, rng)

end VoleAct.Mayo
