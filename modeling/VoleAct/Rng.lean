/-
  VoleAct.Rng

  The random number generator every randomized call takes, as an interface: no
  result assumes anything about its output.
-/
import VoleAct.Basics

namespace VoleAct

/-- `CryptoRngCore`: a generator state and the draws the program makes from it. -/
class CryptoRngCore (ρ : Type) where
  fillBytes : (n : Nat) → ρ → Bytes n × ρ
  nextU32 : ρ → U32 × ρ

/-- `count` successive `fill_bytes` calls. -/
def fillMany {ρ : Type} [CryptoRngCore ρ] (n : Nat) : (count : Nat) → ρ → List (Bytes n) × ρ
  | 0, rng => ([], rng)
  | count + 1, rng =>
      let (bytes, rng) := CryptoRngCore.fillBytes n rng
      let (rest, rng) := fillMany n count rng
      (bytes :: rest, rng)

theorem fillMany_length {ρ : Type} [CryptoRngCore ρ] (n count : Nat) (rng : ρ) :
    (fillMany n count rng).1.length = count := by
  induction count generalizing rng with
  | zero => rfl
  | succ count ih => simp [fillMany, ih]

/-- A generator that only ever returns zeros. -/
instance : CryptoRngCore Unit where
  fillBytes n rng := (Vector.replicate n 0#8, rng)
  nextU32 rng := (0#32, rng)

/-- A generator that always returns the same word. -/
structure RepeatRng where
  word : U32
  deriving DecidableEq

instance : CryptoRngCore RepeatRng where
  fillBytes n rng := (Vector.replicate n (rng.word.setWidth 8), rng)
  nextU32 rng := (rng.word, rng)

end VoleAct
