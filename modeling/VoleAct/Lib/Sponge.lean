/-
  VoleAct.Lib.Sponge

  The sponge construction on bit strings, SPONGE[f, pad10*1, r] of FIPS 202.

  A state is a function on `Fin b`.  The permutation `f` and the rate `r` are
  arbitrary; `absorb_flatten` reads the absorbing phase as a loop over blocks,
  and `sponge_eq` reads output bit `t` off the `t / r`-th iterate of `f`.
-/
import Mathlib.Algebra.BigOperators.Group.List.Basic
import Mathlib.Algebra.Order.Group.Nat
import Mathlib.Data.List.Range
import Mathlib.Logic.Function.Iterate
import Mathlib.Tactic.Linarith

namespace VoleAct.Lib.Sponge

variable {b : ℕ}

/-- Bit `t` of a state, false from `b` on. -/
def bitAt (S : Fin b → Bool) (t : ℕ) : Bool := if h : t < b then S ⟨t, h⟩ else false

/-- `pad10*1(r, m)`: the string `1 0^j 1` with `j = (-m - 2) mod r`. -/
def pad10star1 (r m : ℕ) : List Bool :=
  [true] ++ List.replicate ((-(m : ℤ) - 2) % r).toNat false ++ [true]

/-- `S ⊕ (P ‖ 0^c)`. -/
def xorBlock (S : Fin b → Bool) (P : List Bool) : Fin b → Bool := fun i => S i ^^ P.getD i false

variable (f : (Fin b → Bool) → Fin b → Bool) (r : ℕ)

/-- Absorb the `r`-bit blocks of `P` into the zero state. -/
def absorb (P : List Bool) : Fin b → Bool :=
  (List.range (P.length / r)).foldl (fun S i => f (xorBlock S ((P.drop (r * i)).take r)))
    fun _ => false

/-- Append `Trunc_r(S)` to `Z` and return `Trunc_d(Z)` once `Z` is long enough; permute before
    every further piece. -/
def squeezeFrom (d : ℕ) : (fuel : ℕ) → (Fin b → Bool) → List Bool → List Bool
  | 0, _, Z => Z.take d
  | fuel + 1, S, Z =>
      let Z := Z ++ (List.ofFn S).take r
      if d ≤ Z.length then Z.take d else squeezeFrom d fuel (f S) Z

/-- SPONGE[f, pad10*1, r](N, d). -/
def sponge (N : List Bool) (d : ℕ) : List Bool :=
  squeezeFrom f r d (d + 1) (absorb f r (N ++ pad10star1 r N.length)) []

/-! ## Padding -/

variable {r}

/-- The number of zeros is the one below `r` that completes a block. -/
theorem pad10star1_eq {m j : ℕ} (hj : j < r) (h : r ∣ m + 2 + j) :
    pad10star1 r m = [true] ++ List.replicate j false ++ [true] := by
  obtain ⟨q, hq⟩ := h
  have hmod : (-(m : ℤ) - 2) % r = j := by
    have hsplit : (-(m : ℤ) - 2) = j + r * (-q) := by
      have hq' : (m : ℤ) + 2 + j = r * q := by exact_mod_cast hq
      linarith
    rw [hsplit, Int.add_mul_emod_self_left, Int.emod_eq_of_lt (by omega) (by omega)]
  rw [pad10star1, hmod, Int.toNat_natCast]

/-! ## Absorbing -/

@[simp] theorem absorb_nil : absorb f r [] = fun _ => false := by
  simp [absorb]

/-- One more block is one more permutation. -/
theorem absorb_append (hr : 0 < r) {P Q : List Bool} (hP : r ∣ P.length) (hQ : Q.length = r) :
    absorb f r (P ++ Q) = f (xorBlock (absorb f r P) Q) := by
  obtain ⟨n, hn⟩ := hP
  have hblocks : (P ++ Q).length / r = n + 1 := by
    rw [List.length_append, hn, hQ, ← Nat.mul_succ, Nat.mul_div_cancel_left _ hr]
  have hbefore : P.length / r = n := by rw [hn, Nat.mul_div_cancel_left _ hr]
  have hlast : ((P ++ Q).drop (r * n)).take r = Q := by
    rw [← hn, List.drop_left, List.take_of_length_le hQ.le]
  have hblock : ∀ i ∈ List.range n,
      ((P ++ Q).drop (r * i)).take r = (P.drop (r * i)).take r := fun i hi => by
    have hi' : r * (i + 1) ≤ P.length := hn ▸ Nat.mul_le_mul_left r (List.mem_range.mp hi)
    rw [Nat.mul_succ] at hi'
    rw [List.drop_append_of_le_length (by omega),
      List.take_append_of_le_length (by rw [List.length_drop]; omega)]
  rw [absorb, hblocks, List.range_succ, List.foldl_append, List.foldl_cons, List.foldl_nil, hlast,
    absorb, hbefore]
  congr 2
  exact List.foldl_ext _ _ _ fun S i hi => by rw [hblock i hi]

/-- Absorbing is a loop over the blocks. -/
theorem absorb_flatten (hr : 0 < r) {blocks : List (List Bool)}
    (hlen : ∀ P ∈ blocks, P.length = r) :
    absorb f r blocks.flatten = blocks.foldl (fun S P => f (xorBlock S P)) fun _ => false := by
  induction blocks using List.reverseRecOn with
  | nil => simp
  | append_singleton blocks Q ih =>
      have hinit : ∀ P ∈ blocks, P.length = r := fun P hP =>
        hlen P (List.mem_append_left _ hP)
      have hdvd : r ∣ blocks.flatten.length := by
        rw [List.length_flatten, List.map_congr_left hinit, List.map_const', List.sum_replicate]
        exact Dvd.intro_left _ rfl
      rw [List.flatten_append, List.flatten_singleton,
        absorb_append f hr hdvd (hlen Q (by simp)), ih hinit, List.foldl_append]
      rfl

/-! ## Squeezing -/

variable (r)

/-- Bit `t` of the stream squeezed from `S`: bit `t mod r` after `t / r` permutations. -/
def streamBit (S : Fin b → Bool) (t : ℕ) : Bool := bitAt (f^[t / r] S) (t % r)

variable {r}

theorem take_ofFn (hrb : r ≤ b) (S : Fin b → Bool) :
    (List.ofFn S).take r = (List.range r).map (bitAt S) := by
  apply List.ext_getElem
  · simp [hrb]
  · intro t ht _
    have htb : t < b := by
      rw [List.length_take, List.length_ofFn] at ht
      omega
    simp [bitAt, htb]

theorem map_streamBit_succ (hr : 0 < r) (hrb : r ≤ b) (S : Fin b → Bool) (k : ℕ) :
    (List.range (r * (k + 1))).map (streamBit f r S) =
      (List.range (r * k)).map (streamBit f r S) ++ (List.ofFn (f^[k] S)).take r := by
  rw [Nat.mul_succ, List.range_add, List.map_append, List.map_map, take_ofFn hrb]
  congr 1
  apply List.map_congr_left
  intro i hi
  have hi' := List.mem_range.mp hi
  rw [Function.comp_apply, streamBit, Nat.mul_add_div hr, Nat.div_eq_of_lt hi', Nat.mul_add_mod,
    Nat.mod_eq_of_lt hi', Nat.add_zero]

/-- After `k` pieces the state is the `k`-th iterate and `Z` the first `r * k` stream bits. -/
theorem squeezeFrom_eq (hr : 0 < r) (hrb : r ≤ b) (S : Fin b → Bool) {d fuel k : ℕ}
    (hd : d ≤ r * (k + fuel)) :
    squeezeFrom f r d fuel (f^[k] S) ((List.range (r * k)).map (streamBit f r S)) =
      (List.range d).map (streamBit f r S) := by
  have htake : ∀ n, d ≤ n → ((List.range n).map (streamBit f r S)).take d =
      (List.range d).map (streamBit f r S) := fun n hn => by
    rw [← List.map_take, List.take_range, Nat.min_eq_left hn]
  induction fuel generalizing k with
  | zero => exact htake _ hd
  | succ fuel ih =>
      rw [squeezeFrom, ← map_streamBit_succ f hr hrb]
      split
      next hle => exact htake _ (by simpa using hle)
      next hlt =>
        rw [← Function.iterate_succ_apply' f k S]
        exact ih (by rwa [show k + 1 + fuel = k + (fuel + 1) by omega])

/-- The sponge outputs the first `d` bits of its stream. -/
theorem sponge_eq (hr : 0 < r) (hrb : r ≤ b) (N : List Bool) (d : ℕ) :
    sponge f r N d =
      (List.range d).map (streamBit f r (absorb f r (N ++ pad10star1 r N.length))) := by
  have hd : d ≤ r * (0 + (d + 1)) := by nlinarith
  exact squeezeFrom_eq f hr hrb (absorb f r (N ++ pad10star1 r N.length)) hd

end VoleAct.Lib.Sponge
