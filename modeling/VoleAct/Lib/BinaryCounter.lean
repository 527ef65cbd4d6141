/-
  VoleAct.Lib.BinaryCounter

  Streaming sums by a binary counter: `2^k` values are pushed one by one, and
  the counter ends with their total and, for every `b < k`, the sum of those
  whose index has bit `b` set.

  Level `0` consumes the values in pairs.  It adds the second value of each
  pair to its plane and hands the pair's sum to the levels above, which are a
  counter for `2^(k-1)` values; the result follows by induction on `k`.
-/
import Mathlib

namespace VoleAct.Lib

/-- The pending left sums and the planes, from the lowest level up. -/
structure BinaryCounter (M : Type) where
  pending : List (Option M)
  planes : List M

namespace BinaryCounter

variable {M : Type} [AddCommMonoid M]

/-- The empty counter for `2^k` values. -/
def new (k : Nat) : BinaryCounter M := ⟨List.replicate (k + 1) none, List.replicate k 0⟩

/-- Feed one value; fails when it carries past the top level. -/
def carry : List (Option M) → List M → M → Option (BinaryCounter M)
  | [], _, _ => none
  | none :: pending, planes, cur => some ⟨some cur :: pending, planes⟩
  | some _ :: _, [], _ => none
  | some left :: pending, plane :: planes, cur =>
      (carry pending planes (cur + left)).map fun c =>
        ⟨none :: c.pending, (plane + cur) :: c.planes⟩

def push (c : BinaryCounter M) (r : M) : Option (BinaryCounter M) := carry c.pending c.planes r

/-- Feed values in order. -/
def pushAll (c : BinaryCounter M) (rs : List M) : Option (BinaryCounter M) := rs.foldlM push c

/-- Put a level below a counter. -/
def extend (plane : M) (c : BinaryCounter M) : BinaryCounter M :=
  ⟨none :: c.pending, plane :: c.planes⟩

theorem new_succ (k : Nat) : (new (k + 1) : BinaryCounter M) = extend 0 (new k) := rfl

/-- Two pushes through an idle level are one push of the sum above it. -/
theorem push_pair (plane : M) (c : BinaryCounter M) (a b : M) :
    (((extend plane c).push a).bind fun c' => c'.push b) =
      (c.push (b + a)).map (extend (plane + b)) := rfl

theorem pushAll_append (c : BinaryCounter M) (rs rs' : List M) :
    c.pushAll (rs ++ rs') = (c.pushAll rs).bind fun c' => c'.pushAll rs' :=
  List.foldlM_append

theorem pushAll_one (c : BinaryCounter M) (a : M) : c.pushAll [a] = c.push a := by
  simp only [pushAll, List.foldlM_cons, List.foldlM_nil, bind_pure]

theorem pushAll_two (c : BinaryCounter M) (a b : M) :
    c.pushAll [a, b] = (c.push a).bind fun c' => c'.push b := by
  simp only [pushAll, List.foldlM_cons, List.foldlM_nil, bind_pure, Option.bind_eq_bind]

theorem pushAll_pairs (plane : M) (c : BinaryCounter M) (r : ℕ → M) (m : ℕ) :
    (extend plane c).pushAll ((List.range (2 * m)).map r) =
      (c.pushAll ((List.range m).map fun j => r (2 * j + 1) + r (2 * j))).map
        (extend (plane + ∑ j ∈ Finset.range m, r (2 * j + 1))) := by
  induction m with
  | zero => simp [pushAll]
  | succ m ih =>
      have hrange : (List.range (2 * (m + 1))).map r =
          (List.range (2 * m)).map r ++ [r (2 * m), r (2 * m + 1)] := by
        rw [show 2 * (m + 1) = 2 * m + 1 + 1 by omega, List.range_succ, List.range_succ]
        simp
      rw [hrange, pushAll_append, ih, List.range_succ, List.map_append, pushAll_append]
      cases c.pushAll ((List.range m).map fun j => r (2 * j + 1) + r (2 * j)) with
      | none => rfl
      | some c' =>
          show ((extend _ c').pushAll [r (2 * m), r (2 * m + 1)]) = _
          rw [pushAll_two, push_pair, Finset.sum_range_succ, ← add_assoc]
          simp only [Option.bind_some, List.map_cons, List.map_nil, pushAll_one]

theorem sum_range_two_mul (f : ℕ → M) (n : ℕ) :
    ∑ i ∈ Finset.range (2 * n), f i = ∑ j ∈ Finset.range n, (f (2 * j + 1) + f (2 * j)) := by
  induction n with
  | zero => simp
  | succ n ih =>
      rw [show 2 * (n + 1) = 2 * n + 1 + 1 by omega, Finset.sum_range_succ, Finset.sum_range_succ,
        ih, Finset.sum_range_succ, add_assoc, add_comm (f (2 * n))]

/-- The sum of the values whose index has bit `b` set. -/
def planeSum (k : ℕ) (r : ℕ → M) (b : ℕ) : M :=
  ∑ i ∈ Finset.range (2 ^ k), if i.testBit b then r i else 0

/-- The counter after `2^k` pushes: the planes, and the total in the top level. -/
theorem pushAll_full (k : ℕ) (r : ℕ → M) :
    (new k).pushAll ((List.range (2 ^ k)).map r) =
      some ⟨List.replicate k none ++ [some (∑ i ∈ Finset.range (2 ^ k), r i)],
        (List.range k).map (planeSum k r)⟩ := by
  induction k generalizing r with
  | zero => simp [new, pushAll, push, carry]
  | succ k ih =>
      rw [new_succ, Nat.pow_succ, Nat.mul_comm, pushAll_pairs, ih]
      have htotal : ∑ i ∈ Finset.range (2 ^ k), (r (2 * i + 1) + r (2 * i)) =
          ∑ i ∈ Finset.range (2 * 2 ^ k), r i := (sum_range_two_mul r (2 ^ k)).symm
      have hlow : planeSum (k + 1) r 0 = ∑ j ∈ Finset.range (2 ^ k), r (2 * j + 1) := by
        rw [planeSum, Nat.pow_succ, Nat.mul_comm, sum_range_two_mul]
        apply Finset.sum_congr rfl
        intro j _
        simp [Nat.testBit_zero]
      have hhigh : ∀ b, planeSum (k + 1) r (b + 1) =
          planeSum k (fun j => r (2 * j + 1) + r (2 * j)) b := by
        intro b
        rw [planeSum, planeSum, Nat.pow_succ, Nat.mul_comm, sum_range_two_mul]
        apply Finset.sum_congr rfl
        intro j _
        have h1 : (2 * j + 1) / 2 = j := by omega
        have h0 : 2 * j / 2 = j := by omega
        rw [Nat.testBit_succ, Nat.testBit_succ, h1, h0]
        split <;> simp
      rw [List.range_succ_eq_map, List.map_cons, List.map_map, hlow]
      simp only [Option.map_some, extend, htotal, zero_add, List.replicate_succ, List.cons_append]
      congr 3
      apply List.map_congr_left
      intro b _
      exact (hhigh b).symm

end BinaryCounter

end VoleAct.Lib
