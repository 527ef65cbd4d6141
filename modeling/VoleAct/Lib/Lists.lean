/-
  VoleAct.Lib.Lists

  Indexing lists that are written block by block, the rule for a loop over
  `0..n` with an invariant, sums over a list, and the bits of a list of items of
  equal width.
-/
import Mathlib

namespace VoleAct.Lib

/-- Blocks of `c` entries, the last one cut at `n`, are the entries below `n` in order. -/
theorem flatMap_blocks {α : Type} {c : ℕ} (hc : 0 < c) (f : ℕ → α) (n : ℕ) :
    ((List.range ((n + c - 1) / c)).flatMap fun w =>
      (List.range (min c (n - c * w))).map fun i => f (c * w + i)) = (List.range n).map f := by
  have hblocks : ∀ m, ((List.range m).flatMap fun w =>
      (List.range (min c (n - c * w))).map fun i => f (c * w + i)) =
        (List.range (min (c * m) n)).map f := by
    intro m
    induction m with
    | zero => simp
    | succ m ih =>
        rw [List.range_succ, List.flatMap_append, ih, Nat.mul_succ]
        rcases Nat.lt_or_ge (c * m) n with h | h
        · have hsplit : min (c * m + c) n = c * m + min c (n - c * m) := by omega
          rw [hsplit, List.range_add, Nat.min_eq_left h.le]
          simp
        · have hempty : min c (n - c * m) = 0 := by omega
          simp [hempty, Nat.min_eq_right h, Nat.min_eq_right (Nat.le_add_right_of_le h)]
  rw [hblocks]
  congr 2
  apply Nat.min_eq_right
  have h := Nat.lt_mul_div_succ (n + c - 1) hc
  rw [Nat.mul_succ] at h
  omega

theorem getElem?_flatten_of_length {α : Type} {ls : List (List α)} {k : ℕ}
    (hlen : ∀ l ∈ ls, l.length = k) {j b : ℕ} (hb : b < k) :
    ls.flatten[j * k + b]? = (ls[j]?.bind (·[b]?)) := by
  induction ls generalizing j with
  | nil => simp
  | cons l ls ih =>
      have hl : l.length = k := hlen l (by simp)
      rw [List.flatten_cons]
      cases j with
      | zero =>
          rw [List.getElem?_append_left (by omega)]
          simp
      | succ j =>
          rw [Nat.succ_mul, List.getElem?_append_right (by omega),
            show j * k + k + b - l.length = j * k + b by omega,
            ih fun l' hl' => hlen l' (by simp [hl'])]
          simp

/-- A loop `for i in 0..n` keeps an invariant that each iteration advances. -/
theorem foldl_finRange {β : Type*} {n : ℕ} (P : ℕ → β → Prop) (f : β → Fin n → β) {b : β}
    (init : P 0 b) (step : ∀ (i : Fin n) b, P i b → P (i + 1) (f b i)) :
    P n ((List.finRange n).foldl f b) := by
  have hbefore : ∀ t ≤ n, P t (((List.finRange n).take t).foldl f b) := by
    intro t ht
    induction t with
    | zero => simpa using init
    | succ t ih =>
        have hlt : t < (List.finRange n).length := by simpa using ht
        rw [List.take_succ_eq_append_getElem hlt, List.foldl_append, List.getElem_finRange]
        exact step ⟨t, ht⟩ _ (ih (by omega))
  have hall := hbefore n le_rfl
  rwa [List.take_of_length_le (by simp)] at hall

/-- A loop whose every iteration adds to a reading of the state adds the sum to it. -/
theorem foldl_add {σ α A : Type*} [AddMonoid A] (view : σ → A) (f : σ → α → σ) (d : α → A)
    (step : ∀ s x, view (f s x) = view s + d x) (l : List α) (s : σ) :
    view (l.foldl f s) = view s + (l.map d).sum := by
  induction l generalizing s with
  | nil => simp
  | cons x l ih => rw [List.foldl_cons, ih, step, List.map_cons, List.sum_cons, add_assoc]

/-- A sum over a list and a sum over a finite set change places. -/
theorem sum_map_finsetSum {ι α A : Type*} [AddCommMonoid A] (l : List α) (s : Finset ι)
    (f : α → ι → A) :
    (l.map fun x => ∑ i ∈ s, f x i).sum = ∑ i ∈ s, (l.map fun x => f x i).sum := by
  induction l with
  | nil => simp
  | cons x l ih =>
      simp only [List.map_cons, List.sum_cons]
      rw [ih, Finset.sum_add_distrib]

theorem sum_map_eq_mul {α : Type*} {f : α → ℕ} {n : ℕ} {l : List α} (h : ∀ x ∈ l, f x = n) :
    (l.map f).sum = l.length * n := by
  rw [List.map_congr_left h, List.map_const', List.sum_replicate, smul_eq_mul]

theorem sum_map_add_const {α : Type*} (n : ℕ) (f : α → ℕ) (l : List α) :
    (l.map fun x => n + f x).sum = l.length * n + (l.map f).sum := by
  rw [List.sum_map_add, sum_map_eq_mul fun _ _ => rfl]

/-- Writes at distinct places do not disturb each other. -/
theorem get_foldl_set {ι α : Type*} {n : ℕ} (t : ι → Fin n) (f : ι → α) (l : List ι)
    (hinj : ∀ i ∈ l, ∀ j ∈ l, t i = t j → i = j) (v : Vector α n) :
    (∀ i ∈ l, (l.foldl (fun v i => v.set (t i) (f i)) v).get (t i) = f i) ∧
      ∀ k, (∀ i ∈ l, t i ≠ k) → (l.foldl (fun v i => v.set (t i) (f i)) v).get k = v.get k := by
  have hset (v : Vector α n) (i j : Fin n) (x : α) :
      (v.set i x).get j = if i = j then x else v.get j := by
    simp only [Vector.get_eq_getElem, Vector.getElem_set, Fin.ext_iff]
  induction l generalizing v with
  | nil => exact ⟨fun i hi => absurd hi (List.not_mem_nil), fun k _ => rfl⟩
  | cons j l ih =>
      obtain ⟨hmem, hother⟩ := ih
        (fun i hi i' hi' => hinj i (List.mem_cons_of_mem _ hi) i' (List.mem_cons_of_mem _ hi'))
        (v.set (t j) (f j))
      refine ⟨fun i hi => ?_, fun k hk => ?_⟩
      · rw [List.foldl_cons]
        by_cases hil : i ∈ l
        · exact hmem i hil
        · obtain rfl := (List.mem_cons.mp hi).resolve_right hil
          -- no later write is at `t i`, since it would be the same index again
          rw [hother (t i) fun i' hi' he => hil (hinj i' (List.mem_cons_of_mem _ hi') i hi he ▸ hi'),
            hset, if_pos rfl]
      · rw [List.foldl_cons, hother k fun i hi => hk i (List.mem_cons_of_mem _ hi), hset,
          if_neg (hk j List.mem_cons_self)]

/-! ## The bits of a list of items -/

section FlatBits

variable {α : Type*} {k : ℕ} {bit : α → ℕ → Bool}

/-- The bits of a list of items, `k` bits each. -/
def flatBits (k : ℕ) (bit : α → ℕ → Bool) (xs : List α) : List Bool :=
  xs.flatMap fun x => (List.range k).map (bit x)

@[simp] theorem flatBits_nil : flatBits k bit [] = [] := rfl

@[simp] theorem flatBits_cons (x : α) (xs : List α) :
    flatBits k bit (x :: xs) = (List.range k).map (bit x) ++ flatBits k bit xs := rfl

@[simp] theorem flatBits_append (xs ys : List α) :
    flatBits k bit (xs ++ ys) = flatBits k bit xs ++ flatBits k bit ys := List.flatMap_append

@[simp] theorem flatBits_length (xs : List α) : (flatBits k bit xs).length = xs.length * k := by
  induction xs with
  | nil => simp
  | cons x xs ih => simp [ih, Nat.succ_mul, Nat.add_comm]

/-- Bit `j` of item `i`. -/
theorem getElem?_flatBits (xs : List α) (i : ℕ) {j : ℕ} (hj : j < k) :
    (flatBits k bit xs)[i * k + j]? = xs[i]?.map fun x => bit x j := by
  rw [flatBits, List.flatMap_def, getElem?_flatten_of_length (k := k) (by simp) hj,
    List.getElem?_map]
  cases xs[i]? with
  | none => rfl
  | some x => simp [hj]

/-- The bits determine the items, where they determine one. -/
theorem flatBits_inj (hk : 0 < k) (hbit : ∀ x y, (∀ i < k, bit x i = bit y i) → x = y)
    {xs ys : List α} (h : flatBits k bit xs = flatBits k bit ys) : xs = ys := by
  apply List.ext_getElem?
  intro i
  have hentry (j : ℕ) (hj : j < k) : xs[i]?.map (bit · j) = ys[i]?.map (bit · j) := by
    rw [← getElem?_flatBits xs i hj, ← getElem?_flatBits ys i hj, h]
  cases hx : xs[i]? with
  | none =>
      have hentry := hentry 0 hk
      rw [hx] at hentry
      exact (Option.map_eq_none_iff.mp hentry.symm).symm
  | some x =>
      cases hy : ys[i]? with
      | none =>
          have hentry := hentry 0 hk
          rw [hx, hy] at hentry
          exact absurd hentry (by simp)
      | some y =>
          rw [hbit x y fun j hj => by simpa [hx, hy] using hentry j hj]

/-- Every bit list of the right length is the bits of some items. -/
theorem exists_flatBits (hbit : ∀ f : ℕ → Bool, ∃ x, ∀ i < k, bit x i = f i) :
    ∀ (n : ℕ) (l : List Bool), l.length = n * k → ∃ xs, xs.length = n ∧ flatBits k bit xs = l := by
  intro n
  induction n with
  | zero => exact fun l hl => ⟨[], rfl, (List.eq_nil_of_length_eq_zero (by omega)).symm⟩
  | succ n ih =>
      intro l hl
      rw [Nat.succ_mul] at hl
      obtain ⟨x, hx⟩ := hbit fun i => l.getD i false
      obtain ⟨xs, hlen, hxs⟩ := ih (l.drop k) (by rw [List.length_drop]; omega)
      refine ⟨x :: xs, by rw [List.length_cons, hlen], ?_⟩
      have hhead : (List.range k).map (bit x) = l.take k := by
        apply List.ext_getElem
        · simp only [List.length_map, List.length_range, List.length_take]
          omega
        · intro i hi _
          have hi' : i < k := by simpa using hi
          have hil : i < l.length := by omega
          simp [hx i hi', List.getElem?_eq_getElem hil]
      rw [flatBits_cons, hxs, hhead, List.take_append_drop]

end FlatBits

end VoleAct.Lib
