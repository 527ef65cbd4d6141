/-
  VoleAct.Voleith.Transpose

  The bit-matrix transposes of `voleith/src/bits.rs`.

  `transpose64` runs six passes of in-place block swaps.  Pass `s` exchanges
  bit `s` of the row index with bit `s` of the column index, and the six
  exchanges together swap the two indices.
-/
import VoleAct.Voleith.Bits

namespace VoleAct.Voleith

/-- A square bit matrix of 64 rows, `[u64; 64]`. -/
abbrev Rows64 := Vector U64 64

/-- Bit `c` of row `r`. -/
def Rows64.bit (a : Rows64) (r c : Nat) : Bool := (a.getD r 0#64).getLsbD c

/-- One iteration of the inner loop: swap two blocks of rows `k` and `k + j`. -/
def swapStep (j : Nat) (m : U64) (a : Rows64) (k : Nat) : Rows64 :=
  let t := ((a.getD k 0#64 >>> j) ^^^ a.getD (k + j) 0#64) &&& m
  let a := a.setIfInBounds k (a.getD k 0#64 ^^^ (t <<< j))
  a.setIfInBounds (k + j) (a.getD (k + j) 0#64 ^^^ t)

/-- The values `k` takes in the inner loop: `k = (k + j + 1) & !j` while `k < 64`. -/
def swapIndices (j : Nat) : (fuel k : Nat) → List Nat
  | 0, _ => []
  | fuel + 1, k =>
      if k < 64 then
        let next := k + j + 1
        k :: swapIndices j fuel (next ^^^ (next &&& j))
      else []

/-- The body of the outer loop. -/
def transposePass (j : Nat) (m : U64) (a : Rows64) : Rows64 :=
  (swapIndices j 64 0).foldl (swapStep j m) a

/-- The outer loop; `j` halves until it is zero. -/
def transpose64Loop : (fuel j : Nat) → (m : U64) → Rows64 → Rows64
  | 0, _, _, a => a
  | fuel + 1, j, m, a =>
      if j = 0 then a
      else
        let a := transposePass j m a
        let j := j >>> 1
        transpose64Loop fuel j (m ^^^ (m <<< j)) a

/-- `transpose64`. -/
def transpose64 (a : Rows64) : Rows64 := transpose64Loop 7 32 0x00000000FFFFFFFF#64 a

/-- `lo as u128 | (hi as u128) << 64`. -/
def joinWords (lo hi : U64) : U128 := lo.setWidth 128 ||| (hi.setWidth 128 <<< 64)

/-- `transpose128`: four 64×64 tiles. -/
def transpose128 (rows : Vector U128 128) : Vector U128 128 :=
  let tileA := transpose64 (Vector.ofFn fun i => (rows.getD i 0#128).setWidth 64)
  let tileB := transpose64 (Vector.ofFn fun i => (rows.getD i 0#128 >>> 64).setWidth 64)
  let tileC := transpose64 (Vector.ofFn fun i => (rows.getD (64 + i) 0#128).setWidth 64)
  let tileD := transpose64 (Vector.ofFn fun i => (rows.getD (64 + i) 0#128 >>> 64).setWidth 64)
  Vector.ofFn fun c =>
    if c.val < 64 then joinWords (tileA.getD c 0#64) (tileC.getD c 0#64)
    else joinWords (tileB.getD (c - 64) 0#64) (tileD.getD (c - 64) 0#64)

/-! ## The index loop -/

/-- On 64-bit words `(k + j + 1) & !j` is the masked update of `swapIndices`. -/
theorem toNat_swapNext (s : Fin 6) (k : Fin 64) :
    (BitVec.ofNat 64 (k.val + 2 ^ s.val + 1) &&& ~~~BitVec.ofNat 64 (2 ^ s.val)).toNat =
      (k.val + 2 ^ s.val + 1) ^^^ ((k.val + 2 ^ s.val + 1) &&& 2 ^ s.val) := by
  have hxor : ∀ x j : U64, x &&& ~~~j = x ^^^ (x &&& j) := fun x j => by
    apply BitVec.eq_of_getLsbD_eq
    intro i hi
    simp only [BitVec.getLsbD_and, BitVec.getLsbD_not, BitVec.getLsbD_xor, hi]
    cases x.getLsbD i <;> cases j.getLsbD i <;> rfl
  have hpow : 2 ^ s.val < 2 ^ 6 := Nat.pow_lt_pow_right (by decide) s.isLt
  have hk := k.isLt
  rw [hxor, BitVec.toNat_xor, BitVec.toNat_and, BitVec.toNat_ofNat, BitVec.toNat_ofNat,
    Nat.mod_eq_of_lt (by omega), Nat.mod_eq_of_lt (by omega)]

/-- From an index with bit `s` clear the update goes to the next such index: every index it
    jumps over has the bit set. -/
theorem swapNext_facts : ∀ s : Fin 6, ∀ k : Fin 64, k.val.testBit s = false →
    let next := k.val + 2 ^ s.val + 1
    let next := next ^^^ (next &&& 2 ^ s.val)
    k.val < next ∧ next.testBit s = false ∧
      ∀ i < next - (k.val + 1), (k.val + 1 + i).testBit s = true := by decide

theorem filter_range'_skip {p : Nat → Bool} (m a n : Nat)
    (hskip : ∀ i < m, p (a + i) = false) :
    (List.range' a n).filter p = (List.range' (a + m) (n - m)).filter p := by
  induction m generalizing a n with
  | zero => simp
  | succ m ih =>
      cases n with
      | zero => simp
      | succ n =>
          have hhead : p a = false := hskip 0 (Nat.succ_pos m)
          have htail : ∀ i < m, p (a + 1 + i) = false := fun i hi => by
            have h := hskip (i + 1) (Nat.succ_lt_succ hi)
            rwa [show a + (i + 1) = a + 1 + i by omega] at h
          rw [List.range'_succ, List.filter_cons_of_neg (by simp [hhead]), ih (a + 1) n htail,
            show a + 1 + m = a + (m + 1) by omega, Nat.succ_sub_succ]

/-- The inner loop started at an index with bit `s` clear visits exactly the indices from there
    on with bit `s` clear, in order, and ends. -/
theorem swapIndices_eq_filter (s : Fin 6) {fuel k : Nat} (hfuel : 64 ≤ fuel + k)
    (hbit : k.testBit s = false) :
    swapIndices (2 ^ s.val) fuel k =
      (List.range' k (64 - k)).filter fun i => !i.testBit s := by
  induction fuel generalizing k with
  | zero =>
      rw [swapIndices, show 64 - k = 0 by omega]
      rfl
  | succ fuel ih =>
      rw [swapIndices]
      split
      next hk =>
        obtain ⟨hlt, hclear, hset⟩ := swapNext_facts s ⟨k, hk⟩ hbit
        simp only at hlt hclear hset ⊢
        generalize (k + 2 ^ s.val + 1) ^^^ ((k + 2 ^ s.val + 1) &&& 2 ^ s.val) = next at *
        have hskip := filter_range'_skip (p := fun i => !i.testBit s) (next - (k + 1)) (k + 1)
          (64 - (k + 1)) (fun i hi => by simp [hset i hi])
        rw [ih (by omega) hclear, show 64 - k = 64 - (k + 1) + 1 by omega, List.range'_succ,
          List.filter_cons_of_pos (by simp [hbit]), hskip,
          show k + 1 + (next - (k + 1)) = next by omega,
          show 64 - (k + 1) - (next - (k + 1)) = 64 - next by omega]
      next hk =>
        rw [show 64 - k = 0 by omega]
        rfl

theorem swapIndices_zero (s : Fin 6) {fuel : Nat} (hfuel : 64 ≤ fuel) :
    swapIndices (2 ^ s.val) fuel 0 = (List.range 64).filter fun k => !k.testBit s := by
  rw [List.range_eq_range']
  exact swapIndices_eq_filter s hfuel (Nat.zero_testBit s.val)

theorem mem_swapIndices (s : Fin 6) {k : Nat} :
    k ∈ swapIndices (2 ^ s.val) 64 0 ↔ k < 64 ∧ k.testBit s = false := by
  simp [swapIndices_zero s (Nat.le_refl 64)]

/-! ## One pass exchanges one index bit -/

/-- The mask of pass `s`: the columns whose index has bit `s` clear. -/
def passMask (s : Nat) : U64 := BitVec.ofFnLE fun c : Fin 64 => !c.val.testBit s

theorem getLsbD_passMask (s : Nat) {c : Nat} (hc : c < 64) :
    (passMask s).getLsbD c = !c.testBit s := by
  rw [passMask, BitVec.getLsbD_eq_getElem hc, BitVec.getElem_ofFnLE]

/-- Exchange bit `s` of two indices. -/
def exchange (s : Nat) (rc : Nat × Nat) : Nat × Nat :=
  if rc.1.testBit s = rc.2.testBit s then rc else (rc.1 ^^^ 2 ^ s, rc.2 ^^^ 2 ^ s)

theorem index_facts : ∀ s : Fin 6, ∀ k : Fin 64,
    (k.val.testBit s = false → k.val + 2 ^ s.val = k.val ^^^ 2 ^ s.val ∧ k.val + 2 ^ s.val < 64) ∧
    (k.val.testBit s = true → k.val - 2 ^ s.val = k.val ^^^ 2 ^ s.val ∧ 2 ^ s.val ≤ k.val) ∧
    (k.val.testBit s = false → 2 ^ s.val ≤ k.val → (k.val - 2 ^ s.val).testBit s = true) ∧
    k.val ^^^ 2 ^ s.val < 64 := by decide

theorem exchange_lt {s : Nat} (hs : s < 6) {r c : Nat} (hr : r < 64) (hc : c < 64) :
    (exchange s (r, c)).1 < 64 ∧ (exchange s (r, c)).2 < 64 := by
  have h1 := (index_facts ⟨s, hs⟩ ⟨r, hr⟩).2.2.2
  have h2 := (index_facts ⟨s, hs⟩ ⟨c, hc⟩).2.2.2
  unfold exchange
  split
  · exact ⟨hr, hc⟩
  · exact ⟨h1, h2⟩

theorem testBit_xor_two_pow_self (k s : Nat) : (k ^^^ 2 ^ s).testBit s = !k.testBit s := by
  simp [Nat.testBit_xor, Nat.testBit_two_pow_self]

theorem getD_of_lt {α : Type} {n : Nat} (a : Vector α n) {i : Nat} (d : α) (hi : i < n) :
    a.getD i d = a[i] := by
  have hsize : i < a.toArray.size := by rw [Vector.size_toArray]; exact hi
  show a.toArray.getD i d = a.toArray[i]
  rw [Array.getD, dif_pos hsize]
  rfl

theorem getD_setIfInBounds {n : Nat} {a : Vector U64 n} {i j : Nat} {x : U64}
    (hj : j < n) : (a.setIfInBounds i x).getD j 0#64 = if j = i then x else a.getD j 0#64 := by
  rw [getD_of_lt _ _ hj, getD_of_lt _ _ hj, Vector.getElem_setIfInBounds]
  simp only [eq_comm]

/-- A step swaps the two off-diagonal blocks of its row pair and nothing else. -/
theorem bit_swapStep (a : Rows64) {s k : Nat} (hs : s < 6) (hk : k < 64)
    (hbit : k.testBit s = false) {r : Nat} (hr : r < 64) {c : Nat} (hc : c < 64) :
    (swapStep (2 ^ s) (passMask s) a k).bit r c =
      if r = k ∨ r = k ^^^ 2 ^ s then
        a.bit (exchange s (r, c)).1 (exchange s (r, c)).2
      else a.bit r c := by
  obtain ⟨hadd, -⟩ := index_facts ⟨s, hs⟩ ⟨k, hk⟩
  obtain ⟨hadd, hlt⟩ := hadd hbit
  obtain ⟨hcadd, hcsub, hcsub', -⟩ := index_facts ⟨s, hs⟩ ⟨c, hc⟩
  simp only at hadd hlt hcadd hcsub hcsub'
  have hne : k ≠ k + 2 ^ s := (Nat.lt_add_of_pos_right (Nat.two_pow_pos s)).ne
  have hother : (k ^^^ 2 ^ s).testBit s = true := by rw [testBit_xor_two_pow_self, hbit]; rfl
  have hget : ∀ (b : Rows64) (x : U64) (i j : Nat), j < 64 →
      (b.setIfInBounds i x).getD j 0#64 = if j = i then x else b.getD j 0#64 :=
    fun _ _ _ _ hj => getD_setIfInBounds hj
  simp only [Rows64.bit, swapStep, hget _ _ _ _ hr, hget _ _ _ _ hlt]
  rw [← hadd] at hother ⊢
  by_cases hrk : r = k
  · -- the lower row receives the other row's low block in its high block
    subst hrk
    simp only [true_or, if_true, hne, if_false, exchange, hbit]
    cases hcb : c.testBit s
    · simp only [if_true, BitVec.getLsbD_xor, BitVec.getLsbD_shiftLeft, BitVec.getLsbD_and, hc,
        decide_true, Bool.true_and]
      by_cases hle : 2 ^ s ≤ c
      · have hm : (passMask s).getLsbD (c - 2 ^ s) = false := by
          rw [getLsbD_passMask s (lt_of_le_of_lt (Nat.sub_le _ _) hc), hcsub' hcb hle]; rfl
        simp [hm]
      · simp [Nat.lt_of_not_le hle]
    · obtain ⟨hsub, hle⟩ := hcsub hcb
      have hm : (passMask s).getLsbD (c - 2 ^ s) = true := by
        rw [getLsbD_passMask s (lt_of_le_of_lt (Nat.sub_le _ _) hc), hsub,
          testBit_xor_two_pow_self, hcb]
        rfl
      have hback : 2 ^ s + (c - 2 ^ s) = c := by omega
      simp only [Bool.false_eq_true, if_false, BitVec.getLsbD_xor, BitVec.getLsbD_shiftLeft,
        BitVec.getLsbD_and, BitVec.getLsbD_ushiftRight, hc, decide_true, Bool.true_and, hm,
        Bool.and_true, hback, Nat.not_lt.mpr hle, decide_false, Bool.not_false, ← hsub, ← hadd]
      simp
  · by_cases hrj : r = k + 2 ^ s
    -- the upper row receives the lower row's high block in its low block
    · subst hrj
      simp only [or_true, if_true, hne.symm, if_false, exchange, hother]
      cases hcb : c.testBit s
      · obtain ⟨hca, hclt⟩ := hcadd hcb
        have hm : (passMask s).getLsbD c = true := by
          rw [getLsbD_passMask s hc, hcb]; rfl
        have hk' : (k + 2 ^ s) ^^^ 2 ^ s = k := by rw [hadd]; simp
        simp only [Bool.true_eq_false, if_false, BitVec.getLsbD_xor, BitVec.getLsbD_and,
          BitVec.getLsbD_ushiftRight, hm, Bool.and_true, hk', ← hca, Nat.add_comm (2 ^ s) c]
        rw [Bool.xor_left_comm, Bool.xor_self, Bool.xor_false]
      · have hm : (passMask s).getLsbD c = false := by
          rw [getLsbD_passMask s hc, hcb]; rfl
        simp [hm]
    · simp [hrk, hrj]

/-- The rows a list of steps has touched are exchanged; the others are as before. -/
theorem bit_foldl_swapStep {s : Nat} (hs : s < 6) {ks : List Nat} (hnodup : ks.Nodup)
    (hks : ∀ k ∈ ks, k < 64 ∧ k.testBit s = false) (a : Rows64) {r c : Nat} (hr : r < 64) (hc : c < 64) :
    (ks.foldl (swapStep (2 ^ s) (passMask s)) a).bit r c =
      if r ∈ ks ∨ r ^^^ 2 ^ s ∈ ks then
        a.bit (exchange s (r, c)).1 (exchange s (r, c)).2
      else a.bit r c := by
  induction ks generalizing a with
  | nil => simp
  | cons k ks ih =>
      obtain ⟨hknot, hnodup⟩ := List.nodup_cons.mp hnodup
      obtain ⟨hk, hbit⟩ := hks k (by simp)
      have htail : ∀ k' ∈ ks, k' < 64 ∧ k'.testBit s = false := fun k' hk' => hks k' (by simp [hk'])
      obtain ⟨hrx, hcx⟩ := exchange_lt hs hr hc
      rw [List.foldl_cons, ih hnodup htail]
      have hswap : r = k ^^^ 2 ^ s ↔ r ^^^ 2 ^ s = k := by
        constructor
        · rintro rfl; simp
        · rintro rfl; simp
      by_cases htouched : r ∈ ks ∨ r ^^^ 2 ^ s ∈ ks
      · -- the pair of `r` comes later, so step `k` leaves both its rows alone
        have hex : (exchange s (r, c)).1 = r ∨ (exchange s (r, c)).1 = r ^^^ 2 ^ s := by
          unfold exchange; split <;> simp
        -- the partner of a later index has bit `s` set, `k` has not
        have hother : ∀ k' ∈ ks, (k' ^^^ 2 ^ s) ≠ k := fun k' hk' heq => by
          have h1 := testBit_xor_two_pow_self k' s
          rw [heq, hbit, (htail k' hk').2] at h1
          exact absurd h1 (by decide)
        have hrne : r ≠ k ∧ r ^^^ 2 ^ s ≠ k := by
          rcases htouched with h | h
          · exact ⟨fun e => hknot (e ▸ h), hother r h⟩
          · refine ⟨fun e => hother _ h ?_, fun e => hknot (e ▸ h)⟩
            simpa using e
        have hxne : ¬ ((exchange s (r, c)).1 = k ∨ (exchange s (r, c)).1 = k ^^^ 2 ^ s) := by
          rcases hex with h | h <;> rw [h]
          · rw [hswap]; tauto
          · intro h'
            rcases h' with h' | h'
            · exact hrne.2 h'
            · exact hrne.1 (by
                rw [← Nat.xor_xor_cancel_right r (2 ^ s), h', Nat.xor_xor_cancel_right])
        have htouched' : r ∈ k :: ks ∨ r ^^^ 2 ^ s ∈ k :: ks := by
          rcases htouched with h | h <;> simp [h]
        rw [if_pos htouched, if_pos htouched', bit_swapStep a hs hk hbit hrx hcx, if_neg hxne]
      · -- the pair of `r` does not come later, so step `k` is the one that may exchange it
        rw [if_neg htouched, bit_swapStep a hs hk hbit hr hc]
        have hiff : (r = k ∨ r = k ^^^ 2 ^ s) ↔ (r ∈ k :: ks ∨ r ^^^ 2 ^ s ∈ k :: ks) := by
          rw [hswap]
          simp only [List.mem_cons]
          tauto
        simp only [hiff]

theorem swapIndices_facts (s : Fin 6) :
    (swapIndices (2 ^ s.val) 64 0).Nodup ∧
    (∀ k ∈ swapIndices (2 ^ s.val) 64 0, k < 64 ∧ k.testBit s = false) ∧
    ∀ r : Fin 64, r.val ∈ swapIndices (2 ^ s.val) 64 0 ∨
      r.val ^^^ 2 ^ s.val ∈ swapIndices (2 ^ s.val) 64 0 := by
  refine ⟨?_, fun k hk => (mem_swapIndices s).mp hk, fun r => ?_⟩
  · rw [swapIndices_zero s (Nat.le_refl 64)]
    exact List.nodup_range.filter _
  · -- of a row and its partner, the one with bit `s` clear is visited
    cases hbit : r.val.testBit s
    · exact .inl ((mem_swapIndices s).mpr ⟨r.isLt, hbit⟩)
    · right
      rw [mem_swapIndices, testBit_xor_two_pow_self, hbit]
      exact ⟨(index_facts s r).2.2.2, rfl⟩

/-- Every index the inner loop touches is in bounds. -/
theorem swapIndices_in_bounds (s : Fin 6) :
    ∀ k ∈ swapIndices (2 ^ s.val) 64 0, k + 2 ^ s.val < 64 := by
  intro k hk
  obtain ⟨hlt, hbit⟩ := (swapIndices_facts s).2.1 k hk
  exact ((index_facts s ⟨k, hlt⟩).1 hbit).2

theorem bit_transposePass {s : Nat} (hs : s < 6) (a : Rows64) {r c : Nat} (hr : r < 64)
    (hc : c < 64) :
    (transposePass (2 ^ s) (passMask s) a).bit r c =
      a.bit (exchange s (r, c)).1 (exchange s (r, c)).2 := by
  obtain ⟨hnodup, hks, hcover⟩ := swapIndices_facts ⟨s, hs⟩
  rw [transposePass, bit_foldl_swapStep hs hnodup hks a hr hc, if_pos (hcover ⟨r, hr⟩)]

/-! ## The six passes swap the indices -/

theorem testBit_exchange_fst (s : Nat) (rc : Nat × Nat) (i : Nat) :
    (exchange s rc).1.testBit i = if i = s then rc.2.testBit i else rc.1.testBit i := by
  unfold exchange
  by_cases hi : i = s
  · subst hi
    rw [if_pos rfl]
    split
    · next h => exact h
    · next h =>
        rw [testBit_xor_two_pow_self]
        cases h1 : rc.1.testBit i <;> cases h2 : rc.2.testBit i <;> simp_all
  · rw [if_neg hi]
    split
    · rfl
    · simp [Nat.testBit_xor, Nat.testBit_two_pow_of_ne (Ne.symm hi)]

theorem testBit_exchange_snd (s : Nat) (rc : Nat × Nat) (i : Nat) :
    (exchange s rc).2.testBit i = if i = s then rc.1.testBit i else rc.2.testBit i := by
  -- the exchange treats the two indices alike
  have hsym : (exchange s rc).2 = (exchange s rc.swap).1 := by
    unfold exchange
    by_cases h : rc.1.testBit s = rc.2.testBit s
    · simp [h]
    · simp [h, Ne.symm h]
  rw [hsym, testBit_exchange_fst]
  rfl

theorem exchange_all {r c : Nat} (hr : r < 64) (hc : c < 64) :
    exchange 5 (exchange 4 (exchange 3 (exchange 2 (exchange 1 (exchange 0 (r, c)))))) =
      (c, r) := by
  -- the bits from the sixth on are zero, and no pass touches them
  have hbig : ∀ i : Nat, ¬ i < 6 → r.testBit i = false ∧ c.testBit i = false := by
    intro i hi
    have h64 : (64 : Nat) ≤ 2 ^ i := Nat.pow_le_pow_right (n := 2) (by decide) (Nat.not_lt.mp hi)
    exact ⟨Nat.testBit_lt_two_pow (by omega), Nat.testBit_lt_two_pow (by omega)⟩
  apply Prod.ext
  all_goals
    apply Nat.eq_of_testBit_eq
    intro i
    simp only [testBit_exchange_fst, testBit_exchange_snd]
    by_cases hi : i < 6
    · interval_cases i <;> simp
    · obtain ⟨h1, h2⟩ := hbig i hi
      simp [h1, h2]

/-- The masks and widths the outer loop goes through. -/
theorem transpose64_eq_passes (a : Rows64) :
    transpose64 a =
      transposePass (2 ^ 0) (passMask 0) (transposePass (2 ^ 1) (passMask 1)
        (transposePass (2 ^ 2) (passMask 2) (transposePass (2 ^ 3) (passMask 3)
          (transposePass (2 ^ 4) (passMask 4) (transposePass (2 ^ 5) (passMask 5) a))))) := by
  -- the first mask is the constant, each later one comes from the one before it
  have h5 : passMask 5 = 0x00000000FFFFFFFF#64 := by decide +kernel
  have h4 : passMask 4 = passMask 5 ^^^ (passMask 5 <<< 16) := by decide +kernel
  have h3 : passMask 3 = passMask 4 ^^^ (passMask 4 <<< 8) := by decide +kernel
  have h2 : passMask 2 = passMask 3 ^^^ (passMask 3 <<< 4) := by decide +kernel
  have h1 : passMask 1 = passMask 2 ^^^ (passMask 2 <<< 2) := by decide +kernel
  have h0 : passMask 0 = passMask 1 ^^^ (passMask 1 <<< 1) := by decide +kernel
  simp only [transpose64, transpose64Loop, ← h5]
  norm_num only [Nat.shiftRight_eq_div_pow, ← h4, ← h3, ← h2, ← h1, ← h0, if_true, if_false]

/-- `transpose64` transposes: bit `c` of row `r` is bit `r` of the original row `c`. -/
theorem bit_transpose64 (a : Rows64) {r c : Nat} (hr : r < 64) (hc : c < 64) :
    (transpose64 a).bit r c = a.bit c r := by
  have h0 := exchange_lt (s := 0) (by decide) hr hc
  have h1 := exchange_lt (s := 1) (by decide) h0.1 h0.2
  have h2 := exchange_lt (s := 2) (by decide) h1.1 h1.2
  have h3 := exchange_lt (s := 3) (by decide) h2.1 h2.2
  have h4 := exchange_lt (s := 4) (by decide) h3.1 h3.2
  rw [transpose64_eq_passes,
    bit_transposePass (by decide) _ hr hc, bit_transposePass (by decide) _ h0.1 h0.2,
    bit_transposePass (by decide) _ h1.1 h1.2, bit_transposePass (by decide) _ h2.1 h2.2,
    bit_transposePass (by decide) _ h3.1 h3.2, bit_transposePass (by decide) _ h4.1 h4.2]
  simp only [Prod.mk.eta, exchange_all hr hc]

theorem transpose64_involutive (a : Rows64) : transpose64 (transpose64 a) = a := by
  apply Vector.ext
  intro k hk
  apply BitVec.eq_of_getLsbD_eq
  intro i hi
  have htwice := bit_transpose64 (transpose64 a) hk hi
  rw [bit_transpose64 a hi hk] at htwice
  simpa only [Rows64.bit, getD_of_lt _ _ hk] using htwice

/-- The outer loop has six passes: more fuel changes nothing. -/
theorem transpose64Loop_of_le {fuel : Nat} (hfuel : 7 ≤ fuel) (a : Rows64) :
    transpose64Loop fuel 32 0x00000000FFFFFFFF#64 a = transpose64 a := by
  obtain ⟨more, rfl⟩ := Nat.exists_eq_add_of_le' hfuel
  -- at width zero the loop has ended, whatever fuel is left
  have hzero : ∀ (n : Nat) (m : U64) (b : Rows64), transpose64Loop n 0 m b = b := fun n m b => by
    cases n <;> rfl
  simp only [transpose64, transpose64Loop]
  norm_num only [Nat.shiftRight_eq_div_pow, hzero, if_true, if_false]

/-! ## The 128×128 transpose -/

theorem getLsbD_joinWords (lo hi : U64) (i : Nat) :
    (joinWords lo hi).getLsbD i = if i < 64 then lo.getLsbD i else hi.getLsbD (i - 64) := by
  simp only [joinWords, BitVec.getLsbD_or, BitVec.getLsbD_setWidth, BitVec.getLsbD_shiftLeft]
  by_cases hi' : i < 64
  · have : i < 128 := by omega
    simp [hi', this]
  · by_cases h128 : i < 128
    · have h : i - 64 < 128 := by omega
      simp [hi', h128, h, BitVec.getLsbD_of_ge lo i (by omega)]
    · simp [hi', h128, BitVec.getLsbD_of_ge hi (i - 64) (by omega)]

/-- `transpose128` transposes: bit `r` of output `c` is bit `c` of row `r`. -/
theorem getLsbD_transpose128 (rows : Vector U128 128) {c r : Nat} (hc : c < 128) (hr : r < 128) :
    ((transpose128 rows).getD c 0#128).getLsbD r = (rows.getD r 0#128).getLsbD c := by
  have hbit : ∀ (a : Rows64) (i j : Nat), i < 64 → j < 64 →
      ((transpose64 a).getD i 0#64).getLsbD j = (a.getD j 0#64).getLsbD i :=
    fun a i j hi hj => bit_transpose64 a hi hj
  have hofFn : ∀ (f : Fin 64 → U64) (i : Nat) (hi : i < 64),
      (Vector.ofFn f).getD i 0#64 = f ⟨i, hi⟩ := fun f i hi => by
    rw [getD_of_lt _ _ hi, Vector.getElem_ofFn]
  rw [show (transpose128 rows).getD c 0#128 = _ from by
    rw [transpose128, getD_of_lt _ _ hc, Vector.getElem_ofFn]]
  -- each quadrant comes from its mirror image
  by_cases hc64 : c < 64 <;> by_cases hr64 : r < 64
  · simp only [hc64, if_true, getLsbD_joinWords, hr64, hbit _ _ _ hc64 hr64, hofFn _ _ hr64]
    simp [hc64]
  · have hr' : r - 64 < 64 := by omega
    simp only [hc64, if_true, getLsbD_joinWords, hr64, if_false, hbit _ _ _ hc64 hr',
      hofFn _ _ hr']
    simp [hc64, show 64 + (r - 64) = r by omega]
  · have hc' : c - 64 < 64 := by omega
    simp only [hc64, if_false, getLsbD_joinWords, hr64, if_true, hbit _ _ _ hc' hr64,
      hofFn _ _ hr64]
    simp [hc', show 64 + (c - 64) = c by omega]
  · have hc' : c - 64 < 64 := by omega
    have hr' : r - 64 < 64 := by omega
    simp only [hc64, if_false, getLsbD_joinWords, hr64, hbit _ _ _ hc' hr', hofFn _ _ hr']
    simp [hc', show 64 + (c - 64) = c by omega, show 64 + (r - 64) = r by omega]

theorem transpose128_involutive (rows : Vector U128 128) :
    transpose128 (transpose128 rows) = rows := by
  apply Vector.ext
  intro k hk
  apply BitVec.eq_of_getLsbD_eq
  intro i hi
  have htwice := getLsbD_transpose128 (transpose128 rows) hk hi
  rw [getLsbD_transpose128 rows hi hk] at htwice
  simpa only [getD_of_lt _ _ hk] using htwice

/-- The word-level transposes move every bit to its mirrored place, twice is the identity, and
    the loops of the swap network visit what they should: pass `s` the rows with bit `s` clear,
    each once and in bounds together with its partner, and six passes in all. -/
theorem word_level_transposes :
    (∀ (a : Rows64) (k i : Fin 64), (transpose64 a)[k].getLsbD i = a[i].getLsbD k) ∧
    (∀ (rows : Vector U128 128) (c r : Fin 128),
      (transpose128 rows)[c].getLsbD r = rows[r].getLsbD c) ∧
    (∀ a : Rows64, transpose64 (transpose64 a) = a) ∧
    (∀ rows : Vector U128 128, transpose128 (transpose128 rows) = rows) ∧
    (∀ (s : Fin 6) (k : Fin 64),
      (BitVec.ofNat 64 (k.val + 2 ^ s.val + 1) &&& ~~~BitVec.ofNat 64 (2 ^ s.val)).toNat =
        (k.val + 2 ^ s.val + 1) ^^^ ((k.val + 2 ^ s.val + 1) &&& 2 ^ s.val)) ∧
    (∀ (s : Fin 6) (fuel : Nat), 64 ≤ fuel →
      swapIndices (2 ^ s.val) fuel 0 = (List.range 64).filter fun k => !k.testBit s) ∧
    (∀ (s : Fin 6), ∀ k ∈ swapIndices (2 ^ s.val) 64 0, k + 2 ^ s.val < 64) ∧
    (∀ (fuel : Nat) (a : Rows64), 7 ≤ fuel →
      transpose64Loop fuel 32 0x00000000FFFFFFFF#64 a = transpose64 a) := by
  refine ⟨?bits64, ?bits128, transpose64_involutive, transpose128_involutive,
    toNat_swapNext, fun s fuel hfuel => swapIndices_zero s hfuel, swapIndices_in_bounds,
    fun fuel a hfuel => transpose64Loop_of_le hfuel a⟩
  case bits64 =>
    intro a k i
    have h := bit_transpose64 a k.isLt i.isLt
    simp only [Rows64.bit, getD_of_lt _ _ k.isLt, getD_of_lt _ _ i.isLt] at h
    exact h
  case bits128 =>
    intro rows c r
    have h := getLsbD_transpose128 rows c.isLt r.isLt
    simp only [getD_of_lt _ _ c.isLt, getD_of_lt _ _ r.isLt] at h
    exact h

end VoleAct.Voleith
