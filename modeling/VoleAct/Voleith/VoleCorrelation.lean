/-
  VoleAct.Voleith.VoleCorrelation

  The VOLE correlation: keys are tags plus `u * Δ`.

  A bit vector is read as the function of its coordinates into `F₂`, so the
  accumulator instantiates the binary counter at such functions.  The verifier
  sums `(i ^ Δ)_b * r_i`, which is the prover's plane plus `Δ_b` times the sum
  of all leaves; the leaf at `Δ` drops out because `i ^ Δ` is zero there.
-/
import VoleAct.Lib.BinaryCounter
import VoleAct.Lib.Lists
import VoleAct.Voleith.Vole

namespace VoleAct.Voleith

open VoleAct.BinaryFields VoleAct.VectorCommit VoleAct.Lib

/-! ## Coordinates in `F₂` -/

/-- A bit as an element of `F₂`. -/
def bitF2 (b : Bool) : ZMod 2 := if b then 1 else 0

@[simp] theorem bitF2_false : bitF2 false = 0 := rfl

@[simp] theorem bitF2_true : bitF2 true = 1 := rfl

theorem bitF2_xor (a b : Bool) : bitF2 (a ^^ b) = bitF2 a + bitF2 b := by
  cases a <;> cases b <;> decide

theorem bitF2_injective : Function.Injective bitF2 := by
  intro a b h
  cases a <;> cases b <;> first | rfl | exact absurd h (by decide)

namespace BitVector

/-- The coordinates of a vector, zero past its end. -/
def coords (v : BitVector) : ℕ → ZMod 2 := fun t => bitF2 (v.bit t)

@[simp] theorem coords_zero (len : Nat) : (zero len).coords = 0 := by
  funext t
  simp [coords]

@[simp] theorem coords_xor (v w : BitVector) (h : v.len = w.len) :
    (v.xor w h).coords = v.coords + w.coords := by
  funext t
  simp [coords, bitF2_xor]

theorem coords_inj {v w : BitVector} (hlen : v.len = w.len) (h : v.coords = w.coords) : v = w :=
  ext hlen fun t _ => bitF2_injective (congrFun h t)

end BitVector

/-! ## The accumulator is a binary counter -/

section Accumulator

variable (ε : Type)

theorem pushLoop_carry {lHat : Nat} {pending : List (Option BitVector)} {planes : List BitVector}
    {cur : BitVector} {c : BinaryCounter (ℕ → ZMod 2)}
    (hpending : ∀ v ∈ pending.reduceOption, v.len = lHat) (hplanes : ∀ v ∈ planes, v.len = lHat)
    (hcur : cur.len = lHat)
    (h : BinaryCounter.carry (pending.map (Option.map BitVector.coords))
      (planes.map BitVector.coords) cur.coords = some c) :
    ∃ pending' planes', (PlaneAccumulator.pushLoop pending planes cur : Outcome ε _) =
        .ok (pending', planes') ∧
      (∀ v ∈ pending'.reduceOption, v.len = lHat) ∧ (∀ v ∈ planes', v.len = lHat) ∧
      pending'.map (Option.map BitVector.coords) = c.pending ∧
      planes'.map BitVector.coords = c.planes := by
  induction pending generalizing planes cur c with
  | nil => simp [BinaryCounter.carry] at h
  | cons slot pending ih =>
      cases slot with
      | none =>
          simp only [List.map_cons, Option.map_none, BinaryCounter.carry, Option.some.injEq] at h
          subst h
          -- a free slot takes the vector and the carry stops
          refine ⟨some cur :: pending, planes, rfl, ?_, hplanes, rfl, rfl⟩
          rw [List.reduceOption_cons_of_some]
          rw [List.reduceOption_cons_of_none] at hpending
          intro v hv
          rcases List.mem_cons.mp hv with rfl | hv
          · exact hcur
          · exact hpending v hv
      | some left =>
          rw [List.reduceOption_cons_of_some] at hpending
          cases planes with
          | nil => simp [BinaryCounter.carry] at h
          | cons plane planes =>
              -- a full slot is emptied into the next, and the plane of this level moves
              have hleft : left.len = lHat := hpending left (by simp)
              have hplane : plane.len = lHat := hplanes plane (by simp)
              have hpc : plane.len = cur.len := by rw [hplane, hcur]
              have hcl : cur.len = left.len := by rw [hcur, hleft]
              simp only [List.map_cons, Option.map_some, BinaryCounter.carry,
                Option.map_eq_some_iff] at h
              obtain ⟨c', hc', rfl⟩ := h
              rw [← BitVector.coords_xor _ _ hcl] at hc'
              obtain ⟨pending', planes', hloop, hp', hpl', hmapp, hmappl⟩ := ih
                (fun v hv => hpending v (by simp [hv])) (fun v hv => hplanes v (by simp [hv]))
                (by rw [BitVector.xor_len, hcur]) hc'
              refine ⟨none :: pending', plane.xor cur hpc :: planes', ?_, ?_, ?_, ?_, ?_⟩
              · simp only [PlaneAccumulator.pushLoop, BitVector.xorAssign_of_len hpc,
                  BitVector.xorAssign_of_len hcl, Outcome.ok_bind, hloop]
                rfl
              · rwa [List.reduceOption_cons_of_none]
              · intro v hv
                rcases List.mem_cons.mp hv with rfl | hv
                · rw [BitVector.xor_len, hplane]
                · exact hpl' v hv
              · rw [List.map_cons, hmapp]
                rfl
              · rw [List.map_cons, hmappl, BitVector.coords_xor]

/-- The counter an accumulator's state denotes. -/
def PlaneAccumulator.counter (acc : PlaneAccumulator) : BinaryCounter (ℕ → ZMod 2) :=
  ⟨acc.pending.map (Option.map BitVector.coords), acc.planes.map BitVector.coords⟩

/-- All vectors an accumulator holds have one length. -/
structure PlaneAccumulator.Uniform (lHat : Nat) (acc : PlaneAccumulator) : Prop where
  pending : ∀ v ∈ acc.pending.reduceOption, v.len = lHat
  planes : ∀ v ∈ acc.planes, v.len = lHat

theorem PlaneAccumulator.new_counter (k lHat : Nat) :
    (PlaneAccumulator.new k lHat).counter = BinaryCounter.new k := by
  simp [PlaneAccumulator.counter, PlaneAccumulator.new, BinaryCounter.new]

theorem PlaneAccumulator.new_uniform (k lHat : Nat) : (PlaneAccumulator.new k lHat).Uniform lHat where
  pending := by simp [PlaneAccumulator.new, List.reduceOption]
  planes v hv := by
    rw [PlaneAccumulator.new, List.mem_replicate] at hv
    rw [hv.2, BitVector.zero_len]

/-- Pushing vectors of one length does what the counter does. -/
theorem foldlM_push {lHat : Nat} (rs : List BitVector) (acc : PlaneAccumulator)
    {c : BinaryCounter (ℕ → ZMod 2)} (hacc : acc.Uniform lHat) (hrs : ∀ r ∈ rs, r.len = lHat)
    (h : acc.counter.pushAll (rs.map BitVector.coords) = some c) :
    ∃ acc', (rs.foldlM PlaneAccumulator.push acc : Outcome ε PlaneAccumulator) = .ok acc' ∧
      acc'.Uniform lHat ∧ acc'.counter = c ∧ acc'.k = acc.k ∧
      acc'.count = acc.count + rs.length := by
  induction rs generalizing acc with
  | nil =>
      obtain rfl : acc.counter = c := by simpa [BinaryCounter.pushAll] using h
      exact ⟨acc, rfl, hacc, rfl, rfl, rfl⟩
  | cons r rs ih =>
      simp only [List.map_cons, BinaryCounter.pushAll, List.foldlM_cons, Option.bind_eq_bind,
        Option.bind_eq_some_iff] at h
      obtain ⟨c₁, hpush, hrest⟩ := h
      obtain ⟨pending', planes', hloop, hp, hpl, hmapp, hmappl⟩ :=
        pushLoop_carry ε hacc.pending hacc.planes (hrs r (by simp)) hpush
      obtain ⟨acc', hfold, huni, hcnt, hk, hcount⟩ := ih
        { acc with pending := pending', planes := planes', count := acc.count + 1 }
        ⟨hp, hpl⟩ (fun r' hr' => hrs r' (by simp [hr']))
        (by rw [PlaneAccumulator.counter, hmapp, hmappl]; exact hrest)
      refine ⟨acc', ?_, huni, hcnt, hk, ?_⟩
      · rw [List.foldlM_cons, PlaneAccumulator.push, hloop]
        exact hfold
      · rw [hcount, List.length_cons]
        exact (Nat.add_right_comm acc.count 1 rs.length).trans (Nat.add_assoc _ _ _)

/-- `k` vectors of one length with given coordinates. -/
def PlanesAre (lHat k : Nat) (planes : List BitVector) (f : ℕ → ℕ → ZMod 2) : Prop :=
  planes.length = k ∧ ∀ b < k, ∃ p, planes[b]? = some p ∧ p.len = lHat ∧ p.coords = f b

/-- The accumulator on `2^k` vectors: their sum, and per bit the sum of those whose index
    has it set. -/
theorem accumulate_spec (k lHat : Nat) {r : ℕ → BitVector} (hlen : ∀ i < 2 ^ k, (r i).len = lHat) :
    ∃ u planes, (accumulate k lHat ((List.range (2 ^ k)).map r) : Outcome ε _) = .ok (u, planes) ∧
      u.len = lHat ∧ u.coords = ∑ i ∈ Finset.range (2 ^ k), (r i).coords ∧
      PlanesAre lHat k planes (BinaryCounter.planeSum k fun i => (r i).coords) := by
  have hfull := BinaryCounter.pushAll_full k fun i => (r i).coords
  rw [← PlaneAccumulator.new_counter k lHat] at hfull
  obtain ⟨acc, hfold, huni, hcounter, hk, hcount⟩ := foldlM_push ε
    ((List.range (2 ^ k)).map r) _ (PlaneAccumulator.new_uniform k lHat)
    (by simpa using hlen) (by rw [List.map_map]; exact hfull)
  have hpending : acc.pending.map (Option.map BitVector.coords) =
      List.replicate k none ++ [some (∑ i ∈ Finset.range (2 ^ k), (r i).coords)] :=
    congrArg BinaryCounter.pending hcounter
  have hplanes : acc.planes.map BitVector.coords =
      (List.range k).map (BinaryCounter.planeSum k fun i => (r i).coords) :=
    congrArg BinaryCounter.planes hcounter
  -- after `2 ^ k` leaves only the top slot is full, and holds the sum
  have htop : acc.pending[k]?.map (Option.map BitVector.coords) =
      some (some (∑ i ∈ Finset.range (2 ^ k), (r i).coords)) := by
    rw [← List.getElem?_map, hpending, List.getElem?_append_right (by simp)]
    simp
  obtain ⟨slot, hslot, hu⟩ := Option.map_eq_some_iff.mp htop
  obtain ⟨u, rfl, hu⟩ := Option.map_eq_some_iff.mp hu
  have hkk : acc.k = k := hk
  have hc : acc.count = 1 <<< acc.k := by
    rw [hcount, hkk, Nat.one_shiftLeft]
    simp [PlaneAccumulator.new]
  refine ⟨u, acc.planes, ?_, ?_, Option.some.inj hu, ?_, fun b hb => ?_⟩
  · simp only [accumulate, hfold, Outcome.ok_bind, PlaneAccumulator.finish, hc, beq_self_eq_true,
      Outcome.assert_true, hkk, hslot, Option.join_some, Outcome.expect_some]
    rfl
  · apply huni.pending
    rw [List.reduceOption_mem_iff]
    exact List.mem_of_getElem? hslot
  · simpa using congrArg List.length hplanes
  · have hb' : acc.planes[b]?.map BitVector.coords =
        some (BinaryCounter.planeSum k (fun i => (r i).coords) b) := by
      rw [← List.getElem?_map, hplanes]
      simp [hb]
    obtain ⟨p, hp, hcoords⟩ := Option.map_eq_some_iff.mp hb'
    exact ⟨p, hp, huni.planes p (List.mem_of_getElem? hp), hcoords⟩

end Accumulator

/-! ## Assembling -/

/-- The element whose bit `pos` is bit `t` of plane `pos`. -/
def coordinateElem (flat : List BitVector) (t : Nat) : GF2p128 :=
  GF2p128.ofBits fun pos => (flat.getD pos (BitVector.zero 0)).bit t

theorem assembleBlock_eq (flat : List BitVector) (w : Nat) {i : Nat} (hi : i < 64) :
    assembleBlock flat w i = coordinateElem flat (64 * w + i) := by
  apply GF2p128.ext_bit
  intro pos hpos
  rw [coordinateElem, GF2p128.bit_ofBits _ hpos]
  have hrow : ∀ (f : Fin 64 → U64) (r : Nat) (hr : r < 64),
      ((transpose64 (Vector.ofFn f)).getD i 0#64).getLsbD r = (f ⟨r, hr⟩).getLsbD i := by
    intro f r hr
    have h := bit_transpose64 (Vector.ofFn f) hi hr
    rwa [Rows64.bit, Rows64.bit, getD_of_lt _ _ hr, Vector.getElem_ofFn] at h
  rw [assembleBlock, GF2p128.bit, getLsbD_joinWords]
  by_cases hlo : pos < 64
  · rw [if_pos hlo, hrow _ _ hlo, BitVector.getLsbD_word64 _ _ hi]
  · have hhi : pos - 64 < 64 := by omega
    rw [if_neg hlo, hrow _ _ hhi, BitVector.getLsbD_word64 _ _ hi,
      Nat.add_sub_cancel' (Nat.le_of_not_lt hlo)]

/-- `assemble` on planes of the right shape. -/
theorem assemble_spec {ε : Type} {planes : List (List BitVector)} {params : Params} (lHat : Nat)
    (hlambda : params.tau * params.k = 128) (hlen : planes.length = params.tau)
    (hk : ∀ l ∈ planes, l.length = params.k) :
    (assemble planes params lHat : Outcome ε (List GF2p128)) =
      .ok ((List.range lHat).map (coordinateElem planes.flatten)) := by
  have hflat : planes.flatten.length = 128 := by
    rw [List.length_flatten, ← hlambda, ← hlen]
    rw [List.map_congr_left hk]
    simp
  have hall : planes.all (fun treePlanes => treePlanes.length == params.k) = true := by
    simpa using hk
  have hblocks : ((List.range ((lHat + 64 - 1) / 64)).flatMap fun w =>
      (List.range (min 64 (lHat - 64 * w))).map (assembleBlock planes.flatten w)) =
        (List.range lHat).map (coordinateElem planes.flatten) := by
    rw [← flatMap_blocks (c := 64) (by decide)]
    congr 1
    funext w
    apply List.map_congr_left
    intro i hi
    rw [List.mem_range] at hi
    exact assembleBlock_eq _ _ (by omega)
  simp only [assemble, hlen, hall, hflat, beq_self_eq_true, Outcome.assert_true, Outcome.ok_bind,
    hblocks]
  rfl

theorem bit_coordinateElem {planes : List (List BitVector)} {params : Params}
    (hlambda : params.tau * params.k = 128) (hk : ∀ l ∈ planes, l.length = params.k) {j b : Nat}
    (hj : j < params.tau) (hb : b < params.k) {plane : BitVector}
    (hplane : (planes[j]?.bind (·[b]?)) = some plane) (t : Nat) :
    (coordinateElem planes.flatten t).bit (j * params.k + b) = plane.bit t := by
  have hpos : j * params.k + b < 128 := by
    calc j * params.k + b < j * params.k + params.k := Nat.add_lt_add_left hb _
      _ = (j + 1) * params.k := (Nat.succ_mul j params.k).symm
      _ ≤ params.tau * params.k := Nat.mul_le_mul_right _ hj
      _ = 128 := hlambda
  rw [coordinateElem, GF2p128.bit_ofBits _ hpos, List.getD_eq_getElem?_getD,
    getElem?_flatten_of_length hk hb, hplane, Option.getD_some]

/-- Elements assembled from planes with given coordinates. -/
theorem assemble_planesAre (ε : Type) (planes : List (List BitVector)) {params : Params}
    {lHat : Nat} (hvalid : params.Valid) (hlen : planes.length = params.tau)
    {f : ℕ → ℕ → ℕ → ZMod 2}
    (hplanes : ∀ j < params.tau, ∃ l, planes[j]? = some l ∧ PlanesAre lHat params.k l (f j)) :
    ∃ elems, (assemble planes params lHat : Outcome ε (List GF2p128)) = .ok elems ∧
      elems.length = lHat ∧
      ∀ t < lHat, ∀ j < params.tau, ∀ b < params.k,
        bitF2 ((elems.getD t 0).bit (j * params.k + b)) = f j b t := by
  have hk : ∀ l ∈ planes, l.length = params.k := by
    intro l hl
    obtain ⟨j, hj⟩ := List.mem_iff_getElem?.mp hl
    have hjt : j < params.tau := hlen ▸ (List.getElem?_eq_some_iff.mp hj).1
    obtain ⟨l', hl', hplen, -⟩ := hplanes j hjt
    obtain rfl : l = l' := Option.some.inj (hj.symm.trans hl')
    exact hplen
  refine ⟨_, assemble_spec lHat hvalid.tau_mul_k hlen hk, by simp, fun t ht j hj b hb => ?_⟩
  obtain ⟨l, hl, -, hl'⟩ := hplanes j hj
  obtain ⟨p, hp, -, hcoords⟩ := hl' b hb
  have hget : (planes[j]?.bind (·[b]?)) = some p := by rw [hl]; exact hp
  have helem : ((List.range lHat).map (coordinateElem planes.flatten)).getD t 0 =
      coordinateElem planes.flatten t := by
    simp [List.getD_eq_getElem?_getD, ht]
  rw [helem, bit_coordinateElem hvalid.tau_mul_k hk hj hb hget, ← hcoords]
  rfl

/-- Every bit position of an element is one bit of one chunk. -/
theorem ext_chunks {params : Params} (hvalid : params.Valid) {a b : GF2p128}
    (h : ∀ j < params.tau, ∀ c < params.k,
      bitF2 (a.bit (j * params.k + c)) = bitF2 (b.bit (j * params.k + c))) : a = b := by
  apply GF2p128.ext_bit
  intro pos hpos
  have hk : 0 < params.k := hvalid.k_pos
  have hj : pos / params.k < params.tau := by
    rw [Nat.div_lt_iff_lt_mul hk, hvalid.tau_mul_k]
    exact hpos
  have hsplit : pos / params.k * params.k + pos % params.k = pos := by
    rw [Nat.mul_comm, Nat.div_add_mod]
  have hbit := h _ hj _ (Nat.mod_lt pos hk)
  rw [hsplit] at hbit
  exact bitF2_injective hbit

/-! ## The verifier's planes -/

theorem ite_eq_bitF2_smul {M : Type} [AddCommGroup M] [Module (ZMod 2) M] (b : Bool) (m : M) :
    (if b then m else 0) = bitF2 b • m := by
  cases b <;> simp

/-- Walking the leaves in the order `e = i ^ delta` with a hole at `delta`. -/
theorem planeSum_xor {M : Type} [AddCommGroup M] [Module (ZMod 2) M] {k delta : ℕ}
    (hdelta : delta < 2 ^ k) (f : ℕ → M) (b : ℕ) :
    BinaryCounter.planeSum k (fun e => if e = 0 then 0 else f (e ^^^ delta)) b =
      BinaryCounter.planeSum k f b +
        bitF2 (delta.testBit b) • ∑ i ∈ Finset.range (2 ^ k), f i := by
  have hreindex : BinaryCounter.planeSum k (fun e => if e = 0 then 0 else f (e ^^^ delta)) b =
      ∑ i ∈ Finset.range (2 ^ k), if (i ^^^ delta).testBit b then f i else 0 := by
    apply Finset.sum_nbij' (· ^^^ delta) (· ^^^ delta)
    · intro e he
      rw [Finset.mem_range] at he ⊢
      exact Nat.xor_lt_two_pow he hdelta
    · intro i hi
      rw [Finset.mem_range] at hi ⊢
      exact Nat.xor_lt_two_pow hi hdelta
    · intro e _
      exact Nat.xor_xor_cancel_right e delta
    · intro i _
      exact Nat.xor_xor_cancel_right i delta
    · intro e _
      rw [Nat.xor_xor_cancel_right]
      by_cases he : e = 0
      · simp [he]
      · simp only [if_neg he]
  rw [hreindex, BinaryCounter.planeSum, Finset.smul_sum, ← Finset.sum_add_distrib]
  apply Finset.sum_congr rfl
  intro i _
  rw [ite_eq_bitF2_smul, ite_eq_bitF2_smul, Nat.testBit_xor, bitF2_xor, add_smul]

theorem shift_and_one_eq_one_iff (n b : Nat) : (n >>> b) &&& 1 = 1 ↔ n.testBit b = true := by
  rw [Nat.testBit, Nat.and_comm]
  rcases Nat.mod_two_eq_zero_or_one (n >>> b) with h | h <;> simp [h]

/-- The coordinates of an optional correction. -/
def correctionCoords (correction : Option BitVector) : ℕ → ZMod 2 :=
  correction.elim 0 BitVector.coords

/-- The verifier's planes are the prover's plus `Δ_b` times the corrected sum of all leaves,
    whatever the leaf at the hole is. -/
theorem keyPlanes_spec {ε : Type} {params : Params} (hvalid : params.Valid) {lHat delta : Nat}
    (hdelta : delta < 2 ^ params.k) (leaf : Nat → Outcome ε BitVector) {r : ℕ → BitVector}
    (hlen : ∀ i < 2 ^ params.k, (r i).len = lHat)
    (hleaf : ∀ i < 2 ^ params.k, i ≠ delta → leaf i = .ok (r i)) {correction : Option BitVector}
    (hcorrection : ∀ c, correction = some c → c.len = lHat) :
    ∃ planes, keyPlanes params lHat delta leaf correction = .ok planes ∧
      PlanesAre lHat params.k planes fun b =>
        BinaryCounter.planeSum params.k (fun i => (r i).coords) b +
          bitF2 (delta.testBit b) •
            (∑ i ∈ Finset.range (2 ^ params.k), (r i).coords + correctionCoords correction) := by
  -- the vectors in walking order
  let r' : ℕ → BitVector := fun e => if e = 0 then BitVector.zero lHat else r (e ^^^ delta)
  have hr' : ∀ e ∈ List.range (2 ^ params.k),
      (if e = 0 then .ok (BitVector.zero lHat) else leaf (e ^^^ delta) : Outcome ε BitVector) =
        .ok (r' e) := by
    intro e he
    rw [List.mem_range] at he
    by_cases h0 : e = 0
    · simp [r', h0]
    · have hne : e ^^^ delta ≠ delta := by
        intro h
        apply h0
        have := congrArg (· ^^^ delta) h
        simpa [Nat.xor_self] using this
      simp [r', h0, hleaf _ (Nat.xor_lt_two_pow he hdelta) hne]
  have hlen' : ∀ e < 2 ^ params.k, (r' e).len = lHat := by
    intro e he
    by_cases h0 : e = 0
    · simp [r', h0]
    · simp [r', h0, hlen _ (Nat.xor_lt_two_pow he hdelta)]
  have hcoords' : (fun e => (r' e).coords) =
      fun e => if e = 0 then 0 else (fun i => (r i).coords) (e ^^^ delta) := by
    funext e
    by_cases h0 : e = 0 <;> simp [r', h0]
  -- walking by `e ^^^ delta` moves the planes by the sum of all leaves
  obtain ⟨u, planes, hacc, -, -, hplanes⟩ := accumulate_spec ε params.k lHat hlen'
  rw [hcoords', funext (planeSum_xor hdelta fun i => (r i).coords)] at hplanes
  obtain ⟨hplen, hplanes⟩ := hplanes
  simp only [keyPlanes, hvalid.leaves_eq, Outcome.mapM_ok hr', Outcome.ok_bind, hacc]
  cases correction with
  | none =>
      refine ⟨planes, rfl, hplen, fun b hb => ?_⟩
      simpa [correctionCoords] using hplanes b hb
  | some c =>
      have hc : c.len = lHat := hcorrection c rfl
      -- the correction goes into the planes of the set bits of the chunk
      obtain ⟨out, hout, hall⟩ := Outcome.mapM_exists (l := planes.zipIdx)
        (f := fun x =>
          (if (delta >>> x.2) &&& 1 = 1 then x.1.xorAssign c else .ok x.1 : Outcome ε BitVector))
        (P := fun x y => y.len = lHat ∧
          y.coords = x.1.coords + bitF2 (delta.testBit x.2) • c.coords) (by
          rintro ⟨plane, b⟩ hmem
          have hget : planes[b]? = some plane := List.mk_mem_zipIdx_iff_getElem?.mp hmem
          have hb : b < params.k := hplen ▸ (List.getElem?_eq_some_iff.mp hget).1
          obtain ⟨p, hp, hpl, -⟩ := hplanes b hb
          obtain rfl : p = plane := Option.some.inj (hp.symm.trans hget)
          simp only [shift_and_one_eq_one_iff]
          cases hbit : delta.testBit b
          · exact ⟨p, by simp, hpl, by simp⟩
          · have hpc : p.len = c.len := by rw [hpl, hc]
            exact ⟨p.xor c hpc, by simp [BitVector.xorAssign_of_len hpc], by simp [hpl], by simp⟩)
      refine ⟨out, hout, ?_, fun b hb => ?_⟩
      · rw [← hall.length_eq, List.length_zipIdx, hplen]
      · obtain ⟨p, hp, -, hpcoords⟩ := hplanes b hb
        have hzip : planes.zipIdx[b]? = some (p, b) := by simp [hp]
        obtain ⟨q, hq, hqlen, hqcoords⟩ := forall₂_getElem? hall hzip
        refine ⟨q, hq, hqlen, ?_⟩
        simp only [hqcoords, hpcoords, correctionCoords, Option.elim_some, smul_add, add_assoc]

/-! ## Committing -/

section Commit

variable (H : Xof)

/-- Root seed `j`. -/
def rootSeed (rootSeeds : List Seed) (j : Nat) : Seed := rootSeeds.getD j (Vector.replicate 16 0#8)

/-- The expansion of leaf `i` of the committed tree `j`. -/
def leafVector (rootSeeds : List Seed) (salt : Salt) (lHat : Nat) (params : Params) (j i : Nat) :
    BitVector :=
  expandLeaf H salt j i
    (nodeSeed H (treeSalt H salt j) 0 (rootSeed rootSeeds j) params.k i) lHat

/-- The sum of all leaf expansions of tree `j`. -/
def leafSum (rootSeeds : List Seed) (salt : Salt) (lHat : Nat) (params : Params) (j : Nat) :
    ℕ → ZMod 2 :=
  ∑ i ∈ Finset.range (2 ^ params.k), (leafVector H rootSeeds salt lHat params j i).coords

/-- The coordinates of plane `b` of tree `j`. -/
def leafPlane (rootSeeds : List Seed) (salt : Salt) (lHat : Nat) (params : Params) (j b : Nat) :
    ℕ → ZMod 2 :=
  BinaryCounter.planeSum params.k
    (fun i => (leafVector H rootSeeds salt lHat params j i).coords) b

/-- The tree committed for repetition `j`. -/
def committedTree (rootSeeds : List Seed) (salt : Salt) (params : Params) (j : Nat) : AllButOneVc :=
  expandTree H (rootSeed rootSeeds j) (treeSalt H salt j) params.k

/-- The commitment published for repetition `j`. -/
def committedRoot (rootSeeds : List Seed) (salt : Salt) (params : Params) (j : Nat) :
    VcCommitment :=
  ⟨rootHash H (treeSalt H salt j) params.k (committedTree H rootSeeds salt params j).leafComs⟩

/-- What `commitTree` returns for tree `j`. -/
structure TreeSpec (rootSeeds : List Seed) (salt : Salt) (lHat : Nat) (params : Params) (j : Nat)
    (t : AllButOneVc × VcCommitment × BitVector × List BitVector) : Prop where
  tree : t.1 = committedTree H rootSeeds salt params j
  com : t.2.1 = committedRoot H rootSeeds salt params j
  len : t.2.2.1.len = lHat
  sum : t.2.2.1.coords = leafSum H rootSeeds salt lHat params j
  planes : PlanesAre lHat params.k t.2.2.2 (leafPlane H rootSeeds salt lHat params j)

/-- The expanded leaves of a committed tree. -/
theorem committedTree_leaves (rootSeeds : List Seed) (salt : Salt) (lHat : Nat) (params : Params)
    (j : Nat) : (committedTree H rootSeeds salt params j).leaves.zipIdx.map
      (fun (leaf, i) => expandLeaf H salt j i leaf lHat) =
        (List.range (2 ^ params.k)).map (leafVector H rootSeeds salt lHat params j) := by
  rw [committedTree, expandTree_leaves]
  apply List.ext_getElem
  · simp [levelSeeds]
  · intro i h1 h2
    simp [levelSeeds, leafVector]

theorem commitTree_spec {rootSeeds : List Seed} {salt : Salt} {lHat : Nat} {params : Params}
    (hvalid : params.Valid) {j : Nat} (hj : j < rootSeeds.length) :
    ∃ t, commitTree H rootSeeds salt lHat params j = .ok t ∧
      TreeSpec H rootSeeds salt lHat params j t := by
  obtain ⟨u, planes, hacc, hlen, hu, hplanes⟩ := accumulate_spec VcError params.k lHat
    (r := leafVector H rootSeeds salt lHat params j) fun i _ => BitVector.fromXof_len _ _
  have hroot : (Outcome.index rootSeeds j : Outcome VcError Seed) = .ok (rootSeed rootSeeds j) := by
    rw [Outcome.index_of_lt hj, rootSeed, List.getD_eq_getElem?_getD, List.getElem?_eq_getElem hj,
      Option.getD_some]
  have hcommit : VectorCommit.commit H (rootSeed rootSeeds j) (treeSalt H salt j) params.k =
      .ok (committedTree H rootSeeds salt params j, committedRoot H rootSeeds salt params j) := by
    have hpos : params.k ≠ 0 := Nat.pos_iff_ne_zero.mp hvalid.k_pos
    have hmax : params.k ≤ maxDepth := hvalid.k_le
    simp only [VectorCommit.commit, hpos, hmax, ne_eq, not_false_eq_true, and_self, decide_true,
      Outcome.require_true, Outcome.ok_bind]
    rfl
  refine ⟨(_, _, u, planes), ?_, rfl, rfl, hlen, hu, hplanes⟩
  simp only [commitTree, hroot, hcommit, Outcome.ok_bind, committedTree_leaves, hacc]
  rfl

/-- The corrections re-base every later tree's sum onto the first one's. -/
theorem corrections_spec {lHat : Nat} {u : BitVector} (hu : u.len = lHat) (us : List BitVector)
    (hus : ∀ v ∈ us, v.len = lHat) :
    ∃ cs, (us.mapM fun uj => u.xorAssign uj : Outcome VcError (List BitVector)) = .ok cs ∧
      List.Forall₂ (fun uj c => c.len = lHat ∧ c.coords = u.coords + uj.coords) us cs := by
  apply Outcome.mapM_exists
  intro uj huj
  have heq : u.len = uj.len := by rw [hu, hus uj huj]
  exact ⟨u.xor uj heq, BitVector.xorAssign_of_len heq, hu, BitVector.coords_xor _ _ heq⟩

/-- What `ProverVole::commit` returns. -/
structure CommitSpec (rootSeeds : List Seed) (salt : Salt) (lHat : Nat) (params : Params)
    (vole : ProverVole) : Prop where
  u_len : vole.u.len = lHat
  u_coords : vole.u.coords = leafSum H rootSeeds salt lHat params 0
  coms : ∀ j < params.tau, vole.coms[j]? = some (committedRoot H rootSeeds salt params j)
  coms_length : vole.coms.length = params.tau
  trees : vole.trees = (List.range params.tau).map (committedTree H rootSeeds salt params)
  corrections_length : vole.corrections.length = params.tau - 1
  corrections : ∀ j < params.tau - 1, ∃ c, vole.corrections[j]? = some c ∧ c.len = lHat ∧
    c.coords = vole.u.coords + leafSum H rootSeeds salt lHat params (j + 1)
  tags_length : vole.tags.length = lHat
  tags : ∀ t < lHat, ∀ j < params.tau, ∀ b < params.k,
    bitF2 ((vole.tags.getD t 0).bit (j * params.k + b)) =
      leafPlane H rootSeeds salt lHat params j b t

theorem commit_spec {rootSeeds : List Seed} (salt : Salt) (lHat : Nat) {params : Params}
    (hvalid : params.Valid) (hlen : rootSeeds.length = params.tau) :
    ∃ vole, ProverVole.commit H rootSeeds salt lHat params = .ok vole ∧
      CommitSpec H rootSeeds salt lHat params vole := by
  obtain ⟨perTree, hper, hall⟩ := Outcome.mapM_exists (l := List.range params.tau)
    (f := commitTree H rootSeeds salt lHat params)
    (P := TreeSpec H rootSeeds salt lHat params) (fun j hj =>
      commitTree_spec H hvalid (hlen ▸ List.mem_range.mp hj))
  have hperlen : perTree.length = params.tau := by
    rw [← hall.length_eq, List.length_range]
  have hget : ∀ j < params.tau, ∃ t, perTree[j]? = some t ∧
      TreeSpec H rootSeeds salt lHat params j t := fun j hj =>
    forall₂_getElem? hall (List.getElem?_range hj)
  have hspec : ∀ (j : Nat) (h : j < perTree.length),
      TreeSpec H rootSeeds salt lHat params j perTree[j] := by
    intro j h
    obtain ⟨t, ht, hts⟩ := hget j (hperlen ▸ h)
    rw [List.getElem?_eq_getElem h] at ht
    rwa [Option.some.inj ht]
  -- the shared vector is tree 0's
  have h0 : 0 < perTree.length := hperlen ▸ hvalid.tau_pos
  have hu0 := hspec 0 h0
  have hus0 : (Outcome.index (perTree.map fun t => t.2.2.1) 0 : Outcome VcError BitVector) =
      .ok perTree[0].2.2.1 := by
    rw [Outcome.index, List.getElem?_map, List.getElem?_eq_getElem h0]
    rfl
  obtain ⟨corrections, hcorr, hcall⟩ := corrections_spec hu0.len
    (perTree.map fun t => t.2.2.1).tail (by
      intro v hv
      obtain ⟨t, ht, rfl⟩ := List.mem_map.mp (List.mem_of_mem_tail hv)
      obtain ⟨j, hj, rfl⟩ := List.getElem_of_mem ht
      exact (hspec j hj).len)
  -- the tags are the planes of all trees, side by side
  obtain ⟨tags, htags, htlen, htbits⟩ := assemble_planesAre VcError
    (perTree.map fun t => t.2.2.2) hvalid (by rw [List.length_map, hperlen])
    (f := leafPlane H rootSeeds salt lHat params) (by
      intro j hj
      obtain ⟨t, ht, hts⟩ := hget j hj
      exact ⟨t.2.2.2, by rw [List.getElem?_map, ht]; rfl, hts.planes⟩)
  refine ⟨⟨perTree[0].2.2.1, tags, perTree.map fun t => t.2.1, corrections,
    perTree.map fun t => t.1⟩, ?_, ?_⟩
  · simp only [ProverVole.commit, Params.validate_of_valid hvalid, hlen, decide_true,
      beq_self_eq_true, Bool.and_self, Outcome.require_true, Outcome.ok_bind, hper, hus0, hcorr,
      htags]
    rfl
  · refine ⟨hu0.len, hu0.sum, fun j hj => ?_, by simp [hperlen], ?_, ?_, fun j hj => ?_, htlen,
      htbits⟩
    · obtain ⟨t, ht, hts⟩ := hget j hj
      simp only [List.getElem?_map, ht, Option.map_some, hts.com]
    · apply List.ext_getElem
      · simp [hperlen]
      · intro j h1 h2
        simp only [List.getElem_map, List.getElem_range]
        exact (hspec j (by simpa using h1)).tree
    · rw [← hcall.length_eq]
      simp [hperlen]
    · obtain ⟨t, ht, hts⟩ := hget (j + 1) (by omega)
      have htail : (perTree.map fun t => t.2.2.1).tail[j]? = some t.2.2.1 := by
        rw [List.getElem?_tail, List.getElem?_map, ht]
        rfl
      obtain ⟨c, hc, hclen, hccoords⟩ := forall₂_getElem? hcall htail
      exact ⟨c, hc, hclen, by rw [hccoords, hts.sum]⟩

end Commit

/-! ## Splitting the challenge -/

/-- The chunks of a valid parameter set: one per tree, each an index of a leaf, holding the
    bits of `Δ` at the tree's positions. -/
theorem splitDelta_spec (chall : Bytes 16) {params : Params} (hvalid : params.Valid) :
    (splitDelta chall params).2.length = params.tau ∧
    ∀ j < params.tau, ∃ delta, (splitDelta chall params).2[j]? = some delta ∧
      delta < 2 ^ params.k ∧
      ∀ b < params.k, (splitDelta chall params).1.bit (j * params.k + b) = delta.testBit b := by
  have hk24 := hvalid.k_le
  have hmask := toNat_lowMask (show params.k < 128 by omega)
  simp only [splitDelta, Params.validate_of_valid hvalid, if_true]
  refine ⟨by simp, fun j hj => ?_⟩
  have hoffset : j * params.k < 128 := by
    calc j * params.k < params.tau * params.k := Nat.mul_lt_mul_of_pos_right hj hvalid.k_pos
      _ = 128 := hvalid.tau_mul_k
  refine ⟨_, by rw [List.getElem?_map, List.getElem?_range hj, Option.map_some, if_pos hoffset],
    ?_, fun b hb => ?_⟩
  · rw [BitVec.toNat_and, hmask, Nat.and_two_pow_sub_one_eq_mod]
    exact Nat.mod_lt _ (Nat.two_pow_pos _)
  · rw [BitVec.toNat_and, hmask, Nat.and_two_pow_sub_one_eq_mod, Nat.testBit_mod_two_pow,
      decide_eq_true hb, Bool.true_and, BitVec.testBit_toNat, BitVec.getLsbD_ushiftRight]
    rfl

/-! ## The correlation -/

variable (H : Xof)

/-- The openings an honest prover publishes for the chunk indices. -/
def honestOpenings (rootSeeds : List Seed) (salt : Salt) (params : Params) (deltas : List Nat) :
    List VcOpening :=
  deltas.zipIdx.map fun (delta, j) =>
    honestOpening H (treeSalt H salt j) (rootSeed rootSeeds j) params.k delta

theorem open_spec {rootSeeds : List Seed} {salt : Salt} {lHat : Nat} {params : Params}
    {vole : ProverVole} (hspec : CommitSpec H rootSeeds salt lHat params vole) {deltas : List Nat}
    (hlen : deltas.length = params.tau) (hdeltas : ∀ d ∈ deltas, d < 2 ^ params.k) :
    vole.open deltas = .ok (honestOpenings H rootSeeds salt params deltas) := by
  have hzip : vole.trees.zip deltas =
      deltas.zipIdx.map fun (d, j) => (committedTree H rootSeeds salt params j, d) := by
    apply List.ext_getElem
    · simp [hspec.trees, hlen]
    · intro j h1 h2
      simp [hspec.trees]
  have hopen : ∀ x ∈ deltas.zipIdx, (committedTree H rootSeeds salt params x.2).openAllButOne x.1 =
      .ok (honestOpening H (treeSalt H salt x.2) (rootSeed rootSeeds x.2) params.k x.1) := by
    rintro ⟨d, j⟩ hmem
    exact openAllButOne_expandTree H _ _ (hdeltas d (List.fst_mem_of_mem_zipIdx hmem))
  have htrees : vole.trees.length = params.tau := by simp [hspec.trees]
  simp only [ProverVole.open, hlen, htrees, beq_self_eq_true, Outcome.require_true, Outcome.ok_bind,
    hzip, List.mapM_map]
  exact Outcome.mapM_ok hopen

/-- The verifier's planes of tree `j`, from an honest opening. -/
theorem reconstructTree_spec {rootSeeds : List Seed} {salt : Salt} {lHat : Nat} {params : Params}
    (hvalid : params.Valid) {vole : ProverVole}
    (hspec : CommitSpec H rootSeeds salt lHat params vole) {deltas : List Nat} {j delta : Nat}
    (hj : j < params.tau) (hdelta : deltas[j]? = some delta) (hlt : delta < 2 ^ params.k) :
    ∃ planes, reconstructTree H salt lHat params vole.coms vole.corrections deltas
        (honestOpenings H rootSeeds salt params deltas) j = .ok planes ∧
      PlanesAre lHat params.k planes fun b =>
        leafPlane H rootSeeds salt lHat params j b + bitF2 (delta.testBit b) • vole.u.coords := by
  have hopening : (Outcome.index (honestOpenings H rootSeeds salt params deltas) j :
      Outcome VcError VcOpening) =
        .ok (honestOpening H (treeSalt H salt j) (rootSeed rootSeeds j) params.k delta) := by
    rw [Outcome.index, honestOpenings, List.getElem?_map, List.getElem?_zipIdx, hdelta]
    simp
  have hcom : (Outcome.index vole.coms j : Outcome VcError VcCommitment) =
      .ok (committedRoot H rootSeeds salt params j) := by
    rw [Outcome.index, hspec.coms j hj, Outcome.expect_some]
  have hdel : (Outcome.index deltas j : Outcome VcError Nat) = .ok delta := by
    rw [Outcome.index, hdelta, Outcome.expect_some]
  have hverify := verify_honestOpening H (treeSalt H salt j) (rootSeed rootSeeds j)
    (Nat.pos_iff_ne_zero.mp hvalid.k_pos) (show params.k ≤ maxDepth from hvalid.k_le) hlt
  -- the correction of this tree, and what it makes of the tree's sum
  obtain ⟨correction, hcorr, hclen, hccoords⟩ : ∃ correction : Option BitVector,
      treeCorrection vole.corrections j = .ok correction ∧
      (∀ c, correction = some c → c.len = lHat) ∧
      leafSum H rootSeeds salt lHat params j + correctionCoords correction = vole.u.coords := by
    rcases Nat.eq_zero_or_pos j with rfl | hpos
    · exact ⟨none, rfl, by simp, by rw [hspec.u_coords, correctionCoords, Option.elim_none, add_zero]⟩
    · obtain ⟨c, hc, hclen, hccoords⟩ := hspec.corrections (j - 1) (by omega)
      refine ⟨some c, ?_, by simpa using hclen, ?_⟩
      · rw [treeCorrection, if_pos hpos, Outcome.index, hc]
        rfl
      · rw [Nat.sub_add_cancel hpos] at hccoords
        rw [correctionCoords, Option.elim_some, hccoords, add_left_comm, CharTwo.add_self_eq_zero,
          add_zero]
  obtain ⟨planes, hplanes, hare⟩ := keyPlanes_spec hvalid hlt
    (fun i => do
      let leaf ← Outcome.index (openedLeaves H (treeSalt H salt j) (rootSeed rootSeeds j) params.k
        delta) i
      let seed ← Outcome.expect leaf
      return expandLeaf H salt j i seed lHat : Nat → Outcome VcError BitVector)
    (r := leafVector H rootSeeds salt lHat params j) (fun i _ => BitVector.fromXof_len _ _)
    (by
      intro i hi hne
      simp only [Outcome.index, openedLeaves, List.getElem?_map, List.getElem?_range hi,
        Option.map_some, if_neg hne, Outcome.expect_some, Outcome.ok_bind]
      rfl) hclen
  have hare' : PlanesAre lHat params.k planes fun b =>
      leafPlane H rootSeeds salt lHat params j b + bitF2 (delta.testBit b) • vole.u.coords := by
    rw [← hccoords]
    exact hare
  refine ⟨planes, ?_, hare'⟩
  simp only [reconstructTree, hdel, hcom, hopening, Outcome.ok_bind, committedRoot, committedTree,
    hverify, hcorr, hplanes]

/-- Every correction of a committed VOLE is as long as the VOLE. -/
theorem CommitSpec.corrections_len {rootSeeds : List Seed} {salt : Salt} {lHat : Nat}
    {params : Params} {vole : ProverVole} (hspec : CommitSpec H rootSeeds salt lHat params vole) :
    vole.corrections.all (fun c => c.len == lHat) = true := by
  rw [List.all_eq_true]
  intro c hc
  obtain ⟨j, hj⟩ := List.mem_iff_getElem?.mp hc
  obtain ⟨c', hc', hclen, -⟩ := hspec.corrections j
    (hspec.corrections_length ▸ (List.getElem?_eq_some_iff.mp hj).1)
  rw [Option.some.inj (hj.symm.trans hc')]
  simpa using hclen

/-- Opening a committed VOLE and reconstructing its keys succeeds, and the keys are the tags
    plus `u * Δ`. -/
theorem CommitSpec.reconstruct {rootSeeds : List Seed} {salt : Salt} {lHat : Nat} {params : Params}
    (hvalid : params.Valid) {vole : ProverVole}
    (hspec : CommitSpec H rootSeeds salt lHat params vole) (chall : Bytes 16) :
    ∃ openings keys,
      vole.open (splitDelta chall params).2 = .ok openings ∧
      openings.length = params.tau ∧
      reconstructKeys H salt lHat params vole.coms vole.corrections (splitDelta chall params).2
        openings = .ok keys ∧
      keys.length = lHat ∧
      ∀ t < lHat, keys.getD t 0 =
        vole.tags.getD t 0 + GF2p128.ofBool (vole.u.bit t) * (splitDelta chall params).1 := by
  obtain ⟨hchunks, hdelta⟩ := splitDelta_spec chall hvalid
  have hlt : ∀ d ∈ (splitDelta chall params).2, d < 2 ^ params.k := by
    intro d hd
    obtain ⟨j, hj⟩ := List.mem_iff_getElem?.mp hd
    obtain ⟨d', hd', hlt, -⟩ := hdelta j (hchunks ▸ (List.getElem?_eq_some_iff.mp hj).1)
    rwa [Option.some.inj (hj.symm.trans hd')]
  -- one tree at a time; its chunk of `Δ` has its own bits
  obtain ⟨planes, hplanes, hall⟩ := Outcome.mapM_exists (l := List.range params.tau)
    (f := reconstructTree H salt lHat params vole.coms vole.corrections (splitDelta chall params).2
      (honestOpenings H rootSeeds salt params (splitDelta chall params).2))
    (P := fun j l => PlanesAre lHat params.k l fun b =>
      leafPlane H rootSeeds salt lHat params j b +
        bitF2 ((splitDelta chall params).1.bit (j * params.k + b)) • vole.u.coords) (by
      intro j hj
      rw [List.mem_range] at hj
      obtain ⟨d, hd, hdlt, hbits⟩ := hdelta j hj
      obtain ⟨l, hl, hlen, hare⟩ := reconstructTree_spec H hvalid hspec hj hd hdlt
      refine ⟨l, hl, hlen, fun b hb => ?_⟩
      simp only [hbits b hb]
      exact hare b hb)
  obtain ⟨keys, hkeys, hkeylen, hkeybits⟩ := assemble_planesAre VcError planes hvalid
    (by rw [← hall.length_eq, List.length_range])
    (fun j hj => forall₂_getElem? hall (List.getElem?_range hj))
  have hopenings : (honestOpenings H rootSeeds salt params (splitDelta chall params).2).length =
      params.tau := by
    simp [honestOpenings, hchunks]
  refine ⟨_, keys, open_spec H hspec hchunks hlt, hopenings, ?_, hkeylen, fun t ht => ?_⟩
  · simp only [reconstructKeys, Params.validate_of_valid hvalid, hspec.coms_length,
      hspec.corrections_length, hchunks, hopenings, hspec.corrections_len, hplanes, hkeys, decide_true,
      beq_self_eq_true, Bool.and_self, Outcome.require_true, Outcome.ok_bind]
  -- a key is the tag plus `u * Δ` because it is so in every bit
  · apply ext_chunks hvalid
    intro j hj b hb
    rw [hkeybits t ht j hj b hb, GF2p128.bit_add, bitF2_xor, hspec.tags t ht j hj b hb,
      Pi.add_apply, Pi.smul_apply, smul_eq_mul, mul_comm]
    congr 1
    show bitF2 (vole.u.bit t) * _ = _
    cases vole.u.bit t <;> simp

/-- The VOLE correlation, for every valid parameter set, length, seeds, salt and challenge and
    whatever the hash function: committing, opening and reconstructing succeed, and every key
    is the tag plus `u * Δ`. -/
theorem vole_correlation (params : Params) (hparams : params.validate = .ok ()) (lHat : Nat)
    (rootSeeds : List Seed) (hroots : rootSeeds.length = params.tau) (salt : Salt)
    (chall : Bytes 16) :
    ∃ vole openings keys,
      ProverVole.commit H rootSeeds salt lHat params = .ok vole ∧
      vole.open (splitDelta chall params).2 = .ok openings ∧
      reconstructKeys H salt lHat params vole.coms vole.corrections (splitDelta chall params).2
        openings = .ok keys ∧
      vole.u.len = lHat ∧ vole.tags.length = lHat ∧ keys.length = lHat ∧
      ∀ t < lHat, keys.getD t 0 =
        vole.tags.getD t 0 + GF2p128.ofBool (vole.u.bit t) * (splitDelta chall params).1 := by
  have hvalid := Params.validate_eq_ok.mp hparams
  obtain ⟨vole, hcommit, hspec⟩ := commit_spec H salt lHat hvalid hroots
  obtain ⟨openings, keys, hopen, -, hkeys, hlen, hrel⟩ := hspec.reconstruct H hvalid chall
  exact ⟨vole, openings, keys, hcommit, hopen, hkeys, hspec.u_len, hspec.tags_length, hlen, hrel⟩

/-- The fast profile, with 300 coordinates, seeds that all differ and a challenge of sixteen
    different bytes. -/
theorem vole_correlation_fast :
    let H : Xof := fun input i => input.foldl (· + ·) (BitVec.ofNat 8 (3 * i + 1))
    let roots : List Seed := (List.range 64).map fun i => Vector.replicate 16 (BitVec.ofNat 8 i)
    let salt : Salt := Vector.replicate 32 5#8
    let chall : Bytes 16 := Vector.ofFn fun i => BitVec.ofNat 8 (17 * i + 1)
    ∃ vole openings keys,
      ProverVole.commit H roots salt 300 params128Fast = .ok vole ∧
      vole.open (splitDelta chall params128Fast).2 = .ok openings ∧
      reconstructKeys H salt 300 params128Fast vole.coms vole.corrections
        (splitDelta chall params128Fast).2 openings = .ok keys ∧
      vole.u.len = 300 ∧ vole.tags.length = 300 ∧ keys.length = 300 ∧
      ∀ t < 300, keys.getD t 0 = vole.tags.getD t 0 +
        GF2p128.ofBool (vole.u.bit t) * (splitDelta chall params128Fast).1 := by
  intro H roots salt chall
  have hroots : roots.length = params128Fast.tau := by
    rw [List.length_map, List.length_range]
    rfl
  exact vole_correlation H params128Fast (Params.validate_of_valid Params.shipped_valid.2.2) 300
    roots hroots salt chall

end VoleAct.Voleith
