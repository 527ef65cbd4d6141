/-
  VoleAct.Act.CircuitSpec

  The circuits express the native relation.

  Each part of a circuit gets one lemma: which native values its wires read, and
  the condition on the assignment it emits.  The condition of the whole spend
  circuit is then compared with the witness generator: an assignment of the
  allocated bits satisfies it exactly when it is the witness of secrets in the
  relation.
-/
import VoleAct.Act.Circuit
import VoleAct.Voleith.Completeness

namespace VoleAct.Act

open VoleAct.BinaryFields VoleAct.Lib VoleAct.Mayo VoleAct.Voleith VoleAct.Act.Keccak

variable {w : Nat → Bool}

/-! ## Constants -/

theorem bytesBits_le64 (value : U64) : bytesBits (le64 value.toNat) = u64Bits value := by
  apply List.ext_getElem?
  intro t
  by_cases ht : t < 64
  · have hlt : value.toNat < 256 ^ 8 := value.isLt
    rw [getElem?_bytesBits (by simp [le64]; omega), ← testBit_ofLeBytes, le64, ofLeBytes_leBytes hlt,
      BitVec.testBit_toNat, u64Bits, balanceBits, List.getElem?_map, List.getElem?_range ht,
      Option.map_some]
  · rw [List.getElem?_eq_none (by simp [le64]; omega), List.getElem?_eq_none (by simp; omega)]

theorem reads_constantBits (bs : List Bool) : Reads w (bs.map constantBit) bs := by
  rw [Reads, List.map_map]
  exact List.map_congr_left fun b _ => by cases b <;> rfl

theorem reads_constantBytes (bytes : List U8) : Reads w (constantBytes bytes) (bytesBits bytes) :=
  reads_constantBits _

theorem reads_targetConstantBits (target : List GF16) :
    Reads w (targetConstantBits target) (gf16Bits target) := reads_constantBits _

theorem reads_constantU64 (value : U64) : Reads w (constantU64 value).toList (u64Bits value) := by
  have h := reads_constantBytes (w := w) (le64 value.toNat)
  rw [bytesBits_le64] at h
  exact h

/-! ## Messages -/

theorem reads_credentialWires (context : Bytes 32) {key nonce : Bytes 32} {balance : U64}
    {keyWires balanceWires nonceWires : List Wire} (hkey : Reads w keyWires (bytesBits key.toList))
    (hbalance : Reads w balanceWires (u64Bits balance))
    (hnonce : Reads w nonceWires (bytesBits nonce.toList)) :
    Reads w (credentialWires context keyWires balanceWires nonceWires)
      (bytesBits (credentialMessage context key balance nonce)) := by
  rw [credentialMessage, bytesBits_append, bytesBits_append, bytesBits_append, bytesBits_append,
    bytesBits_le64]
  exact ((((reads_constantBytes _).append (reads_constantBytes _)).append hkey).append
    hbalance).append hnonce

theorem getLsbD_toU8 (a : GF16) {i : Nat} (hi : 4 ≤ i) : a.toU8.getLsbD i = false := by
  have hpow : 2 ^ 4 ≤ 2 ^ i := Nat.pow_le_pow_right (by omega) hi
  rw [← BitVec.testBit_toNat]
  exact Nat.testBit_lt_two_pow (a.canonical.trans_le hpow)

theorem range_eight (f : Nat → Bool) :
    (List.range 8).map f = (List.range 4).map f ++ (List.range 4).map fun i => f (4 + i) := by
  rw [show 8 = 4 + 4 from rfl, List.range_add, List.map_append, List.map_map]
  rfl

/-- The bits of packed nibbles: the nibbles' bits, and a zero nibble after an odd count. -/
theorem bytesBits_packGf16 (values : List GF16) :
    bytesBits (packGf16 values) =
      gf16Bits values ++ List.replicate (4 * (values.length % 2)) false := by
  induction values using packGf16.induct with
  | case1 =>
      rw [packGf16]
      rfl
  | case2 a =>
      have hhigh : (List.range 4).map (fun i => a.toU8.getLsbD (4 + i)) = List.replicate 4 false :=
        List.eq_replicate_iff.mpr ⟨by simp, by
          intro x hx
          obtain ⟨i, -, rfl⟩ := List.mem_map.mp hx
          exact getLsbD_toU8 a (by omega)⟩
      rw [packGf16, bytesBits, flatBits_cons, flatBits_nil, range_eight, hhigh, List.append_nil]
      simp [gf16Bits, GF16.bit]
  | case3 a b rest ih =>
      have hlow : ∀ i ∈ List.range 4, (a.toU8 ||| (b.toU8 <<< 4)).getLsbD i = a.bit i := by
        intro i hi
        have hi' : i < 4 := List.mem_range.mp hi
        simp [GF16.bit, hi']
      have hhigh : ∀ i ∈ List.range 4, (a.toU8 ||| (b.toU8 <<< 4)).getLsbD (4 + i) = b.bit i := by
        intro i hi
        have hi' : i < 4 := List.mem_range.mp hi
        rw [BitVec.getLsbD_or, getLsbD_toU8 a (by omega), BitVec.getLsbD_shiftLeft, GF16.bit,
          Nat.add_sub_cancel_left]
        simp
        omega
      have hlen : (a :: b :: rest).length % 2 = rest.length % 2 := by
        rw [List.length_cons, List.length_cons]
        omega
      rw [packGf16, bytesBits, flatBits_cons, ← bytesBits, ih, range_eight,
        List.map_congr_left hlow, List.map_congr_left hhigh, hlen, gf16Bits, gf16Bits, flatBits_cons,
        flatBits_cons, List.append_assoc, List.append_assoc, List.append_assoc]

theorem reads_tokenWires {commitment : List GF16} {topup : U64} {salt : Bytes 32}
    {commitmentWires topupWires saltWires : List Wire}
    (hcommitment : Reads w commitmentWires (gf16Bits commitment))
    (htopup : Reads w topupWires (u64Bits topup)) (hsalt : Reads w saltWires (bytesBits salt.toList)) :
    Reads w (tokenWires commitmentWires topupWires saltWires)
      (bytesBits (tokenMessage commitment topup salt)) := by
  have hdomain : (constantBytes signedTokenDomain).length = 144 := by decide +kernel
  have hlen : commitmentWires.length = commitment.length * 4 := by
    rw [hcommitment.length_eq, gf16Bits_length]
  have hpad : (8 - (constantBytes signedTokenDomain ++ commitmentWires).length % 8) % 8 =
      4 * (commitment.length % 2) := by
    rw [List.length_append, hdomain, hlen]
    omega
  have hzeros (n : Nat) :
      Reads w (List.replicate n (constantBit false)) (List.replicate n false) := by
    have h := reads_constantBits (w := w) (List.replicate n false)
    rwa [List.map_replicate] at h
  rw [tokenMessage, bytesBits_append, bytesBits_append, bytesBits_append, bytesBits_le64,
    bytesBits_packGf16, ← List.append_assoc, tokenWires, padToByte, hpad]
  exact ((((reads_constantBytes _).append hcommitment).append (hzeros _)).append htopup).append hsalt

/-! ## Integer sums -/

theorem reads_get_u64 {v : Vector Wire 64} {value : U64} (h : Reads w v.toList (u64Bits value))
    (i : Fin 64) : (v.get i).value w = GF2p128.ofBool (value.getLsbD i) := by
  have hget := h.getD i
  simpa [u64Bits, balanceBits, List.getD_eq_getElem?_getD, Vector.get_eq_getElem] using hget

/-- The carries of a sum in closed form. -/
theorem carryBits_eq (a b : U64) :
    carryBits a b = (List.range 64).map fun i => BitVec.carry (i + 1) a b false := by
  have hfold (n : Nat) : (List.range n).foldl
      (fun (p : Bool × List Bool) bit =>
        ((a.getLsbD bit && b.getLsbD bit) || (p.1 && (a.getLsbD bit ^^ b.getLsbD bit)),
          p.2 ++ [(a.getLsbD bit && b.getLsbD bit) || (p.1 && (a.getLsbD bit ^^ b.getLsbD bit))]))
      (false, []) =
        (BitVec.carry n a b false, (List.range n).map fun i => BitVec.carry (i + 1) a b false) := by
    induction n with
    | zero => simp
    | succ n ih =>
        have hstep : ((a.getLsbD n && b.getLsbD n) ||
            (BitVec.carry n a b false && (a.getLsbD n ^^ b.getLsbD n))) =
              BitVec.carry (n + 1) a b false := by
          rw [BitVec.carry_succ]
          cases a.getLsbD n <;> cases b.getLsbD n <;> cases BitVec.carry n a b false <;> rfl
        rw [List.range_succ, List.foldl_append, List.foldl_cons, List.foldl_nil, ih, hstep,
          List.map_append, List.map_singleton]
  exact congrArg Prod.snd (hfold 64)

@[simp] theorem carryBits_length (a b : U64) : (carryBits a b).length = 64 := by
  simp [carryBits_eq]

/-- The carry out of 64 bits is the overflow. -/
theorem carry_64 (a b : U64) :
    BitVec.carry 64 a b false = false ↔ a.toNat + b.toNat < 2 ^ 64 := by
  have ha := a.isLt
  have hb := b.isLt
  simp only [BitVec.carry, Nat.mod_eq_of_lt ha, Nat.mod_eq_of_lt hb, Bool.toNat_false, Nat.add_zero,
    decide_eq_false_iff_not, Nat.not_le]

/-- A ripple-carry chain without a final carry is an exact sum with its own carries. -/
theorem ripple_iff {a b sum : U64} {c : Nat → Bool} :
    (∀ i < 64, (a.getLsbD i ^^ b.getLsbD i ^^ (decide (i ≠ 0) && c (i - 1)) ^^ sum.getLsbD i) = false) ∧
      (∀ i < 64, c i = Bool.atLeastTwo (a.getLsbD i) (b.getLsbD i) (decide (i ≠ 0) && c (i - 1))) ∧
      c 63 = false ↔
    a.toNat + b.toNat = sum.toNat ∧ ∀ i < 64, c i = BitVec.carry (i + 1) a b false := by
  -- the carry into a bit is the carry of the sum once the carries before it are
  have hin {i : Nat} (h : ∀ j < i, c j = BitVec.carry (j + 1) a b false) :
      (decide (i ≠ 0) && c (i - 1)) = BitVec.carry i a b false := by
    cases i with
    | zero => simp
    | succ i => simp [h i (Nat.lt_succ_self i)]
  constructor
  · rintro ⟨hsum, hcarry, hlast⟩
    have hall : ∀ i < 64, c i = BitVec.carry (i + 1) a b false := by
      intro i
      induction i using Nat.strong_induction_on with
      | _ i ih =>
          intro hi
          rw [hcarry i hi, hin fun j hj => ih j hj (hj.trans hi), BitVec.carry_succ]
    have hlt : a.toNat + b.toNat < 2 ^ 64 := (carry_64 a b).mp ((hall 63 (by omega)).symm.trans hlast)
    have hadd : sum = a + b := by
      apply BitVec.eq_of_getLsbD_eq
      intro i hi
      have hbit := hsum i hi
      rw [hin fun j hj => hall j (hj.trans hi)] at hbit
      rw [BitVec.getLsbD_add hi]
      revert hbit
      cases a.getLsbD i <;> cases b.getLsbD i <;> cases BitVec.carry i a b false <;>
        cases sum.getLsbD i <;> decide
    refine ⟨?_, hall⟩
    rw [hadd, BitVec.toNat_add, Nat.mod_eq_of_lt hlt]
  · rintro ⟨hsum, hall⟩
    have hlt : a.toNat + b.toNat < 2 ^ 64 := hsum ▸ sum.isLt
    have hadd : sum = a + b := by
      apply BitVec.eq_of_toNat_eq
      rw [BitVec.toNat_add, Nat.mod_eq_of_lt hlt, hsum]
    refine ⟨fun i hi => ?_, fun i hi => ?_, ?_⟩
    · rw [hin fun j hj => hall j (hj.trans hi), hadd, BitVec.getLsbD_add hi]
      cases a.getLsbD i <;> cases b.getLsbD i <;> cases BitVec.carry i a b false <;> rfl
    · rw [hin fun j hj => hall j (hj.trans hi), hall i hi, BitVec.carry_succ]
    · rw [hall 63 (by omega)]
      exact (carry_64 a b).mpr hlt

theorem value_carryIn {carries : Vector Wire 64} {c : Nat → Bool}
    (hc : ∀ i : Fin 64, (carries.get i).value w = GF2p128.ofBool (c i)) (i : Fin 64) :
    (carryIn carries i).value w = GF2p128.ofBool (decide (i.val ≠ 0) && c (i - 1)) := by
  rw [carryIn]
  by_cases hi : i.val = 0
  · simp [hi, Wire.value]
  · rw [if_neg hi, hc, decide_eq_true hi, Bool.true_and]

/-- The coefficient vector of a term of bit `i`: one in equation `i`, zero in the others. -/
theorem embed_unitCoeffs (i e : Fin 64) : embedGf16 ((SharedCoeffs.fromVec
    ((List.replicate balanceBits (0 : GF16)).set i 1)).asSlice.getD e 0) =
      if e = i then 1 else 0 := by
  have he : e.val < balanceBits := e.isLt
  have hslice : ((SharedCoeffs.fromVec ((List.replicate balanceBits (0 : GF16)).set i 1)).asSlice) =
      (List.replicate balanceBits (0 : GF16)).set i 1 := by
    simp [SharedCoeffs.asSlice, SharedCoeffs.fromVec]
  rw [hslice, List.getD_eq_getElem?_getD, List.getElem?_set]
  by_cases h : e = i
  · subst h
    simp [he]
  · have hval : i.val ≠ e.val := fun h' => h (Fin.ext h'.symm)
    simp [h, hval, he]

/-- Equation `e` of the carry system. -/
theorem equation_carrySystem {a b carries : Vector Wire 64} {x y : U64} {c : Nat → Bool}
    (ha : ∀ i : Fin 64, (a.get i).value w = GF2p128.ofBool (x.getLsbD i))
    (hb : ∀ i : Fin 64, (b.get i).value w = GF2p128.ofBool (y.getLsbD i))
    (hc : ∀ i : Fin 64, (carries.get i).value w = GF2p128.ofBool (c i)) (e : Fin 64) :
    (carrySystem a b carries).equation w e = 0 ↔
      c e = Bool.atLeastTwo (x.getLsbD e) (y.getLsbD e) (decide (e.val ≠ 0) && c (e - 1)) := by
  let carry (i : Fin 64) : Bool := decide (i.val ≠ 0) && c (i - 1)
  let products (i : Fin 64) : GF2p128 :=
    GF2p128.ofBool (x.getLsbD i && y.getLsbD i) + (GF2p128.ofBool (carry i && x.getLsbD i) +
      GF2p128.ofBool (carry i && y.getLsbD i))
  -- only the terms of bit `e` have a coefficient in equation `e`
  have hterms (i : Fin 64) : ((carryTerms a b carries i).map fun t =>
      embedGf16 (t.coeffs.getD e 0) * (t.a.value w * t.b.value w)).sum =
        if e = i then products i else 0 := by
    simp only [carryTerms, List.map_cons, List.map_nil, List.sum_cons, List.sum_nil,
      embed_unitCoeffs, ha, hb, value_carryIn hc, GF2p128.ofBool_mul_ofBool]
    by_cases h : e = i
    · simp only [if_pos h, one_mul, add_zero, products, carry]
    · simp only [if_neg h, zero_mul, add_zero]
  have hlinear : ((carrySystem a b carries).linear.getD e (Wire.constant 0)).value w =
      GF2p128.ofBool (c e) := by
    have hwire : (carrySystem a b carries).linear.getD e (Wire.constant 0) = carries.get e := by
      simp [carrySystem, List.getD_eq_getElem?_getD, Vector.get_eq_getElem]
    rw [hwire, hc]
  -- the sum over the bits keeps one summand
  have hequation : (carrySystem a b carries).equation w e =
      products e + GF2p128.ofBool (c e) := by
    rw [QuadSystem.equation, hlinear]
    congr 1
    show (((List.finRange 64).flatMap (carryTerms a b carries)).map fun t =>
      embedGf16 (t.coeffs.getD e 0) * (t.a.value w * t.b.value w)).sum = products e
    rw [List.flatMap_def, List.map_flatten, List.sum_flatten, List.map_map, List.map_map]
    simp only [Function.comp_def, hterms]
    rw [← Fin.sum_univ_def, Finset.sum_ite_eq, if_pos (Finset.mem_univ e)]
  rw [hequation]
  simp only [products, GF2p128.ofBool_add_ofBool, GF2p128.ofBool_eq_zero]
  show _ ↔ c e = Bool.atLeastTwo (x.getLsbD e) (y.getLsbD e) (carry e)
  cases x.getLsbD e <;> cases y.getLsbD e <;> cases carry e <;> cases c e <;> decide

theorem emits_assertU64Sum {a b sum carries : Vector Wire 64} {x y s : U64} {cs : List Bool}
    (ha : Reads w a.toList (u64Bits x)) (hb : Reads w b.toList (u64Bits y))
    (hs : Reads w sum.toList (u64Bits s)) (hc : Reads w carries.toList cs) (start : Nat) :
    Emits w (assertU64Sum a b sum carries) start () 0
      (x.toNat + y.toNat = s.toNat ∧ cs = carryBits x y) := by
  have hlen : cs.length = 64 := by rw [← hc.length_eq, Vector.length_toList]
  let c (i : Nat) : Bool := cs.getD i false
  have hget (i : Fin 64) : (carries.get i).value w = GF2p128.ofBool (c i) := by
    have h := hc.getD i
    simpa [c, List.getD_eq_getElem?_getD, Vector.get_eq_getElem] using h
  -- an equation for each sum bit, one for each carry, and the last carry zero
  have hsum (i : Fin 64) : (Wire.add (.add (.add (a.get i) (b.get i)) (carryIn carries i))
      (sum.get i)).value w = 0 ↔ (x.getLsbD i ^^ y.getLsbD i ^^
        (decide (i.val ≠ 0) && c (i - 1)) ^^ s.getLsbD i) = false := by
    rw [Wire.value, Wire.value, Wire.value, reads_get_u64 ha, reads_get_u64 hb,
      value_carryIn hget, reads_get_u64 hs, GF2p128.ofBool_add_ofBool, GF2p128.ofBool_add_ofBool,
      GF2p128.ofBool_add_ofBool, GF2p128.ofBool_eq_zero]
  have hcarry (e : Fin 64) := equation_carrySystem (reads_get_u64 ha) (reads_get_u64 hb) hget e
  have hlast : (carries.get 63).value w = 0 ↔ c 63 = false := by
    rw [hget, GF2p128.ofBool_eq_zero]
    rfl
  have hlinear : (carrySystem a b carries).linear.length = 64 := Vector.length_toList
  have hemits : Emits w (assertU64Sum a b sum carries) start () 0 _ :=
    (Emits.forM (List.finRange 64) fun i _ => Emits.assertZero
      (.add (.add (.add (a.get i) (b.get i)) (carryIn carries i)) (sum.get i))).seq
        ((Emits.assertQuadSystem (carrySystem a b carries)).seq (Emits.assertZero (carries.get 63)))
  -- the carry bits of the witness are the carries of the addition
  have hcs : cs = carryBits x y ↔ ∀ i < 64, c i = BitVec.carry (i + 1) x y false := by
    rw [carryBits_eq]
    constructor
    · rintro rfl i hi
      simp [c, List.getD_eq_getElem?_getD, hi]
    · intro h
      apply List.ext_getElem
      · simp [hlen]
      · intro i hi _
        have hbit : cs.getD i false = BitVec.carry (i + 1) x y false := h i (hlen ▸ hi)
        rw [List.getD_eq_getElem?_getD, List.getElem?_eq_getElem hi, Option.getD_some] at hbit
        simp [hbit]
  refine Emits.congr hemits ?_
  rw [hcs, ← ripple_iff, hlast, hlinear]
  refine and_congr ?_ (and_congr_left fun _ => ?_)
  · exact ⟨fun h i hi => (hsum ⟨i, hi⟩).mp (h ⟨i, hi⟩ (List.mem_finRange _)),
      fun h i _ => (hsum i).mpr (h i i.isLt)⟩
  · exact ⟨fun h i hi => (hcarry ⟨i, hi⟩).mp (h i hi), fun h i hi => (hcarry ⟨i, hi⟩).mpr (h i hi)⟩

/-! ## Checkpoints -/

/-- The checkpoint bits of a message, group by group. -/
def checkpointBits (msg : List U8) : List Bool :=
  (List.range 6).flatMap fun g => stateBits (checkpoint msg (g + 1)) 0 1600

/-- The loop over rounds, writing the state down after every fourth. -/
theorem foldl_checkpoints (a : State) (rcs : List U64) :
    rcs.zipIdx.foldl checkpointRound (a, []) =
      (rcs.foldl round a, (List.range (rcs.length / 4)).flatMap fun g =>
        stateBits ((rcs.take (4 * (g + 1))).foldl round a) 0 1600) := by
  induction rcs using List.reverseRecOn with
  | nil => rfl
  | append_singleton rcs rc ih =>
      have htake : ∀ g ∈ List.range (rcs.length / 4),
          stateBits (((rcs ++ [rc]).take (4 * (g + 1))).foldl round a) 0 1600 =
            stateBits ((rcs.take (4 * (g + 1))).foldl round a) 0 1600 := by
        intro g hg
        have hg' : g < rcs.length / 4 := List.mem_range.mp hg
        rw [List.take_append_of_le_length (by omega)]
      rw [List.zipIdx_append, List.foldl_append, ih, List.zipIdx_singleton, List.foldl_cons,
        List.foldl_nil, List.foldl_append, List.foldl_cons, List.foldl_nil, List.length_append,
        List.length_singleton, Nat.zero_add, checkpointRound]
      dsimp only
      by_cases h : (rcs.length + 1) % 4 = 0
      · have hdiv : (rcs.length + 1) / 4 = rcs.length / 4 + 1 := by omega
        have hall : 4 * (rcs.length / 4 + 1) = (rcs ++ [rc]).length := by
          rw [List.length_append, List.length_singleton]
          omega
        rw [if_pos h, hdiv, List.range_succ, List.flatMap_append, List.flatMap_congr htake,
          List.flatMap_singleton, hall, List.take_length, List.foldl_append, List.foldl_cons,
          List.foldl_nil]
      · have hdiv : (rcs.length + 1) / 4 = rcs.length / 4 := by omega
        rw [if_neg h, hdiv, List.flatMap_congr htake]

theorem keccakCheckpoints_eq {ε : Type} {msg : List U8} (h : msg.length < rateBytes) :
    (keccakCheckpoints msg : Outcome ε (List Bool)) = .ok (checkpointBits msg) := by
  have hpad : (padSingleBlock msg : Outcome ε (List U8)) = .ok (paddedBlock msg) := by
    rw [padSingleBlock, decide_eq_true h]
    rfl
  have hsix : RC.length / 4 = 6 := rfl
  rw [keccakCheckpoints, hpad, Outcome.ok_bind, ← absorbed]
  dsimp only
  rw [foldl_checkpoints, hsix, checkpointBits]
  simp only [checkpoint, pure, Except.pure]

@[simp] theorem checkpointBits_length (msg : List U8) : (checkpointBits msg).length = 9600 := by
  simp [checkpointBits, List.length_flatMap]

/-- Bits `start..start + n` of an assignment. -/
def segment (w : Nat → Bool) (start n : Nat) : List Bool := (List.range n).map fun i => w (start + i)

@[simp] theorem segment_length (w : Nat → Bool) (start n : Nat) : (segment w start n).length = n := by
  simp [segment]

theorem getElem?_segment (w : Nat → Bool) (start : Nat) {n i : Nat} (hi : i < n) :
    (segment w start n)[i]? = some (w (start + i)) := by
  rw [segment, List.getElem?_map, List.getElem?_range hi, Option.map_some]

/-- The checkpoints hold when the bits are the ones the witness generator writes. -/
theorem checkpoints_iff (start : Nat) (msg : List U8) :
    Checkpoints w start msg ↔ segment w start 9600 = checkpointBits msg := by
  have hbit {g i : Nat} (hg : g < 6) (hi : i < 1600) :
      (checkpointBits msg)[g * 1600 + i]? = some (stateBit (checkpoint msg (g + 1)) i) := by
    have hlen : ∀ l ∈ (List.range 6).map fun g => stateBits (checkpoint msg (g + 1)) 0 1600,
        l.length = 1600 := by
      intro l hl
      obtain ⟨g, -, rfl⟩ := List.mem_map.mp hl
      exact stateBits_length _ _ _
    rw [checkpointBits, List.flatMap_def, getElem?_flatten_of_length hlen hi, List.getElem?_map,
      List.getElem?_range hg, Option.map_some, Option.bind_some, stateBits, List.getElem?_map,
      List.getElem?_range hi, Option.map_some, Nat.zero_add]
  constructor
  · intro h
    apply List.ext_getElem?
    intro t
    by_cases ht : t < 9600
    · have hpos : t / 1600 * 1600 + t % 1600 = t := Nat.div_add_mod' t 1600
      have hi : t % 1600 < 1600 := Nat.mod_lt _ (by decide)
      have hbits := h (t / 1600) (by omega) (t % 1600) hi
      rw [Nat.add_assoc, hpos] at hbits
      conv_rhs => rw [← hpos]
      rw [getElem?_segment w start ht, hbits, hbit (by omega) hi]
    · rw [List.getElem?_eq_none (by rw [segment_length]; omega),
        List.getElem?_eq_none (by rw [checkpointBits_length]; omega)]
  · intro h g hg i hi
    have hget := getElem?_segment w start (show g * 1600 + i < 9600 by omega)
    rw [h, hbit hg hi, Option.some.injEq] at hget
    rw [Nat.add_assoc, ← hget]

/-- The last checkpoint is the permuted state. -/
theorem Checkpoints.stateAt_eq {start : Nat} {msg : List U8} (h : Checkpoints w start msg) :
    stateAt w (start + 8000) = checkpoint msg 6 := bitsAt_iff.mp (h 5 (by decide))

theorem stateBits_stateAt (start offset : Nat) {n : Nat} (h : offset + n ≤ 1600) :
    stateBits (stateAt w start) offset n = segment w (start + offset) n := by
  refine List.map_congr_left fun i hi => ?_
  have hi' : i < n := List.mem_range.mp hi
  rw [stateBit_stateAt w start (by omega), Nat.add_assoc]

/-! ## What the checkpoints of a hash fix -/

section Fixed

variable {P : MayoParams} {context key : Bytes 32} {balance : U64} {nonce : Bytes 32} {start : Nat}

/-- Nibbles on the output wires of a credential hash are its target. -/
theorem Checkpoints.eq_credentialTarget
    (h : Checkpoints w start (credentialMessage context key balance nonce)) {commitment : List GF16}
    (hbits : gf16Bits commitment = segment w (start + 8000) (4 * P.M)) :
    commitment = credentialTarget P context key balance nonce := by
  have hm := P.m_le
  apply gf16Bits_inj
  rw [hbits, gf16Bits_credentialTarget, ← h.stateAt_eq, stateBits_stateAt _ _ (by omega),
    Nat.add_zero]

/-- Nibbles on the output wires of a token hash are the signed target. -/
theorem Checkpoints.eq_signedTokenTarget {commitment : List GF16} {topup : U64} {salt : Bytes 32}
    (h : Checkpoints w start (tokenMessage commitment topup salt)) (hlen : commitment.length = P.M)
    {target : List GF16} (hbits : gf16Bits target = segment w (start + 8000) (4 * P.M)) :
    target = signedTokenTarget P commitment topup salt := by
  have hm := P.m_le
  apply gf16Bits_inj
  rw [hbits, gf16Bits_signedTokenTarget P _ _ hlen, ← h.stateAt_eq, stateBits_stateAt _ _ (by omega),
    Nat.add_zero]

/-- The output bits after the target are the nullifier. -/
theorem Checkpoints.nullifier_iff
    (h : Checkpoints w start (credentialMessage context key balance nonce)) {nullifier : Bytes 32} :
    segment w (start + 8000 + 4 * P.M) 256 = bytesBits nullifier.toList ↔
      deriveNullifier P context key balance nonce = nullifier := by
  have hm := P.m_le
  have hbits := bytesBits_deriveNullifier P context key balance nonce
  rw [← h.stateAt_eq, stateBits_stateAt _ _ (by omega)] at hbits
  rw [← hbits]
  exact ⟨fun heq => Vector.toList_inj.mp (bytesBits_inj heq), fun heq => heq ▸ rfl⟩

/-- The output bits compared with a public target. -/
theorem Checkpoints.target_iff
    (h : Checkpoints w start (credentialMessage context key balance nonce)) {target : List GF16}
    (hlen : target.length = P.M) :
    stateBits (stateAt w (start + 8000)) 0 (gf16Bits target).length = gf16Bits target ↔
      credentialTarget P context key balance nonce = target := by
  rw [h.stateAt_eq, gf16Bits_length, hlen, Nat.mul_comm, ← gf16Bits_credentialTarget]
  exact ⟨fun heq => gf16Bits_inj heq, fun heq => heq ▸ rfl⟩

end Fixed

/-! ## Assignments -/

theorem reads_bitWires {start n : Nat} {bs : List Bool} (h : segment w start n = bs) :
    Reads w (bitWires start n).toList bs := h ▸ Reads.bitWires w start n

theorem segment_congr {w' : Nat → Bool} {start n : Nat}
    (h : ∀ i < n, w' (start + i) = w (start + i)) : segment w' start n = segment w start n :=
  List.map_congr_left fun i hi => h i (List.mem_range.mp hi)

theorem segment_add (w : Nat → Bool) (start n m : Nat) :
    segment w start (n + m) = segment w start n ++ segment w (start + n) m := by
  rw [segment, List.range_add, List.map_append, List.map_map]
  congr 1
  exact List.map_congr_left fun i _ => congrArg w (Nat.add_assoc start n i).symm

/-- A range of bits is a concatenation exactly when its two parts are. -/
theorem segment_eq_append {start n m : Nat} {as bs : List Bool} (h : as.length = n) :
    segment w start (n + m) = as ++ bs ↔ segment w start n = as ∧ segment w (start + n) m = bs := by
  rw [segment_add]
  exact ⟨fun heq => List.append_inj heq (by rw [segment_length, h]), fun ⟨ha, hb⟩ => by rw [ha, hb]⟩

/-- An assignment of `n` bits is the list it assigns. -/
theorem segment_assignment (bits : List Bool) : segment (assignment bits) 0 bits.length = bits := by
  apply List.ext_getElem
  · rw [segment_length]
  · intro i hi hi'
    have hget := getElem?_segment (assignment bits) 0 hi'
    rw [List.getElem?_eq_getElem hi, Option.some.injEq, Nat.zero_add, assignment,
      List.getD_eq_getElem?_getD, List.getElem?_eq_getElem hi', Option.getD_some] at hget
    exact hget

theorem exists_bytes {n : Nat} {bs : List Bool} (h : bs.length = n * 8) :
    ∃ v : Bytes n, bytesBits v.toList = bs := by
  have hbyte (f : Nat → Bool) : ∃ x : U8, ∀ i < 8, x.getLsbD i = f i :=
    ⟨BitVec.ofFnLE fun i => f i, fun i hi => by rw [BitVec.getLsbD_ofFnLE, dif_pos hi]⟩
  obtain ⟨xs, hlen, rfl⟩ := exists_flatBits hbyte n bs h
  exact ⟨⟨xs.toArray, hlen⟩, rfl⟩

theorem exists_nibbles {n : Nat} {bs : List Bool} (h : bs.length = 4 * n) :
    ∃ v : Vector GF16 n, gf16Bits v.toList = bs := by
  have hnibble (f : Nat → Bool) : ∃ x : GF16, ∀ i < 4, x.bit i = f i :=
    ⟨GF16.ofBits f, fun i hi => GF16.bit_ofBits f hi⟩
  obtain ⟨xs, hlen, rfl⟩ := exists_flatBits hnibble n bs (by rw [h, Nat.mul_comm])
  exact ⟨⟨xs.toArray, hlen⟩, rfl⟩

theorem exists_u64 {bs : List Bool} (h : bs.length = 64) : ∃ v : U64, u64Bits v = bs := by
  refine ⟨BitVec.ofFnLE fun i => bs.getD i false, ?_⟩
  apply List.ext_getElem
  · simp [h]
  · intro i hi hi'
    have hi64 : i < 64 := h ▸ hi'
    simp [u64Bits, hi64, List.getElem?_eq_getElem hi']

/-! ## The issue circuit -/

/-- The issue circuit on the openings its wires read. -/
theorem emits_issue {P : MayoParams} (c : IssueCircuit P) (htarget : c.target.length = P.M)
    {key nonce : Bytes 32} (hkey : segment w 0 256 = bytesBits key.toList)
    (hnonce : segment w 256 256 = bytesBits nonce.toList) :
    Emits w c.program 0 () 10112
      (segment w 512 9600 = checkpointBits (credentialMessage c.context key c.balance nonce) ∧
        credentialTarget P c.context key c.balance nonce = c.target) := by
  have hm := P.m_le
  have hmsg := reads_credentialWires c.context (reads_bitWires hkey)
    (bytesBits_le64 c.balance ▸ reads_constantBytes (le64 c.balance.toNat))
    (reads_bitWires hnonce)
  have hlen : (gf16Bits c.target).length = 4 * P.M := by
    rw [gf16Bits_length, htarget, Nat.mul_comm]
  have houtput := emits_shakeAssertOutput hmsg (by simp [rateBytes])
    (reads_targetConstantBits c.target) (by omega) 512
  have hprogram : Emits w c.program 0 () (256 + (256 + 9600))
      (True ∧ True ∧ Checkpoints w 512 (credentialMessage c.context key c.balance nonce) ∧
        stateBits (stateAt w (512 + 8000)) 0 (gf16Bits c.target).length = gf16Bits c.target) := by
    rw [IssueCircuit.program, if_neg (not_not.mpr htarget)]
    exact (Emits.allocBits 256).bind ((Emits.allocBits 256).bind houtput)
  refine Emits.congr hprogram ?_
  rw [true_and, true_and, ← checkpoints_iff]
  exact and_congr_right fun hcheck => hcheck.target_iff htarget

/-- What the assignment of an issue witness consists of. -/
theorem issueWitness_eq_segment {P : MayoParams} (c : IssueCircuit P) {key nonce : Bytes 32} :
    c.witness key nonce = (.ok (segment w 0 10112) : Outcome VoleithError (List Bool)) ↔
      segment w 0 256 = bytesBits key.toList ∧ segment w 256 256 = bytesBits nonce.toList ∧
        segment w 512 9600 = checkpointBits (credentialMessage c.context key c.balance nonce) := by
  have hcheck : (keccakCheckpoints (credentialMessage c.context key c.balance nonce) :
      Outcome VoleithError (List Bool)) = .ok _ := keccakCheckpoints_eq (by simp [rateBytes])
  have hkey : (bytesBits key.toList).length = 256 := by simp
  have hnonce : (bytesBits nonce.toList).length = 256 := by simp
  rw [IssueCircuit.witness, hcheck, Outcome.ok_bind, List.append_assoc,
    show 10112 = 256 + (256 + 9600) from rfl, ← segment_eq_append hnonce, ← Nat.zero_add 256,
    ← segment_eq_append hkey]
  exact ⟨fun h => (Except.ok.inj h).symm, fun h => congrArg Except.ok h.symm⟩

/-- Bits satisfy the issue circuit exactly when they are the witness of an opening of its target. -/
theorem issue_exact {P : MayoParams} (c : IssueCircuit P) (htarget : c.target.length = P.M) :
    ∃ ops, c.build = .ok ops ∧ witnessBits ops = 10112 ∧ builtDegree ops ≤ maxDegree ∧
      ∀ w, Satisfies w ops ↔ ∃ key nonce,
        c.witness key nonce = (.ok (segment w 0 10112) : Outcome VoleithError (List Bool)) ∧
          credentialTarget P c.context key c.balance nonce = c.target := by
  refine Emits.circuit_forall fun w => ?_
  obtain ⟨key, hkey⟩ := exists_bytes (n := 32) (segment_length w 0 256)
  obtain ⟨nonce, hnonce⟩ := exists_bytes (n := 32) (segment_length w 256 256)
  refine (emits_issue c htarget hkey.symm hnonce.symm).congr ?_
  constructor
  · rintro ⟨hcheck, heq⟩
    exact ⟨key, nonce, (issueWitness_eq_segment c).mpr ⟨hkey.symm, hnonce.symm, hcheck⟩, heq⟩
  · rintro ⟨key', nonce', hbits, heq⟩
    obtain ⟨hkey', hnonce', hcheck⟩ := (issueWitness_eq_segment c).mp hbits
    -- the bits determine the opening
    have hk : key.toList = key'.toList := bytesBits_inj (hkey.trans hkey')
    have hn : nonce.toList = nonce'.toList := bytesBits_inj (hnonce.trans hnonce')
    obtain rfl : key = key' := Vector.toList_inj.mp hk
    obtain rfl : nonce = nonce' := Vector.toList_inj.mp hn
    exact ⟨hcheck, heq⟩

/-! ## The spend circuit -/

/-- What a spend proves about its secrets: a signed credential, its nullifier, the fresh commitment
    and the two integer equations. -/
structure SpendRelation {P : MayoParams} (pk : PublicKey P) (c : SpendCircuit P)
    (s : SpendSecrets) : Prop where
  signed : eval pk s.signature = .ok (signedTokenTarget P
    (credentialTarget P c.context s.key s.baseBalance s.nonce) s.topup s.salt)
  nullifier : deriveNullifier P c.context s.key s.baseBalance s.nonce = c.nullifier
  fresh : credentialTarget P c.context s.freshKey s.freshBaseBalance s.freshNonce =
    c.freshCommitment
  balance : s.baseBalance.toNat + s.topup.toNat = s.freshBaseBalance.toNat + c.spend.toNat
  no_overflow : s.baseBalance.toNat + s.topup.toNat < 2 ^ 64
  direct : c.inputKind = .direct → s.topup = 0

/-- The wires `alloc` returns on a fresh backend. -/
def SpendWires.fresh (P : MayoParams) : SpendWires P where
  signature := bitWires 0 (4 * P.KN)
  key := bitWires (4 * P.KN) 256
  baseBalance := bitWires (4 * P.KN + 256) 64
  nonce := bitWires (4 * P.KN + 320) 256
  topup := bitWires (4 * P.KN + 576) 64
  effectiveBalance := bitWires (4 * P.KN + 640) 64
  salt := bitWires (4 * P.KN + 704) 256
  freshKey := bitWires (4 * P.KN + 960) 256
  freshBaseBalance := bitWires (4 * P.KN + 1216) 64
  freshNonce := bitWires (4 * P.KN + 1280) 256
  oldCarries := bitWires (4 * P.KN + 1536) 64
  freshCarries := bitWires (4 * P.KN + 1600) 64

theorem emits_alloc (P : MayoParams) :
    Emits w (SpendWires.alloc P) 0 (SpendWires.fresh P) (4 * P.KN + 1664) True := by
  have h : Emits w (SpendWires.alloc P) 0 (SpendWires.fresh P)
      (4 * P.KN + (256 + (64 + (256 + (64 + (64 + (256 + (256 + (64 + (256 + (64 + (64 + 0))))))))))))
      True := by
    refine Emits.allocBits_bind ?_
    rw [Nat.zero_add]
    iterate 11 refine Emits.allocBits_bind ?_
    exact Emits.pure _
  exact h

/-- The secrets the wires read, with the effective balance and the carries. -/
structure ReadsSecrets (w : Nat → Bool) {P : MayoParams} (wires : SpendWires P) (s : SpendSecrets)
    (effective : U64) (oldCarries freshCarries : List Bool) : Prop where
  signature : Reads w wires.signature.toList (gf16Bits s.signature)
  key : Reads w wires.key.toList (bytesBits s.key.toList)
  baseBalance : Reads w wires.baseBalance.toList (u64Bits s.baseBalance)
  nonce : Reads w wires.nonce.toList (bytesBits s.nonce.toList)
  topup : Reads w wires.topup.toList (u64Bits s.topup)
  effectiveBalance : Reads w wires.effectiveBalance.toList (u64Bits effective)
  salt : Reads w wires.salt.toList (bytesBits s.salt.toList)
  freshKey : Reads w wires.freshKey.toList (bytesBits s.freshKey.toList)
  freshBaseBalance : Reads w wires.freshBaseBalance.toList (u64Bits s.freshBaseBalance)
  freshNonce : Reads w wires.freshNonce.toList (bytesBits s.freshNonce.toList)
  oldCarries : Reads w wires.oldCarries.toList oldCarries
  freshCarries : Reads w wires.freshCarries.toList freshCarries

variable {P : MayoParams} {wires : SpendWires P} {s : SpendSecrets} {effective : U64}
  {oldCarries freshCarries : List Bool}

theorem reads_zero {wires : List Wire} {bs : List Bool} (h : Reads w wires bs) :
    (∀ x ∈ wires, x.value w = 0) ↔ ∀ b ∈ bs, b = false := by
  constructor
  · intro hall b hb
    have hmem : GF2p128.ofBool b ∈ wires.map (Wire.value w) := h ▸ List.mem_map_of_mem hb
    obtain ⟨x, hx, hvalue⟩ := List.mem_map.mp hmem
    exact GF2p128.ofBool_eq_zero.mp (hvalue.symm.trans (hall x hx))
  · intro hall x hx
    have hmem : x.value w ∈ bs.map GF2p128.ofBool := h ▸ List.mem_map_of_mem hx
    obtain ⟨b, hb, hvalue⟩ := List.mem_map.mp hmem
    rw [← hvalue, hall b hb, GF2p128.ofBool_false]

theorem u64Bits_zero {value : U64} : (∀ b ∈ u64Bits value, b = false) ↔ value = 0 := by
  constructor
  · intro hall
    apply BitVec.eq_of_getLsbD_eq
    intro i hi
    rw [hall (value.getLsbD i) (List.mem_map.mpr ⟨i, List.mem_range.mpr hi, rfl⟩)]
    simp
  · rintro rfl b hb
    obtain ⟨i, -, rfl⟩ := List.mem_map.mp hb
    simp

/-- The balance equations and their carries. -/
theorem emits_assertBalances (c : SpendCircuit P)
    (h : ReadsSecrets w wires s effective oldCarries freshCarries) (start : Nat) :
    Emits w (c.assertBalances wires) start () 0
      ((c.inputKind = .direct → s.topup = 0) ∧
        (s.baseBalance.toNat + s.topup.toNat = effective.toNat ∧
          oldCarries = carryBits s.baseBalance s.topup) ∧
        s.freshBaseBalance.toNat + c.spend.toNat = effective.toNat ∧
          freshCarries = carryBits s.freshBaseBalance c.spend) := by
  have hold := emits_assertU64Sum h.baseBalance h.topup h.effectiveBalance h.oldCarries start
  have hfresh := emits_assertU64Sum h.freshBaseBalance (reads_constantU64 c.spend)
    h.effectiveBalance h.freshCarries start
  have hzero : (∀ x ∈ wires.topup.toList, x.value w = 0) ↔ s.topup = 0 :=
    (reads_zero h.topup).trans u64Bits_zero
  have hboth : Emits w (assertU64Sum wires.baseBalance wires.topup wires.effectiveBalance
      wires.oldCarries >>= fun _ => assertU64Sum wires.freshBaseBalance (constantU64 c.spend)
        wires.effectiveBalance wires.freshCarries) start () 0 _ := hold.seq hfresh
  have hforM : Emits w (wires.topup.toList.forM CircuitM.assertZero) start () 0
      (∀ x ∈ wires.topup.toList, x.value w = 0) :=
    Emits.forM _ fun x _ => Emits.assertZero x
  rw [hzero] at hforM
  exact hforM.ite_seq hboth

/-- Lifted bits of nibbles are the embedded nibbles. -/
theorem value_liftNibbles_reads {n : Nat} {bits : Vector Wire (4 * n)} {values : Vector GF16 n}
    (h : Reads w bits.toList (gf16Bits values.toList)) (i : Fin n) :
    ((liftNibbles bits).get i).value w = embedGf16 (values.get i) := by
  refine value_liftNibbles (fun i j => ?_) i
  have hi : 4 * i.val + j.val < 4 * n := by omega
  have hget := h.getD (i * 4 + j)
  rw [Nat.mul_comm i.val 4, List.getD_eq_getElem?_getD, List.getD_eq_getElem?_getD,
    ← Nat.mul_comm i.val 4, getElem?_gf16Bits _ _ j.isLt, Nat.mul_comm i.val 4] at hget
  simpa [Vector.get_eq_getElem, hi] using hget

theorem emits_shakeHiddenOutput_bind {β : Type} {msg : List Wire} {m : List U8} {n : Nat}
    {hn : n ≤ 1600} {f : Vector Wire n → CircuitM β} {b : β} {bits start : Nat} {Q : Prop}
    (h : Reads w msg (bytesBits m)) (hm : m.length < rateBytes)
    (hf : Emits w (f (bitWires (start + 8000) n)) (start + 9600) b bits Q) :
    Emits w (shakeHiddenOutput msg n hn >>= f) start b (9600 + bits) (Checkpoints w start m ∧ Q) :=
  (emits_shakeHiddenOutput h hm start hn).bind hf

/-- The hashes of a spend: checkpoints of the native messages, and the native equations. -/
theorem emits_assertHashes {H : Xof} {pk : PublicKey P} (c : SpendCircuit P)
    (hterms : c.terms = (mayoTermsAndHash H pk).1) (hfresh : c.freshCommitment.length = P.M)
    (hsig : s.signature.length = P.KN)
    (h : ReadsSecrets w wires s effective oldCarries freshCarries) (start : Nat) :
    Emits w (c.assertHashes wires) start () 28800
      (Checkpoints w start (credentialMessage c.context s.key s.baseBalance s.nonce) ∧
        Checkpoints w (start + 9600) (tokenMessage
          (credentialTarget P c.context s.key s.baseBalance s.nonce) s.topup s.salt) ∧
        Checkpoints w (start + 9600 + 9600)
          (credentialMessage c.context s.freshKey s.freshBaseBalance s.freshNonce) ∧
        eval pk s.signature = .ok (signedTokenTarget P
          (credentialTarget P c.context s.key s.baseBalance s.nonce) s.topup s.salt) ∧
        deriveNullifier P c.context s.key s.baseBalance s.nonce = c.nullifier ∧
        credentialTarget P c.context s.freshKey s.freshBaseBalance s.freshNonce =
          c.freshCommitment) := by
  have hm := P.m_le
  -- the nibbles that the output bits of the first two hashes stand for
  obtain ⟨commitment, hcommitment⟩ :=
    exists_nibbles (n := P.M) (segment_length w (start + 8000) (4 * P.M))
  obtain ⟨target, htarget⟩ :=
    exists_nibbles (n := P.M) (segment_length w (start + 9600 + 8000) (4 * P.M))
  obtain ⟨sigma, hsigma⟩ : ∃ v : Vector GF16 P.KN, v.toList = s.signature :=
    ⟨⟨s.signature.toArray, hsig⟩, rfl⟩
  have hout : Reads w (bitWires (start + 8000) (4 * P.M + 256)).toList
      (segment w (start + 8000) (4 * P.M) ++ segment w (start + 8000 + 4 * P.M) 256) :=
    reads_bitWires (segment_add w _ _ _)
  have hcommitmentWires := hout.take (4 * P.M)
  rw [List.take_left' (segment_length w _ _), ← hcommitment] at hcommitmentWires
  have hnullifierWires := hout.drop (4 * P.M)
  rw [List.drop_left' (segment_length w _ _)] at hnullifierWires
  have hsignature : Reads w wires.signature.toList (gf16Bits sigma.toList) := by
    rw [hsigma]
    exact h.signature
  have hlift := value_liftNibbles_reads hsignature
  have hliftTarget := value_liftNibbles_reads (reads_bitWires htarget.symm)
  have hfreshLen : (gf16Bits c.freshCommitment).length = 4 * P.M := by
    rw [gf16Bits_length, hfresh, Nat.mul_comm]
  have hprogram : Emits w (c.assertHashes wires) start () (9600 + (9600 + 9600))
      (Checkpoints w start (credentialMessage c.context s.key s.baseBalance s.nonce) ∧
        Checkpoints w (start + 9600) (tokenMessage commitment.toList s.topup s.salt) ∧
        evalBlocks pk sigma = target ∧
        segment w (start + 8000 + 4 * P.M) 256 = bytesBits c.nullifier.toList ∧
        Checkpoints w (start + 9600 + 9600)
          (credentialMessage c.context s.freshKey s.freshBaseBalance s.freshNonce) ∧
        stateBits (stateAt w (start + 9600 + 9600 + 8000)) 0 (gf16Bits c.freshCommitment).length =
          gf16Bits c.freshCommitment) := by
    rw [SpendCircuit.assertHashes]
    refine emits_shakeHiddenOutput_bind
      (reads_credentialWires c.context h.key h.baseBalance h.nonce) (by simp [rateBytes]) ?_
    refine emits_shakeHiddenOutput_bind (reads_tokenWires hcommitmentWires h.topup h.salt)
      (tokenMessage_lt (by simp; omega)) ?_
    refine Emits.seq ((Emits.call _ (Nat.zero_le _)).congr
      (holds_mayoSystem c.terms_fit hterms hlift hliftTarget)) ?_
    refine Emits.seq ((emits_assertEqual hnullifierWires (reads_constantBytes _)
      (by simp) _).congr ?_) ?_
    · rw [List.take_of_length_le (by simp)]
    · exact emits_shakeAssertOutput
        (reads_credentialWires c.context h.freshKey h.freshBaseBalance h.freshNonce)
        (by simp [rateBytes]) (reads_targetConstantBits _) (by omega) _
  refine Emits.congr hprogram ?_
  -- the checkpoints fix the nibbles
  have heval (htoken : target.toList = signedTokenTarget P
      (credentialTarget P c.context s.key s.baseBalance s.nonce) s.topup s.salt) :
      evalBlocks pk sigma = target ↔ eval pk s.signature = .ok (signedTokenTarget P
        (credentialTarget P c.context s.key s.baseBalance s.nonce) s.topup s.salt) := by
    rw [← hsigma, eval_toList, ← htoken]
    exact ⟨fun heq => heq ▸ rfl, fun heq => Vector.toList_inj.mp (Except.ok.inj heq)⟩
  have hcredential : (credentialTarget P c.context s.key s.baseBalance s.nonce).length = P.M :=
    credentialTarget_length P _ _ _ _
  constructor
  · rintro ⟨hcheck, htoken, hsigned, hnull, hfreshCheck, hcommit⟩
    rw [hcheck.eq_credentialTarget hcommitment] at htoken
    have hsignedTarget := htoken.eq_signedTokenTarget hcredential htarget
    exact ⟨hcheck, htoken, hfreshCheck, (heval hsignedTarget).mp hsigned,
      hcheck.nullifier_iff.mp hnull, (hfreshCheck.target_iff hfresh).mp hcommit⟩
  · rintro ⟨hcheck, htoken, hfreshCheck, hsigned, hnull, hcommit⟩
    have hsignedTarget := htoken.eq_signedTokenTarget hcredential htarget
    rw [hcheck.eq_credentialTarget hcommitment]
    exact ⟨hcheck, htoken, (heval hsignedTarget).mpr hsigned, hcheck.nullifier_iff.mpr hnull,
      hfreshCheck, (hfreshCheck.target_iff hfresh).mpr hcommit⟩

/-- Positions of a secret: not of the effective balance, a carry or a checkpoint. -/
def IsSecretBit (P : MayoParams) (t : Nat) : Prop :=
  t < 4 * P.KN + 640 ∨ (4 * P.KN + 704 ≤ t ∧ t < 4 * P.KN + 1536)

/-- The secrets as ranges of an assignment, in the order of `alloc`. -/
structure AssignsSecrets (w : Nat → Bool) (P : MayoParams) (s : SpendSecrets) (effective : U64)
    (oldCarries freshCarries : List Bool) : Prop where
  signature : segment w 0 (4 * P.KN) = gf16Bits s.signature
  key : segment w (4 * P.KN) 256 = bytesBits s.key.toList
  baseBalance : segment w (4 * P.KN + 256) 64 = u64Bits s.baseBalance
  nonce : segment w (4 * P.KN + 320) 256 = bytesBits s.nonce.toList
  topup : segment w (4 * P.KN + 576) 64 = u64Bits s.topup
  effectiveBalance : segment w (4 * P.KN + 640) 64 = u64Bits effective
  salt : segment w (4 * P.KN + 704) 256 = bytesBits s.salt.toList
  freshKey : segment w (4 * P.KN + 960) 256 = bytesBits s.freshKey.toList
  freshBaseBalance : segment w (4 * P.KN + 1216) 64 = u64Bits s.freshBaseBalance
  freshNonce : segment w (4 * P.KN + 1280) 256 = bytesBits s.freshNonce.toList
  oldCarries : segment w (4 * P.KN + 1536) 64 = oldCarries
  freshCarries : segment w (4 * P.KN + 1600) 64 = freshCarries

namespace AssignsSecrets

theorem reads (h : AssignsSecrets w P s effective oldCarries freshCarries) :
    ReadsSecrets w (SpendWires.fresh P) s effective oldCarries freshCarries where
  signature := reads_bitWires h.signature
  key := reads_bitWires h.key
  baseBalance := reads_bitWires h.baseBalance
  nonce := reads_bitWires h.nonce
  topup := reads_bitWires h.topup
  effectiveBalance := reads_bitWires h.effectiveBalance
  salt := reads_bitWires h.salt
  freshKey := reads_bitWires h.freshKey
  freshBaseBalance := reads_bitWires h.freshBaseBalance
  freshNonce := reads_bitWires h.freshNonce
  oldCarries := reads_bitWires h.oldCarries
  freshCarries := reads_bitWires h.freshCarries

theorem length_signature (h : AssignsSecrets w P s effective oldCarries freshCarries) :
    s.signature.length = P.KN := by
  have hlen := congrArg List.length h.signature
  rw [segment_length, gf16Bits_length] at hlen
  omega

/-- Every assignment stands for some secrets. -/
theorem exists_secrets (w : Nat → Bool) (P : MayoParams) :
    ∃ s effective oldCarries freshCarries,
      AssignsSecrets w P s effective oldCarries freshCarries := by
  obtain ⟨signature, hsignature⟩ := exists_nibbles (n := P.KN) (segment_length w 0 (4 * P.KN))
  obtain ⟨key, hkey⟩ := exists_bytes (n := 32) (segment_length w (4 * P.KN) 256)
  obtain ⟨base, hbase⟩ := exists_u64 (segment_length w (4 * P.KN + 256) 64)
  obtain ⟨nonce, hnonce⟩ := exists_bytes (n := 32) (segment_length w (4 * P.KN + 320) 256)
  obtain ⟨topup, htopup⟩ := exists_u64 (segment_length w (4 * P.KN + 576) 64)
  obtain ⟨effective, heffective⟩ := exists_u64 (segment_length w (4 * P.KN + 640) 64)
  obtain ⟨salt, hsalt⟩ := exists_bytes (n := 32) (segment_length w (4 * P.KN + 704) 256)
  obtain ⟨freshKey, hfreshKey⟩ := exists_bytes (n := 32) (segment_length w (4 * P.KN + 960) 256)
  obtain ⟨freshBase, hfreshBase⟩ := exists_u64 (segment_length w (4 * P.KN + 1216) 64)
  obtain ⟨freshNonce, hfreshNonce⟩ :=
    exists_bytes (n := 32) (segment_length w (4 * P.KN + 1280) 256)
  exact ⟨⟨signature.toList, key, base, nonce, topup, salt, freshKey, freshBase, freshNonce⟩,
    effective, _, _, hsignature.symm, hkey.symm, hbase.symm, hnonce.symm, htopup.symm,
    heffective.symm, hsalt.symm, hfreshKey.symm, hfreshBase.symm, hfreshNonce.symm, rfl, rfl⟩

/-- Assignments that agree on the secrets' bits stand for the same secrets. -/
theorem secrets_eq {w' : Nat → Bool} {s' : SpendSecrets} {effective' : U64}
    {oldCarries' freshCarries' : List Bool}
    (h : AssignsSecrets w P s effective oldCarries freshCarries)
    (h' : AssignsSecrets w' P s' effective' oldCarries' freshCarries')
    (hagree : ∀ t, IsSecretBit P t → w t = w' t) : s' = s := by
  have hsegment (start n : Nat) (hbits : ∀ i < n, IsSecretBit P (start + i)) :
      segment w' start n = segment w start n := segment_congr fun i hi => (hagree _ (hbits i hi)).symm
  have hbytes {n start : Nat} {x y : Bytes n} (hx : segment w' start (n * 8) = bytesBits x.toList)
      (hy : segment w start (n * 8) = bytesBits y.toList)
      (hbits : ∀ i < n * 8, IsSecretBit P (start + i)) : x = y :=
    Vector.toList_inj.mp (bytesBits_inj (hx.symm.trans ((hsegment _ _ hbits).trans hy)))
  have hu64 {start : Nat} {x y : U64} (hx : segment w' start 64 = u64Bits x)
      (hy : segment w start 64 = u64Bits y) (hbits : ∀ i < 64, IsSecretBit P (start + i)) : x = y :=
    u64Bits_inj (hx.symm.trans ((hsegment _ _ hbits).trans hy))
  unfold IsSecretBit at hbytes hu64 hsegment
  cases s
  cases s'
  rw [SpendSecrets.mk.injEq]
  refine ⟨gf16Bits_inj (h'.signature.symm.trans ((hsegment _ _ ?_).trans h.signature)),
    hbytes h'.key h.key ?_, hu64 h'.baseBalance h.baseBalance ?_, hbytes h'.nonce h.nonce ?_,
    hu64 h'.topup h.topup ?_, hbytes h'.salt h.salt ?_, hbytes h'.freshKey h.freshKey ?_,
    hu64 h'.freshBaseBalance h.freshBaseBalance ?_, hbytes h'.freshNonce h.freshNonce ?_⟩
  all_goals
    intro i hi
    omega

theorem unique {s' : SpendSecrets} {effective' : U64} {oldCarries' freshCarries' : List Bool}
    (h : AssignsSecrets w P s effective oldCarries freshCarries)
    (h' : AssignsSecrets w P s' effective' oldCarries' freshCarries') :
    s' = s ∧ effective' = effective ∧ oldCarries' = oldCarries ∧ freshCarries' = freshCarries :=
  ⟨h.secrets_eq h' fun _ _ => rfl,
    u64Bits_inj (h'.effectiveBalance.symm.trans h.effectiveBalance),
    h'.oldCarries.symm.trans h.oldCarries, h'.freshCarries.symm.trans h.freshCarries⟩

end AssignsSecrets

/-- What the assignment of a spend's witness consists of. -/
theorem witness_eq_segment (c : SpendCircuit P) (hsig : s.signature.length = P.KN)
    (hsum : s.baseBalance.toNat + s.topup.toNat < 2 ^ 64) :
    c.witness s = (.ok (segment w 0 (4 * P.KN + 30464)) : Outcome VoleithError (List Bool)) ↔
      AssignsSecrets w P s (s.baseBalance + s.topup) (carryBits s.baseBalance s.topup)
          (carryBits s.freshBaseBalance c.spend) ∧
        Checkpoints w (4 * P.KN + 1664)
          (credentialMessage c.context s.key s.baseBalance s.nonce) ∧
        Checkpoints w (4 * P.KN + 1664 + 9600) (tokenMessage
          (credentialTarget P c.context s.key s.baseBalance s.nonce) s.topup s.salt) ∧
        Checkpoints w (4 * P.KN + 1664 + 9600 + 9600)
          (credentialMessage c.context s.freshKey s.freshBaseBalance s.freshNonce) := by
  have hm := P.m_le
  have hcredential (key : Bytes 32) (balance : U64) (nonce : Bytes 32) :
      (keccakCheckpoints (credentialMessage c.context key balance nonce) :
        Outcome VoleithError (List Bool)) = .ok _ := keccakCheckpoints_eq (by simp [rateBytes])
  have htoken : (keccakCheckpoints (tokenMessage
      (credentialTarget P c.context s.key s.baseBalance s.nonce) s.topup s.salt) :
        Outcome VoleithError (List Bool)) = .ok _ :=
    keccakCheckpoints_eq (tokenMessage_lt (by simp; omega))
  have hlen : (gf16Bits s.signature).length = 4 * P.KN := by
    rw [gf16Bits_length, hsig, Nat.mul_comm]
  have hbytes (v : Bytes 32) : (bytesBits v.toList).length = 256 := by simp
  have hok {a b : List Bool} : (Pure.pure a : Outcome VoleithError (List Bool)) = .ok b ↔ b = a :=
    ⟨fun h => (Except.ok.inj h).symm, fun h => h ▸ rfl⟩
  rw [SpendCircuit.witness, checkedAdd, if_pos hsum, hcredential, hcredential]
  dsimp only
  rw [htoken]
  -- the segment is cut as the builder appends: the secrets, the carries, the checkpoints
  rw [show 4 * P.KN + 30464 = 4 * P.KN + (256 + (64 + (256 + (64 + (64 + (256 + (256 + (64 + (256 +
    (64 + (64 + (9600 + (9600 + 9600))))))))))))) by omega]
  rw [Outcome.expect_some, Outcome.ok_bind, Outcome.ok_bind, Outcome.ok_bind, Outcome.ok_bind]
  simp only [List.append_assoc]
  rw [hok, segment_eq_append hlen, Nat.zero_add, segment_eq_append (hbytes _),
    segment_eq_append (u64Bits_length _), segment_eq_append (hbytes _),
    segment_eq_append (u64Bits_length _), segment_eq_append (u64Bits_length _),
    segment_eq_append (hbytes _), segment_eq_append (hbytes _),
    segment_eq_append (u64Bits_length _), segment_eq_append (hbytes _),
    segment_eq_append (carryBits_length _ _), segment_eq_append (carryBits_length _ _),
    segment_eq_append (checkpointBits_length _), segment_eq_append (checkpointBits_length _),
    checkpoints_iff, checkpoints_iff, checkpoints_iff]
  constructor
  · rintro ⟨h1, h2, h3, h4, h5, h6, h7, h8, h9, h10, h11, h12, hrest⟩
    exact ⟨⟨h1, h2, h3, h4, h5, h6, h7, h8, h9, h10, h11, h12⟩, hrest⟩
  · rintro ⟨⟨h1, h2, h3, h4, h5, h6, h7, h8, h9, h10, h11, h12⟩, hrest⟩
    exact ⟨h1, h2, h3, h4, h5, h6, h7, h8, h9, h10, h11, h12, hrest⟩

/-- An exact 64-bit sum. -/
theorem u64_sum_iff {a b sum : U64} :
    a.toNat + b.toNat = sum.toNat ↔ a.toNat + b.toNat < 2 ^ 64 ∧ sum = a + b := by
  rw [← BitVec.toNat_inj, BitVec.toNat_add]
  have hlt := sum.isLt
  omega

/-- The program after its dimension check and its allocations. -/
theorem emits_spendProgram (c : SpendCircuit P) (hfresh : c.freshCommitment.length = P.M) {Q : Prop}
    (h : Emits w (c.assertBalances (SpendWires.fresh P) >>= fun _ =>
      c.assertHashes (SpendWires.fresh P)) (4 * P.KN + 1664) () 28800 Q) :
    Emits w c.program 0 () (4 * P.KN + 30464) Q := by
  have hm := P.m_le
  have hdomain : signedTokenDomain.length = 18 := by decide
  have hguard : ¬ (c.freshCommitment.length ≠ P.M ∨
      rateBytes ≤ signedTokenDomain.length + (P.M + 1) / 2 + 8 + saltBytes) := by
    rw [hdomain, not_or, not_not]
    unfold rateBytes saltBytes
    exact ⟨hfresh, by omega⟩
  have hprogram : Emits w c.program 0 () (4 * P.KN + 1664 + 28800) (True ∧ Q) := by
    rw [SpendCircuit.program, if_neg hguard]
    refine (emits_alloc P).bind ?_
    rw [Nat.zero_add]
    exact h
  rw [Nat.add_assoc] at hprogram
  exact hprogram.congr (iff_of_eq (true_and Q))

/-- The spend circuit on the secrets its bits assign. -/
theorem emits_spend {H : Xof} {pk : PublicKey P} (c : SpendCircuit P)
    (hterms : c.terms = (mayoTermsAndHash H pk).1) (hfresh : c.freshCommitment.length = P.M)
    (h : AssignsSecrets w P s effective oldCarries freshCarries) :
    Emits w c.program 0 () (4 * P.KN + 30464)
      ((effective = s.baseBalance + s.topup ∧ oldCarries = carryBits s.baseBalance s.topup ∧
          freshCarries = carryBits s.freshBaseBalance c.spend) ∧
        (Checkpoints w (4 * P.KN + 1664)
            (credentialMessage c.context s.key s.baseBalance s.nonce) ∧
          Checkpoints w (4 * P.KN + 1664 + 9600) (tokenMessage
            (credentialTarget P c.context s.key s.baseBalance s.nonce) s.topup s.salt) ∧
          Checkpoints w (4 * P.KN + 1664 + 9600 + 9600)
            (credentialMessage c.context s.freshKey s.freshBaseBalance s.freshNonce)) ∧
        SpendRelation pk c s) := by
  have hprogram := emits_spendProgram c hfresh
    ((emits_assertBalances c h.reads (4 * P.KN + 1664)).seq
      (emits_assertHashes c hterms hfresh h.length_signature h.reads (4 * P.KN + 1664)))
  refine Emits.congr hprogram ?_
  rw [u64_sum_iff]
  constructor
  · rintro ⟨⟨hdirect, ⟨⟨hover, heff⟩, hold⟩, hsum, hnew⟩, hcheck, htoken, hcheck', hsigned,
      hnull, hcommit⟩
    have hbalance : s.baseBalance.toNat + s.topup.toNat =
        s.freshBaseBalance.toNat + c.spend.toNat := (u64_sum_iff.mpr ⟨hover, heff⟩).trans hsum.symm
    exact ⟨⟨heff, hold, hnew⟩, ⟨hcheck, htoken, hcheck'⟩,
      ⟨hsigned, hnull, hcommit, hbalance, hover, hdirect⟩⟩
  · rintro ⟨⟨heff, hold, hnew⟩, ⟨hcheck, htoken, hcheck'⟩, hrel⟩
    have hsum := hrel.balance.symm.trans (u64_sum_iff.mpr ⟨hrel.no_overflow, heff⟩)
    exact ⟨⟨hrel.direct, ⟨⟨hrel.no_overflow, heff⟩, hold⟩, hsum, hnew⟩, hcheck, htoken, hcheck',
      hrel.signed, hrel.nullifier, hrel.fresh⟩

/-- Only signatures of the right length evaluate. -/
theorem SpendRelation.length_signature {pk : PublicKey P} {c : SpendCircuit P}
    (h : SpendRelation pk c s) : s.signature.length = P.KN := length_of_eval h.signed

/-- Bits satisfy the spend circuit exactly when they are the witness of a valid spend. -/
theorem spend_exact {H : Xof} {pk : PublicKey P} (c : SpendCircuit P)
    (hterms : c.terms = (mayoTermsAndHash H pk).1) (hfresh : c.freshCommitment.length = P.M) :
    ∃ ops, c.build = .ok ops ∧ witnessBits ops = 4 * P.KN + 30464 ∧ builtDegree ops ≤ maxDegree ∧
      ∀ w, Satisfies w ops ↔ ∃ s,
        c.witness s = (.ok (segment w 0 (4 * P.KN + 30464)) : Outcome VoleithError (List Bool)) ∧
          SpendRelation pk c s := by
  refine Emits.circuit_forall fun w => ?_
  obtain ⟨s, effective, oldCarries, freshCarries, h⟩ := AssignsSecrets.exists_secrets w P
  refine (emits_spend c hterms hfresh h).congr ?_
  constructor
  · rintro ⟨⟨heff, hold, hnew⟩, hchecks, hrel⟩
    rw [heff, hold, hnew] at h
    exact ⟨s, (witness_eq_segment c hrel.length_signature hrel.no_overflow).mpr ⟨h, hchecks⟩, hrel⟩
  · rintro ⟨s', hwitness, hrel⟩
    obtain ⟨h', hchecks⟩ :=
      (witness_eq_segment c hrel.length_signature hrel.no_overflow).mp hwitness
    -- the bits determine the secrets
    obtain ⟨rfl, heff, hold, hnew⟩ := h.unique h'
    exact ⟨⟨heff.symm, hold.symm, hnew.symm⟩, hchecks, hrel⟩

/-- The witness generator of the issue circuit succeeds on every opening. -/
theorem IssueCircuit.witness_ok {P : MayoParams} (c : IssueCircuit P) (key nonce : Bytes 32) :
    ∃ bits : List Bool, (∀ ε : Type, (c.witness key nonce : Outcome ε _) = .ok bits) ∧
      bits.length = 10112 := by
  refine ⟨bytesBits key.toList ++ bytesBits nonce.toList ++
    checkpointBits (credentialMessage c.context key c.balance nonce), fun ε => ?_, by simp⟩
  rw [IssueCircuit.witness, keccakCheckpoints_eq (by simp [rateBytes])]
  rfl

/-- The witness of a spend whose balance does not overflow. -/
theorem SpendCircuit.witness_eq {ε : Type} (c : SpendCircuit P)
    (hsum : s.baseBalance.toNat + s.topup.toNat < 2 ^ 64) :
    (c.witness s : Outcome ε (List Bool)) = .ok (gf16Bits s.signature ++ bytesBits s.key.toList ++
      u64Bits s.baseBalance ++ bytesBits s.nonce.toList ++ u64Bits s.topup ++
      u64Bits (s.baseBalance + s.topup) ++ bytesBits s.salt.toList ++ bytesBits s.freshKey.toList ++
      u64Bits s.freshBaseBalance ++ bytesBits s.freshNonce.toList ++
      carryBits s.baseBalance s.topup ++ carryBits s.freshBaseBalance c.spend ++
      checkpointBits (credentialMessage c.context s.key s.baseBalance s.nonce) ++
      checkpointBits (tokenMessage
        (credentialTarget P c.context s.key s.baseBalance s.nonce) s.topup s.salt) ++
      checkpointBits
        (credentialMessage c.context s.freshKey s.freshBaseBalance s.freshNonce)) := by
  have hm := P.m_le
  rw [SpendCircuit.witness, checkedAdd, if_pos hsum, keccakCheckpoints_eq (by simp [rateBytes]),
    keccakCheckpoints_eq (by simp [rateBytes])]
  dsimp only
  rw [keccakCheckpoints_eq (tokenMessage_lt (by simp; omega))]
  rfl

/-- The witness generator of the spend circuit succeeds only when the balance does not overflow. -/
theorem SpendCircuit.of_witness {ε : Type} {c : SpendCircuit P} {bits : List Bool}
    (h : (c.witness s : Outcome ε (List Bool)) = .ok bits) :
    s.baseBalance.toNat + s.topup.toNat < 2 ^ 64 ∧
      bits.length = 4 * s.signature.length + 30464 := by
  by_cases hsum : s.baseBalance.toNat + s.topup.toNat < 2 ^ 64
  · obtain rfl := Except.ok.inj ((c.witness_eq hsum).symm.trans h)
    refine ⟨hsum, ?_⟩
    simp
    omega
  · rw [SpendCircuit.witness, checkedAdd, if_neg hsum] at h
    cases h

theorem SpendCircuit.witness_ok (c : SpendCircuit P) (hsig : s.signature.length = P.KN)
    (hsum : s.baseBalance.toNat + s.topup.toNat < 2 ^ 64) :
    ∃ bits : List Bool, (∀ ε : Type, (c.witness s : Outcome ε _) = .ok bits) ∧
      bits.length = 4 * P.KN + 30464 := by
  refine ⟨_, fun ε => c.witness_eq hsum, ?_⟩
  rw [(SpendCircuit.of_witness (ε := Unit) (c.witness_eq hsum)).2, hsig]

/-- The circuit `prepare` and `spend` build for a public key. -/
def SpendCircuit.forKey (H : Xof) (pk : PublicKey P) (context : Bytes 32) (spend : U64)
    (nullifier : Bytes 32) (freshCommitment : List GF16) (inputKind : InputCredentialKind) :
    SpendCircuit P where
  terms := (mayoTermsAndHash H pk).1
  terms_fit := mayoTerms_fits H pk
  context := context
  spend := spend
  nullifier := nullifier
  freshCommitment := freshCommitment
  inputKind := inputKind

/-- Secrets whose witnesses agree on the secrets' bits are the same. -/
theorem spendSecrets_inj {c : SpendCircuit P} {s s' : SpendSecrets} {bits bits' : List Bool}
    (hlen : bits.length = 4 * P.KN + 30464) (hlen' : bits'.length = 4 * P.KN + 30464)
    (h : c.witness s = (.ok bits : Outcome VoleithError (List Bool)))
    (h' : c.witness s' = (.ok bits' : Outcome VoleithError (List Bool)))
    (hagree : ∀ t, IsSecretBit P t → assignment bits t = assignment bits' t) : s' = s := by
  obtain ⟨hsum, hbits⟩ := SpendCircuit.of_witness h
  obtain ⟨hsum', hbits'⟩ := SpendCircuit.of_witness h'
  have hseg := segment_assignment bits
  have hseg' := segment_assignment bits'
  rw [hlen] at hseg
  rw [hlen'] at hseg'
  have hassigns := (witness_eq_segment c (by omega) hsum).mp (hseg.symm ▸ h)
  have hassigns' := (witness_eq_segment c (by omega) hsum').mp (hseg'.symm ▸ h')
  exact hassigns.1.secrets_eq hassigns'.1 hagree

/-- Openings whose witnesses agree on the opening's bits are the same. -/
theorem issueOpening_inj {c : IssueCircuit P} {key nonce key' nonce' : Bytes 32}
    {bits bits' : List Bool} (hlen : bits.length = 10112) (hlen' : bits'.length = 10112)
    (h : c.witness key nonce = (.ok bits : Outcome VoleithError (List Bool)))
    (h' : c.witness key' nonce' = (.ok bits' : Outcome VoleithError (List Bool)))
    (hagree : ∀ t < 512, assignment bits t = assignment bits' t) : key' = key ∧ nonce' = nonce := by
  have hseg := segment_assignment bits
  have hseg' := segment_assignment bits'
  rw [hlen] at hseg
  rw [hlen'] at hseg'
  obtain ⟨hkey, hnonce, -⟩ := (issueWitness_eq_segment c).mp (hseg.symm ▸ h)
  obtain ⟨hkey', hnonce', -⟩ := (issueWitness_eq_segment c).mp (hseg'.symm ▸ h')
  have hopening (start : Nat) (hstart : start + 256 ≤ 512) :
      segment (assignment bits') start 256 = segment (assignment bits) start 256 :=
    segment_congr fun i hi => (hagree _ (by omega)).symm
  exact ⟨Vector.toList_inj.mp
      (bytesBits_inj (hkey'.symm.trans ((hopening 0 (by decide)).trans hkey))),
    Vector.toList_inj.mp
      (bytesBits_inj (hnonce'.symm.trans ((hopening 256 (by decide)).trans hnonce)))⟩

/-- The circuits hold of exactly the witnesses of their native relations, and a witness is
    determined by its secrets. -/
theorem circuits_express_relation (H : Xof) (pk : PublicKey P) (context : Bytes 32) :
    (∀ (spend : U64) (nullifier : Bytes 32) (freshCommitment : Vector GF16 P.M)
        (inputKind : InputCredentialKind),
      let c := SpendCircuit.forKey H pk context spend nullifier freshCommitment.toList inputKind
      ∃ ops, c.build = .ok ops ∧
        (∀ bits, bits.length = witnessBits ops →
          (Satisfies (assignment bits) ops ↔ ∃ s : SpendSecrets,
            c.witness s = (.ok bits : Outcome VoleithError (List Bool)) ∧
              SpendRelation pk c s)) ∧
        ∀ bits bits', bits.length = witnessBits ops → bits'.length = witnessBits ops →
          Satisfies (assignment bits) ops → Satisfies (assignment bits') ops →
          (∀ t, IsSecretBit P t → assignment bits t = assignment bits' t) → bits = bits') ∧
    ∀ (balance : U64) (target : Vector GF16 P.M),
      let c : IssueCircuit P := { context, balance, target := target.toList }
      ∃ ops, c.build = .ok ops ∧
        (∀ bits, bits.length = witnessBits ops →
          (Satisfies (assignment bits) ops ↔ ∃ key nonce : Bytes 32,
            c.witness key nonce = (.ok bits : Outcome VoleithError (List Bool)) ∧
              credentialTarget P context key balance nonce = target.toList)) ∧
        ∀ bits bits', bits.length = witnessBits ops → bits'.length = witnessBits ops →
          Satisfies (assignment bits) ops → Satisfies (assignment bits') ops →
          (∀ t < 512, assignment bits t = assignment bits' t) → bits = bits' := by
  constructor
  · intro spend nullifier freshCommitment inputKind c
    have hterms : c.terms = (mayoTermsAndHash H pk).1 := rfl
    obtain ⟨ops, hbuild, hlen, -, hsat⟩ := spend_exact c hterms freshCommitment.length_toList
    -- a satisfying assignment is the witness the builder makes from its secrets
    have hiff (bits : List Bool) (hbits : bits.length = witnessBits ops) :
        Satisfies (assignment bits) ops ↔ ∃ s,
          c.witness s = (.ok bits : Outcome VoleithError (List Bool)) ∧ SpendRelation pk c s := by
      rw [hsat, ← hlen, ← hbits, segment_assignment]
    refine ⟨ops, hbuild, hiff, fun bits bits' hbits hbits' h h' hagree => ?_⟩
    obtain ⟨s, hs, -⟩ := (hiff bits hbits).mp h
    obtain ⟨s', hs', -⟩ := (hiff bits' hbits').mp h'
    obtain rfl := spendSecrets_inj (hbits.trans hlen) (hbits'.trans hlen) hs hs' hagree
    exact Except.ok.inj (hs.symm.trans hs')
  · intro balance target c
    obtain ⟨ops, hbuild, hlen, -, hsat⟩ := issue_exact c target.length_toList
    have hiff (bits : List Bool) (hbits : bits.length = witnessBits ops) :
        Satisfies (assignment bits) ops ↔ ∃ key nonce : Bytes 32,
          c.witness key nonce = (.ok bits : Outcome VoleithError (List Bool)) ∧
            credentialTarget P context key balance nonce = target.toList := by
      rw [hsat, ← hlen, ← hbits, segment_assignment]
    refine ⟨ops, hbuild, hiff, fun bits bits' hbits hbits' h h' hagree => ?_⟩
    obtain ⟨key, nonce, hs, -⟩ := (hiff bits hbits).mp h
    obtain ⟨key', nonce', hs', -⟩ := (hiff bits' hbits').mp h'
    obtain ⟨rfl, rfl⟩ := issueOpening_inj (hbits.trans hlen) (hbits'.trans hlen) hs hs' hagree
    exact Except.ok.inj (hs.symm.trans hs')

end VoleAct.Act
