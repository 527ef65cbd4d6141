/-
  VoleAct.Act.Sponge

  The native SHAKE256 is the sponge of rate 1088 over `keccakF`, for messages
  and outputs of every length.

  The credential target and the nullifier of one opening are therefore two
  windows of one output stream.
-/
import VoleAct.Lib.Sponge
import VoleAct.Act.Credential

namespace VoleAct.Act.Keccak

open VoleAct.Lib VoleAct.BinaryFields VoleAct.Mayo

/-! ## The permutation on bit strings -/

/-- The 1600 bits of a state. -/
def toBits (state : State) : Fin 1600 → Bool := fun i => stateBit state i

/-- The lanes of 1600 bits. -/
def ofBits (S : Fin 1600 → Bool) : State :=
  Vector.ofFn fun lane : Fin 25 => BitVec.ofFnLE fun z : Fin 64 => Sponge.bitAt S (64 * lane + z)

/-- `keccakF` as a map of bits. -/
def keccakP (S : Fin 1600 → Bool) : Fin 1600 → Bool := toBits (keccakF (ofBits S))

/-- SHAKE256(N, d) of FIPS 202: suffix `1111`, `pad10*1`, rate 1088. -/
def specShake256 (N : List Bool) (d : Nat) : List Bool :=
  Sponge.sponge keccakP 1088 (N ++ [true, true, true, true]) d

theorem stateBit_ofBits (S : Fin 1600 → Bool) {i : Nat} (hi : i < 1600) :
    stateBit (ofBits S) i = S ⟨i, hi⟩ := by
  have hlane : i / 64 < 25 := by omega
  have hz : i % 64 < 64 := Nat.mod_lt _ (by decide)
  have hpos : 64 * (i / 64) + i % 64 = i := Nat.div_add_mod i 64
  rw [stateBit, Vector.getD, Array.getD, dif_pos (by simpa using hlane)]
  simp [ofBits, BitVec.getLsbD_eq_getElem hz, BitVec.getElem_ofFnLE, hpos, Sponge.bitAt, hi]

theorem ofBits_toBits (state : State) : ofBits (toBits state) = state :=
  ext_stateBit fun _ hi => stateBit_ofBits _ hi

theorem semiconj_toBits : Function.Semiconj toBits keccakF keccakP := fun state => by
  rw [keccakP, ofBits_toBits]

/-! ## Absorbing -/

theorem getD_bytesBits (bytes : List U8) (t : Nat) :
    (bytesBits bytes).getD t false = leBit bytes t := by
  rw [List.getD_eq_getElem?_getD]
  by_cases ht : t < bytes.length * 8
  · rw [getElem?_bytesBits ht, Option.getD_some]
  · rw [List.getElem?_eq_none (by rw [bytesBits_length]; omega), leBit_of_length_le (by omega),
      Option.getD_none]

theorem toBits_absorbBlock (state : State) {block : List U8} (hlen : block.length ≤ rateBytes) :
    toBits (absorbBlock state block) = Sponge.xorBlock (toBits state) (bytesBits block) := by
  funext i
  rw [Sponge.xorBlock, getD_bytesBits]
  exact stateBit_absorbBlock state hlen i.isLt

/-- The padded block holds the message, the suffix and `pad10*1`. -/
theorem bytesBits_paddedBlock {msg : List U8} (h : msg.length < rateBytes) :
    bytesBits (paddedBlock msg) = bytesBits msg ++ [true, true, true, true] ++
      ([true] ++ List.replicate (1082 - 8 * msg.length) false ++ [true]) := by
  have hones : bytesBits msg ++ [true, true, true, true] ++
      ([true] ++ List.replicate (1082 - 8 * msg.length) false ++ [true]) =
        bytesBits msg ++ (List.replicate 5 true ++
          (List.replicate (1082 - 8 * msg.length) false ++ [true])) := by
    simp [List.replicate_succ]
  unfold rateBytes at h
  rw [hones]
  apply List.ext_getElem?
  intro t
  by_cases ht : t < 1088
  · rw [getElem?_bytesBits (by rw [paddedBlock_length]; exact ht),
      leBit_paddedBlock msg t (by unfold rateBytes; omega)]
    by_cases hmsg : t < 8 * msg.length
    · -- the message
      rw [List.getElem?_append_left (by rw [bytesBits_length]; omega),
        getElem?_bytesBits (by omega), decide_eq_false (by omega), decide_eq_false (by omega),
        Bool.xor_false, Bool.xor_false]
    rw [List.getElem?_append_right (by rw [bytesBits_length]; omega), bytesBits_length,
      leBit_of_length_le (by omega), Bool.false_xor]
    by_cases hfive : t < 8 * msg.length + 5
    · -- the suffix and the first bit of the padding
      rw [List.getElem?_append_left (by rw [List.length_replicate]; omega),
        List.getElem?_replicate_of_lt (by omega), decide_eq_true (by omega),
        decide_eq_false (by omega), Bool.xor_false]
    rw [List.getElem?_append_right (by rw [List.length_replicate]; omega), List.length_replicate,
      decide_eq_false (by omega), Bool.false_xor]
    by_cases hlast : t = 1087
    · -- the last bit of the padding
      rw [List.getElem?_append_right (by rw [List.length_replicate]; omega),
        List.length_replicate, decide_eq_true hlast, hlast,
        show 1087 - msg.length * 8 - 5 - (1082 - 8 * msg.length) = 0 by omega]
      rfl
    · -- the zeros before it
      rw [List.getElem?_append_left (by rw [List.length_replicate]; omega),
        List.getElem?_replicate_of_lt (by omega), decide_eq_false hlast]
  · rw [List.getElem?_eq_none (by rw [bytesBits_length, paddedBlock_length]; exact not_lt.mp ht),
      List.getElem?_eq_none (by
        simp only [List.length_append, bytesBits_length, List.length_replicate,
          List.length_singleton]
        omega)]

theorem flatten_fullBlocks (msg : List U8) (k : Nat) :
    ((List.range k).map fun i =>
      bytesBits ((msg.drop (rateBytes * i)).take rateBytes)).flatten =
        bytesBits (msg.take (rateBytes * k)) := by
  induction k with
  | zero => rfl
  | succ k ih =>
      rw [List.range_succ, List.map_append, List.flatten_append, ih, Nat.mul_succ, List.take_add,
        bytesBits_append, List.map_singleton, List.flatten_singleton]

/-- What is left after the full blocks always fits one padded block. -/
theorem remainder_length (msg : List U8) :
    (msg.drop (rateBytes * (msg.length / rateBytes))).length = msg.length % rateBytes := by
  rw [List.length_drop]
  exact (Nat.mod_eq_sub_mul_div).symm

theorem remainder_lt (msg : List U8) :
    (msg.drop (rateBytes * (msg.length / rateBytes))).length < rateBytes := by
  rw [remainder_length]
  exact Nat.mod_lt _ (by decide)

/-- The padded input is the full blocks and the padded remainder. -/
theorem padded_eq_flatten (msg : List U8) :
    bytesBits msg ++ [true, true, true, true] ++
        Sponge.pad10star1 1088 (bytesBits msg ++ [true, true, true, true]).length =
      ((List.range (msg.length / rateBytes)).map (fun i =>
          bytesBits ((msg.drop (rateBytes * i)).take rateBytes)) ++
        [bytesBits (paddedBlock (msg.drop (rateBytes * (msg.length / rateBytes))))]).flatten := by
  have hrest := remainder_lt msg
  have hlen := remainder_length msg
  have hdiv := Nat.div_add_mod msg.length rateBytes
  rw [← hlen] at hdiv
  have hpad : Sponge.pad10star1 1088 (bytesBits msg ++ [true, true, true, true]).length =
      [true] ++ List.replicate
        (1082 - 8 * (msg.drop (rateBytes * (msg.length / rateBytes))).length) false ++ [true] := by
    apply Sponge.pad10star1_eq (by omega)
    refine ⟨msg.length / rateBytes + 1, ?_⟩
    rw [List.length_append, bytesBits_length]
    simp only [List.length_cons, List.length_nil]
    unfold rateBytes at *
    omega
  have hsplit : bytesBits msg = bytesBits (msg.take (rateBytes * (msg.length / rateBytes))) ++
      bytesBits (msg.drop (rateBytes * (msg.length / rateBytes))) := by
    rw [← bytesBits_append, List.take_append_drop]
  rw [List.flatten_append, List.flatten_singleton, flatten_fullBlocks,
    bytesBits_paddedBlock hrest, hpad, hsplit]
  simp only [List.append_assoc]

/-- The absorbing phase of the native hash is that of the sponge. -/
theorem toBits_absorb (msg : List U8) :
    toBits (absorb msg) =
      Sponge.absorb keccakP 1088 (bytesBits msg ++ [true, true, true, true] ++
        Sponge.pad10star1 1088 (bytesBits msg ++ [true, true, true, true]).length) := by
  have hzero : (fun _ => false) = toBits (Vector.replicate 25 0#64) :=
    funext fun i => (stateBit_replicate_zero i).symm
  have hstep : ∀ (state : State) (block : List U8), block.length ≤ rateBytes →
      keccakP (Sponge.xorBlock (toBits state) (bytesBits block)) =
        toBits (keccakF (absorbBlock state block)) := fun state block hlen => by
    rw [← toBits_absorbBlock state hlen, semiconj_toBits]
  have hfull : ∀ (state : State) (i : Nat),
      keccakP (Sponge.xorBlock (toBits state)
        (bytesBits ((msg.drop (rateBytes * i)).take rateBytes))) =
          toBits (keccakF (absorbBlock state ((msg.drop (rateBytes * i)).take rateBytes))) :=
    fun state i => hstep state _ (by rw [List.length_take]; exact min_le_left _ _)
  rw [padded_eq_flatten, Sponge.absorb_flatten keccakP (by decide), List.foldl_append,
    List.foldl_cons, List.foldl_nil, List.foldl_map, hzero, List.foldl_hom toBits hfull,
    hstep _ _ (paddedBlock_length _).le, absorb]
  -- every block is 1088 bits long
  intro P hP
  rcases List.mem_append.mp hP with hP | hP
  · obtain ⟨i, hi, rfl⟩ := List.mem_map.mp hP
    have hi' : rateBytes * (i + 1) ≤ rateBytes * (msg.length / rateBytes) :=
      Nat.mul_le_mul_left _ (List.mem_range.mp hi)
    have hle := Nat.mul_div_le msg.length rateBytes
    rw [bytesBits_length, List.length_take, List.length_drop]
    unfold rateBytes at *
    omega
  · rw [List.mem_singleton.mp hP, bytesBits_length, paddedBlock_length]
    rfl

/-! ## Squeezing -/

/-- Byte `p` of the output: byte `p mod 136` of the state after `p / 136` permutations. -/
def streamByte (state : State) (p : Nat) : U8 :=
  squeezeByte (keccakF^[p / rateBytes] state) (p % rateBytes)

/-- A piece of at most one block continues the stream. -/
theorem map_streamByte_add (state : State) (k : Nat) {len : Nat} (hlen : len ≤ rateBytes) :
    (List.range (rateBytes * k + len)).map (streamByte state) =
      (List.range (rateBytes * k)).map (streamByte state) ++
        squeezeBlock (keccakF^[k] state) len := by
  rw [List.range_add, List.map_append, List.map_map, squeezeBlock]
  congr 1
  apply List.map_congr_left
  intro i hi
  have hi' : i < rateBytes := lt_of_lt_of_le (List.mem_range.mp hi) hlen
  rw [Function.comp_apply, streamByte, Nat.mul_add_div (by decide), Nat.div_eq_of_lt hi',
    Nat.mul_add_mod, Nat.mod_eq_of_lt hi', Nat.add_zero]

/-- One piece of the squeezing loop. -/
def squeezeStep (outLen : Nat) (p : State × List U8) (i : Nat) : State × List U8 :=
  let len := min rateBytes (outLen - rateBytes * i)
  (if len = rateBytes then keccakF p.1 else p.1, p.2 ++ squeezeBlock p.1 len)

/-- After `k` pieces the output has `136 * k` bytes of the stream, or all of them, and the state
    has been permuted once for each full piece. -/
theorem foldl_squeezeStep (state : State) {outLen k : Nat}
    (hk : k ≤ (outLen + rateBytes - 1) / rateBytes) :
    (rateBytes * k ≤ outLen →
      ((List.range k).foldl (squeezeStep outLen) (state, [])).1 = keccakF^[k] state) ∧
    ((List.range k).foldl (squeezeStep outLen) (state, [])).2 =
      (List.range (min outLen (rateBytes * k))).map (streamByte state) := by
  induction k with
  | zero => simp
  | succ k ih =>
      obtain ⟨hstate, hout⟩ := ih (Nat.le_of_succ_le hk)
      have hbefore : rateBytes * k < outLen := by
        have h := (Nat.le_div_iff_mul_le (by decide : 0 < rateBytes)).mp hk
        unfold rateBytes at *
        omega
      have hstate := hstate hbefore.le
      rw [Nat.min_eq_right hbefore.le] at hout
      rw [List.range_succ, List.foldl_append, List.foldl_cons, List.foldl_nil]
      generalize (List.range k).foldl (squeezeStep outLen) (state, []) = p at hstate hout
      simp only [squeezeStep]
      constructor
      · -- a further full piece
        intro hnext
        have hfull : min rateBytes (outLen - rateBytes * k) = rateBytes := by
          rw [Nat.mul_succ] at hnext
          omega
        rw [if_pos hfull, hstate, Function.iterate_succ_apply']
      · have hsum : min outLen (rateBytes * (k + 1)) =
            rateBytes * k + min rateBytes (outLen - rateBytes * k) := by
          rw [Nat.mul_succ]
          omega
        rw [hout, hstate, hsum, map_streamByte_add state k (min_le_left _ _)]

/-- The squeezing loop outputs the first bytes of the stream. -/
theorem squeeze_eq (state : State) (outLen : Nat) :
    squeeze state outLen = (List.range outLen).map (streamByte state) := by
  have hloop := (foldl_squeezeStep state (Nat.le_refl ((outLen + rateBytes - 1) / rateBytes))).2
  have hall : min outLen (rateBytes * ((outLen + rateBytes - 1) / rateBytes)) = outLen := by
    unfold rateBytes
    omega
  rw [hall] at hloop
  exact hloop

/-- Bit `t` of the output stream is the sponge's. -/
theorem leBit_shake256_eq (msg : List U8) {outLen t : Nat} (ht : t < 8 * outLen) :
    leBit (shake256 msg outLen) t = Sponge.streamBit keccakP 1088 (toBits (absorb msg)) t := by
  have hbyte : t / 8 < outLen := by omega
  have hmod : t % 8 < 8 := Nat.mod_lt _ (by decide)
  have hdiv : t / 8 / rateBytes = t / 1088 := Nat.div_div_eq_div_mul t 8 rateBytes
  have hpos : 8 * (t / 8 % rateBytes) + t % 8 = t % 1088 := by
    unfold rateBytes
    omega
  have hrate : t % 1088 < 1600 := by omega
  rw [leBit, shake256, squeeze_eq, List.getD_eq_getElem?_getD, List.getElem?_map,
    List.getElem?_range hbyte, Option.map_some, Option.getD_some, streamByte,
    getLsbD_squeezeByte _ _ _ hmod, hdiv, hpos, Sponge.streamBit, Sponge.bitAt, dif_pos hrate,
    ← (semiconj_toBits.iterate_right _).eq, toBits]

theorem shake256_length (msg : List U8) (outLen : Nat) :
    (shake256 msg outLen).length = outLen := by
  rw [shake256, squeeze_eq, List.length_map, List.length_range]

/-- The native hash is the sponge, for every message and every output length. -/
theorem bytesBits_shake256 (msg : List U8) (outLen : Nat) :
    bytesBits (shake256 msg outLen) = specShake256 (bytesBits msg) (8 * outLen) := by
  rw [specShake256, Sponge.sponge_eq keccakP (by decide) (by decide), ← toBits_absorb]
  apply List.ext_getElem?
  intro t
  by_cases ht : t < 8 * outLen
  · rw [getElem?_bytesBits (by rw [shake256_length]; omega), List.getElem?_map,
      List.getElem?_range ht, Option.map_some, leBit_shake256_eq msg ht]
  · rw [List.getElem?_eq_none (by rw [bytesBits_length, shake256_length]; omega),
      List.getElem?_eq_none (by rw [List.length_map, List.length_range]; omega)]

theorem shake256_prefix (msg : List U8) {n n' : Nat} (h : n ≤ n') :
    shake256 msg n <+: shake256 msg n' := by
  obtain ⟨k, rfl⟩ := Nat.exists_eq_add_of_le h
  rw [shake256, shake256, squeeze_eq, squeeze_eq, List.range_add, List.map_append]
  exact List.prefix_append _ _

/-! ## The credential's windows -/

/-- A window of the stream of a short message, inside the first block of output. -/
theorem window_shake256 {msg : List U8} (hmsg : msg.length < rateBytes) {start len n : Nat}
    (hrate : start + len ≤ 1088) (hn : start + len ≤ 8 * n) :
    ((bytesBits (shake256 msg n)).drop start).take len =
      stateBits (checkpoint msg 6) start len := by
  apply List.ext_getElem?
  intro t
  by_cases ht : t < len
  · have hdiv : (start + t) / 1088 = 0 := Nat.div_eq_of_lt (by omega)
    have hmod : (start + t) % 1088 = start + t := Nat.mod_eq_of_lt (by omega)
    have hlt : start + t < 1600 := by omega
    rw [List.getElem?_take_of_lt ht, List.getElem?_drop,
      getElem?_bytesBits (by rw [shake256_length]; omega), leBit_shake256_eq msg (by omega),
      Sponge.streamBit, hdiv, hmod, Function.iterate_zero_apply, Sponge.bitAt, dif_pos hlt, toBits,
      absorb_of_lt hmsg, ← checkpoint_six, stateBits, List.getElem?_map, List.getElem?_range ht,
      Option.map_some]
  · rw [List.getElem?_eq_none (by rw [List.length_take]; omega),
      List.getElem?_eq_none (by rw [stateBits_length]; omega)]

/-- The native hash is the sponge of FIPS 202 over its own permutation: the remainder always fits
    the padded block, the output has the requested length and is a prefix of every longer one.
    For every parameter set the credential target and the nullifier of one opening are the
    windows `[0, 4M)` and `[4M, 4M + 256)` of one stream. -/
theorem shake256_is_sponge :
    (∀ (msg : List U8) (n : Nat),
      (shake256 msg n).length = n ∧
      bytesBits (shake256 msg n) = specShake256 (bytesBits msg) (8 * n)) ∧
    (∀ (ε : Type) (msg : List U8), ∃ block : List U8,
      (padSingleBlock (msg.drop (rateBytes * (msg.length / rateBytes))) : Outcome ε (List U8)) =
          .ok block ∧
        absorb msg = keccakF (absorbBlock
          ((List.range (msg.length / rateBytes)).foldl (fun state i =>
            keccakF (absorbBlock state ((msg.drop (rateBytes * i)).take rateBytes)))
            (Vector.replicate 25 0#64)) block)) ∧
    (∀ (msg : List U8) (n n' : Nat), n ≤ n' → shake256 msg n <+: shake256 msg n') ∧
    (∀ (P : MayoParams) (context key : Bytes 32) (balance : U64) (nonce : Bytes 32) (n : Nat),
      4 * P.M + 256 ≤ 8 * n →
        gf16Bits (credentialTarget P context key balance nonce) =
          (bytesBits (shake256 (credentialMessage context key balance nonce) n)).take (4 * P.M) ∧
        bytesBits (deriveNullifier P context key balance nonce).toList =
          ((bytesBits (shake256 (credentialMessage context key balance nonce) n)).drop
            (4 * P.M)).take 256) := by
  refine ⟨fun msg n => ⟨shake256_length msg n, bytesBits_shake256 msg n⟩, ?padded,
    fun msg n n' h => shake256_prefix msg h, ?windows⟩
  case padded =>
    -- the remainder is shorter than the rate, so the assertion of the source holds
    intro ε msg
    refine ⟨paddedBlock (msg.drop (rateBytes * (msg.length / rateBytes))), ?_, rfl⟩
    rw [padSingleBlock, decide_eq_true (remainder_lt msg)]
    rfl
  case windows =>
    -- both are cut from one block of output, so longer outputs agree on them
    intro P context key balance nonce n hn
    have hm := P.m_le
    have hmsg : (credentialMessage context key balance nonce).length < rateBytes := by
      rw [credentialMessage_length]
      decide
    constructor
    · have hwindow := window_shake256 hmsg (by omega : 0 + 4 * P.M ≤ 1088)
        (by omega : 0 + 4 * P.M ≤ 8 * n)
      rw [gf16Bits_credentialTarget, ← hwindow, List.drop_zero]
    · rw [bytesBits_deriveNullifier, window_shake256 hmsg (by omega) hn]

end VoleAct.Act.Keccak
