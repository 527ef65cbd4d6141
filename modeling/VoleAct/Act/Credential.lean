/-
  VoleAct.Act.Credential

  The native side of the statement (`vole-act/src/circuit.rs`): the messages a
  credential hashes, its commitment, its nullifier and the signed target.

  All three messages are shorter than the SHAKE256 rate, so every output is a
  range of bits of one permuted state (`checkpoint msg 6`).
-/
import VoleAct.Act.Keccak
import VoleAct.Mayo.Params
import VoleAct.BinaryFields.GF16
import VoleAct.Sha3

namespace VoleAct.Act

open VoleAct.BinaryFields VoleAct.Lib VoleAct.Mayo VoleAct.Act.Keccak

/-- `CRED_DOMAIN`. -/
def credDomain : List U8 := ascii "VOLE-ACT/credential/v2"

/-- `SIGNED_TOKEN_DOMAIN`. -/
def signedTokenDomain : List U8 := ascii "VOLE-ACT/signed/v3"

def balanceBits : Nat := 64

def saltBytes : Nat := 32

def credentialMessage (context key : Bytes 32) (balance : U64) (nonce : Bytes 32) : List U8 :=
  credDomain ++ context.toList ++ key.toList ++ le64 balance.toNat ++ nonce.toList

/-- Nibble `i` of a byte string, low nibble first. -/
def nibbleAt (bytes : List U8) (i : Nat) : GF16 :=
  GF16.new ((bytes.getD (i / 2) 0#8 >>> (4 * (i % 2))) &&& 0x0F#8)

def credentialTarget (P : MayoParams) (context key : Bytes 32) (balance : U64) (nonce : Bytes 32) :
    List GF16 :=
  let bytes := shake256 (credentialMessage context key balance nonce) ((P.M + 1) / 2)
  (List.range P.M).map (nibbleAt bytes)

/-- `pack_gf16`: two nibbles a byte, low nibble first. -/
def packGf16 : List GF16 → List U8
  | [] => []
  | [a] => [a.toU8]
  | a :: b :: rest => (a.toU8 ||| (b.toU8 <<< 4)) :: packGf16 rest

def tokenMessage (commitment : List GF16) (topup : U64) (salt : Bytes 32) : List U8 :=
  signedTokenDomain ++ packGf16 commitment ++ le64 topup.toNat ++ salt.toList

/-- MAYO target binding the hidden base commitment, return, and signer salt. -/
def signedTokenTarget (P : MayoParams) (commitment : List GF16) (topup : U64) (salt : Bytes 32) :
    List GF16 :=
  let bytes := shake256 (tokenMessage commitment topup salt) ((P.M + 1) / 2)
  (List.range P.M).map (nibbleAt bytes)

/-- Byte `i` of a nullifier: eight output bits after the commitment. -/
def nullifierByte (output : List U8) (offset i : Nat) : U8 :=
  (List.range 8).foldl
    (fun acc j =>
      let source := offset + 8 * i + j
      acc ||| (((output.getD (source / 8) 0#8 >>> (source % 8)) &&& 1#8) <<< j))
    0#8

/-- The suffix of the output whose prefix is the commitment. -/
def deriveNullifier (P : MayoParams) (context key : Bytes 32) (balance : U64) (nonce : Bytes 32) :
    Bytes 32 :=
  let offset := 4 * P.M
  let output := shake256 (credentialMessage context key balance nonce) ((offset + 256 + 7) / 8)
  Vector.ofFn fun i => nullifierByte output offset i

/-! ## Bits of the values -/

def bytesBits (bytes : List U8) : List Bool := flatBits 8 (fun byte i => byte.getLsbD i) bytes

def gf16Bits (values : List GF16) : List Bool := flatBits 4 GF16.bit values

def u64Bits (value : U64) : List Bool := (List.range balanceBits).map value.getLsbD

/-- Bits `start..start + n` of a state. -/
def stateBits (state : State) (start n : Nat) : List Bool :=
  (List.range n).map fun i => stateBit state (start + i)

@[simp] theorem bytesBits_length (bytes : List U8) : (bytesBits bytes).length = bytes.length * 8 :=
  flatBits_length bytes

@[simp] theorem gf16Bits_length (values : List GF16) :
    (gf16Bits values).length = values.length * 4 := flatBits_length values

@[simp] theorem u64Bits_length (value : U64) : (u64Bits value).length = 64 := by
  simp [u64Bits, balanceBits]

@[simp] theorem stateBits_length (state : State) (start n : Nat) :
    (stateBits state start n).length = n := by
  simp [stateBits]

theorem bytesBits_append (xs ys : List U8) :
    bytesBits (xs ++ ys) = bytesBits xs ++ bytesBits ys := flatBits_append xs ys

theorem bytesBits_inj {xs ys : List U8} (h : bytesBits xs = bytesBits ys) : xs = ys :=
  flatBits_inj (by decide) (fun _ _ h => BitVec.eq_of_getLsbD_eq fun i hi => h i hi) h

theorem gf16Bits_inj {xs ys : List GF16} (h : gf16Bits xs = gf16Bits ys) : xs = ys :=
  flatBits_inj (by decide) (fun _ _ h => GF16.ext_bit h) h

theorem u64Bits_inj {x y : U64} (h : u64Bits x = u64Bits y) : x = y := by
  apply BitVec.eq_of_getLsbD_eq
  intro i hi
  have hi' : i < balanceBits := hi
  have hbit := congrArg (fun l => l[i]?) h
  simpa [u64Bits, hi'] using hbit

/-- Bit `t` of a byte string in the order of `bytesBits`. -/
theorem getElem?_bytesBits {bytes : List U8} {t : Nat} (h : t < bytes.length * 8) :
    (bytesBits bytes)[t]? = some (leBit bytes t) := by
  have hbyte : t / 8 < bytes.length := by omega
  have hpos : t / 8 * 8 + t % 8 = t := by omega
  have hget : (bytesBits bytes)[t / 8 * 8 + t % 8]? = bytes[t / 8]?.map (·.getLsbD (t % 8)) :=
    getElem?_flatBits bytes (t / 8) (Nat.mod_lt t (by decide))
  rw [hpos, List.getElem?_eq_getElem hbyte] at hget
  rw [hget, leBit, List.getD_eq_getElem?_getD, List.getElem?_eq_getElem hbyte]
  rfl

theorem getElem?_gf16Bits (values : List GF16) (i : Nat) {j : Nat} (hj : j < 4) :
    (gf16Bits values)[i * 4 + j]? = values[i]?.map fun a => a.bit j :=
  getElem?_flatBits values i hj

/-! ## Outputs as ranges of a state -/

@[simp] theorem credentialMessage_length (context key : Bytes 32) (balance : U64)
    (nonce : Bytes 32) : (credentialMessage context key balance nonce).length = 126 := by
  have hdomain : credDomain.length = 22 := by decide
  simp [credentialMessage, le64, hdomain]

theorem packGf16_length (values : List GF16) : (packGf16 values).length = (values.length + 1) / 2 := by
  induction values using packGf16.induct with
  | case1 => rw [packGf16, List.length_nil, List.length_nil]
  | case2 a => rw [packGf16, List.length_singleton, List.length_singleton]
  | case3 a b rest ih =>
      rw [packGf16, List.length_cons, ih, List.length_cons, List.length_cons]
      omega

theorem tokenMessage_length (commitment : List GF16) (topup : U64) (salt : Bytes 32) :
    (tokenMessage commitment topup salt).length = (commitment.length + 1) / 2 + 58 := by
  have hdomain : signedTokenDomain.length = 18 := by decide
  simp [tokenMessage, le64, hdomain, packGf16_length]
  omega

theorem leBit_squeezeBlock (state : State) {len t : Nat} (h : t < 8 * len) :
    leBit (squeezeBlock state len) t = stateBit state t := by
  have hmod : t % 8 < 8 := Nat.mod_lt _ (by decide)
  have hpos : 8 * (t / 8) + t % 8 = t := Nat.div_add_mod t 8
  rw [leBit, show (0 : BitVec 8) = 0#8 from rfl, squeezeBlock_getD state (by omega),
    getLsbD_squeezeByte state _ _ hmod, hpos]

/-- Output bits of a one-block hash are state bits. -/
theorem leBit_shake256 {msg : List U8} (hmsg : msg.length < rateBytes) {outLen t : Nat}
    (hout : outLen ≤ rateBytes) (ht : t < 8 * outLen) :
    leBit (shake256 msg outLen) t = stateBit (checkpoint msg 6) t := by
  rw [shake256_single hmsg hout, leBit_squeezeBlock _ ht, checkpoint_six]

theorem bit_nibbleAt (bytes : List U8) (i : Nat) {j : Nat} (hj : j < 4) :
    (nibbleAt bytes i).bit j = leBit bytes (4 * i + j) := by
  have hmask : ∀ j < 4, (0x0F#8).getLsbD j = true := by decide
  -- where nibble `i` lies: byte `i / 2`, from bit `4 * (i % 2)` on
  have hdiv : (4 * i + j) / 8 = i / 2 := by omega
  have hmod : (4 * i + j) % 8 = 4 * (i % 2) + j := by omega
  rw [GF16.bit, nibbleAt, GF16.new, BitVec.getLsbD_and, BitVec.getLsbD_and, hmask j hj,
    BitVec.getLsbD_ushiftRight, leBit, hdiv, hmod, Bool.and_true, Bool.and_true]
  rfl

/-- The nibbles of a one-block hash are the first bits of its state. -/
theorem gf16Bits_shake256 {msg : List U8} (hmsg : msg.length < rateBytes) {n : Nat}
    (hn : n ≤ 2 * rateBytes) :
    gf16Bits ((List.range n).map (nibbleAt (shake256 msg ((n + 1) / 2)))) =
      stateBits (checkpoint msg 6) 0 (4 * n) := by
  apply List.ext_getElem?
  intro t
  by_cases ht : t < 4 * n
  · have hi : t / 4 < n := by omega
    have hpos : t / 4 * 4 + t % 4 = t := by omega
    have hpos' : 4 * (t / 4) + t % 4 = t := Nat.div_add_mod t 4
    have hj : t % 4 < 4 := Nat.mod_lt _ (by decide)
    conv_lhs => rw [← hpos]
    rw [getElem?_gf16Bits _ _ hj, List.getElem?_map, List.getElem?_range hi, Option.map_some,
      Option.map_some, bit_nibbleAt _ _ hj, hpos', stateBits, List.getElem?_map,
      List.getElem?_range ht, Option.map_some, Nat.zero_add,
      leBit_shake256 hmsg (by omega) (by omega)]
  · rw [List.getElem?_eq_none (by simp; omega), List.getElem?_eq_none (by simp; omega)]

theorem gf16Bits_credentialTarget (P : MayoParams) (context key : Bytes 32) (balance : U64)
    (nonce : Bytes 32) :
    gf16Bits (credentialTarget P context key balance nonce) =
      stateBits (checkpoint (credentialMessage context key balance nonce) 6) 0 (4 * P.M) := by
  have hm := P.m_le
  exact gf16Bits_shake256 (by simp [rateBytes]) (by unfold rateBytes; omega)

/-- The wrapper fits one rate block for every parameter set. -/
theorem tokenMessage_lt {commitment : List GF16} {topup : U64} {salt : Bytes 32}
    (h : commitment.length ≤ 154) : (tokenMessage commitment topup salt).length < rateBytes := by
  rw [tokenMessage_length]
  unfold rateBytes
  omega

theorem gf16Bits_signedTokenTarget (P : MayoParams) {commitment : List GF16} (topup : U64)
    (salt : Bytes 32) (h : commitment.length = P.M) :
    gf16Bits (signedTokenTarget P commitment topup salt) =
      stateBits (checkpoint (tokenMessage commitment topup salt) 6) 0 (4 * P.M) := by
  have hm := P.m_le
  exact gf16Bits_shake256 (tokenMessage_lt (by omega)) (by unfold rateBytes; omega)

@[simp] theorem credentialTarget_length (P : MayoParams) (context key : Bytes 32) (balance : U64)
    (nonce : Bytes 32) : (credentialTarget P context key balance nonce).length = P.M := by
  simp [credentialTarget]

@[simp] theorem signedTokenTarget_length (P : MayoParams) (commitment : List GF16) (topup : U64)
    (salt : Bytes 32) : (signedTokenTarget P commitment topup salt).length = P.M := by
  simp [signedTokenTarget]

theorem getLsbD_nullifierByte (output : List U8) (offset i : Nat) {j : Nat} (hj : j < 8) :
    (nullifierByte output offset i).getLsbD j = leBit output (offset + 8 * i + j) := by
  -- after `n` bits, bit `j` is set exactly when it was one of them
  have hfold (n : Nat) (hn : n ≤ 8) : ((List.range n).foldl
      (fun acc j => acc ||| (((output.getD ((offset + 8 * i + j) / 8) 0#8 >>>
        ((offset + 8 * i + j) % 8)) &&& 1#8) <<< j)) 0#8).getLsbD j =
      (decide (j < n) && leBit output (offset + 8 * i + j)) := by
    induction n with
    | zero => simp
    | succ n ih =>
        rw [List.range_succ, List.foldl_append, List.foldl_cons, List.foldl_nil, BitVec.getLsbD_or,
          ih (by omega), BitVec.getLsbD_shiftLeft, BitVec.getLsbD_and, BitVec.getLsbD_ushiftRight]
        rcases lt_trichotomy j n with h | h | h
        · simp [h, Nat.lt_succ_of_lt h]
        · subst h
          simp [leBit, hj]
        · have hone : (1#8).getLsbD (j - n) = false := by
            have hpos : j - n ≠ 0 := by omega
            simp [hpos]
          have hnot : ¬ j < n + 1 := by omega
          simp [hone, hnot, Nat.not_lt.mpr h.le]
  have h := hfold 8 le_rfl
  rwa [decide_eq_true hj, Bool.true_and] at h

theorem bytesBits_deriveNullifier (P : MayoParams) (context key : Bytes 32) (balance : U64)
    (nonce : Bytes 32) :
    bytesBits (deriveNullifier P context key balance nonce).toList =
      stateBits (checkpoint (credentialMessage context key balance nonce) 6) (4 * P.M) 256 := by
  have hm := P.m_le
  apply List.ext_getElem?
  intro t
  by_cases ht : t < 256
  · have hi : t / 8 < 32 := by omega
    have hmod : t % 8 < 8 := Nat.mod_lt _ (by decide)
    have hpos : 4 * P.M + 8 * (t / 8) + t % 8 = 4 * P.M + t := by omega
    have hbyte : (deriveNullifier P context key balance nonce).toList.getD (t / 8) 0#8 =
        nullifierByte (shake256 (credentialMessage context key balance nonce)
          ((4 * P.M + 256 + 7) / 8)) (4 * P.M) (t / 8) := by
      simp [deriveNullifier, List.getD_eq_getElem?_getD, hi]
    rw [getElem?_bytesBits (by simp; omega), leBit, show (0 : BitVec 8) = 0#8 from rfl, hbyte,
      getLsbD_nullifierByte _ _ _ hmod, hpos,
      leBit_shake256 (by simp [rateBytes]) (by unfold rateBytes; omega) (by omega), stateBits,
      List.getElem?_map, List.getElem?_range ht, Option.map_some]
  · rw [List.getElem?_eq_none (by simp; omega), List.getElem?_eq_none (by simp; omega)]

end VoleAct.Act
