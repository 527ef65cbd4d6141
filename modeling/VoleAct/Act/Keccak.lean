/-
  VoleAct.Act.Keccak

  Native `Keccak-f[1600]` and the SHAKE256 sponge (`vole-act/src/keccak.rs`),
  and its rounds bit by bit.

  Lane `(x, y)` is lane `x + 5 * y` of the state, and its bit `z` is bit
  `64 * (x + 5 * y) + z`.  Coordinates live in `Fin 5`, whose arithmetic is the
  source's arithmetic modulo 5.
-/
import VoleAct.Basics
import VoleAct.Lib.LeBytes
import VoleAct.Lib.Lists

namespace VoleAct.Act.Keccak

open VoleAct.Lib

/-- The SHAKE256 rate in bytes. -/
def rateBytes : Nat := 136

/-- Round constants. -/
def RC : List U64 :=
  [0x0000000000000001, 0x0000000000008082, 0x800000000000808a, 0x8000000080008000,
   0x000000000000808b, 0x0000000080000001, 0x8000000080008081, 0x8000000000008009,
   0x000000000000008a, 0x0000000000000088, 0x0000000080008009, 0x000000008000000a,
   0x000000008000808b, 0x800000000000008b, 0x8000000000008089, 0x8000000000008003,
   0x8000000000008002, 0x8000000000000080, 0x000000000000800a, 0x800000008000000a,
   0x8000000080008081, 0x8000000000008080, 0x0000000080000001, 0x8000000080008008]

/-- The literals of coordinates and of bit positions. -/
instance neZero_five : NeZero 5 := ⟨by decide⟩

instance neZero_sixtyFour : NeZero 64 := ⟨by decide⟩

/-- Rotation offsets, indexed `x + 5 * y`. -/
def RHO : Vector (Fin 64) 25 :=
  #v[0, 1, 62, 28, 27,
     36, 44, 6, 55, 20,
     3, 10, 43, 25, 39,
     41, 45, 15, 21, 8,
     18, 2, 61, 56, 14]

/-- A Keccak state: 25 little-endian 64-bit lanes. -/
abbrev State := Vector U64 25

/-- Lane number `x + 5 * y`. -/
def lane (x y : Fin 5) : Fin 25 := ⟨x + 5 * y, by omega⟩

/-- The coordinates `for y in 0..5, for x in 0..5`. -/
def lanes : List (Fin 5 × Fin 5) :=
  (List.finRange 5).flatMap fun y => (List.finRange 5).map fun x => (x, y)

/-- Column parities and their spread: the lanes after theta. -/
def theta (a : State) : State :=
  let c : Vector U64 5 := Vector.ofFn fun x =>
    a.get (lane x 0) ^^^ a.get (lane x 1) ^^^ a.get (lane x 2) ^^^ a.get (lane x 3) ^^^
      a.get (lane x 4)
  let d : Vector U64 5 := Vector.ofFn fun x => c.get (x + 4) ^^^ (c.get (x + 1)).rotateLeft 1
  lanes.foldl (fun b (x, y) => b.set (lane x y) (a.get (lane x y) ^^^ d.get x))
    (Vector.replicate 25 0#64)

/-- Rotate lanes, then permute their positions: `B'[y, 2x+3y] = rot(B[x, y])`. -/
def rhoPi (b : State) : State :=
  lanes.foldl
    (fun p (x, y) =>
      p.set (lane y (2 * x + 3 * y)) ((b.get (lane x y)).rotateLeft (RHO.get (lane x y))))
    (Vector.replicate 25 0#64)

/-- The only nonlinear step. -/
def chi (p : State) : State :=
  lanes.foldl
    (fun out (x, y) =>
      out.set (lane x y)
        (p.get (lane x y) ^^^ (~~~(p.get (lane (x + 1) y)) &&& p.get (lane (x + 2) y))))
    (Vector.replicate 25 0#64)

/-- One round of `Keccak-f[1600]`. -/
def round (a : State) (rc : U64) : State :=
  let out := chi (rhoPi (theta a))
  out.set (lane 0 0) (out.get (lane 0 0) ^^^ rc)

/-- The full permutation. -/
def keccakF (a : State) : State := RC.foldl round a

/-- XOR a rate-sized block into the state. -/
def absorbBlock (state : State) (block : List U8) : State :=
  Vector.ofFn fun i =>
    if i.val < rateBytes / 8 then
      state.get i ^^^ BitVec.ofNat 64 (ofLeBytes ((block.drop (8 * i)).take 8))
    else state.get i

/-- Byte `i` of the state. -/
def squeezeByte (state : State) (i : Nat) : U8 :=
  ((state.getD (i / 8) 0#64) >>> (8 * (i % 8))).setWidth 8

/-- Read `len` bytes from the state. -/
def squeezeBlock (state : State) (len : Nat) : List U8 := (List.range len).map (squeezeByte state)

/-- The padded final block of a message shorter than the rate. -/
def paddedBlock (msg : List U8) : List U8 :=
  (List.range rateBytes).map fun i =>
    msg.getD i 0#8 ^^^ (if i = msg.length then 0x1F#8 else 0#8) ^^^
      (if i = rateBytes - 1 then 0x80#8 else 0#8)

/-- `pad_single_block`: panics when the message does not fit. -/
def padSingleBlock {ε : Type} (msg : List U8) : Outcome ε (List U8) := do
  Outcome.assert (decide (msg.length < rateBytes))
  return paddedBlock msg

/-- Absorb all full blocks, then the padded rest. -/
def absorb (msg : List U8) : State :=
  let full := msg.length / rateBytes
  let state := (List.range full).foldl
    (fun state i => keccakF (absorbBlock state ((msg.drop (rateBytes * i)).take rateBytes)))
    (Vector.replicate 25 0#64)
  keccakF (absorbBlock state (paddedBlock (msg.drop (rateBytes * full))))

/-- Squeeze `outLen` bytes, one permutation after each full block. -/
def squeeze (state : State) (outLen : Nat) : List U8 :=
  ((List.range ((outLen + rateBytes - 1) / rateBytes)).foldl
    (fun (state, out) i =>
      let len := min rateBytes (outLen - rateBytes * i)
      (if len = rateBytes then keccakF state else state, out ++ squeezeBlock state len))
    (state, [])).2

/-- SHAKE256 for arbitrary-length input and output. -/
def shake256 (msg : List U8) (outLen : Nat) : List U8 := squeeze (absorb msg) outLen

/-- Bit `i` of the state. -/
def stateBit (state : State) (i : Nat) : Bool := (state.getD (i / 64) 0#64).getLsbD (i % 64)

/-! ## Bits of a state -/

/-- Position of bit `z` of lane `(x, y)`. -/
def bitIndex (x y : Fin 5) (z : Fin 64) : Nat := 64 * (x + 5 * y) + z

/-- The bits of a state by coordinates. -/
abbrev Bits := Fin 5 → Fin 5 → Fin 64 → Bool

/-- Bit `z` of lane `(x, y)`. -/
def bits (a : State) : Bits := fun x y z => (a.get (lane x y)).getLsbD z

theorem stateBit_bitIndex (a : State) (x y : Fin 5) (z : Fin 64) :
    stateBit a (bitIndex x y z) = bits a x y z := by
  have hdiv : bitIndex x y z / 64 = x + 5 * y := by unfold bitIndex; omega
  have hmod : bitIndex x y z % 64 = z := by unfold bitIndex; omega
  have hlt : x.val + 5 * y.val < 25 := by omega
  rw [stateBit, hdiv, hmod, bits, Vector.getD, Array.getD, dif_pos (by simpa using hlt)]
  rfl

theorem bitIndex_lt (x y : Fin 5) (z : Fin 64) : bitIndex x y z < 1600 := by
  unfold bitIndex
  omega

theorem bitIndex_inj {x y x' y' : Fin 5} {z z' : Fin 64}
    (h : bitIndex x y z = bitIndex x' y' z') : x = x' ∧ y = y' ∧ z = z' := by
  unfold bitIndex at h
  refine ⟨Fin.ext ?_, Fin.ext ?_, Fin.ext ?_⟩ <;> omega

/-! ## The round, bit by bit -/

/-- The parity of column `x` at depth `z`. -/
def parity (a : Bits) (x : Fin 5) (z : Fin 64) : Bool :=
  a x 0 z ^^ a x 1 z ^^ a x 2 z ^^ a x 3 z ^^ a x 4 z

/-- Theta on bits. -/
def thetaBits (a : Bits) : Bits := fun x y z =>
  a x y z ^^ (parity a (x + 4) z ^^ parity a (x + 1) (z - 1))

/-- Rho and pi on bits: lane `(x, y)` comes from lane `(x + 3y, x)`. -/
def rhoPiBits (b : Bits) : Bits := fun x y z =>
  b (x + 3 * y) x (z - RHO.get (lane (x + 3 * y) x))

/-- Chi and iota on bits. -/
def chiBits (p : Bits) (rc : U64) : Bits := fun x y z =>
  (p x y z ^^ (!p (x + 1) y z && p (x + 2) y z)) ^^ (decide (x = 0 ∧ y = 0) && rc.getLsbD z)

/-- A round on bits. -/
def roundBits (a : Bits) (rc : U64) : Bits := chiBits (rhoPiBits (thetaBits a)) rc

theorem lane_inj {x y x' y' : Fin 5} (h : lane x y = lane x' y') : x = x' ∧ y = y' := by
  have hval : x.val + 5 * y.val = x'.val + 5 * y'.val := congrArg Fin.val h
  exact ⟨Fin.ext (by omega), Fin.ext (by omega)⟩

theorem mem_lanes (p : Fin 5 × Fin 5) : p ∈ lanes := by
  revert p
  decide

/-- A loop over the lanes that writes every lane once. -/
theorem get_foldl_lanes (f : Fin 5 × Fin 5 → U64) (a : State) (x y : Fin 5) :
    (lanes.foldl (fun out p => out.set (lane p.1 p.2) (f p)) a).get (lane x y) = f (x, y) := by
  have hinj : ∀ p ∈ lanes, ∀ q ∈ lanes, lane p.1 p.2 = lane q.1 q.2 → p = q :=
    fun p _ q _ h => Prod.ext (lane_inj h).1 (lane_inj h).2
  have hall := mem_lanes (x, y)
  generalize lanes = l at hinj hall ⊢
  exact (get_foldl_set (fun p : Fin 5 × Fin 5 => lane p.1 p.2) f l hinj a).1 (x, y) hall

theorem getLsbD_rotateLeft (w : U64) (r z : Fin 64) :
    (w.rotateLeft r).getLsbD z = w.getLsbD (z - r : Fin 64) := by
  have hr : r.val % 64 = r := Nat.mod_eq_of_lt r.isLt
  rw [BitVec.getLsbD_rotateLeft, hr, Fin.val_sub]
  by_cases h : z.val < r.val
  · rw [decide_eq_true h, cond_true]
    congr 1
    omega
  · rw [decide_eq_false h, cond_false, decide_eq_true z.isLt, Bool.true_and]
    congr 1
    omega

theorem bits_theta (a : State) : bits (theta a) = thetaBits (bits a) := by
  funext x y z
  have hone (w : U64) : (w.rotateLeft 1).getLsbD z = w.getLsbD (z - 1 : Fin 64) :=
    getLsbD_rotateLeft w 1 z
  rw [bits, theta, get_foldl_lanes]
  simp only [Vector.get_ofFn, BitVec.getLsbD_xor, thetaBits, parity, bits, hone]

theorem bits_rhoPi (b : State) : bits (rhoPi b) = rhoPiBits (bits b) := by
  funext x y z
  -- the positions are permuted, so each lane is written once, from `(x + 3y, x)`
  have hinj : ∀ p ∈ lanes, ∀ q ∈ lanes, lane p.2 (2 * p.1 + 3 * p.2) = lane q.2 (2 * q.1 + 3 * q.2) →
      p = q := by decide
  have hsource : ∀ x y : Fin 5, lane x (2 * (x + 3 * y) + 3 * x) = lane x y := by decide
  have hget := (get_foldl_set (fun p : Fin 5 × Fin 5 => lane p.2 (2 * p.1 + 3 * p.2))
    (fun p => (b.get (lane p.1 p.2)).rotateLeft (RHO.get (lane p.1 p.2))) lanes hinj
    (Vector.replicate 25 0#64)).1 (x + 3 * y, x) (mem_lanes _)
  dsimp only at hget
  rw [hsource] at hget
  rw [bits, rhoPi, hget, getLsbD_rotateLeft]
  rfl

theorem bits_chi (p : State) (x y : Fin 5) (z : Fin 64) :
    bits (chi p) x y z = (bits p x y z ^^ (!bits p (x + 1) y z && bits p (x + 2) y z)) := by
  rw [bits, chi, get_foldl_lanes]
  simp only [BitVec.getLsbD_xor, BitVec.getLsbD_and, BitVec.getLsbD_not, z.isLt, decide_true,
    Bool.true_and, bits]

/-- A round of the native permutation is the round on bits. -/
theorem bits_round (a : State) (rc : U64) : bits (round a rc) = roundBits (bits a) rc := by
  funext x y z
  rw [roundBits, chiBits, ← bits_theta, ← bits_rhoPi, ← bits_chi]
  by_cases h : x = 0 ∧ y = 0
  · obtain ⟨rfl, rfl⟩ := h
    simp [bits, round, Vector.get_eq_getElem]
  · have hne : (lane 0 0).val ≠ (lane x y).val := fun he => h (by
      obtain ⟨hx, hy⟩ := lane_inj (Fin.ext he)
      exact ⟨hx.symm, hy.symm⟩)
    simp [bits, round, Vector.get_eq_getElem, h, hne]

/-! ## Messages of one block -/

theorem ext_stateBit {a b : State} (h : ∀ i < 1600, stateBit a i = stateBit b i) : a = b := by
  have hbits : bits a = bits b := by
    funext x y z
    rw [← stateBit_bitIndex, ← stateBit_bitIndex, h _ (bitIndex_lt x y z)]
  apply Vector.ext
  intro i hi
  -- every lane has coordinates
  have hlane : lane ⟨i % 5, by omega⟩ ⟨i / 5, by omega⟩ = ⟨i, hi⟩ := Fin.ext (by
    show i % 5 + 5 * (i / 5) = i
    omega)
  apply BitVec.eq_of_getLsbD_eq
  intro z hz
  have hz' := congrFun (congrFun (congrFun hbits ⟨i % 5, by omega⟩) ⟨i / 5, by omega⟩) ⟨z, hz⟩
  rw [bits, bits, hlane] at hz'
  exact hz'

theorem leBit_paddedBlock (msg : List U8) (t : Nat) (ht : t < 8 * rateBytes) :
    leBit (paddedBlock msg) t =
      (leBit msg t ^^ decide (8 * msg.length ≤ t ∧ t < 8 * msg.length + 5) ^^ decide (t = 1087)) := by
  have hbyte : t / 8 < rateBytes := by omega
  have hdomain (i : Nat) (hi : i < 8) : (0x1F#8).getLsbD i = decide (i < 5) := by
    revert i
    decide
  have hlast (i : Nat) (hi : i < 8) : (0x80#8).getLsbD i = decide (i = 7) := by
    revert i
    decide
  have hmod : t % 8 < 8 := Nat.mod_lt _ (by decide)
  rw [leBit, paddedBlock, List.getD_eq_getElem?_getD, List.getElem?_map,
    List.getElem?_range hbyte, Option.map_some, Option.getD_some, BitVec.getLsbD_xor,
    BitVec.getLsbD_xor]
  congr 1
  -- `0x1F` at the end of the message sets five bits
  · congr 1
    split
    · next h =>
        rw [hdomain _ hmod, decide_eq_decide]
        omega
    · next h =>
        rw [BitVec.getLsbD_zero]
        symm
        rw [decide_eq_false_iff_not]
        omega
  -- `0x80` in the last byte sets bit 1087
  · unfold rateBytes at hbyte ⊢
    split
    · next h =>
        rw [hlast _ hmod, decide_eq_decide]
        omega
    · next h =>
        rw [BitVec.getLsbD_zero]
        symm
        rw [decide_eq_false_iff_not]
        omega

@[simp] theorem paddedBlock_length (msg : List U8) : (paddedBlock msg).length = rateBytes := by
  rw [paddedBlock, List.length_map, List.length_range]

/-- A block of at most the rate is XORed into the state bit by bit. -/
theorem stateBit_absorbBlock (state : State) {block : List U8} (hlen : block.length ≤ rateBytes)
    {i : Nat} (hi : i < 1600) :
    stateBit (absorbBlock state block) i = (stateBit state i ^^ leBit block i) := by
  have hlane : i / 64 < 25 := by omega
  have hz : i % 64 < 64 := Nat.mod_lt _ (by decide)
  have hget : (absorbBlock state block).getD (i / 64) 0#64 =
      if i / 64 < rateBytes / 8 then
        state.getD (i / 64) 0#64 ^^^
          BitVec.ofNat 64 (ofLeBytes ((block.drop (8 * (i / 64))).take 8))
      else state.getD (i / 64) 0#64 := by
    rw [Vector.getD, Array.getD, dif_pos (by simpa using hlane), Vector.getD, Array.getD,
      dif_pos (by simpa using hlane)]
    simp only [absorbBlock, Vector.get_eq_getElem]
    simp
  unfold rateBytes at *
  rw [stateBit, hget]
  by_cases h : i / 64 < 136 / 8
  · -- bit `i % 64` of the lane is bit `i` of the block
    have hsplit : (8 * (i / 64) + i % 64 / 8) = i / 8 := by omega
    have hmod : i % 64 % 8 = i % 8 := by omega
    rw [if_pos h, BitVec.getLsbD_xor, BitVec.getLsbD_ofNat, testBit_ofLeBytes, decide_eq_true hz,
      Bool.true_and, leBit, leBit, List.getD_eq_getElem?_getD, List.getD_eq_getElem?_getD,
      List.getElem?_take_of_lt (by omega), List.getElem?_drop, hsplit, hmod, stateBit]
  · -- the capacity lanes are left alone, and the block has no bits there
    rw [if_neg h, leBit_of_length_le (by omega), Bool.xor_false, stateBit]

/-- The state that has absorbed the padded block of a short message. -/
def absorbed (msg : List U8) : State :=
  absorbBlock (Vector.replicate 25 0#64) (paddedBlock msg)

theorem stateBit_replicate_zero (i : Nat) : stateBit (Vector.replicate 25 0#64) i = false := by
  by_cases h : i / 64 < 25
  · simp [stateBit, Vector.getD, Array.getD, h]
  · simp [stateBit, Vector.getD, Array.getD, h]

theorem stateBit_absorbed (msg : List U8) {i : Nat} (hi : i < 1600) (hlen : msg.length < rateBytes) :
    stateBit (absorbed msg) i =
      (leBit msg i ^^ decide (8 * msg.length ≤ i ∧ i < 8 * msg.length + 5) ^^ decide (i = 1087)) := by
  rw [absorbed, stateBit_absorbBlock _ (paddedBlock_length msg).le hi, stateBit_replicate_zero,
    Bool.false_xor]
  unfold rateBytes at hlen
  by_cases h : i < 8 * rateBytes
  · exact leBit_paddedBlock msg i h
  · unfold rateBytes at h
    rw [leBit_of_length_le (by rw [paddedBlock_length]; unfold rateBytes; omega),
      leBit_of_length_le (by omega)]
    simp only [Bool.false_xor]
    rw [decide_eq_false (by omega), decide_eq_false (by omega)]
    rfl

theorem absorb_of_lt {msg : List U8} (h : msg.length < rateBytes) :
    absorb msg = keccakF (absorbed msg) := by
  rw [absorb, Nat.div_eq_of_lt h]
  rfl

theorem squeeze_of_le (state : State) {outLen : Nat} (h : outLen ≤ rateBytes) :
    squeeze state outLen = squeezeBlock state outLen := by
  rcases Nat.eq_zero_or_pos outLen with rfl | hpos
  · rfl
  · have hone : (outLen + rateBytes - 1) / rateBytes = 1 := by
      unfold rateBytes at *
      omega
    have hmin : min rateBytes outLen = outLen := Nat.min_eq_right h
    simp [squeeze, hone, hmin, List.range_succ]

/-- SHAKE256 of a message and an output of at most one block: one permutation. -/
theorem shake256_single {msg : List U8} (h : msg.length < rateBytes) {outLen : Nat}
    (hout : outLen ≤ rateBytes) :
    shake256 msg outLen = squeezeBlock (keccakF (absorbed msg)) outLen := by
  rw [shake256, absorb_of_lt h, squeeze_of_le _ hout]

theorem getLsbD_squeezeByte (state : State) (i j : Nat) (hj : j < 8) :
    (squeezeByte state i).getLsbD j = stateBit state (8 * i + j) := by
  have hdiv : (8 * i + j) / 64 = i / 8 := by omega
  have hmod : (8 * i + j) % 64 = 8 * (i % 8) + j := by omega
  rw [squeezeByte, BitVec.getLsbD_setWidth, BitVec.getLsbD_ushiftRight, stateBit, hdiv, hmod,
    decide_eq_true hj, Bool.true_and]

theorem squeezeBlock_getD (state : State) {len i : Nat} (h : i < len) :
    (squeezeBlock state len).getD i 0#8 = squeezeByte state i := by
  rw [squeezeBlock, List.getD_eq_getElem?_getD, List.getElem?_map, List.getElem?_range h]
  rfl

/-! ## Checkpoints -/

/-- The state after the first `4 * g` rounds. -/
def checkpoint (msg : List U8) (g : Nat) : State := (RC.take (4 * g)).foldl round (absorbed msg)

@[simp] theorem checkpoint_zero (msg : List U8) : checkpoint msg 0 = absorbed msg := rfl

theorem checkpoint_succ (msg : List U8) (g : Nat) :
    checkpoint msg (g + 1) = ((RC.drop (4 * g)).take 4).foldl round (checkpoint msg g) := by
  rw [checkpoint, Nat.mul_succ, List.take_add, List.foldl_append, checkpoint]

theorem checkpoint_six (msg : List U8) : checkpoint msg 6 = keccakF (absorbed msg) := rfl

/-- Bits of a state after some rounds. -/
theorem bits_foldl_round (rcs : List U64) (a : State) :
    bits (rcs.foldl round a) = rcs.foldl roundBits (bits a) := by
  induction rcs generalizing a with
  | nil => rfl
  | cons rc rcs ih => rw [List.foldl_cons, ih, bits_round, List.foldl_cons]

end VoleAct.Act.Keccak
