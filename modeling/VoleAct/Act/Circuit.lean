/-
  VoleAct.Act.Circuit

  The issue and spend circuits and their witness generators
  (`vole-act/src/circuit.rs`).

  The table of MAYO terms a spend circuit refers to addresses its arena and the
  signature (`MayoTermTable.Fits`), so building the circuit cannot panic.

  The debug assertions of the source are left out, as in a release build.  Calls keep
  them: messages and wires are built with their lengths, a commitment is computed or
  has its dimension checked before it is hashed, and `checkSpend` refuses a direct
  token with a return before its witness is made.
-/
import VoleAct.Act.KeccakCircuit
import VoleAct.Act.MayoTerms

namespace VoleAct.Act

open VoleAct.BinaryFields VoleAct.Lib VoleAct.Mayo VoleAct.Voleith VoleAct.Act.Keccak

/-- Shape of the credential being presented by a spend circuit. -/
inductive InputCredentialKind where
  | direct
  | deferredReturn
  deriving DecidableEq, Repr

/-! ## Wires -/

def constantBit (bit : Bool) : Wire := .constant (if bit then 1 else 0)

def constantBytes (bytes : List U8) : List Wire := (bytesBits bytes).map constantBit

def targetConstantBits (target : List GF16) : List Wire := (gf16Bits target).map constantBit

/-- `constant_bytes` of the little-endian bytes of an amount. -/
def constantU64 (value : U64) : Vector Wire 64 :=
  ⟨(constantBytes (le64 value.toNat)).toArray, by simp [constantBytes, le64]⟩

def credentialWires (context : Bytes 32) (key balance nonce : List Wire) : List Wire :=
  constantBytes credDomain ++ constantBytes context.toList ++ key ++ balance ++ nonce

/-- Zero wires up to the next byte boundary. -/
def padToByte (msg : List Wire) : List Wire :=
  msg ++ List.replicate ((8 - msg.length % 8) % 8) (constantBit false)

def tokenWires (commitment topup salt : List Wire) : List Wire :=
  padToByte (constantBytes signedTokenDomain ++ commitment) ++ topup ++ salt

/-! ## Integer sums -/

/-- The carry into bit `i`. -/
def carryIn (carries : Vector Wire 64) (i : Fin 64) : Wire :=
  if i.val = 0 then .constant 0 else carries.get ⟨i - 1, Nat.lt_of_le_of_lt (Nat.sub_le _ _) i.isLt⟩

/-- The three products of the carry equation of bit `i`. -/
def carryTerms (a b carries : Vector Wire 64) (i : Fin 64) : List QuadTerm :=
  let coefficient := (SharedCoeffs.fromVec ((List.replicate balanceBits 0).set i 1)).asSlice
  [⟨a.get i, b.get i, coefficient⟩, ⟨carryIn carries i, a.get i, coefficient⟩,
    ⟨carryIn carries i, b.get i, coefficient⟩]

/-- `carry_out = a·b + carry_in·(a + b)` for all 64 bits. -/
def carrySystem (a b carries : Vector Wire 64) : QuadSystem where
  terms := (List.finRange 64).flatMap (carryTerms a b carries)
  linear := carries.toList
  length_coeffs := by
    intro t ht
    obtain ⟨i, -, hi⟩ := List.mem_flatMap.mp ht
    simp only [carryTerms, List.mem_cons, List.not_mem_nil, or_false] at hi
    rcases hi with rfl | rfl | rfl <;> simp [SharedCoeffs.asSlice, SharedCoeffs.fromVec, balanceBits]

/-- `assert_u64_sum`: the exact sum `a + b`, without a final carry. -/
def assertU64Sum (a b sum carries : Vector Wire 64) : CircuitM Unit := do
  (List.finRange 64).forM fun i =>
    CircuitM.assertZero (.add (.add (.add (a.get i) (b.get i)) (carryIn carries i)) (sum.get i))
  CircuitM.assertQuadSystem (carrySystem a b carries)
  -- no carry leaves the top bit
  CircuitM.assertZero (carries.get 63)

/-! ## Witness bits -/

/-- One round; the state is written down after every fourth. -/
def checkpointRound (acc : State × List Bool) (entry : U64 × Nat) : State × List Bool :=
  let state := round acc.1 entry.1
  (state, if (entry.2 + 1) % 4 = 0 then acc.2 ++ stateBits state 0 1600 else acc.2)

/-- `append_keccak_checkpoints`. -/
def keccakCheckpoints {ε : Type} (msg : List U8) : Outcome ε (List Bool) := do
  let block ← padSingleBlock msg
  let state := absorbBlock (Vector.replicate 25 0#64) block
  return (RC.zipIdx.foldl checkpointRound (state, [])).2

/-- The carries of a sum, bit by bit. -/
def carryBits (a b : U64) : List Bool :=
  ((List.range balanceBits).foldl
    (fun (carry, out) bit =>
      let carry := (a.getLsbD bit && b.getLsbD bit) || (carry && (a.getLsbD bit ^^ b.getLsbD bit))
      (carry, out ++ [carry]))
    (false, [])).2

/-- `checked_add` on `u64`. -/
def checkedAdd (a b : U64) : Option U64 :=
  if a.toNat + b.toNat < 2 ^ 64 then some (a + b) else none

/-! ## The issue circuit -/

structure IssueCircuit (P : MayoParams) where
  context : Bytes 32
  balance : U64
  target : List GF16

namespace IssueCircuit

variable {P : MayoParams}

def witness {ε : Type} (c : IssueCircuit P) (key nonce : Bytes 32) : Outcome ε (List Bool) := do
  let checkpoints ← keccakCheckpoints (credentialMessage c.context key c.balance nonce)
  return bytesBits key.toList ++ bytesBits nonce.toList ++ checkpoints

def program (c : IssueCircuit P) : CircuitM Unit := do
  if c.target.length ≠ P.M then
    throw .invalidParameters
  let key ← CircuitM.allocBits 256
  let nonce ← CircuitM.allocBits 256
  let msg := credentialWires c.context key.toList (constantBytes (le64 c.balance.toNat)) nonce.toList
  shakeAssertOutput msg (targetConstantBits c.target)

/-- `Circuit::build`. -/
def build (c : IssueCircuit P) : Circuit := c.program.circuit

end IssueCircuit

/-! ## The spend circuit -/

structure SpendCircuit (P : MayoParams) where
  terms : MayoTermTable
  terms_fit : terms.Fits P
  context : Bytes 32
  spend : U64
  nullifier : Bytes 32
  freshCommitment : List GF16
  inputKind : InputCredentialKind

structure SpendSecrets where
  signature : List GF16
  key : Bytes 32
  baseBalance : U64
  nonce : Bytes 32
  topup : U64
  salt : Bytes 32
  freshKey : Bytes 32
  freshBaseBalance : U64
  freshNonce : Bytes 32

/-- The witness bits of a spend before the Keccak checkpoints. -/
structure SpendWires (P : MayoParams) where
  signature : Vector Wire (4 * P.KN)
  key : Vector Wire 256
  baseBalance : Vector Wire 64
  nonce : Vector Wire 256
  topup : Vector Wire 64
  effectiveBalance : Vector Wire 64
  salt : Vector Wire 256
  freshKey : Vector Wire 256
  freshBaseBalance : Vector Wire 64
  freshNonce : Vector Wire 256
  oldCarries : Vector Wire 64
  freshCarries : Vector Wire 64

/-- The allocations at the start of `build`, in order. -/
def SpendWires.alloc (P : MayoParams) : CircuitM (SpendWires P) := do
  let signature ← CircuitM.allocBits (4 * P.KN)
  let key ← CircuitM.allocBits 256
  let baseBalance ← CircuitM.allocBits 64
  let nonce ← CircuitM.allocBits 256
  let topup ← CircuitM.allocBits 64
  let effectiveBalance ← CircuitM.allocBits 64
  let salt ← CircuitM.allocBits 256
  let freshKey ← CircuitM.allocBits 256
  let freshBaseBalance ← CircuitM.allocBits 64
  let freshNonce ← CircuitM.allocBits 256
  let oldCarries ← CircuitM.allocBits 64
  let freshCarries ← CircuitM.allocBits 64
  return { signature, key, baseBalance, nonce, topup, effectiveBalance, salt, freshKey,
           freshBaseBalance, freshNonce, oldCarries, freshCarries }

namespace SpendCircuit

variable {P : MayoParams}

theorem outputBits_le (P : MayoParams) : 4 * P.M + 256 ≤ 1600 := by
  have := P.m_le
  omega

def witness {ε : Type} (c : SpendCircuit P) (s : SpendSecrets) : Outcome ε (List Bool) := do
  let effectiveBalance ← Outcome.expect (checkedAdd s.baseBalance s.topup)
  let oldCommitment := credentialTarget P c.context s.key s.baseBalance s.nonce
  let old ← keccakCheckpoints (credentialMessage c.context s.key s.baseBalance s.nonce)
  let token ← keccakCheckpoints (tokenMessage oldCommitment s.topup s.salt)
  let fresh ← keccakCheckpoints
    (credentialMessage c.context s.freshKey s.freshBaseBalance s.freshNonce)
  -- in the order of the allocations, then the checkpoints of the three hashes
  return gf16Bits s.signature ++ bytesBits s.key.toList ++ u64Bits s.baseBalance ++
    bytesBits s.nonce.toList ++ u64Bits s.topup ++ u64Bits effectiveBalance ++
    bytesBits s.salt.toList ++ bytesBits s.freshKey.toList ++ u64Bits s.freshBaseBalance ++
    bytesBits s.freshNonce.toList ++ carryBits s.baseBalance s.topup ++
    carryBits s.freshBaseBalance c.spend ++ old ++ token ++ fresh

/-- `base + topup = effective = fresh_base + spend`, and no return on a direct input. -/
def assertBalances (c : SpendCircuit P) (wires : SpendWires P) : CircuitM Unit := do
  if c.inputKind = .direct then
    wires.topup.toList.forM CircuitM.assertZero
  assertU64Sum wires.baseBalance wires.topup wires.effectiveBalance wires.oldCarries
  assertU64Sum wires.freshBaseBalance (constantU64 c.spend) wires.effectiveBalance
    wires.freshCarries

/-- The three hash evaluations, the MAYO system and the public outputs. -/
def assertHashes (c : SpendCircuit P) (wires : SpendWires P) : CircuitM Unit := do
  let oldMsg := credentialWires c.context wires.key.toList wires.baseBalance.toList
    wires.nonce.toList
  -- one hash gives the commitment, which stays hidden, and the nullifier
  let oldOutput ← shakeHiddenOutput oldMsg (4 * P.M + 256) (outputBits_le P)
  let oldCommitmentBits := oldOutput.toList.take (4 * P.M)
  let tokenMsg := tokenWires oldCommitmentBits wires.topup.toList wires.salt.toList
  let signedTargetBits ← shakeHiddenOutput tokenMsg (4 * P.M)
    (Nat.le_trans (Nat.le_add_right _ _) (outputBits_le P))
  CircuitM.assertQuadSystem
    (mayoSystem c.terms_fit (liftNibbles wires.signature) (liftNibbles signedTargetBits))
  assertEqual (oldOutput.toList.drop (4 * P.M)) (constantBytes c.nullifier.toList)
  let freshMsg := credentialWires c.context wires.freshKey.toList wires.freshBaseBalance.toList
    wires.freshNonce.toList
  shakeAssertOutput freshMsg (targetConstantBits c.freshCommitment)

def program (c : SpendCircuit P) : CircuitM Unit := do
  -- the salted wrapper and its padding have to fit one block
  if c.freshCommitment.length ≠ P.M ∨
      rateBytes ≤ signedTokenDomain.length + (P.M + 1) / 2 + 8 + saltBytes then
    throw .invalidParameters
  let wires ← SpendWires.alloc P
  c.assertBalances wires
  c.assertHashes wires

/-- `Circuit::build`. -/
def build (c : SpendCircuit P) : Circuit := c.program.circuit

end SpendCircuit

end VoleAct.Act
