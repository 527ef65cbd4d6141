/-
  VoleAct.Voleith.Proof

  `prove` and `verify` (`voleith/src/proof.rs`): VOLE commitment, the wide
  consistency check, the batched QuickSilver check and Fiat–Shamir.

  Coordinates `[0, l)` are witness bits, the next `(d - 1) * λ` are the
  QuickSilver masks and the last `λ` mask the consistency hash.
-/
import VoleAct.Rng
import VoleAct.Voleith.Backend
import VoleAct.Voleith.Transcript
import VoleAct.Voleith.Vole

namespace VoleAct.Voleith

open VoleAct.BinaryFields VoleAct.VectorCommit VoleAct.Lib

def protocolLabel : List U8 := ascii "VOLE-ACT/voleith/v1"

/-- A non-interactive VOLE-in-the-head proof. -/
structure Proof where
  salt : Salt
  coms : List VcCommitment
  corrections : List BitVector
  d : BitVector
  uTilde : GF2p128
  vTilde : List GF2p128
  qsCoefficients : List GF2p128
  openings : List VcOpening

/-! ## Challenge streams -/

/-- Read one field element from a challenge stream. -/
def nextElem (reader : XofReader) : GF2p128 × XofReader :=
  let (buf, reader) := reader.read 16
  (GF2p128.fromBytes buf, reader)

/-- Read `n` field elements. -/
def nextElems : (n : Nat) → XofReader → List GF2p128 × XofReader
  | 0, reader => ([], reader)
  | n + 1, reader =>
      let (e, reader) := nextElem reader
      let (es, reader) := nextElems n reader
      (e :: es, reader)

/-! ## Transcript prologue -/

/-- `absorb_prologue`: everything up to the first challenge. -/
def absorbPrologue (H : Xof) (tr : Transcript) (publicInput : List U8) (params : Params)
    (numWitnessBits maxDeg : Nat) (salt : Salt) (coms : List VcCommitment)
    (corrections : List BitVector) (d : BitVector) : Transcript :=
  let tr := tr.absorb H (ascii "public") publicInput
  let dims := le64 params.tau ++ le64 params.k ++ le64 numWitnessBits ++ le64 maxDeg
  let tr := tr.absorb H (ascii "dims") dims
  let tr := tr.absorb H (ascii "salt") salt.toList
  let tr := coms.foldl (fun tr com => tr.absorb H (ascii "com") com.hash.toList) tr
  let tr := corrections.foldl (fun tr c => tr.absorb H (ascii "correction") c.asBytes) tr
  tr.absorb H (ascii "witness-d") d.asBytes

/-- The bytes of a list of field elements. -/
def elemBytes (es : List GF2p128) : List U8 := es.flatMap fun e => e.toBytes.toList

/-! ## The wide consistency hash -/

/-- Key of the wide linear universal hash. -/
structure WideHashKey where
  r0 : GF2p128
  r1 : GF2p128
  s : GF2p128
  t : GF2p128

/-- `WideHashKey::draw`. -/
def WideHashKey.draw (reader : XofReader) : WideHashKey × XofReader :=
  let (r0, reader) := nextElem reader
  let (r1, reader) := nextElem reader
  let (s, reader) := nextElem reader
  let (t, reader) := nextElem reader
  (⟨r0, r1, s, t⟩, reader)

/-- The bases `(0..x0_len).step_by(128)`. -/
def blockBases (x0Len : Nat) : List Nat := (List.range ((x0Len + 127) / 128)).map (128 * ·)

/-- One Horner accumulator over the chunks. -/
def horner (point : GF2p128) (chunks : List GF2p128) : GF2p128 :=
  chunks.foldl (fun h chunk => h * point + chunk) 0

/-- The chunk of a column at a base, cut to its logical length. -/
def bitsChunk (input : BitVector) (x0Len base : Nat) : GF2p128 :=
  let take := min (x0Len - base) 128
  let word := base / 64
  let chunk := joinWords (input.word64 word) (input.word64 (word + 1))
  ⟨if take < 128 then chunk &&& ((1#128 <<< take) - 1#128) else chunk⟩

/-- `wide_hash_bits`: the hash of one column, of at least 128 bits. -/
def wideHashBits {ε : Type} (key : WideHashKey) (input : BitVector) : Outcome ε GF2p128 := do
  Outcome.assert (decide (128 ≤ input.len))
  let x0Len := input.len - 128
  let chunks := (blockBases x0Len).map (bitsChunk input x0Len)
  let hs := horner key.s chunks
  let ht := horner key.t chunks
  let mask := GF2p128.ofBits fun bit => input.bit (x0Len + bit)
  return key.r0 * hs + key.r1 * ht + mask

/-- The 128 column chunks of the block of rows at a base. -/
def columnChunks (input : List GF2p128) (x0Len base : Nat) : Vector U128 128 :=
  let take := min (x0Len - base) 128
  transpose128 (Vector.ofFn fun row =>
    if row.val < take then (input.getD (base + row) 0).toU128 else 0#128)

/-- `wide_hash_rows`: the same hash on every column of a row-packed matrix. -/
def wideHashRows {ε : Type} (key : WideHashKey) (input : List GF2p128) :
    Outcome ε (List GF2p128) := do
  Outcome.assert (decide (128 ≤ input.length))
  let x0Len := input.length - 128
  let blocks := (blockBases x0Len).map (columnChunks input x0Len)
  let mixed : Vector U128 128 := Vector.ofFn fun column =>
    let chunks := blocks.map fun block => ⟨block.getD column 0#128⟩
    (key.r0 * horner key.s chunks + key.r1 * horner key.t chunks).toU128
  let packedRows := transpose128 mixed
  -- the last 128 rows mask the hashes
  return (List.range 128).map fun row =>
    ⟨packedRows.getD row 0#128⟩ + input.getD (x0Len + row) 0

/-! ## The QuickSilver check -/

/-- The bit a mask group reads: the prover's, or nothing on the verifier's side. -/
def maskBit {ε : Type} (u : Option BitVector) (coordinate : Nat) : Outcome ε Bool :=
  match u with
  | some u => u.get coordinate
  | none => .ok false

/-- One coordinate of a group of `qs_mask_groups`. -/
def qsMaskStep {ε : Type} (l lambda : Nat) (u : Option BitVector) (elems : List GF2p128)
    (group : Nat) (acc : GF2p128 × GF2p128) (b : Nat) : Outcome ε (GF2p128 × GF2p128) := do
  let coordinate := l + group * lambda + b
  let xb : GF2p128 := ⟨1#128 <<< b⟩
  let bit ← maskBit u coordinate
  let elem ← Outcome.index elems coordinate
  return (if bit then acc.1 + xb else acc.1, acc.2 + xb * elem)

/-- One group of `qs_mask_groups`: value `Σ X^b·u_b`, tag or key `Σ X^b·elem_b`. -/
def qsMaskGroup {ε : Type} (l lambda : Nat) (u : Option BitVector) (elems : List GF2p128)
    (group : Nat) : Outcome ε (GF2p128 × GF2p128) :=
  (List.range lambda).foldlM (qsMaskStep l lambda u elems group) (0, 0)

/-- `qs_mask_groups`. -/
def qsMaskGroups {ε : Type} (l lambda groups : Nat) (u : Option BitVector)
    (elems : List GF2p128) : Outcome ε (List (GF2p128 × GF2p128)) :=
  (List.range groups).mapM (qsMaskGroup l lambda u elems)

/-- `align_and_accumulate`; panics when the coefficients are longer than the output. -/
def alignAndAccumulate {ε : Type} (output coefficients : List GF2p128) (weight : GF2p128) :
    Outcome ε (List GF2p128) := do
  Outcome.assert (decide (coefficients.length ≤ output.length))
  let shift := output.length - coefficients.length
  return addAt output shift (coefficients.map (weight * ·))

/-- `evaluate_polynomial`. -/
def evaluatePolynomial (coefficients : List GF2p128) (point : GF2p128) : GF2p128 :=
  evalCoeffs coefficients point

/-- The coefficient list the masks start from: group `i` adds its tag to coefficient `i` and its
    value to coefficient `i + 1`. -/
def maskCoefficients : (index : Nat) → List (GF2p128 × GF2p128) → List GF2p128 → List GF2p128
  | _, [], qs => qs
  | index, (maskValue, maskTag) :: masks, qs =>
      maskCoefficients (index + 1) masks (addAt qs index [maskTag, maskValue])

/-- The filled part of the scratch buffer for one constraint; a system draws its fold
    coefficients, and a nonzero folded error fails when satisfaction is enforced. -/
def fillCoefficients (enforceSatisfied : Bool) (c : ProverConstraint) (chi : XofReader) :
    Outcome VoleithError (List GF2p128 × XofReader) :=
  match c with
  | .simple a0 a1 => .ok ([a0, a1, 0], chi)
  | .system sys =>
      let (phis, chi) := nextElems sys.numEquations chi
      let (a0, a1, error) := sys.fold phis
      if enforceSatisfied && error != 0 then Outcome.err .unsatisfiable
      else .ok ([a0, a1, error], chi)
  | .polynomial poly => .ok (poly.coeffs, chi)

/-- One iteration of the prover's constraint loop. -/
def proverConstraint (enforceSatisfied : Bool) (c : ProverConstraint) (chi : XofReader)
    (qs : List GF2p128) : Outcome VoleithError (XofReader × List GF2p128) := do
  let (filled, chi) ← fillCoefficients enforceSatisfied c chi
  let (x, chi) := nextElem chi
  -- the leading coefficient is the error, and is not sent
  let qs ← alignAndAccumulate qs filled.dropLast x
  return (chi, qs)

/-- The prover's constraint loop. -/
def proverConstraints (enforceSatisfied : Bool) :
    List ProverConstraint → XofReader → List GF2p128 → Outcome VoleithError (List GF2p128)
  | [], _, qs => .ok qs
  | c :: cs, chi, qs => do
      let (chi, qs) ← proverConstraint enforceSatisfied c chi qs
      proverConstraints enforceSatisfied cs chi qs

/-- `constraint_degree`. -/
def constraintDegree : VerifierConstraint → Nat
  | .simple _ | .system _ => 2
  | .polynomial _ degree => degree

/-- `verifier_constraint_evaluation`. -/
def verifierConstraintEvaluation (c : VerifierConstraint) (chi : XofReader) (delta : GF2p128) :
    GF2p128 × XofReader :=
  match c with
  | .simple value => (value, chi)
  | .system system =>
      let (phis, chi) := nextElems system.numEquations chi
      (system.fold phis delta, chi)
  | .polynomial value _ => (value, chi)

/-- The verifier's constraint loop. -/
def verifierConstraints {ε : Type} (maxDeg : Nat) (deltaPows : List GF2p128) (delta : GF2p128) :
    List VerifierConstraint → XofReader → GF2p128 → Outcome ε GF2p128
  | [], _, acc => .ok acc
  | check :: checks, chi, acc => do
      let (value, chi) := verifierConstraintEvaluation check chi delta
      let (x, chi) := nextElem chi
      Outcome.assert (decide (constraintDegree check ≤ maxDeg))
      -- a check of lower degree is lifted to the degree of the batch
      let power ← Outcome.index deltaPows (maxDeg - constraintDegree check)
      verifierConstraints maxDeg deltaPows delta checks chi (acc + x * value * power)

/-- The mask part of the verifier's sum: group `j` contributes `Δ^j` times its key. -/
def maskKeySum {ε : Type} (deltaPows : List GF2p128) (maskKeys : List (GF2p128 × GF2p128)) :
    Outcome ε GF2p128 :=
  maskKeys.zipIdx.foldlM
    (fun acc ((_, key), degree) => do
      let power ← Outcome.index deltaPows degree
      return acc + key * power)
    0

/-! ## Proving -/

/-- The dimensions of a circuit. -/
structure Sizing where
  l : Nat
  maxDeg : Nat
  constraints : Nat

/-- The dimensions a counting pass found; the batched check has at least degree two. -/
def CountingBackend.sizing (counter : CountingBackend) : Sizing :=
  ⟨counter.witnessBits, max counter.maxDegree 2, counter.constraints⟩

/-- The sizing pass shared by both sides: parameters, counting, degree bounds. -/
def sizeCircuit (params : Params) (circuit : Circuit) : Outcome VoleithError Sizing := do
  params.validate
  let counter ← CountingBackend.default.build circuit
  let sizing := counter.sizing
  Outcome.require (sizing.l != 0) .invalidParameters
  Outcome.require (decide (sizing.maxDeg ≤ maxDegree ∧ counter.maxBuiltDegree ≤ maxDegree))
    .invalidParameters
  return sizing

/-- The published corrections `d`, set bit by bit in a zeroed vector. -/
def setBits {ε : Type} (l : Nat) (bits : List Bool) : Outcome ε BitVector :=
  bits.zipIdx.foldlM (fun d (bit, t) => d.set t bit) (BitVector.zero l)

/-- The circuit run of the prover: its constraints and its corrections `d`. -/
def proverRun (circuit : Circuit) (witness : List Bool) (sizing : Sizing) (u : BitVector)
    (tags : List GF2p128) (enforceSatisfied : Bool) :
    Outcome VoleithError (List ProverConstraint × BitVector) := do
  let backend ← (ProverBackend.new witness u tags).build circuit
  Outcome.require
    (backend.bitsUsed == sizing.l && backend.constraints.length == sizing.constraints)
    .witnessMismatch
  Outcome.require (!enforceSatisfied || backend.satisfied) .unsatisfiable
  let d ← setBits sizing.l backend.d
  return (backend.constraints, d)

/-- The QuickSilver message of the prover. -/
def proverQuickSilver (params : Params) (sizing : Sizing) (u : BitVector) (tags : List GF2p128)
    (constraints : List ProverConstraint) (chi : XofReader) (enforceSatisfied : Bool) :
    Outcome VoleithError (List GF2p128) := do
  let masks ← qsMaskGroups sizing.l params.lambda (sizing.maxDeg - 1) (some u) tags
  let qs := maskCoefficients 0 masks (List.replicate sizing.maxDeg 0)
  proverConstraints enforceSatisfied constraints chi qs

/-- The prover after sizing, on its salt and root seeds. -/
def proveCommitted (H : Xof) (params : Params) (publicInput : List U8) (circuit : Circuit)
    (witness : List Bool) (sizing : Sizing) (salt : Salt) (roots : List Seed)
    (enforceSatisfied : Bool) : Outcome VoleithError Proof := do
  let lHat := sizing.l + sizing.maxDeg * params.lambda
  let vole ← (ProverVole.commit H roots salt lHat params).mapErr fun _ => .invalidParameters
  let (constraints, d) ← proverRun circuit witness sizing vole.u vole.tags enforceSatisfied
  let tr := absorbPrologue H (Transcript.new H protocolLabel) publicInput params sizing.l
    sizing.maxDeg salt vole.coms vole.corrections d
  -- each challenge is drawn after everything it is to bind
  let (alpha, tr) := tr.challengeXof H (ascii "alpha")
  let (wideKey, _) := WideHashKey.draw alpha
  let uTilde ← wideHashBits wideKey vole.u
  let vTilde ← wideHashRows wideKey vole.tags
  let tr := tr.absorb H (ascii "consistency") (elemBytes (uTilde :: vTilde))
  let (chi, tr) := tr.challengeXof H (ascii "chi")
  let qsCoefficients ←
    proverQuickSilver params sizing vole.u vole.tags constraints chi enforceSatisfied
  let tr := tr.absorb H (ascii "quicksilver") (elemBytes qsCoefficients)
  let (chall3, _) := tr.challengeBytes H (ascii "delta") 16
  let openings ← (vole.open (splitDelta chall3 params).2).mapErr fun _ => .invalidParameters
  let (coms, corrections) := (vole.coms, vole.corrections)
  return { salt, coms, corrections, d, uTilde, vTilde, qsCoefficients, openings }

/-- `prove_impl`: the result and the generator's state afterwards. -/
def proveImpl {ρ : Type} [CryptoRngCore ρ] (H : Xof) (params : Params) (publicInput : List U8)
    (circuit : Circuit) (witness : List Bool) (rng : ρ) (enforceSatisfied : Bool) :
    Outcome VoleithError Proof × ρ :=
  let sized : Outcome VoleithError Sizing := do
    let sizing ← sizeCircuit params circuit
    Outcome.require (witness.length == sizing.l) .witnessMismatch
    return sizing
  match sized with
  | .error e => (.error e, rng)
  | .ok sizing =>
      let (salt, rng) := CryptoRngCore.fillBytes 32 rng
      let (roots, rng) := fillMany 16 params.tau rng
      (proveCommitted H params publicInput circuit witness sizing salt roots enforceSatisfied, rng)

/-- `prove`. -/
def prove {ρ : Type} [CryptoRngCore ρ] (H : Xof) (params : Params) (publicInput : List U8)
    (circuit : Circuit) (witness : List Bool) (rng : ρ) : Outcome VoleithError Proof × ρ :=
  proveImpl H params publicInput circuit witness rng true

/-! ## Verifying -/

/-- The shape check of `verify`. -/
def shapeMatches (params : Params) (sizing : Sizing) (lHat : Nat) (proof : Proof) : Bool :=
  proof.d.len == sizing.l && proof.coms.length == params.tau &&
    proof.corrections.length == params.tau - 1 && proof.openings.length == params.tau &&
    proof.vTilde.length == params.lambda && proof.qsCoefficients.length == sizing.maxDeg &&
    proof.corrections.all fun c => c.len == lHat

/-- The row-by-row consistency check. -/
def checkRows (lambda : Nat) (uTilde : GF2p128) (vTilde : List GF2p128) (delta : GF2p128)
    (keyTilde : List GF2p128) : Outcome VoleithError Unit :=
  (keyTilde.take lambda).zipIdx.forM fun (keyRow, row) => do
    let v ← Outcome.index vTilde row
    let expected := if uTilde.bit row then v + delta else v
    Outcome.require (keyRow == expected) .invalidProof

/-- The wide consistency check of `verify`: the hashed key rows against the published ones. -/
def checkConsistency (params : Params) (key : WideHashKey) (uTilde : GF2p128)
    (vTilde : List GF2p128) (delta : GF2p128) (keys : List GF2p128) :
    Outcome VoleithError Unit := do
  let keyTilde ← wideHashRows key keys
  checkRows params.lambda uTilde vTilde delta keyTilde

/-- Witness-stage keys: `K'_t = K_t + d_t·Δ` for `t < l`. -/
def witnessKeys {ε : Type} (l : Nat) (d : BitVector) (delta : GF2p128) (keys : List GF2p128) :
    Outcome ε (List GF2p128) :=
  (keys.take l).zipIdx.mapM fun (k, t) => do
    let bit ← d.get t
    return if bit then k + delta else k

/-- The final equation: accumulated mask keys and weighted checks against the published
    polynomial at `Δ`. -/
def checkQuickSilver (params : Params) (sizing : Sizing) (keys : List GF2p128)
    (checks : List VerifierConstraint) (chi : XofReader) (qsCoefficients : List GF2p128)
    (delta : GF2p128) : Outcome VoleithError Unit := do
  let deltaPows := powTable delta (sizing.maxDeg + 1) 1
  let maskKeys ← qsMaskGroups sizing.l params.lambda (sizing.maxDeg - 1) none keys
  let acc ← maskKeySum deltaPows maskKeys
  let acc ← verifierConstraints sizing.maxDeg deltaPows delta checks chi acc
  Outcome.require (acc == evaluatePolynomial qsCoefficients delta) .invalidProof

/-- The circuit run of the verifier over the witness-stage keys. -/
def verifierRun (circuit : Circuit) (sizing : Sizing) (d : BitVector) (delta : GF2p128)
    (keys : List GF2p128) : Outcome VoleithError (List VerifierConstraint) := do
  let wkeys ← witnessKeys sizing.l d delta keys
  let backend ← (VerifierBackend.new wkeys delta).build circuit
  Outcome.require (backend.bitsUsed == sizing.l) .witnessMismatch
  return backend.checks

/-- The part of `verify` after the consistency check: the circuit run over the keys and the
    final equation. -/
def verifyCircuit (params : Params) (circuit : Circuit) (sizing : Sizing) (d : BitVector)
    (keys : List GF2p128) (chi : XofReader) (qsCoefficients : List GF2p128) (delta : GF2p128) :
    Outcome VoleithError Unit := do
  let checks ← verifierRun circuit sizing d delta keys
  checkQuickSilver params sizing keys checks chi qsCoefficients delta

/-- `verify`. -/
def verify (H : Xof) (params : Params) (publicInput : List U8) (circuit : Circuit)
    (proof : Proof) : Outcome VoleithError Unit := do
  let sizing ← sizeCircuit params circuit
  let lHat := sizing.l + sizing.maxDeg * params.lambda
  Outcome.require (shapeMatches params sizing lHat proof) .invalidProof
  let tr := absorbPrologue H (Transcript.new H protocolLabel) publicInput params sizing.l
    sizing.maxDeg proof.salt proof.coms proof.corrections proof.d
  let (alpha, tr) := tr.challengeXof H (ascii "alpha")
  let (wideKey, _) := WideHashKey.draw alpha
  let tr := tr.absorb H (ascii "consistency") (elemBytes (proof.uTilde :: proof.vTilde))
  let (chi, tr) := tr.challengeXof H (ascii "chi")
  let tr := tr.absorb H (ascii "quicksilver") (elemBytes proof.qsCoefficients)
  let (chall3, _) := tr.challengeBytes H (ascii "delta") 16
  let (delta, chunks) := splitDelta chall3 params
  -- every opening is checked against its commitment on the way
  let keys ← (reconstructKeys H proof.salt lHat params proof.coms proof.corrections chunks
    proof.openings).mapErr fun _ => .invalidProof
  checkConsistency params wideKey proof.uTilde proof.vTilde delta keys
  verifyCircuit params circuit sizing proof.d keys chi proof.qsCoefficients delta

end VoleAct.Voleith
