/-
  VoleAct.Voleith.Vole

  VOLE correlations from all-but-one vector commitments (`voleith/src/vole.rs`).

  Per tree, the prover sums the leaf expansions into `u` and into one plane per
  index bit; the verifier sums them in the order `e = i ^ Δ`, with the zero
  vector in place of the leaf it does not know.  `assemble` turns the planes of
  all trees into one field element per coordinate.
-/
import VoleAct.BinaryFields.GF2p128Field
import VoleAct.VectorCommit
import VoleAct.Voleith.Params
import VoleAct.Voleith.Transpose

namespace VoleAct.Voleith

open VoleAct.BinaryFields VoleAct.VectorCommit

variable (H : Xof)

/-- The salt of tree `j`'s vector commitment. -/
def treeSalt (salt : Salt) (j : Nat) : Salt :=
  H.digest 32 (ascii "VOLE-ACT/voleith/v1/tree-salt" ++ salt.toList ++ le64 j)

/-- Expand leaf `i` of tree `j` into its `lHat`-bit contribution. -/
def expandLeaf (salt : Salt) (j i : Nat) (seed : Seed) (lHat : Nat) : BitVector :=
  BitVector.fromXof (H.reader (ascii "VOLE-ACT/voleith/v1/leaf-expand" ++ salt.toList ++ le64 j ++
    le64 i ++ seed.toList)) lHat

/-! ## The plane accumulator -/

/-- Streaming accumulator: `pending[l]` is the sum of a completed even-position
    subtree at level `l`, awaiting its odd sibling. -/
structure PlaneAccumulator where
  k : Nat
  planes : List BitVector
  pending : List (Option BitVector)
  count : Nat

namespace PlaneAccumulator

/-- `PlaneAccumulator::new`. -/
def new (k lHat : Nat) : PlaneAccumulator where
  k := k
  planes := List.replicate k (BitVector.zero lHat)
  pending := List.replicate (k + 1) none
  count := 0

/-- The loop of `push`, from one level up: the new `(pending, planes)`. -/
def pushLoop {ε : Type} : (pending : List (Option BitVector)) → (planes : List BitVector) →
    (cur : BitVector) → Outcome ε (List (Option BitVector) × List BitVector)
  | [], _, _ => Outcome.panic
  | none :: pending, planes, cur => .ok (some cur :: pending, planes)
  | some _ :: _, [], _ => Outcome.panic
  | some left :: pending, plane :: planes, cur => do
      let plane ← plane.xorAssign cur
      let cur ← cur.xorAssign left
      let (pending, planes) ← pushLoop pending planes cur
      return (none :: pending, plane :: planes)

/-- Feed the next leaf expansion, in index order. -/
def push {ε : Type} (acc : PlaneAccumulator) (r : BitVector) : Outcome ε PlaneAccumulator := do
  let (pending, planes) ← pushLoop acc.pending acc.planes r
  return { acc with pending, planes, count := acc.count + 1 }

/-- After exactly `2^k` pushes: `(u, planes)`. -/
def finish {ε : Type} (acc : PlaneAccumulator) : Outcome ε (BitVector × List BitVector) := do
  Outcome.assert (acc.count == 1 <<< acc.k)
  let u ← Outcome.expect (acc.pending[acc.k]?.join)
  return (u, acc.planes)

end PlaneAccumulator

/-! ## Assembling field elements -/

/-- The 64 coordinates of block `w` of 128 planes, before the block is cut. -/
def assembleBlock (flat : List BitVector) (w i : Nat) : GF2p128 :=
  let word (pos : Nat) : U64 := (flat.getD pos (BitVector.zero 0)).word64 w
  let lo := transpose64 (Vector.ofFn fun pos => word pos)
  let hi := transpose64 (Vector.ofFn fun pos => word (64 + pos))
  ⟨joinWords (lo.getD i 0#64) (hi.getD i 0#64)⟩

/-- `assemble`: `planes[j][b]` holds bit `j * k + b` of every coordinate's element. -/
def assemble {ε : Type} (planes : List (List BitVector)) (params : Params) (lHat : Nat) :
    Outcome ε (List GF2p128) := do
  Outcome.assert (planes.length == params.tau)
  Outcome.assert (planes.all fun treePlanes => treePlanes.length == params.k)
  let flat := planes.flatten
  Outcome.assert (flat.length == 128)
  return (List.range ((lHat + 64 - 1) / 64)).flatMap fun w =>
    (List.range (min 64 (lHat - 64 * w))).map (assembleBlock flat w)

/-! ## The prover's side -/

/-- Prover-side VOLE state. -/
structure ProverVole where
  u : BitVector
  tags : List GF2p128
  coms : List VcCommitment
  corrections : List BitVector
  trees : List AllButOneVc

/-- The accumulator over a list of leaf expansions, finished. -/
def accumulate {ε : Type} (k lHat : Nat) (rs : List BitVector) :
    Outcome ε (BitVector × List BitVector) := do
  let acc ← rs.foldlM PlaneAccumulator.push (PlaneAccumulator.new k lHat)
  acc.finish

/-- One tree of `commit`. -/
def commitTree (rootSeeds : List Seed) (salt : Salt) (lHat : Nat) (params : Params) (j : Nat) :
    Outcome VcError (AllButOneVc × VcCommitment × BitVector × List BitVector) := do
  let root ← Outcome.index rootSeeds j
  let (vc, com) ← VectorCommit.commit H root (treeSalt H salt j) params.k
  let (u, planes) ← accumulate params.k lHat
    (vc.leaves.zipIdx.map fun (leaf, i) => expandLeaf H salt j i leaf lHat)
  return (vc, com, u, planes)

/-- `ProverVole::commit`. -/
def ProverVole.commit (rootSeeds : List Seed) (salt : Salt) (lHat : Nat) (params : Params) :
    Outcome VcError ProverVole := do
  Outcome.require (params.validate = .ok () && rootSeeds.length == params.tau) .invalidParameters
  let perTree ← (List.range params.tau).mapM (commitTree H rootSeeds salt lHat params)
  let us := perTree.map fun t => t.2.2.1
  let u ← Outcome.index us 0
  let corrections ← us.tail.mapM fun uj => u.xorAssign uj
  let tags ← assemble (perTree.map fun t => t.2.2.2) params lHat
  let coms := perTree.map fun t => t.2.1
  let trees := perTree.map fun t => t.1
  return { u, tags, coms, corrections, trees }

/-- `ProverVole::open`. -/
def ProverVole.open (vole : ProverVole) (deltas : List Nat) : Outcome VcError (List VcOpening) := do
  Outcome.require (deltas.length == vole.trees.length) .invalidParameters
  (vole.trees.zip deltas).mapM fun (t, d) => t.openAllButOne d

/-! ## The verifier's side -/

/-- The verifier's walk of one tree in the order `e = i ^ delta`; `leaf i` is the
    expansion of leaf `i`, never asked for at the hole. -/
def keyPlanes {ε : Type} (params : Params) (lHat delta : Nat) (leaf : Nat → Outcome ε BitVector)
    (correction : Option BitVector) : Outcome ε (List BitVector) := do
  let rs ← (List.range params.leaves).mapM fun e =>
    if e = 0 then .ok (BitVector.zero lHat) else leaf (e ^^^ delta)
  let (_, planes) ← accumulate params.k lHat rs
  match correction with
  | none => return planes
  | some c => planes.zipIdx.mapM fun (plane, b) =>
      if (delta >>> b) &&& 1 = 1 then plane.xorAssign c else .ok plane

/-- The u-correction of tree `j`; the first tree has none. -/
def treeCorrection (corrections : List BitVector) (j : Nat) : Outcome VcError (Option BitVector) :=
  if 0 < j then some <$> Outcome.index corrections (j - 1) else .ok none

/-- One tree of `reconstruct_keys`. -/
def reconstructTree (salt : Salt) (lHat : Nat) (params : Params) (coms : List VcCommitment)
    (corrections : List BitVector) (deltas : List Nat) (openings : List VcOpening) (j : Nat) :
    Outcome VcError (List BitVector) := do
  let delta ← Outcome.index deltas j
  let com ← Outcome.index coms j
  let opening ← Outcome.index openings j
  let leaves ← VectorCommit.verify H com (treeSalt H salt j) params.k delta opening
  let correction ← treeCorrection corrections j
  keyPlanes params lHat delta
    (fun i => do
      let leaf ← Outcome.index leaves i
      let seed ← Outcome.expect leaf
      return expandLeaf H salt j i seed lHat)
    correction

/-- `reconstruct_keys`. -/
def reconstructKeys (salt : Salt) (lHat : Nat) (params : Params) (coms : List VcCommitment)
    (corrections : List BitVector) (deltas : List Nat) (openings : List VcOpening) :
    Outcome VcError (List GF2p128) := do
  Outcome.require (params.validate = .ok ()) .invalidParameters
  Outcome.require (coms.length == params.tau && corrections.length == params.tau - 1 &&
    deltas.length == params.tau && openings.length == params.tau) .invalidOpening
  Outcome.require (corrections.all fun c => c.len == lHat) .invalidOpening
  let planes ← (List.range params.tau).mapM
    (reconstructTree H salt lHat params coms corrections deltas openings)
  assemble planes params lHat

/-- `split_delta`: the challenge as the field element `Δ` and its chunk indices. -/
def splitDelta (chall : Bytes 16) (params : Params) : GF2p128 × List Nat :=
  let delta := GF2p128.fromBytes chall
  if params.validate = .ok () then
    let bits := BitVec.ofNat 128 (Lib.ofLeBytes chall.toList)
    let mask := (1#128 <<< params.k) - 1#128
    let chunks := (List.range params.tau).map fun j =>
      let offset := j * params.k
      if offset < 128 then ((bits >>> offset) &&& mask).toNat else 0
    (delta, chunks)
  else (delta, [])

end VoleAct.Voleith
