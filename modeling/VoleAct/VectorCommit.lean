/-
  VoleAct.VectorCommit

  All-but-one vector commitments from GGM seed trees (`vector-commit`).

  `nodeSeed` is the seed of the node at a level and index.  `commit` stores
  exactly these seeds, and `verify` recomputes them below every sibling of the
  path to the hidden leaf: after the siblings of the first `L` levels, what is
  still unknown is the set of leaves below the path's node at level `L`.
-/
import VoleAct.Sha3

namespace VoleAct.VectorCommit

/-- A seed: the value committed at each leaf. -/
abbrev Seed := Bytes 16

/-- A salt domain-separating all PRG/hash calls of one tree. -/
abbrev Salt := Bytes 32

/-- A leaf or root commitment hash. -/
abbrev ComHash := Bytes 32

/-- Maximum supported tree depth. -/
def maxDepth : Nat := 24

inductive VcError where
  | invalidOpening
  | invalidParameters
  deriving DecidableEq, Repr

/-- The public commitment: a single hash binding all `2^depth` leaves. -/
@[ext]
structure VcCommitment where
  hash : ComHash
  deriving DecidableEq

/-- An all-but-one opening: the siblings from the top level to the bottom one,
    and the commitment of the hidden leaf. -/
@[ext]
structure VcOpening where
  siblings : List Seed
  hiddenCom : ComHash
  deriving DecidableEq

/-- Prover state: the fully expanded tree. -/
structure AllButOneVc where
  depth : Nat
  levels : List (List Seed)
  leafComs : List ComHash
  length_levels : levels.length = depth + 1
  length_level : ∀ (l : Nat) (h : l < levels.length), levels[l].length = 2 ^ l
  length_leafComs : leafComs.length = 2 ^ depth

variable (H : Xof)

/-- Length-doubling PRG: expand a node seed into its two children. -/
def expandNode (salt : Salt) (level index : Nat) (seed : Seed) : Seed × Seed :=
  let out := (H.reader (ascii "VOLE-ACT/vc/v1/expand" ++ salt.toList ++ le32 level ++ le64 index ++
    seed.toList)).read 32
  (out.1.take 16, out.1.drop 16)

/-- Commitment hash for a single leaf seed. -/
def leafCom (salt : Salt) (index : Nat) (seed : Seed) : ComHash :=
  H.digest 32 (ascii "VOLE-ACT/vc/v1/leaf-com" ++ salt.toList ++ le64 index ++ seed.toList)

/-- The root commitment hash over all leaf commitments. -/
def rootHash (salt : Salt) (depth : Nat) (coms : List ComHash) : ComHash :=
  H.digest 32 (ascii "VOLE-ACT/vc/v1/root" ++ salt.toList ++ le32 depth ++
    coms.flatMap Vector.toList)

/-! ## Committing -/

/-- The next level: every node's two children, in order. -/
def expandLevel (salt : Salt) (level : Nat) (cur : List Seed) : List Seed :=
  cur.zipIdx.flatMap fun (seed, i) =>
    let (l, r) := expandNode H salt level i seed
    [l, r]

/-- The levels from `level` on, `n` expansions below `cur`. -/
def expandLevels (salt : Salt) : (n level : Nat) → (cur : List Seed) → List (List Seed)
  | 0, _, cur => [cur]
  | n + 1, level, cur => cur :: expandLevels salt n (level + 1) (expandLevel H salt level cur)

/-- The seed of node `index`, `n` levels below a node at level `base` holding `seed`. -/
def nodeSeed (salt : Salt) (base : Nat) (seed : Seed) : (n index : Nat) → Seed
  | 0, _ => seed
  | n + 1, index =>
      let children := expandNode H salt (base + n) (index / 2) (nodeSeed salt base seed n (index / 2))
      if index % 2 = 0 then children.1 else children.2

/-- All nodes of a level. -/
def levelSeeds (salt : Salt) (root : Seed) (level : Nat) : List Seed :=
  (List.range (2 ^ level)).map (nodeSeed H salt 0 root level)

theorem nodeSeed_children (salt : Salt) (base : Nat) (seed : Seed) (n i : Nat) :
    expandNode H salt (base + n) i (nodeSeed H salt base seed n i) =
      (nodeSeed H salt base seed (n + 1) (2 * i),
        nodeSeed H salt base seed (n + 1) (2 * i + 1)) := by
  have h0 : 2 * i / 2 = i := by omega
  have h1 : (2 * i + 1) / 2 = i := by omega
  have m1 : (2 * i + 1) % 2 = 1 := by omega
  simp [nodeSeed, h0, h1, m1]

/-- A node below a node of the tree is a node of the tree. -/
theorem nodeSeed_nodeSeed (salt : Salt) (root : Seed) (level n i : Nat) :
    nodeSeed H salt level (nodeSeed H salt 0 root level (i >>> n)) n i =
      nodeSeed H salt 0 root (level + n) i := by
  induction n generalizing i with
  | zero => rfl
  | succ n ih =>
      have hshift : i >>> (n + 1) = (i / 2) >>> n := by
        rw [Nat.add_comm, Nat.shiftRight_add, Nat.shiftRight_one]
      rw [nodeSeed, hshift, ih]
      rw [← Nat.add_assoc, nodeSeed, Nat.zero_add]

theorem flatMap_children {α : Type} (f : Nat → α) (a m : Nat) :
    ((List.range' a m).flatMap fun i => [f (2 * i), f (2 * i + 1)]) =
      (List.range' (2 * a) (2 * m)).map f := by
  induction m generalizing a with
  | zero => rfl
  | succ m ih =>
      rw [List.range'_succ, List.flatMap_cons, ih, show 2 * (m + 1) = 2 * m + 1 + 1 by omega,
        List.range'_succ, List.range'_succ]
      rfl

theorem expandLevel_levelSeeds (salt : Salt) (root : Seed) (level : Nat) :
    expandLevel H salt level (levelSeeds H salt root level) =
      levelSeeds H salt root (level + 1) := by
  have hzip : (levelSeeds H salt root level).zipIdx =
      (List.range' 0 (2 ^ level)).map fun i => (nodeSeed H salt 0 root level i, i) := by
    apply List.ext_getElem
    · simp [levelSeeds]
    · intro i h1 h2
      simp [levelSeeds]
  have hchildren := nodeSeed_children H salt 0 root level
  simp only [Nat.zero_add] at hchildren
  rw [expandLevel, hzip, List.flatMap_map, levelSeeds, Nat.pow_succ, Nat.mul_comm,
    List.range_eq_range']
  simp only [hchildren]
  exact flatMap_children _ 0 _

theorem expandLevels_levelSeeds (salt : Salt) (root : Seed) (n level : Nat) :
    expandLevels H salt n level (levelSeeds H salt root level) =
      (List.range (n + 1)).map fun l => levelSeeds H salt root (level + l) := by
  induction n generalizing level with
  | zero => simp [expandLevels]
  | succ n ih =>
      rw [expandLevels, expandLevel_levelSeeds, ih, List.range_succ_eq_map (n := n + 1)]
      simp [Nat.add_assoc, Nat.add_comm 1]

/-- `commit` expands every level of the tree. -/
theorem expandLevels_root (salt : Salt) (root : Seed) (depth : Nat) :
    expandLevels H salt depth 0 [root] =
      (List.range (depth + 1)).map (levelSeeds H salt root) := by
  have h := expandLevels_levelSeeds H salt root depth 0
  simp only [Nat.zero_add] at h
  exact h

/-- The leaf commitments, in index order. -/
def leafComsOf (salt : Salt) (leaves : List Seed) : List ComHash :=
  leaves.zipIdx.map fun (s, i) => leafCom H salt i s

/-- The state `commit` builds. -/
def expandTree (rootSeed : Seed) (salt : Salt) (depth : Nat) : AllButOneVc where
  depth := depth
  levels := expandLevels H salt depth 0 [rootSeed]
  leafComs := leafComsOf H salt ((expandLevels H salt depth 0 [rootSeed]).getD depth [])
  length_levels := by simp [expandLevels_root]
  length_level := by
    simp only [expandLevels_root]
    intro l h
    simp [levelSeeds]
  length_leafComs := by
    simp [leafComsOf, expandLevels_root, levelSeeds]

/-- `AllButOneVc::commit`. -/
def commit (rootSeed : Seed) (salt : Salt) (depth : Nat) :
    Outcome VcError (AllButOneVc × VcCommitment) := do
  Outcome.require (decide (depth ≠ 0 ∧ depth ≤ maxDepth)) .invalidParameters
  let tree := expandTree H rootSeed salt depth
  return (tree, ⟨rootHash H salt depth tree.leafComs⟩)

namespace AllButOneVc

/-- `num_leaves`. -/
def numLeaves (vc : AllButOneVc) : Nat := 1 <<< vc.depth

/-- The leaf seeds (prover side). -/
def leaves (vc : AllButOneVc) : List Seed :=
  vc.levels.get ⟨vc.depth, by rw [vc.length_levels]; omega⟩

/-- `open_all_but_one`. -/
def openAllButOne (vc : AllButOneVc) (hide : Nat) : Outcome VcError VcOpening := do
  Outcome.require (decide (hide < vc.numLeaves)) .invalidParameters
  let siblings ← (List.range' 1 vc.depth).mapM fun level =>
    let pathIndex := hide >>> (vc.depth - level)
    let sibling := pathIndex ^^^ 1
    Outcome.expect (vc.levels[level]?.bind (·[sibling]?))
  let hiddenCom ← Outcome.expect vc.leafComs[hide]?
  return ⟨siblings, hiddenCom⟩

end AllButOneVc

/-! ## Verifying -/

/-- One expansion of the frontier: indexed seeds to their indexed children. -/
def expandFrontier (salt : Salt) (level : Nat) (frontier : List (Nat × Seed)) :
    List (Nat × Seed) :=
  frontier.flatMap fun (idx, seed) =>
    let (left, right) := expandNode H salt level idx seed
    [(idx * 2, left), (idx * 2 + 1, right)]

/-- Expand a frontier by `n` levels from `level` on. -/
def expandSubtree (salt : Salt) : (n level : Nat) → List (Nat × Seed) → List (Nat × Seed)
  | 0, _, frontier => frontier
  | n + 1, level, frontier => expandSubtree salt n (level + 1) (expandFrontier H salt level frontier)

/-- Write a frontier of leaves into the leaf array. -/
def writeLeaves (leaves : List (Option Seed)) (frontier : List (Nat × Seed)) :
    Outcome VcError (List (Option Seed)) :=
  frontier.foldlM (fun leaves (idx, seed) => Outcome.setAt leaves idx (some seed)) leaves

/-- The loop over `(1..=depth).zip(siblings)`, from `level` on. -/
def recoverLeaves (salt : Salt) (depth hide : Nat) : (level : Nat) → List Seed →
    List (Option Seed) → Outcome VcError (List (Option Seed))
  | _, [], leaves => .ok leaves
  | level, siblingSeed :: rest, leaves => do
      let pathIndex := hide >>> (depth - level)
      let sibling := pathIndex ^^^ 1
      let frontier := expandSubtree H salt (depth - level) level [(sibling, siblingSeed)]
      let leaves ← writeLeaves leaves frontier
      recoverLeaves salt depth hide (level + 1) rest leaves

/-- The leaf commitments the root hash is recomputed from. -/
def recoveredComs (salt : Salt) (hiddenCom : ComHash) (leaves : List (Option Seed)) :
    List ComHash :=
  leaves.zipIdx.map fun (leaf, i) =>
    match leaf with
    | some seed => leafCom H salt i seed
    | none => hiddenCom

/-- `AllButOneVc::verify`: the recomputed leaf seeds, `none` at the hidden position. -/
def verify (com : VcCommitment) (salt : Salt) (depth hide : Nat) (opening : VcOpening) :
    Outcome VcError (List (Option Seed)) := do
  Outcome.require (decide (depth ≠ 0 ∧ depth ≤ maxDepth)) .invalidParameters
  let n := 1 <<< depth
  Outcome.require (decide (hide < n)) .invalidParameters
  Outcome.require (opening.siblings.length == depth) .invalidOpening
  let leaves ← recoverLeaves H salt depth hide 1 opening.siblings (List.replicate n none)
  let coms := recoveredComs H salt opening.hiddenCom leaves
  Outcome.require (rootHash H salt depth coms == com.hash) .invalidOpening
  return leaves

/-! ## Honest openings -/

theorem expandTree_level (salt : Salt) (root : Seed) {depth l i : Nat} (hl : l ≤ depth)
    (hi : i < 2 ^ l) :
    ((expandTree H root salt depth).levels[l]?.bind (·[i]?)) = some (nodeSeed H salt 0 root l i) := by
  have hl' : l < depth + 1 := by omega
  simp [expandTree, expandLevels_root, levelSeeds, hl', hi]

theorem expandTree_leaves (salt : Salt) (root : Seed) (depth : Nat) :
    (expandTree H root salt depth).leaves = levelSeeds H salt root depth := by
  simp [AllButOneVc.leaves, expandTree, expandLevels_root]

theorem expandTree_leafComs (salt : Salt) (root : Seed) (depth : Nat) :
    (expandTree H root salt depth).leafComs =
      (List.range (2 ^ depth)).map fun i => leafCom H salt i (nodeSeed H salt 0 root depth i) := by
  apply List.ext_getElem
  · simp [expandTree, leafComsOf, expandLevels_root, levelSeeds]
  · intro i h1 h2
    simp [expandTree, leafComsOf, expandLevels_root, levelSeeds]

theorem shiftRight_lt_two_pow {hide depth level : Nat} (hhide : hide < 2 ^ depth)
    (hlevel : level ≤ depth) : hide >>> (depth - level) < 2 ^ level := by
  rw [Nat.shiftRight_eq_div_pow]
  apply Nat.div_lt_of_lt_mul
  rw [← Nat.pow_add, Nat.sub_add_cancel hlevel]
  exact hhide

theorem xor_one_lt_two_pow {i level : Nat} (hi : i < 2 ^ level) (hlevel : 1 ≤ level) :
    i ^^^ 1 < 2 ^ level :=
  Nat.xor_lt_two_pow hi (Nat.one_lt_two_pow (by omega))

/-- The opening an honest prover publishes. -/
def honestOpening (salt : Salt) (root : Seed) (depth hide : Nat) : VcOpening where
  siblings := (List.range' 1 depth).map fun level =>
    nodeSeed H salt 0 root level (hide >>> (depth - level) ^^^ 1)
  hiddenCom := leafCom H salt hide (nodeSeed H salt 0 root depth hide)

theorem openAllButOne_expandTree (salt : Salt) (root : Seed) {depth hide : Nat}
    (hhide : hide < 2 ^ depth) :
    (expandTree H root salt depth).openAllButOne hide =
      .ok (honestOpening H salt root depth hide) := by
  have hsiblings : ∀ level ∈ List.range' 1 depth,
      (Outcome.expect ((expandTree H root salt depth).levels[level]?.bind
        (·[hide >>> (depth - level) ^^^ 1]?)) : Outcome VcError Seed) =
        .ok (nodeSeed H salt 0 root level (hide >>> (depth - level) ^^^ 1)) := by
    intro level hmem
    rw [List.mem_range'_1] at hmem
    have hlevel : level ≤ depth := by omega
    have hlt := xor_one_lt_two_pow (shiftRight_lt_two_pow hhide hlevel) hmem.1
    rw [expandTree_level H salt root (by omega) hlt, Outcome.expect_some]
  have hdepth : (expandTree H root salt depth).depth = depth := rfl
  have hcom : (expandTree H root salt depth).leafComs[hide]? =
      some (leafCom H salt hide (nodeSeed H salt 0 root depth hide)) := by
    rw [expandTree_leafComs]
    simp [hhide]
  simp only [AllButOneVc.openAllButOne, AllButOneVc.numLeaves, hdepth, Nat.one_shiftLeft, hhide,
    decide_true, Outcome.require_true, Outcome.ok_bind, Outcome.mapM_ok hsiblings, hcom,
    Outcome.expect_some]
  rfl

/-! ## What the verifier recovers -/

/-- A run of consecutive nodes expands to the run of their children. -/
theorem expandFrontier_range' (salt : Salt) (base : Nat) (seed : Seed) (n a m : Nat) :
    expandFrontier H salt (base + n)
        ((List.range' a m).map fun i => (i, nodeSeed H salt base seed n i)) =
      (List.range' (2 * a) (2 * m)).map fun i => (i, nodeSeed H salt base seed (n + 1) i) := by
  rw [expandFrontier, List.flatMap_map, ← flatMap_children]
  simp only [nodeSeed_children, Nat.mul_comm]

theorem expandSubtree_range' (salt : Salt) (base : Nat) (seed : Seed) (n k a m : Nat) :
    expandSubtree H salt n (base + k)
        ((List.range' a m).map fun i => (i, nodeSeed H salt base seed k i)) =
      (List.range' (2 ^ n * a) (2 ^ n * m)).map fun i =>
        (i, nodeSeed H salt base seed (k + n) i) := by
  induction n generalizing k a m with
  | zero => simp [expandSubtree]
  | succ n ih =>
      rw [expandSubtree, expandFrontier_range', Nat.add_assoc, ih, ← Nat.mul_assoc, ← Nat.mul_assoc,
        ← Nat.pow_succ, Nat.add_right_comm, Nat.add_assoc]

/-- The leaves below one node, with their indices. -/
theorem expandSubtree_single (salt : Salt) (level : Nat) (seed : Seed) (n idx : Nat) :
    expandSubtree H salt n level [(idx, seed)] =
      (List.range' (2 ^ n * idx) (2 ^ n)).map fun i => (i, nodeSeed H salt level seed n i) := by
  have h := expandSubtree_range' H salt level seed n 0 idx 1
  simpa [nodeSeed] using h

/-- Writing a run of leaves in bounds changes exactly that run. -/
theorem writeLeaves_range' (f : Nat → Seed) (a m : Nat) (leaves : List (Option Seed))
    (h : a + m ≤ leaves.length) :
    ∃ ls, writeLeaves leaves ((List.range' a m).map fun i => (i, f i)) = .ok ls ∧
      ls.length = leaves.length ∧
      ∀ i, ls[i]? = if a ≤ i ∧ i < a + m then some (some (f i)) else leaves[i]? := by
  induction m generalizing a leaves with
  | zero => exact ⟨leaves, rfl, rfl, fun i => by rw [if_neg (by omega)]⟩
  | succ m ih =>
      obtain ⟨ls, hls, hlen, hget⟩ := ih (a + 1) (leaves.set a (some (f a)))
        (by rw [List.length_set]; omega)
      refine ⟨ls, ?_, by rw [hlen, List.length_set], fun i => ?_⟩
      · rw [List.range'_succ, List.map_cons, writeLeaves, List.foldlM_cons]
        simp only [Outcome.setAt_of_lt _ (show a < leaves.length by omega), Outcome.ok_bind]
        exact hls
      · rw [hget, List.getElem?_set]
        by_cases hi : a = i
        · subst hi
          rw [if_neg (by omega), if_pos rfl, if_pos (by omega), if_pos (by omega)]
        · rw [if_neg hi]
          by_cases hin : a + 1 ≤ i ∧ i < a + 1 + m
          · rw [if_pos hin, if_pos (by omega)]
          · rw [if_neg hin, if_neg (by omega)]

/-- The leaf at `i` lies below the sibling of the hidden path at some level. -/
theorem mem_run_iff {n i idx : Nat} : (2 ^ n * idx ≤ i ∧ i < 2 ^ n * idx + 2 ^ n) ↔ i >>> n = idx := by
  rw [Nat.shiftRight_eq_div_pow, Nat.div_eq_iff (Nat.two_pow_pos n)]
  have := Nat.two_pow_pos n
  rw [Nat.mul_comm]
  omega

/-- The sibling of a node: the other child of the same parent. -/
theorem xor_one_cases (n : Nat) :
    (n % 2 = 0 ∧ n ^^^ 1 = n + 1) ∨ (n % 2 = 1 ∧ n ^^^ 1 = n - 1) := by
  rcases Nat.mod_two_eq_zero_or_one n with h | h
  · exact .inl ⟨h, Nat.xor_one_of_even (Nat.even_iff.mpr h)⟩
  · exact .inr ⟨h, Nat.xor_one_of_odd (Nat.odd_iff.mpr h)⟩

theorem xor_one_ne (n : Nat) : n ≠ n ^^^ 1 := by
  have := xor_one_cases n
  omega

/-- Two nodes that are neither equal nor siblings have different parents. -/
theorem div_two_ne {a b : Nat} (hsibling : a ≠ b ^^^ 1) (hne : a ≠ b) : a / 2 ≠ b / 2 := by
  have := xor_one_cases b
  omega

theorem shiftRight_pred {i depth level : Nat} (h : level < depth) :
    i >>> (depth - level) = (i >>> (depth - (level + 1))) / 2 := by
  rw [show depth - level = (depth - (level + 1)) + 1 by omega, Nat.shiftRight_succ]

/-- The loop of `verify`.  Before level `L + 1`, the unknown leaves are those below the
    path's node at level `L`; afterwards only the hidden leaf is unknown, and every
    recovered seed is the one its sibling's subtree holds. -/
theorem recoverLeaves_spec (salt : Salt) {depth hide : Nat} (P : Nat → Seed → Prop)
    (siblings : List Seed) (L : Nat) (leaves : List (Option Seed))
    (hL : L + siblings.length = depth) (hhide : hide < 2 ^ depth)
    (hlen : leaves.length = 2 ^ depth)
    (hsib : ∀ (n : Nat) (seed : Seed), siblings[n]? = some seed → ∀ i < 2 ^ depth,
      i >>> (depth - (L + 1 + n)) = hide >>> (depth - (L + 1 + n)) ^^^ 1 →
        P i (nodeSeed H salt (L + 1 + n) seed (depth - (L + 1 + n)) i))
    (hleaves : ∀ i < 2 ^ depth,
      if i >>> (depth - L) = hide >>> (depth - L) then leaves[i]? = some none
      else ∃ s, leaves[i]? = some (some s) ∧ P i s) :
    ∃ ls, recoverLeaves H salt depth hide (L + 1) siblings leaves = .ok ls ∧
      ls.length = 2 ^ depth ∧
      ∀ i < 2 ^ depth, if i = hide then ls[i]? = some none
        else ∃ s, ls[i]? = some (some s) ∧ P i s := by
  induction siblings generalizing L leaves with
  | nil =>
      refine ⟨leaves, rfl, hlen, fun i hi => ?_⟩
      have hzero : depth - L = 0 := by simp only [List.length_nil] at hL; omega
      have h := hleaves i hi
      rw [hzero] at h
      exact h
  | cons seed rest ih =>
      simp only [List.length_cons] at hL
      have hLd : L < depth := by omega
      -- the subtree written at this level
      have hidx := xor_one_lt_two_pow (shiftRight_lt_two_pow hhide (Nat.succ_le_of_lt hLd))
        (Nat.succ_le_succ (Nat.zero_le L))
      have hbound : 2 ^ (depth - (L + 1)) * (hide >>> (depth - (L + 1)) ^^^ 1) +
          2 ^ (depth - (L + 1)) ≤ leaves.length := by
        rw [hlen, ← Nat.mul_succ]
        calc 2 ^ (depth - (L + 1)) * Nat.succ (hide >>> (depth - (L + 1)) ^^^ 1)
            ≤ 2 ^ (depth - (L + 1)) * 2 ^ (L + 1) := Nat.mul_le_mul_left _ hidx
          _ = 2 ^ depth := by rw [← Nat.pow_add, Nat.sub_add_cancel hLd]
      obtain ⟨ls, hwrite, hlen', hget⟩ := writeLeaves_range'
        (nodeSeed H salt (L + 1) seed (depth - (L + 1))) _ _ leaves hbound
      -- the leaves off the path one level down are the old ones and the new subtree
      have hstep : ∀ i < 2 ^ depth,
          if i >>> (depth - (L + 1)) = hide >>> (depth - (L + 1)) then ls[i]? = some none
          else ∃ s, ls[i]? = some (some s) ∧ P i s := by
        intro i hi
        have hold := hleaves i hi
        rw [shiftRight_pred hLd, shiftRight_pred hLd] at hold
        simp only [hget i, mem_run_iff]
        by_cases hin : i >>> (depth - (L + 1)) = hide >>> (depth - (L + 1)) ^^^ 1
        · rw [if_pos hin, if_neg (by rw [hin]; exact (xor_one_ne _).symm)]
          exact ⟨_, rfl, hsib 0 seed rfl i hi hin⟩
        · rw [if_neg hin]
          by_cases hpath : i >>> (depth - (L + 1)) = hide >>> (depth - (L + 1))
          · rw [if_pos hpath]
            rwa [if_pos (by rw [hpath])] at hold
          · rw [if_neg hpath]
            rwa [if_neg (div_two_ne hin hpath)] at hold
      obtain ⟨ls', hrec, hfin⟩ := ih (L + 1) ls (by omega) (by rw [hlen', hlen])
        (fun n s hs i hi => by
          have h := hsib (n + 1) s (by simpa using hs) i hi
          rwa [show L + 1 + (n + 1) = L + 1 + 1 + n by omega] at h) hstep
      refine ⟨ls', ?_, hfin⟩
      rw [recoverLeaves, expandSubtree_single, hwrite]
      exact hrec

/-- Recovering never panics on a path of the right length: afterwards exactly the hidden
    leaf is unknown, and the others satisfy what their subtrees' seeds do. -/
theorem recoverLeaves_all (salt : Salt) {depth hide : Nat} (P : Nat → Seed → Prop)
    {siblings : List Seed} (hlen : siblings.length = depth) (hhide : hide < 2 ^ depth)
    (hsib : ∀ (n : Nat) (seed : Seed), siblings[n]? = some seed → ∀ i < 2 ^ depth,
      i >>> (depth - (1 + n)) = hide >>> (depth - (1 + n)) ^^^ 1 →
        P i (nodeSeed H salt (1 + n) seed (depth - (1 + n)) i)) :
    ∃ ls, recoverLeaves H salt depth hide 1 siblings (List.replicate (1 <<< depth) none) = .ok ls ∧
      ls.length = 2 ^ depth ∧
      ∀ i < 2 ^ depth, if i = hide then ls[i]? = some none
        else ∃ s, ls[i]? = some (some s) ∧ P i s := by
  refine recoverLeaves_spec H salt P siblings 0 _ (by omega) hhide (by simp [Nat.one_shiftLeft])
    (by simpa using hsib) fun i hi => ?_
  have hi0 : i >>> depth = 0 := by rw [Nat.shiftRight_eq_div_pow, Nat.div_eq_of_lt hi]
  have hh0 : hide >>> depth = 0 := by rw [Nat.shiftRight_eq_div_pow, Nat.div_eq_of_lt hhide]
  simp [hi0, hh0, Nat.one_shiftLeft, hi]

/-- The leaves a verifier recovers from an honest opening. -/
def openedLeaves (salt : Salt) (root : Seed) (depth hide : Nat) : List (Option Seed) :=
  (List.range (2 ^ depth)).map fun i =>
    if i = hide then none else some (nodeSeed H salt 0 root depth i)

/-- Verification of an honest opening recovers every leaf but the hidden one. -/
theorem verify_honestOpening (salt : Salt) (root : Seed) {depth hide : Nat} (hpos : depth ≠ 0)
    (hmax : depth ≤ maxDepth) (hhide : hide < 2 ^ depth) :
    verify H ⟨rootHash H salt depth (expandTree H root salt depth).leafComs⟩ salt depth hide
        (honestOpening H salt root depth hide) =
      .ok (openedLeaves H salt root depth hide) := by
  have hlen : (honestOpening H salt root depth hide).siblings.length = depth := by
    simp [honestOpening]
  -- every leaf but the hidden one is below a sibling on the path, so its seed is recovered
  have hrecover : recoverLeaves H salt depth hide 1 (honestOpening H salt root depth hide).siblings
      (List.replicate (1 <<< depth) none) = .ok (openedLeaves H salt root depth hide) := by
    obtain ⟨ls, hls, hlslen, hget⟩ := recoverLeaves_all H salt
      (fun i s => s = nodeSeed H salt 0 root depth i) hlen hhide (by
        intro n seed hseed i hi hsib
        have hn : n < depth := by
          rw [← hlen]
          exact (List.getElem?_eq_some_iff.mp hseed).1
        have hval : seed = nodeSeed H salt 0 root (1 + n) (i >>> (depth - (1 + n))) := by
          simp only [honestOpening, List.getElem?_map, List.getElem?_range' hn] at hseed
          rw [hsib]
          simpa using hseed.symm
        rw [hval, nodeSeed_nodeSeed, Nat.add_sub_cancel' (by omega)])
    rw [hls]
    congr 1
    apply List.ext_getElem?
    intro i
    rcases Nat.lt_or_ge i (2 ^ depth) with hi | hi
    · have h := hget i hi
      simp only [openedLeaves, List.getElem?_map, List.getElem?_range hi, Option.map_some]
      split at h
      · next hih => rw [h, if_pos hih]
      · next hih =>
          obtain ⟨s, hs, rfl⟩ := h
          rw [hs, if_neg hih]
    · rw [List.getElem?_eq_none (by omega), List.getElem?_eq_none (by simp [openedLeaves, hi])]
  -- and the root is hashed over the commitments that the prover made
  have hcoms : recoveredComs H salt (honestOpening H salt root depth hide).hiddenCom
      (openedLeaves H salt root depth hide) = (expandTree H root salt depth).leafComs := by
    rw [expandTree_leafComs]
    apply List.ext_getElem
    · simp [recoveredComs, openedLeaves]
    · intro i h1 h2
      simp only [recoveredComs, openedLeaves, honestOpening, List.getElem_map,
        List.getElem_zipIdx, List.getElem_range, Nat.zero_add]
      by_cases hih : i = hide
      · rw [hih, if_pos rfl]
      · rw [if_neg hih]
  have hn : hide < 1 <<< depth := by rwa [Nat.one_shiftLeft]
  simp only [verify, hpos, hmax, hn, hlen, hrecover, hcoms, ne_eq, not_false_eq_true, and_self,
    decide_true, beq_self_eq_true, Outcome.require_true, Outcome.ok_bind]
  rfl

end VoleAct.VectorCommit
