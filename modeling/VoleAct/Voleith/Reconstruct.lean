/-
  VoleAct.Voleith.Reconstruct

  Reconstructing the keys from openings of any origin: it never panics, because
  an accepted opening hides exactly the leaf that the walk over a tree skips.
-/
import VoleAct.VectorCommit.Binding
import VoleAct.Voleith.VoleCorrelation

namespace VoleAct.Voleith

open VoleAct.BinaryFields VoleAct.VectorCommit

variable (H : Xof)

/-- The expansion of the leaf recovered at index `i`. -/
def recoveredVector (salt : Salt) (lHat j : Nat) (leaves : List (Option Seed)) (i : Nat) :
    BitVector :=
  expandLeaf H salt j i ((leaves[i]?.join).getD (Vector.replicate 16 0#8)) lHat

theorem treeCorrection_safe {corrections : List BitVector} {lHat j : Nat}
    (hlen : ∀ c ∈ corrections, c.len = lHat) (hj : j - 1 < corrections.length ∨ j = 0) :
    Outcome.Safe (treeCorrection corrections j)
      fun correction => ∀ c, correction = some c → c.len = lHat := by
  rw [treeCorrection]
  rcases Nat.eq_zero_or_pos j with rfl | hpos
  · exact .ok fun c hc => absurd hc.symm (Option.some_ne_none c)
  · have hlt : j - 1 < corrections.length := hj.resolve_right (Nat.pos_iff_ne_zero.mp hpos)
    rw [if_pos hpos, Outcome.index_of_lt hlt]
    refine .ok fun c hc => ?_
    obtain rfl := Option.some.inj hc
    exact hlen _ (List.getElem_mem hlt)

/-- One tree: the leaf the walk skips is the hidden one, so every leaf it asks for is there. -/
theorem reconstructTree_safe (salt : Salt) {lHat : Nat} {params : Params} (hvalid : params.Valid)
    {coms : List VcCommitment} {corrections : List BitVector} {deltas : List Nat}
    {openings : List VcOpening} (hcoms : coms.length = params.tau)
    (hcorrections : corrections.length = params.tau - 1) (hdeltas : deltas.length = params.tau)
    (hopenings : openings.length = params.tau) (hlen : ∀ c ∈ corrections, c.len = lHat) {j : Nat}
    (hj : j < params.tau) :
    Outcome.Safe (reconstructTree H salt lHat params coms corrections deltas openings j)
      fun planes => planes.length = params.k := by
  rw [reconstructTree]
  refine (Outcome.Safe.index (hdeltas ▸ hj)).bind fun delta _ => ?_
  refine (Outcome.Safe.index (hcoms ▸ hj)).bind fun com _ => ?_
  refine (Outcome.Safe.index (hopenings ▸ hj)).bind fun opening _ => ?_
  refine (VectorCommit.verify_safe H com (treeSalt H salt j) params.k delta opening).bind
    fun leaves hacc => ?_
  refine (treeCorrection_safe hlen (by omega)).bind fun correction hcorrection => ?_
  obtain ⟨planes, hplanes, hk, -⟩ := keyPlanes_spec hvalid hacc.hide_lt
    (fun i => do
      let leaf ← Outcome.index leaves i
      let seed ← Outcome.expect leaf
      return expandLeaf H salt j i seed lHat : Nat → Outcome VcError BitVector)
    (r := recoveredVector H salt lHat j leaves) (fun i _ => BitVector.fromXof_len _ _)
    (by
      intro i hi hne
      obtain ⟨seed, hseed, -⟩ := hacc.recovered i hi hne
      simp only [Outcome.index, hseed, Outcome.expect_some, Outcome.ok_bind, recoveredVector,
        Option.join_some, Option.getD_some]
      rfl) hcorrection
  rw [hplanes]
  exact .ok hk

/-- `reconstruct_keys` on any input: an error, or one key per coordinate. -/
theorem reconstructKeys_safe (salt : Salt) (lHat : Nat) (params : Params)
    (coms : List VcCommitment) (corrections : List BitVector) (deltas : List Nat)
    (openings : List VcOpening) :
    Outcome.Safe (reconstructKeys H salt lHat params coms corrections deltas openings)
      fun keys => keys.length = lHat := by
  rw [reconstructKeys]
  refine (Outcome.Safe.require _ _).bind fun _ hparams => ?_
  refine (Outcome.Safe.require _ _).bind fun _ hshape => ?_
  refine (Outcome.Safe.require _ _).bind fun _ hall => ?_
  have hvalid := Params.validate_eq_ok.mp (of_decide_eq_true hparams)
  simp only [Bool.and_eq_true, beq_iff_eq] at hshape
  obtain ⟨⟨⟨hcoms, hcorrections⟩, hdeltas⟩, hopenings⟩ := hshape
  have hlen : ∀ c ∈ corrections, c.len = lHat := by simpa using hall
  refine (Outcome.Safe.mapM fun j hj => reconstructTree_safe H salt hvalid hcoms hcorrections
    hdeltas hopenings hlen (List.mem_range.mp hj)).bind fun planes hplanes => ?_
  have htau : planes.length = params.tau := by rw [← hplanes.length_eq, List.length_range]
  have hk : ∀ l ∈ planes, l.length = params.k := by
    intro l hl
    obtain ⟨j, hj⟩ := List.mem_iff_getElem?.mp hl
    have hjt : j < params.tau := htau ▸ (List.getElem?_eq_some_iff.mp hj).1
    obtain ⟨l', hl', hk⟩ := forall₂_getElem? hplanes (List.getElem?_range hjt)
    rwa [Option.some.inj (hj.symm.trans hl')]
  rw [assemble_spec lHat hvalid.tau_mul_k htau hk]
  exact .ok (by simp)

/-- Every opening a successful reconstruction uses has one sibling for each level. -/
theorem siblings_of_reconstructKeys {salt : Salt} {lHat : Nat} {params : Params}
    {coms : List VcCommitment} {corrections : List BitVector} {deltas : List Nat}
    {openings : List VcOpening} {keys : List GF2p128}
    (h : reconstructKeys H salt lHat params coms corrections deltas openings = .ok keys) :
    ∀ o ∈ openings, o.siblings.length = params.k := by
  rw [reconstructKeys] at h
  obtain ⟨_, -, h⟩ := Outcome.bind_eq_ok.mp h
  obtain ⟨_, hshape, h⟩ := Outcome.bind_eq_ok.mp h
  obtain ⟨_, -, h⟩ := Outcome.bind_eq_ok.mp h
  obtain ⟨planes, hplanes, -⟩ := Outcome.bind_eq_ok.mp h
  rw [Outcome.require_eq_ok] at hshape
  simp only [Bool.and_eq_true, beq_iff_eq] at hshape
  intro o ho
  obtain ⟨j, hj⟩ := List.mem_iff_getElem?.mp ho
  have hjt : j < params.tau := hshape.2 ▸ (List.getElem?_eq_some_iff.mp hj).1
  obtain ⟨_, -, htree⟩ := forall₂_getElem? (Outcome.mapM_eq_ok hplanes) (List.getElem?_range hjt)
  rw [reconstructTree] at htree
  obtain ⟨delta, -, htree⟩ := Outcome.bind_eq_ok.mp htree
  obtain ⟨com, -, htree⟩ := Outcome.bind_eq_ok.mp htree
  obtain ⟨opening, hopening, htree⟩ := Outcome.bind_eq_ok.mp htree
  obtain ⟨leaves, hverify, -⟩ := Outcome.bind_eq_ok.mp htree
  rw [Outcome.index, hj, Outcome.expect_some] at hopening
  rw [Except.ok.inj hopening]
  exact (accepted_of_verify H hverify).siblings_length

/-! ## All-but-one opening correctness -/

/-- The leaf below a node of a committed tree that holds a sibling's seed. -/
theorem committed_leaf {root : Seed} {salt : Salt} {depth level i : Nat} {seed : Seed}
    {vc : AllButOneVc} {com : VcCommitment} (hcommit : commit H root salt depth = .ok (vc, com))
    (hlevel : level ≤ depth) (hi : i < 2 ^ depth)
    (hnode : (vc.levels[level]?.bind (·[i >>> (depth - level)]?)) = some seed) :
    vc.leaves[i]? = some (nodeSeed H salt level seed (depth - level) i) := by
  rw [commit] at hcommit
  obtain ⟨_, -, hcommit⟩ := Outcome.bind_eq_ok.mp hcommit
  obtain ⟨rfl, rfl⟩ := Prod.mk.inj (Except.ok.inj hcommit)
  rw [expandTree_level H salt root hlevel (shiftRight_lt_two_pow hi hlevel)] at hnode
  rw [← Option.some.inj hnode, nodeSeed_nodeSeed, Nat.add_sub_cancel' hlevel, expandTree_leaves,
    levelSeeds, List.getElem?_map, List.getElem?_range hi, Option.map_some]

/-- All-but-one openings.  Whatever the hash function: an honest opening of a committed tree is
    accepted and gives back every leaf but the hidden one; every accepted opening gives back a full
    list with its only hole at the hidden position, each leaf being the expansion of one sibling by
    the nodes a commitment expands; and reconstructing keys from any openings never panics. -/
theorem all_but_one_opening :
    (∀ root salt depth hide, depth ≠ 0 → depth ≤ maxDepth → hide < 2 ^ depth →
      ∃ vc com opening leaves, commit H root salt depth = .ok (vc, com) ∧
        vc.openAllButOne hide = .ok opening ∧
        VectorCommit.verify H com salt depth hide opening = .ok leaves ∧
        leaves.length = 2 ^ depth ∧ vc.leaves.length = 2 ^ depth ∧
        ∀ i < 2 ^ depth, leaves[i]? = some (if i = hide then none else vc.leaves[i]?)) ∧
    (∀ com salt depth hide opening leaves,
      VectorCommit.verify H com salt depth hide opening = .ok leaves →
      leaves.length = 2 ^ depth ∧ hide < 2 ^ depth ∧ leaves[hide]? = some none ∧
      ∀ i < 2 ^ depth, i ≠ hide → ∃ level seed leaf, 1 ≤ level ∧ level ≤ depth ∧
        opening.siblings[level - 1]? = some seed ∧
        i >>> (depth - level) = hide >>> (depth - level) ^^^ 1 ∧
        leaves[i]? = some (some leaf) ∧ leaf = nodeSeed H salt level seed (depth - level) i ∧
        ∀ root vc com', commit H root salt depth = .ok (vc, com') →
          (vc.levels[level]?.bind (·[i >>> (depth - level)]?)) = some seed →
            vc.leaves[i]? = some leaf) ∧
    ∀ salt lHat params coms corrections deltas openings,
      reconstructKeys H salt lHat params coms corrections deltas openings ≠ Outcome.panic := by
  refine ⟨fun root salt depth hide hpos hmax hhide => ?_,
    fun com salt depth hide opening leaves h => ?_,
    fun salt lHat params coms corrections deltas openings =>
      (reconstructKeys_safe H salt lHat params coms corrections deltas openings).ne_panic⟩
  · -- the honest opening
    have hleaves := expandTree_leaves H salt root depth
    refine ⟨expandTree H root salt depth, _, honestOpening H salt root depth hide,
      openedLeaves H salt root depth hide, ?_, openAllButOne_expandTree H salt root hhide,
      verify_honestOpening H salt root hpos hmax hhide, by simp [openedLeaves],
      by simp [hleaves, levelSeeds], fun i hi => ?_⟩
    · simp only [commit, hpos, hmax, ne_eq, not_false_eq_true, and_self, decide_true,
        Outcome.require_true, Outcome.ok_bind]
      rfl
    · rw [openedLeaves, List.getElem?_map, List.getElem?_range hi, Option.map_some, hleaves,
        levelSeeds, List.getElem?_map, List.getElem?_range hi, Option.map_some]
  · -- any opening that is accepted
    have hacc := accepted_of_verify H h
    refine ⟨hacc.length, hacc.hide_lt, hacc.hidden, fun i hi hne => ?_⟩
    obtain ⟨leaf, hleaf, level, seed, hpos, hlevel, hseed, hsib, rfl⟩ := hacc.recovered i hi hne
    exact ⟨level, seed, _, hpos, hlevel, hseed, hsib, hleaf, rfl,
      fun root vc com' hcommit hnode => committed_leaf H hcommit hlevel hi hnode⟩

/-- Hiding leaf 2 of a tree of depth two. -/
theorem all_but_one_opening_two :
    ∃ vc com opening leaves,
      commit (fun _ i => BitVec.ofNat 8 i) (Vector.replicate 16 0#8) (Vector.replicate 32 0#8) 2 =
        .ok (vc, com) ∧
      vc.openAllButOne 2 = .ok opening ∧
      VectorCommit.verify (fun _ i => BitVec.ofNat 8 i) com (Vector.replicate 32 0#8) 2 2 opening =
        .ok leaves ∧
      leaves.length = 2 ^ 2 ∧ vc.leaves.length = 2 ^ 2 ∧
      ∀ i < 2 ^ 2, leaves[i]? = some (if i = 2 then none else vc.leaves[i]?) :=
  (all_but_one_opening fun _ i => BitVec.ofNat 8 i).1 (Vector.replicate 16 0#8)
    (Vector.replicate 32 0#8) 2 2 (by decide) (by decide) (by decide)

end VoleAct.Voleith
