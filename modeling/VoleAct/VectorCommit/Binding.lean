/-
  VoleAct.VectorCommit.Binding

  What an accepted opening determines, whoever made it.

  `verify` recovers a full vector of leaves but one, each the expansion of one
  sibling, and recomputes the root from their commitments.  Two accepted
  openings of one commitment therefore hash the same vector of leaf
  commitments, and agree on every leaf both of them know.
-/
import VoleAct.VectorCommit

namespace VoleAct.VectorCommit

variable (H : Xof)

/-! ## Accepted openings -/

/-- Leaf `i` is the expansion of the sibling of the hidden path at some level, node by node as in a
    committed tree. -/
def RecoveredFrom (salt : Salt) (depth hide : Nat) (siblings : List Seed) (i : Nat) (leaf : Seed) :
    Prop :=
  ∃ level seed, 1 ≤ level ∧ level ≤ depth ∧ siblings[level - 1]? = some seed ∧
    i >>> (depth - level) = hide >>> (depth - level) ^^^ 1 ∧
    leaf = nodeSeed H salt level seed (depth - level) i

/-- What acceptance says about the returned list. -/
structure Accepted (com : VcCommitment) (salt : Salt) (depth hide : Nat) (opening : VcOpening)
    (leaves : List (Option Seed)) : Prop where
  depth_pos : depth ≠ 0
  depth_le : depth ≤ maxDepth
  hide_lt : hide < 2 ^ depth
  siblings_length : opening.siblings.length = depth
  length : leaves.length = 2 ^ depth
  hidden : leaves[hide]? = some none
  recovered : ∀ i < 2 ^ depth, i ≠ hide → ∃ leaf, leaves[i]? = some (some leaf) ∧
    RecoveredFrom H salt depth hide opening.siblings i leaf
  root : rootHash H salt depth (recoveredComs H salt opening.hiddenCom leaves) = com.hash

theorem recoverLeaves_recovered (salt : Salt) {depth hide : Nat} {siblings : List Seed}
    (hlen : siblings.length = depth) (hhide : hide < 2 ^ depth) :
    ∃ ls, recoverLeaves H salt depth hide 1 siblings (List.replicate (1 <<< depth) none) = .ok ls ∧
      ls.length = 2 ^ depth ∧
      ∀ i < 2 ^ depth, if i = hide then ls[i]? = some none
        else ∃ s, ls[i]? = some (some s) ∧ RecoveredFrom H salt depth hide siblings i s := by
  refine recoverLeaves_all H salt _ hlen hhide fun n seed hseed i _ hsib => ?_
  have hn : n < siblings.length := (List.getElem?_eq_some_iff.mp hseed).1
  exact ⟨1 + n, seed, by omega, by omega, by rwa [Nat.add_sub_cancel_left], hsib, rfl⟩

/-- `verify` on any opening: it never panics, and what it accepts is `Accepted`. -/
theorem verify_safe (com : VcCommitment) (salt : Salt) (depth hide : Nat) (opening : VcOpening) :
    Outcome.Safe (verify H com salt depth hide opening)
      (Accepted H com salt depth hide opening) := by
  rw [verify]
  refine (Outcome.Safe.require _ _).bind fun _ hdepth => ?_
  refine (Outcome.Safe.require _ _).bind fun _ hhide => ?_
  refine (Outcome.Safe.require _ _).bind fun _ hlen => ?_
  rw [decide_eq_true_iff] at hdepth hhide
  rw [Nat.one_shiftLeft] at hhide
  -- after the three checks the leaves are recovered without a panic
  obtain ⟨leaves, hrec, hlength, hget⟩ := recoverLeaves_recovered H salt (beq_iff_eq.mp hlen) hhide
  rw [hrec, Outcome.ok_bind]
  refine (Outcome.Safe.require _ _).bind fun _ hroot => .ok ?_
  refine ⟨hdepth.1, hdepth.2, hhide, beq_iff_eq.mp hlen, hlength, ?_, fun i hi hne => ?_,
    beq_iff_eq.mp hroot⟩
  · have h := hget hide hhide
    rwa [if_pos rfl] at h
  · have h := hget i hi
    rwa [if_neg hne] at h

theorem accepted_of_verify {com : VcCommitment} {salt : Salt} {depth hide : Nat}
    {opening : VcOpening} {leaves : List (Option Seed)}
    (h : verify H com salt depth hide opening = .ok leaves) :
    Accepted H com salt depth hide opening leaves :=
  (verify_safe H com salt depth hide opening).of_eq_ok h

/-! ## One vector of leaf commitments -/

theorem getElem?_recoveredComs (salt : Salt) (hiddenCom : ComHash) (leaves : List (Option Seed))
    (i : Nat) :
    (recoveredComs H salt hiddenCom leaves)[i]? = leaves[i]?.map fun leaf =>
      match leaf with
      | some seed => leafCom H salt i seed
      | none => hiddenCom := by
  rw [recoveredComs, List.getElem?_map, List.getElem?_zipIdx]
  cases leaves[i]? with
  | none => rfl
  | some leaf => cases leaf <;> simp

namespace Accepted

variable {H} {com : VcCommitment} {salt : Salt} {depth : Nat}

/-- The commitment an accepted opening gives to a leaf it reveals. -/
theorem com_recovered (opening : VcOpening) {leaves : List (Option Seed)} {i : Nat} {seed : Seed}
    (hi : leaves[i]? = some (some seed)) :
    (recoveredComs H salt opening.hiddenCom leaves)[i]? = some (leafCom H salt i seed) := by
  rw [getElem?_recoveredComs, hi]
  rfl

theorem com_hidden {hide : Nat} {opening : VcOpening} {leaves : List (Option Seed)}
    (h : Accepted H com salt depth hide opening leaves) :
    (recoveredComs H salt opening.hiddenCom leaves)[hide]? = some opening.hiddenCom := by
  rw [getElem?_recoveredComs, h.hidden]
  rfl

end Accepted

/-- An opening at a hidden position, with the leaves its verification returned. -/
structure Opened where
  hide : Nat
  opening : VcOpening
  leaves : List (Option Seed)

namespace Opened

/-- The leaf commitments hashed by the verification. -/
def coms (salt : Salt) (o : Opened) : List ComHash := recoveredComs H salt o.opening.hiddenCom o.leaves

/-- No collision among the inputs two verifications hash: of the root hash on the two commitment
    vectors, or of the leaf commitment on the seeds of one position. -/
structure NoCollision (salt : Salt) (depth : Nat) (o o' : Opened) : Prop where
  root : rootHash H salt depth (o.coms H salt) = rootHash H salt depth (o'.coms H salt) →
    o.coms H salt = o'.coms H salt
  leaf : ∀ i s s', o.leaves[i]? = some (some s) → o'.leaves[i]? = some (some s') →
    leafCom H salt i s = leafCom H salt i s' → s = s'

variable {H} {com : VcCommitment} {salt : Salt} {depth : Nat} {o o' : Opened}

theorem coms_eq (h : Accepted H com salt depth o.hide o.opening o.leaves)
    (h' : Accepted H com salt depth o'.hide o'.opening o'.leaves)
    (hcol : NoCollision H salt depth o o') : o.coms H salt = o'.coms H salt :=
  hcol.root (h.root.trans h'.root.symm)

/-- Two accepted openings agree on a leaf both reveal. -/
theorem leaves_eq (h : Accepted H com salt depth o.hide o.opening o.leaves)
    (h' : Accepted H com salt depth o'.hide o'.opening o'.leaves)
    (hcol : NoCollision H salt depth o o') {i : Nat} (hi : i < 2 ^ depth) (hne : i ≠ o.hide)
    (hne' : i ≠ o'.hide) : ∃ s, o.leaves[i]? = some (some s) ∧ o'.leaves[i]? = some (some s) := by
  obtain ⟨s, hs, -⟩ := h.recovered i hi hne
  obtain ⟨s', hs', -⟩ := h'.recovered i hi hne'
  have hcom : some (leafCom H salt i s) = some (leafCom H salt i s') := by
    rw [← Accepted.com_recovered o.opening hs,
      ← Accepted.com_recovered o'.opening hs']
    exact congrArg (·[i]?) (coms_eq h h' hcol)
  obtain rfl := hcol.leaf i s s' hs hs' (Option.some.inj hcom)
  exact ⟨s, hs, hs'⟩

/-- The seed one opening reveals at the position the other hides hashes to the other's hidden
    commitment. -/
theorem leafCom_hidden (h : Accepted H com salt depth o.hide o.opening o.leaves)
    (h' : Accepted H com salt depth o'.hide o'.opening o'.leaves)
    (hcol : NoCollision H salt depth o o') (hne : o.hide ≠ o'.hide) :
    ∃ s, o.leaves[o'.hide]? = some (some s) ∧ leafCom H salt o'.hide s = o'.opening.hiddenCom := by
  obtain ⟨s, hs, -⟩ := h.recovered o'.hide h'.hide_lt hne.symm
  refine ⟨s, hs, Option.some.inj ?_⟩
  rw [← Accepted.com_recovered o.opening hs, ← h'.com_hidden]
  exact congrArg (·[o'.hide]?) (coms_eq h h' hcol)

/-- Once two positions have been opened, all openings reveal one vector of seeds. -/
theorem exists_seeds {ι : Type} (opened : ι → Opened)
    (hacc : ∀ j, Accepted H com salt depth (opened j).hide (opened j).opening (opened j).leaves)
    (hcol : ∀ j j', NoCollision H salt depth (opened j) (opened j')) {a b : ι}
    (hab : (opened a).hide ≠ (opened b).hide) :
    ∃ seeds : Nat → Seed, ∀ j, ∀ i < 2 ^ depth, i ≠ (opened j).hide →
      (opened j).leaves[i]? = some (some (seeds i)) := by
  -- read position `i` from an opening that does not hide it
  let source (i : Nat) : ι := if i = (opened a).hide then b else a
  have hsource (i : Nat) : i ≠ (opened (source i)).hide := by
    by_cases hi : i = (opened a).hide
    · simp only [source, if_pos hi]
      exact hi ▸ hab
    · simp only [source, if_neg hi]
      exact hi
  refine ⟨fun i => ((opened (source i)).leaves[i]?.join).getD (Vector.replicate 16 0#8),
    fun j i hi hne => ?_⟩
  obtain ⟨s, hs, hs'⟩ := leaves_eq (hacc j) (hacc (source i)) (hcol j (source i)) hi hne (hsource i)
  simp only [hs, hs', Option.join_some, Option.getD_some]

end Opened

/-- Binding across challenges.  Accepted openings of one commitment, none of whose hashed inputs
    collide, agree on every leaf that neither hides, each reveals the seed of the other's hidden
    commitment, and all of them share one vector of leaf commitments and, once two positions have
    been opened, one vector of leaf seeds. -/
theorem binding_across_challenges {ι : Type} (com : VcCommitment) (salt : Salt) (depth : Nat)
    (opened : ι → Opened)
    (hverify : ∀ j, verify H com salt depth (opened j).hide (opened j).opening =
      .ok (opened j).leaves)
    (hcol : ∀ j j', Opened.NoCollision H salt depth (opened j) (opened j')) :
    (∀ j j', ∀ i < 2 ^ depth, i ≠ (opened j).hide → i ≠ (opened j').hide →
      ∃ s, (opened j).leaves[i]? = some (some s) ∧ (opened j').leaves[i]? = some (some s)) ∧
    (∀ j j', (opened j).hide ≠ (opened j').hide →
      ∃ s, (opened j).leaves[(opened j').hide]? = some (some s) ∧
        leafCom H salt (opened j').hide s = (opened j').opening.hiddenCom) ∧
    (∀ j j', (opened j).coms H salt = (opened j').coms H salt) ∧
    ∀ a b, (opened a).hide ≠ (opened b).hide →
      ∃ seeds : Nat → Seed, ∀ j, ∀ i < 2 ^ depth, i ≠ (opened j).hide →
        (opened j).leaves[i]? = some (some (seeds i)) := by
  have hacc j := accepted_of_verify H (hverify j)
  exact ⟨fun j j' i hi hne hne' => Opened.leaves_eq (hacc j) (hacc j') (hcol j j') hi hne hne',
    fun j j' hne => Opened.leafCom_hidden (hacc j) (hacc j') (hcol j j') hne,
    fun j j' => Opened.coms_eq (hacc j) (hacc j') (hcol j j'),
    fun a b hab => Opened.exists_seeds opened hacc hcol hab⟩

/-- The two openings of a tree of depth one with leaves `1…` and `2…`, under the constant hash. -/
def openedPair (j : Bool) : Opened :=
  let seeds : Vector Seed 2 := #v[Vector.replicate 16 1#8, Vector.replicate 16 2#8]
  if j then ⟨0, ⟨[seeds.get 1], Vector.replicate 32 0#8⟩, [none, some (seeds.get 1)]⟩
  else ⟨1, ⟨[seeds.get 0], Vector.replicate 32 0#8⟩, [some (seeds.get 0), none]⟩

/-- Openings of both leaves of a tree of depth one share one vector of seeds. -/
theorem binding_across_challenges_pair :
    ∃ seeds : Nat → Seed, ∀ j, ∀ i < 2, i ≠ (openedPair j).hide →
      (openedPair j).leaves[i]? = some (some (seeds i)) :=
  (binding_across_challenges (fun _ _ => 0#8) ⟨Vector.replicate 32 0#8⟩ (Vector.replicate 32 0#8) 1
    openedPair (by decide +kernel)
    (fun j j' => ⟨fun _ => by revert j j'; decide +kernel, fun i s s' hs hs' _ => by
      -- no position is revealed by both openings
      rcases i with _ | _ | i <;> cases j <;> cases j' <;>
        first
        | exact Option.some.inj (Option.some.inj (hs.symm.trans hs'))
        | (simp [openedPair] at hs'; done)
        | simp [openedPair] at hs⟩)).2.2.2 true false (by decide)

end VoleAct.VectorCommit
