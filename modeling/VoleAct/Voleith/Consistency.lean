/-
  VoleAct.Voleith.Consistency

  What the wide consistency check forces on arbitrary committed leaves.

  The keys of tree `j` are its planes plus the chunk `Δ_j` times the tree's own
  vector `u_j`.  A passing check says, bit by bit, that a value independent of
  `Δ` is `Δ` times the difference between the hash of `u_j` and the published
  hash; so a tree whose hash differs has its chunk pinned, and the other trees
  share one vector.
-/
import VoleAct.Voleith.Completeness

namespace VoleAct.Voleith

open VoleAct.BinaryFields VoleAct.VectorCommit VoleAct.Lib

/-! ## Keys from arbitrary leaves -/

/-- The keys `reconstruct_keys` computes once it knows the leaf expansions: `leaf j i` for
    `i ≠ Δ_j`. -/
def keysFromLeaves (params : Params) (lHat : Nat) (leaf : Nat → Nat → Outcome VcError BitVector)
    (corrections : List BitVector) (deltas : List Nat) : Outcome VcError (List GF2p128) := do
  let planes ← (List.range params.tau).mapM fun j => do
    let delta ← Outcome.index deltas j
    let correction ← treeCorrection corrections j
    keyPlanes params lHat delta (leaf j) correction
  assemble planes params lHat

/-- The expansion of leaf `i` of tree `j` among opened leaves. -/
def openedLeaf (H : Xof) (salt : Salt) (lHat : Nat) (leaves : Nat → List (Option Seed))
    (j i : Nat) : Outcome VcError BitVector := do
  let leaf ← Outcome.index (leaves j) i
  let seed ← Outcome.expect leaf
  return expandLeaf H salt j i seed lHat

theorem mapM_congr {α β ε : Type} {l : List α} {f g : α → Outcome ε β} (h : ∀ x ∈ l, f x = g x) :
    l.mapM f = l.mapM g := by
  induction l with
  | nil => rfl
  | cons x xs ih =>
      rw [List.mapM_cons, List.mapM_cons, h x (by simp), ih fun y hy => h y (by simp [hy])]

/-- With verified openings, `reconstruct_keys` is `keysFromLeaves` on the opened leaves. -/
theorem reconstructKeys_eq (H : Xof) (salt : Salt) (lHat : Nat) {params : Params}
    (hvalid : params.Valid) {coms : List VcCommitment} {corrections : List BitVector}
    {deltas : List Nat} {openings : List VcOpening} {leaves : Nat → List (Option Seed)}
    (hcoms : coms.length = params.tau) (hcorrections : corrections.length = params.tau - 1)
    (hdeltas : deltas.length = params.tau) (hopenings : openings.length = params.tau)
    (hlen : ∀ c ∈ corrections, c.len = lHat)
    (hverify : ∀ j < params.tau, ∀ com delta opening, coms[j]? = some com →
      deltas[j]? = some delta → openings[j]? = some opening →
      VectorCommit.verify H com (treeSalt H salt j) params.k delta opening = .ok (leaves j)) :
    reconstructKeys H salt lHat params coms corrections deltas openings =
      keysFromLeaves params lHat (openedLeaf H salt lHat leaves) corrections deltas := by
  have hall : corrections.all (fun c => c.len == lHat) = true := by simpa using hlen
  simp only [reconstructKeys, keysFromLeaves, Params.validate_of_valid hvalid, hcoms, hcorrections,
    hdeltas, hopenings, hall, decide_true, beq_self_eq_true, Bool.and_self, Outcome.require_true,
    Outcome.ok_bind]
  congr 1
  apply mapM_congr
  intro j hj
  rw [List.mem_range] at hj
  have hc := List.getElem?_eq_getElem (show j < coms.length by omega)
  have hd := List.getElem?_eq_getElem (show j < deltas.length by omega)
  have ho := List.getElem?_eq_getElem (show j < openings.length by omega)
  simp only [reconstructTree, Outcome.index, hc, hd, ho, Outcome.expect_some, Outcome.ok_bind,
    hverify j hj _ _ _ hc hd ho]
  rfl

/-! ## The vector of a tree -/

/-- The correction of tree `j`, if it has one. -/
def correctionOf (corrections : List BitVector) (j : Nat) : Option BitVector :=
  if 0 < j then corrections[j - 1]? else none

theorem treeCorrection_eq {corrections : List BitVector} {j : Nat}
    (hj : j < corrections.length + 1) :
    treeCorrection corrections j = .ok (correctionOf corrections j) := by
  rw [treeCorrection, correctionOf]
  by_cases hpos : 0 < j
  · rw [if_pos hpos, if_pos hpos, Outcome.index,
      List.getElem?_eq_getElem (show j - 1 < corrections.length by omega)]
    rfl
  · rw [if_neg hpos, if_neg hpos]

theorem correctionOf_len {corrections : List BitVector} {lHat : Nat}
    (hlen : ∀ c ∈ corrections, c.len = lHat) (j : Nat) (c : BitVector)
    (hc : correctionOf corrections j = some c) : c.len = lHat := by
  rw [correctionOf] at hc
  by_cases hpos : 0 < j
  · rw [if_pos hpos] at hc
    exact hlen c (List.mem_of_getElem? hc)
  · rw [if_neg hpos] at hc
    cases hc

/-- The vector of a tree: the xor of all its leaves and its correction. -/
def treeVector (lHat leaves : Nat) (r : Nat → BitVector) (correction : Option BitVector) :
    BitVector :=
  BitVector.ofFn lHat fun t =>
    (List.range leaves).foldl (fun acc i => acc ^^ (r i).bit t) false ^^
      correction.elim false fun c => c.bit t

theorem bitF2_foldl_xor (r : Nat → BitVector) (n t : Nat) :
    bitF2 ((List.range n).foldl (fun acc i => acc ^^ (r i).bit t) false) =
      (∑ i ∈ Finset.range n, (r i).coords) t := by
  induction n with
  | zero => simp
  | succ n ih =>
      rw [List.range_succ, List.foldl_append, List.foldl_cons, List.foldl_nil, bitF2_xor, ih,
        Finset.sum_range_succ]
      rfl

theorem coords_treeVector (lHat leaves : Nat) (r : Nat → BitVector)
    (correction : Option BitVector) {t : Nat} (ht : t < lHat) :
    (treeVector lHat leaves r correction).coords t =
      (∑ i ∈ Finset.range leaves, (r i).coords + correctionCoords correction) t := by
  rw [BitVector.coords, treeVector, BitVector.bit_ofFn _ ht, bitF2_xor, bitF2_foldl_xor,
    Pi.add_apply, correctionCoords]
  congr 1
  cases correction <;> simp [BitVector.coords]

/-- Keys from leaves: always computed, and bit by bit the planes plus `Δ` times the trees'
    vectors. -/
theorem keysFromLeaves_spec {params : Params} (hvalid : params.Valid) {lHat : Nat}
    {r : Nat → Nat → BitVector} (hr : ∀ j i, (r j i).len = lHat) {corrections : List BitVector}
    (hcorrections : corrections.length = params.tau - 1) (hlen : ∀ c ∈ corrections, c.len = lHat)
    (chall : Bytes 16) (leaf : Nat → Nat → Outcome VcError BitVector)
    (hleaf : ∀ j i, (splitDelta chall params).2[j]? ≠ some i → leaf j i = .ok (r j i)) :
    ∃ keys, keysFromLeaves params lHat leaf corrections (splitDelta chall params).2 = .ok keys ∧
      keys.length = lHat ∧
      ∀ t < lHat, ∀ j < params.tau, ∀ b < params.k,
        bitF2 ((keys.getD t 0).bit (j * params.k + b)) =
          BinaryCounter.planeSum params.k (fun i => (r j i).coords) b t +
            bitF2 ((splitDelta chall params).1.bit (j * params.k + b)) *
              (treeVector lHat (2 ^ params.k) (r j) (correctionOf corrections j)).coords t := by
  obtain ⟨-, hdelta⟩ := splitDelta_spec chall hvalid
  -- the planes of every tree
  obtain ⟨planes, hplanes, hall⟩ := Outcome.mapM_exists (l := List.range params.tau)
    (f := fun j => (do
      let delta ← Outcome.index (splitDelta chall params).2 j
      let correction ← treeCorrection corrections j
      keyPlanes params lHat delta (leaf j) correction : Outcome VcError (List BitVector)))
    (P := fun j l => PlanesAre lHat params.k l fun b =>
      BinaryCounter.planeSum params.k (fun i => (r j i).coords) b +
        bitF2 ((splitDelta chall params).1.bit (j * params.k + b)) •
          (∑ i ∈ Finset.range (2 ^ params.k), (r j i).coords +
            correctionCoords (correctionOf corrections j))) (by
      intro j hj
      rw [List.mem_range] at hj
      obtain ⟨delta, hd, hdlt, hbits⟩ := hdelta j hj
      have hcorr := treeCorrection_eq (show j < corrections.length + 1 by omega)
      have hclen := correctionOf_len hlen j
      obtain ⟨l, hl, hll, hare⟩ := keyPlanes_spec hvalid hdlt (leaf j) (fun i _ => hr j i)
        (fun i _ hne => hleaf j i (by rw [hd]; simpa using Ne.symm hne)) hclen
      refine ⟨l, ?_, hll, fun b hb => ?_⟩
      · simp only [Outcome.index, hd, Outcome.expect_some, Outcome.ok_bind, hcorr, hl]
      · simp only [hbits b hb]
        exact hare b hb)
  -- assembled, chunk by chunk
  obtain ⟨keys, hkeys, hklen, hkbits⟩ := assemble_planesAre VcError planes hvalid
    (by rw [← hall.length_eq, List.length_range])
    (fun j hj => forall₂_getElem? hall (List.getElem?_range hj))
  refine ⟨keys, by rw [keysFromLeaves, hplanes, Outcome.ok_bind, hkeys], hklen,
    fun t ht j hj b hb => ?_⟩
  rw [hkbits t ht j hj b hb, coords_treeVector _ _ _ _ ht]
  rfl

/-! ## Two passing challenges -/

/-- The leaves a verifier knows: all but the hidden one of each tree. -/
def knownLeaf (r : Nat → Nat → BitVector) (deltas : List Nat) (j i : Nat) :
    Outcome VcError BitVector :=
  if deltas[j]? = some i then Outcome.panic else .ok (r j i)

/-- The vector `u_j` tree `j` commits to. -/
def committedVector (params : Params) (lHat : Nat) (r : Nat → Nat → BitVector)
    (corrections : List BitVector) (j : Nat) : BitVector :=
  treeVector lHat params.leaves (r j) (correctionOf corrections j)

/-- The keys for a challenge. -/
def challengeKeys (params : Params) (lHat : Nat) (r : Nat → Nat → BitVector)
    (corrections : List BitVector) (chall : Bytes 16) : Outcome VcError (List GF2p128) :=
  keysFromLeaves params lHat (knownLeaf r (splitDelta chall params).2) corrections
    (splitDelta chall params).2

theorem bit_ofBool_mul (b : Bool) (x : GF2p128) (i : Nat) :
    (GF2p128.ofBool b * x).bit i = (b && x.bit i) := by
  cases b <;> simp

section Passing

variable {params : Params} {lHat : Nat} {r : Nat → Nat → BitVector} {corrections : List BitVector}

/-- The keys for two challenges differ by the difference of the challenges times the trees'
    vectors. -/
theorem challengeKeys_xor (hvalid : params.Valid) (hr : ∀ j i, (r j i).len = lHat)
    (hcorrections : corrections.length = params.tau - 1) (hlen : ∀ c ∈ corrections, c.len = lHat)
    {chall chall' : Bytes 16} {keys keys' : List GF2p128}
    (hkeys : challengeKeys params lHat r corrections chall = .ok keys)
    (hkeys' : challengeKeys params lHat r corrections chall' = .ok keys') :
    keys.length = lHat ∧ ∀ t < lHat, ∀ j < params.tau, ∀ b < params.k,
      ((keys.getD t 0).bit (j * params.k + b) ^^ (keys'.getD t 0).bit (j * params.k + b)) =
        (((splitDelta chall params).1.bit (j * params.k + b) ^^
          (splitDelta chall' params).1.bit (j * params.k + b)) &&
          (committedVector params lHat r corrections j).bit t) := by
  have hspec : ∀ chall keys, challengeKeys params lHat r corrections chall = .ok keys →
      keys.length = lHat ∧ ∀ t < lHat, ∀ j < params.tau, ∀ b < params.k,
        bitF2 ((keys.getD t 0).bit (j * params.k + b)) =
          BinaryCounter.planeSum params.k (fun i => (r j i).coords) b t +
            bitF2 ((splitDelta chall params).1.bit (j * params.k + b)) *
              (committedVector params lHat r corrections j).coords t := by
    intro chall keys hkeys
    obtain ⟨keys', hok, hspec⟩ := keysFromLeaves_spec hvalid hr hcorrections hlen chall
      (knownLeaf r (splitDelta chall params).2) (fun j i hne => if_neg hne)
    obtain rfl : keys' = keys := Except.ok.inj (hok.symm.trans hkeys)
    rw [← hvalid.leaves_eq] at hspec
    exact hspec
  refine ⟨(hspec chall keys hkeys).1, fun t ht j hj b hb => bitF2_injective ?_⟩
  have hand : ∀ a b : Bool, bitF2 (a && b) = bitF2 a * bitF2 b := by decide
  rw [bitF2_xor, (hspec chall keys hkeys).2 t ht j hj b hb,
    (hspec chall' keys' hkeys').2 t ht j hj b hb, hand, bitF2_xor, add_mul]
  show _ = bitF2 _ * BitVector.coords _ t + bitF2 _ * BitVector.coords _ t
  rw [add_add_add_comm, CharTwo.add_self_eq_zero, zero_add]

/-- Two passing challenges that differ inside a chunk show that the tree's vector has the
    published hash. -/
theorem columnHash_of_ne (hvalid : params.Valid) (hr : ∀ j i, (r j i).len = lHat)
    (hcorrections : corrections.length = params.tau - 1) (hlen : ∀ c ∈ corrections, c.len = lHat)
    {key : WideHashKey} {uTilde : GF2p128} {vTilde : List GF2p128} (hv : vTilde.length = 128)
    {chall chall' : Bytes 16} {keys keys' : List GF2p128}
    (hkeys : challengeKeys params lHat r corrections chall = .ok keys)
    (hkeys' : challengeKeys params lHat r corrections chall' = .ok keys')
    (hpass : checkConsistency params key uTilde vTilde (splitDelta chall params).1 keys = .ok ())
    (hpass' : checkConsistency params key uTilde vTilde (splitDelta chall' params).1 keys' =
      .ok ())
    {j b : Nat} (hj : j < params.tau) (hb : b < params.k)
    (hne : (splitDelta chall params).1.bit (j * params.k + b) ≠
      (splitDelta chall' params).1.bit (j * params.k + b)) :
    128 ≤ lHat ∧ columnHash key lHat (committedVector params lHat r corrections j).bit = uTilde := by
  obtain ⟨hklen, hxor⟩ := challengeKeys_xor hvalid hr hcorrections hlen hkeys hkeys'
  obtain ⟨hklen', -⟩ := challengeKeys_xor hvalid hr hcorrections hlen hkeys' hkeys
  obtain ⟨h128, hrow⟩ := of_checkConsistency hvalid hv hpass
  obtain ⟨-, hrow'⟩ := of_checkConsistency hvalid hv hpass'
  rw [hklen] at h128 hrow
  rw [hklen'] at hrow'
  have hc : j * params.k + b < 128 := by
    calc j * params.k + b < j * params.k + params.k := Nat.add_lt_add_left hb _
      _ = (j + 1) * params.k := (Nat.succ_mul j params.k).symm
      _ ≤ params.tau * params.k := Nat.mul_le_mul_right _ hj
      _ = 128 := hvalid.tau_mul_k
  refine ⟨h128, ?_⟩
  -- the two columns differ by the tree's vector
  have hdiffer : ∀ a a' : Bool, a ≠ a' → (a ^^ a') = true := by decide
  have hcolumn : columnHash key lHat (rowsColumn keys (j * params.k + b)) +
      columnHash key lHat (rowsColumn keys' (j * params.k + b)) =
        columnHash key lHat (committedVector params lHat r corrections j).bit := by
    rw [← columnHash_xor]
    apply columnHash_congr key h128
    intro t ht
    rw [rowsColumn, rowsColumn, hxor t ht j hj b hb, hdiffer _ _ hne, Bool.true_and]
  have hcancel : ∀ v u a a' : Bool, a ≠ a' → ((v ^^ (u && a)) ^^ (v ^^ (u && a'))) = u := by decide
  apply GF2p128.ext_bit
  intro row hrowlt
  rw [← hcolumn, GF2p128.bit_add, hrow row hrowlt _ hc, hrow' row hrowlt _ hc]
  exact hcancel _ _ _ _ hne

end Passing

/-! ## One common VOLE -/

/-- The two outcomes of the hash at a length the hash accepts. -/
theorem wideHashBits_treeVector (key : WideHashKey) {params : Params} {lHat : Nat}
    (h : 128 ≤ lHat) (r : Nat → Nat → BitVector) (corrections : List BitVector) (j : Nat) :
    (wideHashBits key (committedVector params lHat r corrections j) :
      Outcome VoleithError GF2p128) =
        .ok (columnHash key lHat (committedVector params lHat r corrections j).bit) :=
  wideHashBits_spec key h

section Common

variable {params : Params} {lHat : Nat} {r : Nat → Nat → BitVector} {corrections : List BitVector}
  {key : WideHashKey} {uTilde : GF2p128}

/-- The vector of the trees with the published hash, if there is one. -/
theorem exists_common_vector
    (hseparates : ∀ i < params.tau, ∀ j < params.tau,
      (wideHashBits key (committedVector params lHat r corrections i) :
        Outcome VoleithError GF2p128) =
          wideHashBits key (committedVector params lHat r corrections j) →
      committedVector params lHat r corrections i = committedVector params lHat r corrections j) :
    ∃ uStar : BitVector, uStar.len = lHat ∧ ∀ j < params.tau, 128 ≤ lHat →
      columnHash key lHat (committedVector params lHat r corrections j).bit = uTilde →
      committedVector params lHat r corrections j = uStar := by
  by_cases hex : ∃ i < params.tau, 128 ≤ lHat ∧
      columnHash key lHat (committedVector params lHat r corrections i).bit = uTilde
  · obtain ⟨i, hi, h128, hhash⟩ := hex
    refine ⟨committedVector params lHat r corrections i, rfl, fun j hj _ hhashj => ?_⟩
    apply hseparates j hj i hi
    rw [wideHashBits_treeVector key h128, wideHashBits_treeVector key h128, hhash, hhashj]
  · exact ⟨BitVector.zero lHat, rfl, fun j hj h128 hhashj => absurd ⟨j, hj, h128, hhashj⟩ hex⟩

/-- A tree whose vector does not have the published hash has one chunk in all passing challenges. -/
theorem chunk_eq_of_hash_ne (hvalid : params.Valid) (hr : ∀ j i, (r j i).len = lHat)
    (hcorrections : corrections.length = params.tau - 1) (hlen : ∀ c ∈ corrections, c.len = lHat)
    {vTilde : List GF2p128} (hv : vTilde.length = 128) {chall chall' : Bytes 16}
    {keys keys' : List GF2p128}
    (hkeys : challengeKeys params lHat r corrections chall = .ok keys)
    (hkeys' : challengeKeys params lHat r corrections chall' = .ok keys')
    (hpass : checkConsistency params key uTilde vTilde (splitDelta chall params).1 keys = .ok ())
    (hpass' : checkConsistency params key uTilde vTilde (splitDelta chall' params).1 keys' =
      .ok ())
    {j : Nat} (hj : j < params.tau)
    (hhash : (wideHashBits key (committedVector params lHat r corrections j) :
      Outcome VoleithError GF2p128) ≠ .ok uTilde) :
    (splitDelta chall params).2[j]? = (splitDelta chall' params).2[j]? := by
  obtain ⟨-, hdelta⟩ := splitDelta_spec chall hvalid
  obtain ⟨-, hdelta'⟩ := splitDelta_spec chall' hvalid
  obtain ⟨delta, hd, hlt, hbits⟩ := hdelta j hj
  obtain ⟨delta', hd', hlt', hbits'⟩ := hdelta' j hj
  rw [hd, hd', Option.some.injEq]
  apply Nat.eq_of_testBit_eq
  intro b
  rcases Nat.lt_or_ge b params.k with hb | hb
  · -- chunks that differ would differ in a bit of the challenge
    rw [← hbits b hb, ← hbits' b hb]
    by_contra hne
    obtain ⟨h128, hcolumn⟩ := columnHash_of_ne hvalid hr hcorrections hlen hv hkeys hkeys' hpass
      hpass' hj hb hne
    exact hhash (by rw [wideHashBits_treeVector key h128, hcolumn])
  · rw [Nat.testBit_lt_two_pow (hlt.trans_le (Nat.pow_le_pow_right (by decide) hb)),
      Nat.testBit_lt_two_pow (hlt'.trans_le (Nat.pow_le_pow_right (by decide) hb))]

end Common

/-- Whatever leaves and corrections a prover commits to: if the hash separates the trees' vectors,
    one VOLE holds for the keys of every challenge that passes the row check, and a tree whose
    vector does not have the published hash has the same chunk in every passing challenge. -/
theorem consistency_forces_common_vole (params : Params) (hparams : params.validate = .ok ())
    (lHat : Nat) (r : Nat → Nat → BitVector) (hr : ∀ j i, (r j i).len = lHat)
    (corrections : List BitVector) (hcorrections : corrections.length = params.tau - 1)
    (hlen : ∀ c ∈ corrections, c.len = lHat) (key : WideHashKey) (uTilde : GF2p128)
    (vTilde : List GF2p128) (hv : vTilde.length = 128)
    (hseparates : ∀ i < params.tau, ∀ j < params.tau,
      (wideHashBits key (committedVector params lHat r corrections i) :
        Outcome VoleithError GF2p128) =
          wideHashBits key (committedVector params lHat r corrections j) →
      committedVector params lHat r corrections i = committedVector params lHat r corrections j) :
    let passes (chall : Bytes 16) (keys : List GF2p128) : Prop :=
      challengeKeys params lHat r corrections chall = .ok keys ∧
        checkConsistency params key uTilde vTilde (splitDelta chall params).1 keys = .ok ()
    (∀ chall, ∃ keys, challengeKeys params lHat r corrections chall = .ok keys) ∧
    (∃ (uStar : BitVector) (vStar : List GF2p128), uStar.len = lHat ∧ vStar.length = lHat ∧
      ∀ chall keys, passes chall keys → keys.length = lHat ∧ ∀ t < lHat,
        keys.getD t 0 =
          vStar.getD t 0 + GF2p128.ofBool (uStar.bit t) * (splitDelta chall params).1) ∧
    ∀ j < params.tau,
      (wideHashBits key (committedVector params lHat r corrections j) :
        Outcome VoleithError GF2p128) ≠ .ok uTilde →
      ∀ chall keys chall' keys', passes chall keys → passes chall' keys' →
        (splitDelta chall params).2[j]? = (splitDelta chall' params).2[j]? := by
  have hvalid := Params.validate_eq_ok.mp hparams
  intro passes
  refine ⟨fun chall => ?_, ?_, fun j hj hhash chall keys chall' keys' hpass hpass' => ?_⟩
  · obtain ⟨keys, hkeys, -⟩ := keysFromLeaves_spec hvalid hr hcorrections hlen chall
      (knownLeaf r (splitDelta chall params).2) (fun j i hne => if_neg hne)
    exact ⟨keys, hkeys⟩
  · obtain ⟨uStar, hulen, huStar⟩ : ∃ uStar : BitVector, uStar.len = lHat ∧
        ∀ j < params.tau, 128 ≤ lHat →
          columnHash key lHat (committedVector params lHat r corrections j).bit = uTilde →
          committedVector params lHat r corrections j = uStar := exists_common_vector hseparates
    -- the tags are read off one passing run; every other passing run must agree with them
    by_cases hpassing : ∃ chall keys, passes chall keys
    · obtain ⟨chall₀, keys₀, hkeys₀, hpass₀⟩ := hpassing
      refine ⟨uStar, voleKeys lHat uStar keys₀ (splitDelta chall₀ params).1, hulen,
        by simp [voleKeys], fun chall keys hpass => ?_⟩
      obtain ⟨hkeys, hpass⟩ := hpass
      obtain ⟨hklen, hxor⟩ := challengeKeys_xor hvalid hr hcorrections hlen hkeys hkeys₀
      refine ⟨hklen, fun t ht => ext_chunks hvalid fun j hj b hb => congrArg bitF2 ?_⟩
      rw [(keysAre_voleKeys lHat uStar keys₀ (splitDelta chall₀ params).1).2 t ht, add_assoc,
        ← mul_add, GF2p128.bit_add, bit_ofBool_mul, GF2p128.bit_add]
      have hsolve : ∀ K K₀ D D₀ uj u : Bool, (K ^^ K₀) = ((D ^^ D₀) && uj) → (D ≠ D₀ → uj = u) →
          K = (K₀ ^^ (u && (D₀ ^^ D))) := by decide
      -- where the two challenges differ, the tree's vector is the common one
      refine hsolve _ _ _ _ _ _ (hxor t ht j hj b hb) fun hne => ?_
      obtain ⟨h128, hhash⟩ := columnHash_of_ne hvalid hr hcorrections hlen hv hkeys hkeys₀ hpass
        hpass₀ hj hb hne
      rw [huStar j hj h128 hhash]
    · exact ⟨uStar, List.replicate lHat 0, hulen, List.length_replicate,
        fun chall keys hpass => absurd ⟨chall, keys, hpass⟩ hpassing⟩
  · exact chunk_eq_of_hash_ne hvalid hr hcorrections hlen hv hpass.1 hpass'.1 hpass.2 hpass'.2 hj
      hhash

/-- For every challenge there are published rows with which it passes. -/
theorem exists_passing {params : Params} (hvalid : params.Valid) (key : WideHashKey)
    (uTilde delta : GF2p128) {keys : List GF2p128} (hlen : 128 ≤ keys.length) :
    ∃ vTilde : List GF2p128, vTilde.length = 128 ∧
      checkConsistency params key uTilde vTilde delta keys = .ok () := by
  obtain ⟨rows, hrows, hrlen, -⟩ := wideHashRows_spec VoleithError key hlen
  let vTilde : List GF2p128 := (List.range 128).map fun r =>
    rows.getD r 0 + GF2p128.ofBool (uTilde.bit r) * delta
  have hv : vTilde.length = 128 := by simp [vTilde]
  refine ⟨vTilde, hv, ?_⟩
  rw [checkConsistency, hrows, Outcome.ok_bind, hvalid.lambda_eq, checkRows_eq_ok hv hrlen]
  intro r hr
  have hget : vTilde.getD r 0 = rows.getD r 0 + GF2p128.ofBool (uTilde.bit r) * delta := by
    rw [List.getD_eq_getElem?_getD, List.getElem?_map, List.getElem?_range hr]
    rfl
  rw [hget, add_assoc, CharTwo.add_self_eq_zero, add_zero]

/-- The vector of 256 bits of which bit `j` alone is set. -/
def unitVector (j : Nat) : BitVector := BitVector.ofFn 256 fun t => decide (t = j)

/-- Leaves of which one is the unit vector of its tree. -/
def unitLeaves (j i : Nat) : BitVector := if i = 1 then unitVector j else BitVector.zero 256

theorem committedVector_unit (j : Nat) :
    committedVector params128Fast 256 unitLeaves (List.replicate 63 (BitVector.zero 256)) j =
      unitVector j := by
  refine BitVector.ext rfl fun t ht => ?_
  have hcorrection : ((correctionOf (List.replicate 63 (BitVector.zero 256)) j).elim false
      fun c => c.bit t) = false := by
    rw [correctionOf, List.getElem?_replicate]
    split
    · split <;> simp
    · rfl
  have hleaves : (List.range params128Fast.leaves).foldl
      (fun acc i => acc ^^ (unitLeaves j i).bit t) false = (unitVector j).bit t := by
    rw [show List.range params128Fast.leaves = [0, 1, 2, 3] from rfl]
    simp [unitLeaves]
  rw [committedVector, treeVector, BitVector.bit_ofFn _ (show t < 256 from ht), hleaves,
    hcorrection, Bool.xor_false]

/-- A key whose weights differ separates the unit vectors of one block. -/
theorem unitVector_eq_of_hash {key : WideHashKey} (hkey : key.r0 + key.r1 ≠ 0) {i j : Nat}
    (hi : i < 128) (hj : j < 128)
    (h : (wideHashBits key (unitVector i) : Outcome VoleithError GF2p128) =
      wideHashBits key (unitVector j)) : unitVector i = unitVector j := by
  have hhash {j : Nat} (hj : j < 128) : columnHash key 256 (unitVector j).bit =
      (key.r0 + key.r1) * GF2p128.ofBits fun t => decide (t = j) := by
    have hchunk : columnChunk 128 (unitVector j).bit 0 = GF2p128.ofBits fun t => decide (t = j) := by
      refine ofBits_congr fun t ht => ?_
      rw [unitVector, BitVector.bit_ofFn _ (by omega), Nat.zero_add, decide_eq_true ht,
        Bool.true_and]
    have hmask : (GF2p128.ofBits fun t => (unitVector j).bit (128 + t)) = 0 := by
      refine GF2p128.ext_bit fun t ht => ?_
      rw [GF2p128.bit_ofBits _ ht, unitVector, BitVector.bit_ofFn _ (by omega),
        decide_eq_false (by omega), GF2p128.bit_zero]
    -- 256 bits are one block and the mask
    have hbases : blockBases 128 = [0] := rfl
    rw [columnHash, columnBody, show 256 - 128 = 128 from rfl, hbases, hmask, List.map_singleton,
      hchunk]
    simp only [horner, List.foldl_cons, List.foldl_nil, zero_mul, zero_add, add_zero]
    exact (add_mul _ _ _).symm
  have hlen (j : Nat) : 128 ≤ (unitVector j).len := show 128 ≤ 256 by decide
  rw [wideHashBits_spec key (hlen i), wideHashBits_spec key (hlen j)] at h
  have hmul : (key.r0 + key.r1) * (GF2p128.ofBits fun t => decide (t = i)) =
      (key.r0 + key.r1) * GF2p128.ofBits fun t => decide (t = j) :=
    (hhash hi).symm.trans ((Except.ok.inj h).trans (hhash hj))
  have hbit := congrArg (·.bit i) (mul_left_cancel₀ hkey hmul)
  simp only [GF2p128.bit_ofBits _ hi, decide_true] at hbit
  rw [of_decide_eq_true hbit.symm]

/-- Trees that commit to 64 different vectors over the fast profile, which the key separates: one
    challenge passes, and one VOLE holds for all that do. -/
theorem consistency_forces_common_vole_units :
    let corrections := List.replicate 63 (BitVector.zero 256)
    let key : WideHashKey := ⟨⟨3⟩, ⟨1⟩, ⟨5⟩, ⟨7⟩⟩
    let uTilde := columnHash key 256 (unitVector 1).bit
    committedVector params128Fast 256 unitLeaves corrections 0 ≠
        committedVector params128Fast 256 unitLeaves corrections 1 ∧
      ∃ vTilde : List GF2p128,
        let passes (chall : Bytes 16) (keys : List GF2p128) : Prop :=
          challengeKeys params128Fast 256 unitLeaves corrections chall = .ok keys ∧
            checkConsistency params128Fast key uTilde vTilde (splitDelta chall params128Fast).1
              keys = .ok ()
        (∃ keys, passes (Vector.replicate 16 0x5A#8) keys) ∧
        ∃ (uStar : BitVector) (vStar : List GF2p128), uStar.len = 256 ∧ vStar.length = 256 ∧
          ∀ chall keys, passes chall keys → keys.length = 256 ∧ ∀ t < 256, keys.getD t 0 =
            vStar.getD t 0 + GF2p128.ofBool (uStar.bit t) * (splitDelta chall params128Fast).1 := by
  intro corrections key uTilde
  have hvalid : params128Fast.Valid := Params.shipped_valid.2.2
  have hr (j i : Nat) : (unitLeaves j i).len = 256 := by
    rw [unitLeaves]
    split <;> rfl
  have hlen : ∀ c ∈ corrections, c.len = 256 := fun c hc => by
    rw [List.eq_of_mem_replicate hc]
    rfl
  have hkey : key.r0 + key.r1 ≠ 0 := by decide
  refine ⟨fun heq => ?_, ?_⟩
  · rw [committedVector_unit, committedVector_unit] at heq
    have hbit := congrArg (·.bit 0) heq
    simp [unitVector, BitVector.bit_ofFn] at hbit
  obtain ⟨keys, hkeys, hklen, -⟩ := keysFromLeaves_spec hvalid hr List.length_replicate hlen
    (Vector.replicate 16 0x5A#8) (knownLeaf unitLeaves _) fun j i hne => if_neg hne
  obtain ⟨vTilde, hv, hpass⟩ := exists_passing hvalid key uTilde
    (splitDelta (Vector.replicate 16 0x5A#8) params128Fast).1 (show 128 ≤ keys.length by omega)
  refine ⟨vTilde, ⟨keys, hkeys, hpass⟩, ?_⟩
  exact (consistency_forces_common_vole params128Fast (Params.validate_of_valid hvalid) 256
    unitLeaves hr corrections List.length_replicate hlen key uTilde vTilde hv
    (fun i hi j hj heq => by
      rw [committedVector_unit, committedVector_unit] at heq ⊢
      have htau : params128Fast.tau = 64 := rfl
      exact unitVector_eq_of_hash hkey (by omega) (by omega) heq)).2.1

end VoleAct.Voleith
