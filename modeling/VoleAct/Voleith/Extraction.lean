/-
  VoleAct.Voleith.Extraction

  What a prover that answers several challenges must know.

  Answers to different final challenges open different leaves of the same trees.
  Together they reveal every leaf of a tree that is opened at two places, and so the
  vector the tree commits to; the consistency check makes these vectors one, and the
  batched check finds its witness without error once enough challenges are answered.
-/
import VoleAct.Voleith.AssertionBound
import VoleAct.Voleith.Consistency
import VoleAct.Voleith.Reconstruct
import VoleAct.Voleith.TranscriptBinding

namespace VoleAct.Voleith

open VoleAct.BinaryFields VoleAct.VectorCommit VoleAct.Lib

/-! ## Answers -/

/-- What answers the challenges after the consistency hash: the QuickSilver message for a challenge
    stream, and the openings for a final challenge. -/
structure Answer where
  chi : XofReader
  qsCoefficients : List GF2p128
  chall : Bytes 16
  openings : List VcOpening

/-- A proof with another answer in it. -/
def Answer.proof (proof : Proof) (a : Answer) : Proof :=
  { proof with qsCoefficients := a.qsCoefficients, openings := a.openings }

/-- `verify` once the circuit is sized, with the key of the hash and the challenges given. -/
def verifyAnswer (H : Xof) (params : Params) (circuit : Circuit) (sizing : Sizing) (proof : Proof)
    (key : WideHashKey) (a : Answer) : Outcome VoleithError Unit := do
  let lHat := sizing.l + sizing.maxDeg * params.lambda
  Outcome.require (shapeMatches params sizing lHat (a.proof proof)) .invalidProof
  let (delta, chunks) := splitDelta a.chall params
  let keys ← (reconstructKeys H proof.salt lHat params proof.coms proof.corrections chunks
    a.openings).mapErr fun _ => .invalidProof
  checkConsistency params key proof.uTilde proof.vTilde delta keys
  verifyCircuit params circuit sizing proof.d keys a.chi a.qsCoefficients delta

/-- The answer in a proof, to the challenges of its transcript. -/
def Proof.answer (proof : Proof) (H : Xof) (params : Params) (publicInput : List U8)
    (sizing : Sizing) : Answer where
  chi := (proof.chi H params publicInput sizing).1
  qsCoefficients := proof.qsCoefficients
  chall := proof.challenge H params publicInput sizing
  openings := proof.openings

/-- `verify` checks the answer to the challenges of its transcript. -/
theorem verify_eq_verifyAnswer (H : Xof) (params : Params) (publicInput : List U8)
    (circuit : Circuit) (proof : Proof) : verify H params publicInput circuit proof = (do
      let sizing ← sizeCircuit params circuit
      verifyAnswer H params circuit sizing proof (proof.wideKey H params publicInput sizing)
        (proof.answer H params publicInput sizing)) := rfl

/-! ## The extractor -/

section Extractor

variable (H : Xof) (params : Params) (lHat : Nat) (proof : Proof)

/-- The opening of one tree in an answer, with the leaves that its verification returns. -/
def Answer.opened (a : Answer) (j : Nat) : Opened :=
  let hide := (splitDelta a.chall params).2.getD j 0
  let opening := a.openings.getD j ⟨[], Vector.replicate 32 0#8⟩
  let com := proof.coms.getD j ⟨Vector.replicate 32 0#8⟩
  { hide, opening
    leaves :=
      match VectorCommit.verify H com (treeSalt H proof.salt j) params.k hide opening with
      | .ok leaves => leaves
      | .error _ => [] }

/-- The first seed that an answer reveals of a leaf. -/
def revealedSeed (answers : List Answer) (j i : Nat) : Seed :=
  (answers.findSome? fun a => (a.opened H params proof j).leaves[i]?.join).getD
    (Vector.replicate 16 0#8)

def revealedLeaf (answers : List Answer) (j i : Nat) : BitVector :=
  expandLeaf H proof.salt j i (revealedSeed H params proof answers j i) lHat

/-- Two of the answers hide different leaves of a tree. -/
def Forked (answers : List Answer) (j : Nat) : Prop :=
  ∃ a ∈ answers, ∃ b ∈ answers,
    (splitDelta a.chall params).2.getD j 0 ≠ (splitDelta b.chall params).2.getD j 0

instance (answers : List Answer) (j : Nat) : Decidable (Forked params answers j) :=
  inferInstanceAs (Decidable (∃ a ∈ answers, ∃ b ∈ answers,
    (splitDelta a.chall params).2.getD j 0 ≠ (splitDelta b.chall params).2.getD j 0))

/-- The vector that a tree commits to, as the answers reveal it. -/
def revealedVector (answers : List Answer) (j : Nat) : BitVector :=
  committedVector params lHat (revealedLeaf H params lHat proof answers) proof.corrections j

/-- The extracted vector: that of the first tree opened at two places. -/
def extractVector (answers : List Answer) : BitVector :=
  match (List.range params.tau).find? fun j => decide (Forked params answers j) with
  | some j => revealedVector H params lHat proof answers j
  | none => BitVector.zero lHat

/-- One message for a stream is answered for more challenges than the degree. -/
def Answered (sizing : Sizing) (answers : List Answer) (chi : XofReader) : Prop :=
  ∃ (qs : List GF2p128) (challs : Finset (Bytes 16)), sizing.maxDeg < challs.card ∧
    ∀ chall ∈ challs, ∃ a ∈ answers, a.chi = chi ∧ a.qsCoefficients = qs ∧ a.chall = chall

/-- The hash separates the vectors of the trees opened at two places. -/
def Separates (key : WideHashKey) (answers : List Answer) : Prop :=
  ∀ i < params.tau, ∀ j < params.tau, Forked params answers i → Forked params answers j →
    (wideHashBits key (revealedVector H params lHat proof answers i) :
      Outcome VoleithError GF2p128) =
        wideHashBits key (revealedVector H params lHat proof answers j) →
    revealedVector H params lHat proof answers i = revealedVector H params lHat proof answers j

end Extractor

section Keys

/-! ## Keys depend on the known leaves only -/

theorem keyPlanes_congr {ε : Type} {params : Params} (hvalid : params.Valid) {lHat delta : Nat}
    (hdelta : delta < 2 ^ params.k) {leaf leaf' : Nat → Outcome ε BitVector}
    (h : ∀ i < 2 ^ params.k, i ≠ delta → leaf i = leaf' i) (correction : Option BitVector) :
    keyPlanes params lHat delta leaf correction = keyPlanes params lHat delta leaf' correction := by
  rw [keyPlanes, keyPlanes]
  congr 1
  apply mapM_congr
  intro e he
  rw [List.mem_range, hvalid.leaves_eq] at he
  by_cases hzero : e = 0
  · rw [if_pos hzero, if_pos hzero]
  · rw [if_neg hzero, if_neg hzero]
    refine h _ (Nat.xor_lt_two_pow he hdelta) fun heq => hzero ?_
    have hcancel := congrArg (· ^^^ delta) heq
    simpa only [Nat.xor_assoc, Nat.xor_self, Nat.xor_zero] using hcancel

theorem keysFromLeaves_congr {params : Params} (hvalid : params.Valid) {lHat : Nat}
    {leaf leaf' : Nat → Nat → Outcome VcError BitVector} (corrections : List BitVector)
    {deltas : List Nat} (hdeltas : ∀ d ∈ deltas, d < 2 ^ params.k)
    (h : ∀ j < params.tau, ∀ i < 2 ^ params.k, deltas[j]? ≠ some i → leaf j i = leaf' j i) :
    keysFromLeaves params lHat leaf corrections deltas =
      keysFromLeaves params lHat leaf' corrections deltas := by
  rw [keysFromLeaves, keysFromLeaves]
  congr 1
  apply mapM_congr
  intro j hj
  rw [List.mem_range] at hj
  cases hdelta : deltas[j]? with
  | none => simp only [Outcome.index, hdelta, Outcome.expect]; rfl
  | some delta =>
      simp only [Outcome.index, hdelta, Outcome.expect_some, Outcome.ok_bind]
      congr 1
      funext correction
      refine keyPlanes_congr hvalid (hdeltas delta (List.mem_of_getElem? hdelta))
        (fun i hi hne => h j hj i hi ?_) correction
      rw [hdelta]
      exact fun heq => hne (Option.some.inj heq).symm

end Keys

/-! ## Accepted answers -/

/-- What acceptance says about an answer, with the keys it gives. -/
structure Answer.Accepted (H : Xof) (params : Params) (circuit : Circuit) (sizing : Sizing)
    (proof : Proof) (key : WideHashKey) (a : Answer) (keys : List GF2p128) : Prop where
  d_len : proof.d.len = sizing.l
  coms_length : proof.coms.length = params.tau
  corrections_length : proof.corrections.length = params.tau - 1
  openings_length : a.openings.length = params.tau
  vTilde_length : proof.vTilde.length = params.lambda
  qs_length : a.qsCoefficients.length = sizing.maxDeg
  corrections_len : ∀ c ∈ proof.corrections, c.len = sizing.l + sizing.maxDeg * params.lambda
  reconstructed : reconstructKeys H proof.salt (sizing.l + sizing.maxDeg * params.lambda) params
    proof.coms proof.corrections (splitDelta a.chall params).2 a.openings = .ok keys
  consistent : checkConsistency params key proof.uTilde proof.vTilde
    (splitDelta a.chall params).1 keys = .ok ()
  checked : verifyCircuit params circuit sizing proof.d keys a.chi a.qsCoefficients
    (splitDelta a.chall params).1 = .ok ()

theorem accepted_of_verifyAnswer {H : Xof} {params : Params} {circuit : Circuit} {sizing : Sizing}
    {proof : Proof} {key : WideHashKey} {a : Answer}
    (h : verifyAnswer H params circuit sizing proof key a = .ok ()) :
    ∃ keys, a.Accepted H params circuit sizing proof key keys := by
  obtain ⟨_, hshape, h⟩ := Outcome.bind_eq_ok.mp h
  obtain ⟨keys, hkeys, h⟩ := Outcome.bind_eq_ok.mp h
  obtain ⟨_, hconsistent, hchecked⟩ := Outcome.bind_eq_ok.mp h
  rw [Outcome.require_eq_ok] at hshape
  simp only [shapeMatches, Answer.proof, Bool.and_eq_true, beq_iff_eq, List.all_eq_true] at hshape
  obtain ⟨⟨⟨⟨⟨⟨hd, hcoms⟩, hcorrections⟩, hopenings⟩, hv⟩, hqs⟩, hlen⟩ := hshape
  exact ⟨keys, hd, hcoms, hcorrections, hopenings, hv, hqs, hlen, Outcome.mapErr_eq_ok.mp hkeys,
    hconsistent, hchecked⟩

/-- A successful reconstruction has verified every tree. -/
theorem verify_of_reconstructKeys {H : Xof} {salt : Salt} {lHat : Nat} {params : Params}
    {coms : List VcCommitment} {corrections : List BitVector} {deltas : List Nat}
    {openings : List VcOpening} {keys : List GF2p128}
    (h : reconstructKeys H salt lHat params coms corrections deltas openings = .ok keys) :
    ∀ j < params.tau, ∃ com delta opening leaves, coms[j]? = some com ∧ deltas[j]? = some delta ∧
      openings[j]? = some opening ∧
      VectorCommit.verify H com (treeSalt H salt j) params.k delta opening = .ok leaves := by
  intro j hj
  rw [reconstructKeys] at h
  obtain ⟨_, -, h⟩ := Outcome.bind_eq_ok.mp h
  obtain ⟨_, -, h⟩ := Outcome.bind_eq_ok.mp h
  obtain ⟨_, -, h⟩ := Outcome.bind_eq_ok.mp h
  obtain ⟨planes, hplanes, -⟩ := Outcome.bind_eq_ok.mp h
  have hindex {α : Type} {l : List α} {x : α} (hx : (Outcome.index l j : Outcome VcError α) = .ok x) :
      l[j]? = some x := by
    rw [Outcome.index] at hx
    cases hget : l[j]? with
    | none => rw [hget] at hx; cases hx
    | some y => rw [hget] at hx; rw [Except.ok.inj hx]
  obtain ⟨_, -, htree⟩ := forall₂_getElem? (Outcome.mapM_eq_ok hplanes) (List.getElem?_range hj)
  rw [reconstructTree] at htree
  obtain ⟨delta, hdelta, htree⟩ := Outcome.bind_eq_ok.mp htree
  obtain ⟨com, hcom, htree⟩ := Outcome.bind_eq_ok.mp htree
  obtain ⟨opening, hopening, htree⟩ := Outcome.bind_eq_ok.mp htree
  obtain ⟨leaves, hleaves, -⟩ := Outcome.bind_eq_ok.mp htree
  exact ⟨com, delta, opening, leaves, hindex hcom, hindex hdelta, hindex hopening, hleaves⟩

namespace Answer.Accepted

variable {H : Xof} {params : Params} {circuit : Circuit} {sizing : Sizing} {proof : Proof}
  {key : WideHashKey} {a : Answer} {keys : List GF2p128}

/-- Every tree's opening is accepted, at the chunk of the challenge. -/
theorem verify_opened (h : a.Accepted H params circuit sizing proof key keys) {j : Nat}
    (hj : j < params.tau) :
    proof.coms[j]? = some (proof.coms.getD j ⟨Vector.replicate 32 0#8⟩) ∧
    (splitDelta a.chall params).2[j]? = some (a.opened H params proof j).hide ∧
    a.openings[j]? = some (a.opened H params proof j).opening ∧
    VectorCommit.verify H (proof.coms.getD j ⟨Vector.replicate 32 0#8⟩) (treeSalt H proof.salt j)
      params.k (a.opened H params proof j).hide (a.opened H params proof j).opening =
        .ok (a.opened H params proof j).leaves := by
  obtain ⟨com, delta, opening, leaves, hcom, hdelta, hopening, hverify⟩ :=
    verify_of_reconstructKeys h.reconstructed j hj
  have hcom' : proof.coms.getD j ⟨Vector.replicate 32 0#8⟩ = com := by
    rw [List.getD_eq_getElem?_getD, hcom, Option.getD_some]
  have hdelta' : (splitDelta a.chall params).2.getD j 0 = delta := by
    rw [List.getD_eq_getElem?_getD, hdelta, Option.getD_some]
  have hopening' : a.openings.getD j ⟨[], Vector.replicate 32 0#8⟩ = opening := by
    rw [List.getD_eq_getElem?_getD, hopening, Option.getD_some]
  simp only [Answer.opened, hcom', hdelta', hopening', hverify]
  exact ⟨hcom, hdelta, hopening, trivial⟩

theorem accepted_opened (h : a.Accepted H params circuit sizing proof key keys) {j : Nat}
    (hj : j < params.tau) :
    VectorCommit.Accepted H (proof.coms.getD j ⟨Vector.replicate 32 0#8⟩) (treeSalt H proof.salt j)
      params.k (a.opened H params proof j).hide (a.opened H params proof j).opening
      (a.opened H params proof j).leaves := accepted_of_verify H (h.verify_opened hj).2.2.2

end Answer.Accepted

/-- Answers to a proof that are all accepted, with no collision among what their openings hash. -/
structure AcceptedAnswers (H : Xof) (params : Params) (circuit : Circuit) (sizing : Sizing)
    (proof : Proof) (key : WideHashKey) (answers : List Answer) : Prop where
  accepted : ∀ a ∈ answers, verifyAnswer H params circuit sizing proof key a = .ok ()
  noCollision : ∀ a ∈ answers, ∀ b ∈ answers, ∀ j < params.tau,
    Opened.NoCollision H (treeSalt H proof.salt j) params.k (a.opened H params proof j)
      (b.opened H params proof j)

namespace AcceptedAnswers

variable {H : Xof} {params : Params} {circuit : Circuit} {sizing : Sizing} {proof : Proof}
  {key : WideHashKey} {answers : List Answer} {a b : Answer} {keys keys' : List GF2p128}

/-- Every answer reveals the extractor's seed of every leaf it does not hide. -/
theorem leaves_eq (h : AcceptedAnswers H params circuit sizing proof key answers)
    (ha : a ∈ answers) {j i : Nat} (hj : j < params.tau) (hi : i < 2 ^ params.k)
    (hne : i ≠ (a.opened H params proof j).hide) :
    (a.opened H params proof j).leaves[i]? =
      some (some (revealedSeed H params proof answers j i)) := by
  obtain ⟨keys, hacc⟩ := accepted_of_verifyAnswer (h.accepted a ha)
  have hopened := hacc.accepted_opened hj
  obtain ⟨seed, hseed, -⟩ := hopened.recovered i hi hne
  -- the answer itself reveals a seed, so the search ends at one
  cases hfind : answers.findSome? fun a => (a.opened H params proof j).leaves[i]?.join with
  | none =>
      have hnone := List.findSome?_eq_none_iff.mp hfind a ha
      rw [hseed] at hnone
      exact nomatch hnone
  | some found =>
      obtain ⟨b, hb, hjoin⟩ := List.exists_of_findSome?_eq_some hfind
      obtain ⟨keys', hacc'⟩ := accepted_of_verifyAnswer (h.accepted b hb)
      have hopened' := hacc'.accepted_opened hj
      have hne' : i ≠ (b.opened H params proof j).hide := by
        rintro rfl
        rw [hopened'.hidden] at hjoin
        exact nomatch hjoin
      obtain ⟨s, hs, hs'⟩ := Opened.leaves_eq hopened hopened' (h.noCollision a ha b hb j hj) hi
        hne hne'
      rw [hs'] at hjoin
      rw [revealedSeed, hfind, Option.getD_some, hs, Option.some.inj hjoin]

/-- The keys of every answer are those of the revealed leaves. -/
theorem challengeKeys_eq (hvalid : params.Valid)
    (h : AcceptedAnswers H params circuit sizing proof key answers) (ha : a ∈ answers)
    (hacc : a.Accepted H params circuit sizing proof key keys) :
    challengeKeys params (sizing.l + sizing.maxDeg * params.lambda)
      (revealedLeaf H params (sizing.l + sizing.maxDeg * params.lambda) proof answers)
      proof.corrections a.chall = .ok keys := by
  obtain ⟨hchunks, hchunk⟩ := splitDelta_spec a.chall hvalid
  have hlt : ∀ d ∈ (splitDelta a.chall params).2, d < 2 ^ params.k := by
    intro d hd
    obtain ⟨j, hj⟩ := List.mem_iff_getElem?.mp hd
    obtain ⟨d', hd', hlt, -⟩ := hchunk j (hchunks ▸ (List.getElem?_eq_some_iff.mp hj).1)
    rwa [Option.some.inj (hj.symm.trans hd')]
  have hverify : ∀ j < params.tau, ∀ com delta opening, proof.coms[j]? = some com →
      (splitDelta a.chall params).2[j]? = some delta → a.openings[j]? = some opening →
      VectorCommit.verify H com (treeSalt H proof.salt j) params.k delta opening =
        .ok (a.opened H params proof j).leaves := by
    intro j hj com delta opening hcom hdelta hopening
    obtain ⟨hcom', hdelta', hopening', hverify⟩ := hacc.verify_opened hj
    rw [Option.some.inj (hcom.symm.trans hcom'), Option.some.inj (hdelta.symm.trans hdelta'),
      Option.some.inj (hopening.symm.trans hopening')]
    exact hverify
  rw [← hacc.reconstructed, reconstructKeys_eq H proof.salt _ hvalid hacc.coms_length
    hacc.corrections_length hchunks hacc.openings_length hacc.corrections_len hverify, challengeKeys]
  refine keysFromLeaves_congr hvalid proof.corrections hlt fun j hj i hi hne => ?_
  obtain ⟨-, hhide, -, -⟩ := hacc.verify_opened hj
  have hleaf := h.leaves_eq ha hj hi fun heq => hne (heq ▸ hhide)
  rw [knownLeaf, if_neg hne, openedLeaf, Outcome.index, hleaf]
  rfl

/-! ## One VOLE -/

/-- A tree opened at two places commits to a vector with the published hash. -/
theorem columnHash_of_forked (hvalid : params.Valid)
    (h : AcceptedAnswers H params circuit sizing proof key answers) {j : Nat}
    (hj : j < params.tau) (hforked : Forked params answers j) :
    128 ≤ sizing.l + sizing.maxDeg * params.lambda ∧
      columnHash key (sizing.l + sizing.maxDeg * params.lambda)
        (revealedVector H params (sizing.l + sizing.maxDeg * params.lambda) proof answers j).bit =
          proof.uTilde := by
  obtain ⟨a, ha, b, hb, hne⟩ := hforked
  obtain ⟨keys, hacc⟩ := accepted_of_verifyAnswer (h.accepted a ha)
  obtain ⟨keys', hacc'⟩ := accepted_of_verifyAnswer (h.accepted b hb)
  obtain ⟨delta, hd, hlt, hbits⟩ := (splitDelta_spec a.chall hvalid).2 j hj
  obtain ⟨delta', hd', hlt', hbits'⟩ := (splitDelta_spec b.chall hvalid).2 j hj
  rw [List.getD_eq_getElem?_getD, List.getD_eq_getElem?_getD, hd, hd'] at hne
  -- different chunks differ in a bit of the challenge
  obtain ⟨bit, hbit, hdiffer⟩ : ∃ bit < params.k, delta.testBit bit ≠ delta'.testBit bit := by
    by_contra hsame
    refine hne (Nat.eq_of_testBit_eq fun bit => ?_)
    rcases Nat.lt_or_ge bit params.k with hbit | hbit
    · by_contra hdiffer
      exact hsame ⟨bit, hbit, hdiffer⟩
    · rw [Option.getD_some, Option.getD_some,
        Nat.testBit_lt_two_pow (hlt.trans_le (Nat.pow_le_pow_right (by decide) hbit)),
        Nat.testBit_lt_two_pow (hlt'.trans_le (Nat.pow_le_pow_right (by decide) hbit))]
  refine columnHash_of_ne hvalid (fun _ _ => BitVector.fromXof_len _ _) hacc.corrections_length
    hacc.corrections_len (hacc.vTilde_length.trans hvalid.lambda_eq)
    (h.challengeKeys_eq hvalid ha hacc) (h.challengeKeys_eq hvalid hb hacc') hacc.consistent
    hacc'.consistent hj hbit ?_
  rw [hbits bit hbit, hbits' bit hbit]
  exact hdiffer

/-- Every tree opened at two places commits to the extracted vector. -/
theorem revealedVector_eq (hvalid : params.Valid)
    (h : AcceptedAnswers H params circuit sizing proof key answers)
    (hseparates : Separates H params (sizing.l + sizing.maxDeg * params.lambda) proof key answers)
    {j : Nat} (hj : j < params.tau) (hforked : Forked params answers j) :
    revealedVector H params (sizing.l + sizing.maxDeg * params.lambda) proof answers j =
      extractVector H params (sizing.l + sizing.maxDeg * params.lambda) proof answers := by
  rw [extractVector]
  cases hfind : (List.range params.tau).find? fun j => decide (Forked params answers j) with
  | none =>
      have hnone := List.find?_eq_none.mp hfind j (List.mem_range.mpr hj)
      exact absurd hforked (by simpa using hnone)
  | some i =>
      have hi := List.mem_range.mp (List.mem_of_find?_eq_some hfind)
      have hforkedi : Forked params answers i := by simpa using List.find?_some hfind
      obtain ⟨h128, hhash⟩ := h.columnHash_of_forked hvalid hj hforked
      obtain ⟨-, hhashi⟩ := h.columnHash_of_forked hvalid hi hforkedi
      refine hseparates j hj i hi hforked hforkedi ?_
      rw [revealedVector, revealedVector, wideHashBits_treeVector key h128,
        wideHashBits_treeVector key h128]
      exact congrArg Except.ok (hhash.trans hhashi.symm)

/-- Where the challenges of two answers differ, the tree is opened at two places. -/
theorem forked_of_bit_ne (hvalid : params.Valid) (ha : a ∈ answers) (hb : b ∈ answers) {j bit : Nat}
    (hj : j < params.tau) (hbit : bit < params.k)
    (hne : (splitDelta a.chall params).1.bit (j * params.k + bit) ≠
      (splitDelta b.chall params).1.bit (j * params.k + bit)) : Forked params answers j := by
  obtain ⟨delta, hd, -, hbits⟩ := (splitDelta_spec a.chall hvalid).2 j hj
  obtain ⟨delta', hd', -, hbits'⟩ := (splitDelta_spec b.chall hvalid).2 j hj
  refine ⟨a, ha, b, hb, ?_⟩
  rw [List.getD_eq_getElem?_getD, List.getD_eq_getElem?_getD, hd, hd', Option.getD_some,
    Option.getD_some]
  rintro rfl
  exact hne ((hbits bit hbit).trans (hbits' bit hbit).symm)

/-- The keys of all answers are of one VOLE, whose vector is the extracted one. -/
theorem keysAre_extractVector (hvalid : params.Valid)
    (h : AcceptedAnswers H params circuit sizing proof key answers)
    (hseparates : Separates H params (sizing.l + sizing.maxDeg * params.lambda) proof key answers)
    (ha : a ∈ answers) (hb : b ∈ answers)
    (hacc : a.Accepted H params circuit sizing proof key keys)
    (hacc' : b.Accepted H params circuit sizing proof key keys') :
    KeysAre (sizing.l + sizing.maxDeg * params.lambda)
      (extractVector H params (sizing.l + sizing.maxDeg * params.lambda) proof answers)
      (voleKeys (sizing.l + sizing.maxDeg * params.lambda)
        (extractVector H params (sizing.l + sizing.maxDeg * params.lambda) proof answers) keys'
        (splitDelta b.chall params).1)
      (splitDelta a.chall params).1 keys := by
  obtain ⟨hlen, hxor⟩ := challengeKeys_xor hvalid (fun _ _ => BitVector.fromXof_len _ _)
    hacc.corrections_length hacc.corrections_len (h.challengeKeys_eq hvalid ha hacc)
    (h.challengeKeys_eq hvalid hb hacc')
  refine ⟨hlen, fun t ht => ext_chunks hvalid fun j hj bit hbit => congrArg bitF2 ?_⟩
  rw [(keysAre_voleKeys _ _ keys' (splitDelta b.chall params).1).2 t ht, add_assoc, ← mul_add,
    GF2p128.bit_add, bit_ofBool_mul, GF2p128.bit_add]
  have hsolve : ∀ K K' D D' uj u : Bool, (K ^^ K') = ((D ^^ D') && uj) → (D ≠ D' → uj = u) →
      K = (K' ^^ (u && (D' ^^ D))) := by decide
  refine hsolve _ _ _ _ _ _ (hxor t ht j hj bit hbit) fun hne => ?_
  rw [← h.revealedVector_eq hvalid hseparates hj (forked_of_bit_ne hvalid ha hb hj hbit hne)]
  rfl

end AcceptedAnswers

/-! ## One bit asserted zero -/

theorem sizeCircuit_bit :
    sizeCircuit params128Fast (.ok [.witnessBit, .assertZero (.bit 0)]) = .ok ⟨1, 2, 1⟩ :=
  sizeCircuit_ok Params.shipped_valid.2.2 ⟨by decide, by decide, by decide⟩

theorem satisfies_bit : Satisfies (assignment [false]) [.witnessBit, .assertZero (.bit 0)] := by
  intro op hop
  simp only [List.mem_cons, List.not_mem_nil, or_false] at hop
  rcases hop with rfl | rfl
  · trivial
  · rfl

/-- The bit zero is proved and accepted. -/
theorem prove_bit : ∃ proof,
    (prove (fun _ _ => 0#8) params128Fast [] (.ok [.witnessBit, .assertZero (.bit 0)]) [false] ()).1 =
      .ok proof ∧
    verify (fun _ _ => 0#8) params128Fast [] (.ok [.witnessBit, .assertZero (.bit 0)]) proof =
      .ok () := by
  have hfits : Fits [.witnessBit, .assertZero (.bit 0)] := ⟨by decide, by decide, by decide⟩
  obtain ⟨haccept, hprove, -⟩ := prove_spec (fun _ _ => 0#8) Params.shipped_valid.2.2 [] hfits
    (show [false].length = _ from rfl) ()
  obtain ⟨proof, hproof⟩ := hprove satisfies_bit
  exact ⟨proof, hproof, haccept proof hproof⟩

/-! ## Extraction -/

theorem KeysAre.eq_voleKeys {lHat : Nat} {u : BitVector} {tags keys : List GF2p128}
    {delta : GF2p128} (h : KeysAre lHat u tags delta keys) :
    keys = voleKeys lHat u tags delta := by
  have h' := keysAre_voleKeys lHat u tags delta
  refine List.ext_getElem (h.1.trans h'.1.symm) fun t ht ht' => ?_
  have heq := (h.2 t (h.1 ▸ ht)).trans (h'.2 t (h.1 ▸ ht)).symm
  rwa [List.getD_eq_getElem _ _ ht, List.getD_eq_getElem _ _ ht'] at heq

theorem splitDelta_fst (chall : Bytes 16) (params : Params) :
    (splitDelta chall params).1 = GF2p128.fromBytes chall := by
  rw [splitDelta]
  split <;> rfl

/-- Different challenges are different values of `Δ`. -/
theorem splitDelta_fst_injective (params : Params) :
    Function.Injective fun chall => (splitDelta chall params).1 := by
  intro chall chall' h
  have hbytes := congrArg GF2p128.toBytes h
  simpa only [splitDelta_fst, GF2p128.toBytes_fromBytes] using hbytes

/-- Answers to different challenges open some tree at two places. -/
theorem exists_forked {params : Params} (hvalid : params.Valid) {answers : List Answer}
    {a b : Answer} (ha : a ∈ answers) (hb : b ∈ answers) (hne : a.chall ≠ b.chall) :
    ∃ j < params.tau, Forked params answers j := by
  by_contra hnone
  refine hne (splitDelta_fst_injective params (ext_chunks hvalid fun j hj bit hbit => ?_))
  by_contra hbits
  exact hnone ⟨j, hj, AcceptedAnswers.forked_of_bit_ne hvalid ha hb hj hbit
    fun heq => hbits (congrArg bitF2 heq)⟩

/-- The streams on which an assertion that is violated leaves no combined error. -/
theorem card_combinedError_zero_le {w : Nat → Bool} {ops : List Op} {op : Op} (hop : op ∈ ops)
    (hviolated : ¬op.Holds w) :
    (Finset.univ.filter fun chi : Fin (chiCount ops) → GF2p128 =>
      combinedError w (draws (constraints ops) (elemReader (streamOf chi) 0)) = 0).card * 2 ^ 128 ≤
        2 * Fintype.card (Fin (chiCount ops) → GF2p128) := by
  obtain ⟨c, hc, hcases⟩ := violated_cases hviolated
  obtain ⟨cs, ds, hsplit⟩ := List.append_of_mem (List.mem_filterMap.mpr ⟨op, hop, hc⟩)
  have hsplit' : constraints ops = cs ++ c :: ds := hsplit
  have hcount : chiLength (cs ++ c :: ds) ≤ chiCount ops := by rw [chiCount, hsplit']
  simp only [draws_elemReader]
  rw [← GF2p128.card_eq, hsplit']
  rcases hcases with hown | ⟨s, rfl, rfl, e, he, hequation⟩
  · exact (card_error_zero_le hown hcount).trans (Nat.mul_le_mul_right _ (by decide))
  · exact card_error_zero_system_le he hequation hcount

section Extraction

variable {H : Xof} {params : Params} {ops : List Op} {sizing : Sizing} {proof : Proof}
  {key : WideHashKey} {answers : List Answer}

/-- More challenges than the degree, answered with one message for one stream, leave no error. -/
theorem AcceptedAnswers.combinedError_eq_zero (hsized : sizeCircuit params (.ok ops) = .ok sizing)
    (h : AcceptedAnswers H params (.ok ops) sizing proof key answers)
    (hseparates : Separates H params (sizing.l + sizing.maxDeg * params.lambda) proof key answers)
    {chi : XofReader} (hchi : Answered sizing answers chi) :
    combinedError (extractedWitness sizing.l
      (extractVector H params (sizing.l + sizing.maxDeg * params.lambda) proof answers) proof.d)
      (draws (constraints ops) chi) = 0 := by
  obtain ⟨hvalid, ops', hops, hfits, rfl⟩ := of_sizeCircuit hsized
  obtain rfl := Except.ok.inj hops
  obtain ⟨qs, challs, hcard, hanswered⟩ := hchi
  by_contra herror
  -- the tags are read off one of the answers
  obtain ⟨chall₀, hchall₀⟩ := Finset.card_pos.mp (Nat.zero_lt_of_lt hcard)
  obtain ⟨a₀, ha₀, -, hqs₀, -⟩ := hanswered chall₀ hchall₀
  obtain ⟨keys₀, hacc₀⟩ := accepted_of_verifyAnswer (h.accepted a₀ ha₀)
  have hle : (challs.image fun chall => (splitDelta chall params).1).card ≤
      (sizingOf ops).maxDeg := by
    refine card_passing_deltas_le params hfits.asserted
      (extractVector H params (voleLength params ops) proof answers)
      (voleKeys (voleLength params ops)
        (extractVector H params (voleLength params ops) proof answers) keys₀
        (splitDelta a₀.chall params).1)
      hacc₀.d_len chi herror (hqs₀ ▸ hacc₀.qs_length) fun delta hdelta => ?_
    obtain ⟨chall, hchall, rfl⟩ := Finset.mem_image.mp hdelta
    obtain ⟨a, ha, rfl, rfl, rfl⟩ := hanswered chall hchall
    obtain ⟨keys, hacc⟩ := accepted_of_verifyAnswer (h.accepted a ha)
    have hchecked := hacc.checked
    rw [(h.keysAre_extractVector hvalid hseparates ha ha₀ hacc hacc₀).eq_voleKeys] at hchecked
    exact hchecked
  rw [Finset.card_image_of_injective _ (splitDelta_fst_injective params)] at hle
  exact absurd hcard (Nat.not_lt.mpr hle)

/-- If the extracted witness violates an assertion, few streams are answered. -/
theorem AcceptedAnswers.card_answered_le (hsized : sizeCircuit params (.ok ops) = .ok sizing)
    (h : AcceptedAnswers H params (.ok ops) sizing proof key answers)
    (hseparates : Separates H params (sizing.l + sizing.maxDeg * params.lambda) proof key answers)
    (hviolated : ¬Satisfies (extractedWitness sizing.l
      (extractVector H params (sizing.l + sizing.maxDeg * params.lambda) proof answers) proof.d) ops)
    {chis : Finset (Fin (chiCount ops) → GF2p128)}
    (hchis : ∀ chi ∈ chis, Answered sizing answers (elemReader (streamOf chi) 0)) :
    chis.card * 2 ^ 128 ≤ 2 * Fintype.card (Fin (chiCount ops) → GF2p128) := by
  simp only [Satisfies, not_forall] at hviolated
  obtain ⟨op, hop, hviolated⟩ := hviolated
  refine le_trans (Nat.mul_le_mul_right _ (Finset.card_le_card fun chi hchi => ?_))
    (card_combinedError_zero_le hop hviolated)
  exact Finset.mem_filter.mpr
    ⟨Finset.mem_univ _, h.combinedError_eq_zero hsized hseparates (hchis chi hchi)⟩

/-- More than two in `2^128` of the streams are answered. -/
def OftenAnswered (ops : List Op) (sizing : Sizing) (answers : List Answer) : Prop :=
  ∃ chis : Finset (Fin (chiCount ops) → GF2p128),
    (∀ chi ∈ chis, Answered sizing answers (elemReader (streamOf chi) 0)) ∧
      2 * Fintype.card (Fin (chiCount ops) → GF2p128) < chis.card * 2 ^ 128

/-- What is answered often is answered for two challenges. -/
theorem OftenAnswered.exists_forked {params : Params} (hvalid : params.Valid) {ops : List Op}
    {sizing : Sizing} {answers : List Answer} (h : OftenAnswered ops sizing answers)
    (hdeg : 0 < sizing.maxDeg) : ∃ j < params.tau, Forked params answers j := by
  obtain ⟨chis, hchis, hcard⟩ := h
  obtain ⟨chi, hchi⟩ : chis.Nonempty := by
    rw [Finset.nonempty_iff_ne_empty]
    rintro rfl
    exact absurd hcard (by simp)
  obtain ⟨qs, challs, hmany, hanswers⟩ := hchis chi hchi
  have htwo : 1 < challs.card := by omega
  obtain ⟨chall, hchall, chall', hchall', hne⟩ := Finset.one_lt_card.mp htwo
  obtain ⟨a, ha, -, -, rfl⟩ := hanswers chall hchall
  obtain ⟨b, hb, -, -, rfl⟩ := hanswers chall' hchall'
  exact Voleith.exists_forked hvalid ha hb hne

/-- The extracted witness satisfies a circuit that is answered often. -/
theorem AcceptedAnswers.satisfies (hsized : sizeCircuit params (.ok ops) = .ok sizing)
    (h : AcceptedAnswers H params (.ok ops) sizing proof key answers)
    (hseparates : Separates H params (sizing.l + sizing.maxDeg * params.lambda) proof key answers)
    (hoften : OftenAnswered ops sizing answers) :
    Satisfies (extractedWitness sizing.l
      (extractVector H params (sizing.l + sizing.maxDeg * params.lambda) proof answers) proof.d)
      ops := by
  obtain ⟨chis, hchis, hcard⟩ := hoften
  by_contra hviolated
  exact absurd (h.card_answered_le hsized hseparates hviolated hchis) (Nat.not_le.mpr hcard)

/-- Rewinding extracts a witness.  From any accepted answers to one proof up to its consistency
    hash, whose openings have no hash collision, and when the hash separates the vectors of the
    trees that are opened at two places: the keys of every answer are those of one VOLE over the
    extracted vector; a stream that is answered with one message for more challenges than the degree
    leaves the extracted witness no combined error; and if that witness violates an assertion, at
    most two in `2^128` of the streams are answered so. -/
theorem rewinding_extracts_witness (hsized : sizeCircuit params (.ok ops) = .ok sizing)
    (h : AcceptedAnswers H params (.ok ops) sizing proof key answers)
    (hseparates : Separates H params (sizing.l + sizing.maxDeg * params.lambda) proof key answers) :
    let lHat := sizing.l + sizing.maxDeg * params.lambda
    let u := extractVector H params lHat proof answers
    (∃ tags : List GF2p128, ∀ a ∈ answers, ∃ keys,
      reconstructKeys H proof.salt lHat params proof.coms proof.corrections
        (splitDelta a.chall params).2 a.openings = .ok keys ∧
      KeysAre lHat u tags (splitDelta a.chall params).1 keys) ∧
    (∀ chi, Answered sizing answers chi →
      combinedError (extractedWitness sizing.l u proof.d) (draws (constraints ops) chi) = 0) ∧
    (¬Satisfies (extractedWitness sizing.l u proof.d) ops →
      ∀ chis : Finset (Fin (chiCount ops) → GF2p128),
        (∀ chi ∈ chis, Answered sizing answers (elemReader (streamOf chi) 0)) →
        chis.card * 2 ^ 128 ≤ 2 * Fintype.card (Fin (chiCount ops) → GF2p128)) := by
  intro lHat u
  refine ⟨?_, fun chi => h.combinedError_eq_zero hsized hseparates,
    fun hviolated chis => h.card_answered_le hsized hseparates hviolated⟩
  have hvalid := (of_sizeCircuit hsized).1
  cases hanswers : answers with
  | nil => exact ⟨[], fun a ha => absurd ha List.not_mem_nil⟩
  | cons b rest =>
      have hb : b ∈ answers := hanswers ▸ List.mem_cons_self
      obtain ⟨keys', hacc'⟩ := accepted_of_verifyAnswer (h.accepted b hb)
      rw [← hanswers]
      refine ⟨voleKeys lHat u keys' (splitDelta b.chall params).1, fun a ha => ?_⟩
      obtain ⟨keys, hacc⟩ := accepted_of_verifyAnswer (h.accepted a ha)
      exact ⟨keys, hacc.reconstructed,
        h.keysAre_extractVector hvalid hseparates ha hb hacc hacc'⟩

end Extraction

end VoleAct.Voleith
