/-
  VoleAct.Voleith.HonestAnswers

  The prover's answers to challenges that are given to it.

  `prove` draws its challenges from its transcript.  With the challenges given instead
  it answers every one of them, and the extractor run on any of its answers, of which
  two open some tree at two places, returns the prover's own witness.
-/
import VoleAct.Voleith.Completeness
import VoleAct.Voleith.Extraction

namespace VoleAct.Voleith

open VoleAct.BinaryFields VoleAct.VectorCommit VoleAct.Lib Polynomial

/-! ## The prover, challenge by challenge -/

/-- The messages of `prove_committed` up to the challenge stream, for a given hash key. -/
def committedMessages (key : WideHashKey) (salt : Salt) (vole : ProverVole) (d : BitVector) :
    Outcome VoleithError Proof := do
  let uTilde ← wideHashBits key vole.u
  let vTilde ← wideHashRows key vole.tags
  return honestProof salt vole d uTilde vTilde [] []

/-- The rest of `prove_committed`, for a given stream and a given final challenge. -/
def proverAnswer (params : Params) (sizing : Sizing) (vole : ProverVole)
    (constraints : List ProverConstraint) (enforceSatisfied : Bool) (chi : XofReader)
    (chall : Bytes 16) : Outcome VoleithError Answer := do
  let qsCoefficients ←
    proverQuickSilver params sizing vole.u vole.tags constraints chi enforceSatisfied
  let openings ← (vole.open (splitDelta chall params).2).mapErr fun _ => .invalidParameters
  return { chi, qsCoefficients, chall, openings }

/-- A proof is these messages, and the answer to the challenges of its transcript. -/
theorem answer_of_proveCommitted {H : Xof} {params : Params} {publicInput : List U8}
    {circuit : Circuit} {witness : List Bool} {sizing : Sizing} {salt : Salt} {roots : List Seed}
    {enforce : Bool} {proof : Proof}
    (h : proveCommitted H params publicInput circuit witness sizing salt roots enforce =
      .ok proof) :
    ∃ vole pcs d, ProverVole.commit H roots salt (sizing.l + sizing.maxDeg * params.lambda) params =
        .ok vole ∧
      proverRun circuit witness sizing vole.u vole.tags enforce = .ok (pcs, d) ∧
      committedMessages (proof.wideKey H params publicInput sizing) salt vole d =
        .ok { proof with qsCoefficients := [], openings := [] } ∧
      proverAnswer params sizing vole pcs enforce (proof.answer H params publicInput sizing).chi
        (proof.answer H params publicInput sizing).chall =
          .ok (proof.answer H params publicInput sizing) := by
  obtain ⟨vole, hvole, h⟩ := Outcome.bind_eq_ok.mp h
  obtain ⟨⟨pcs, d⟩, hrun, h⟩ := Outcome.bind_eq_ok.mp h
  obtain ⟨uTilde, hu, h⟩ := Outcome.bind_eq_ok.mp h
  obtain ⟨vTilde, hv, h⟩ := Outcome.bind_eq_ok.mp h
  obtain ⟨qs, hqs, h⟩ := Outcome.bind_eq_ok.mp h
  obtain ⟨openings, hopen, h⟩ := Outcome.bind_eq_ok.mp h
  obtain rfl := Except.ok.inj h
  refine ⟨vole, pcs, d, Outcome.mapErr_eq_ok.mp hvole, hrun, ?_, ?_⟩
  · exact Outcome.bind_eq_ok.mpr ⟨uTilde, hu, Outcome.bind_eq_ok.mpr ⟨vTilde, hv, rfl⟩⟩
  · exact Outcome.bind_eq_ok.mpr ⟨qs, hqs, Outcome.bind_eq_ok.mpr ⟨openings, hopen, rfl⟩⟩

/-! ## Openings of committed trees -/

/-- An honest opening gives the commitments of all leaves, wherever it hides one. -/
theorem recoveredComs_honestOpening (H : Xof) (salt : Salt) (root : Seed) (depth hide : Nat) :
    recoveredComs H salt (honestOpening H salt root depth hide).hiddenCom
        (openedLeaves H salt root depth hide) =
      (List.range (2 ^ depth)).map fun i => leafCom H salt i (nodeSeed H salt 0 root depth i) := by
  apply List.ext_getElem?
  intro i
  rw [getElem?_recoveredComs, openedLeaves, List.getElem?_map, List.getElem?_map]
  rcases Nat.lt_or_ge i (2 ^ depth) with hi | hi
  · rw [List.getElem?_range hi, Option.map_some, Option.map_some, Option.map_some]
    by_cases hhide : i = hide
    · rw [if_pos hhide, hhide]
      rfl
    · rw [if_neg hhide]
  · rw [List.getElem?_eq_none (by simpa using hi)]
    rfl

theorem eq_nodeSeed_of_openedLeaves {H : Xof} {salt : Salt} {root : Seed} {depth hide i : Nat}
    {s : Seed} (h : (openedLeaves H salt root depth hide)[i]? = some (some s)) :
    s = nodeSeed H salt 0 root depth i := by
  rw [openedLeaves, List.getElem?_map] at h
  obtain ⟨i', hi', h⟩ := Option.map_eq_some_iff.mp h
  obtain ⟨hlt, rfl⟩ := List.getElem?_eq_some_iff.mp hi'
  rw [List.getElem_range] at h
  split at h
  · cases h
  · exact (Option.some.inj h).symm

/-- Every correction re-bases the sum of its tree onto the vector. -/
theorem CommitSpec.leafSum_add {H : Xof} {roots : List Seed} {salt : Salt} {lHat : Nat}
    {params : Params} {vole : ProverVole} (h : CommitSpec H roots salt lHat params vole) {j : Nat}
    (hj : j < params.tau) :
    leafSum H roots salt lHat params j + correctionCoords (correctionOf vole.corrections j) =
      vole.u.coords := by
  rcases Nat.eq_zero_or_pos j with rfl | hpos
  · rw [h.u_coords, correctionOf, if_neg (Nat.lt_irrefl 0), correctionCoords, Option.elim_none,
      add_zero]
  · obtain ⟨c, hc, -, hcoords⟩ := h.corrections (j - 1) (by omega)
    rw [Nat.sub_add_cancel hpos] at hcoords
    rw [correctionOf, if_pos hpos, hc, correctionCoords, Option.elim_some, hcoords, add_left_comm,
      CharTwo.add_self_eq_zero, add_zero]

/-! ## The honest prover -/

/-- What the prover of a satisfied program has after its first messages. -/
structure Honest (H : Xof) (params : Params) (ops : List Op) (witness : List Bool) (salt : Salt)
    (roots : List Seed) (key : WideHashKey) (vole : ProverVole) (pcs : List ProverConstraint)
    (proof : Proof) : Prop where
  valid : params.Valid
  fits : Fits ops
  witness_length : witness.length = witnessBits ops
  satisfied : Satisfies (assignment witness) ops
  spec : CommitSpec H roots salt (voleLength params ops) params vole
  recorded : List.Forall₂
    (ProverConstraint.Records (assignment witness) (witnessTags (witnessBits ops) vole.tags)) pcs
    (constraints ops)
  salt_eq : proof.salt = salt
  coms_eq : proof.coms = vole.coms
  corrections_eq : proof.corrections = vole.corrections
  d_len : proof.d.len = witnessBits ops
  d_bits : ∀ t < witnessBits ops, proof.d.bit t = (vole.u.bit t ^^ assignment witness t)
  uTilde_eq : proof.uTilde = columnHash key (voleLength params ops) vole.u.bit
  vTilde_length : proof.vTilde.length = 128
  vTilde_bits : ∀ r < 128, ∀ c < 128, (proof.vTilde.getD r 0).bit c =
    (columnHash key (voleLength params ops) (rowsColumn vole.tags c)).bit r

/-- The prover of a satisfied program commits, runs the circuit and sends its first messages. -/
theorem exists_honest (H : Xof) {params : Params} (hvalid : params.Valid) {ops : List Op}
    (hfits : Fits ops) {witness : List Bool} (hwit : witness.length = witnessBits ops)
    (hsat : Satisfies (assignment witness) ops) (salt : Salt) {roots : List Seed}
    (hroots : roots.length = params.tau) (key : WideHashKey) :
    ∃ vole pcs d proof, ProverVole.commit H roots salt (voleLength params ops) params = .ok vole ∧
      proverRun (.ok ops) witness (sizingOf ops) vole.u vole.tags true = .ok (pcs, d) ∧
      committedMessages key salt vole d = .ok proof ∧
      Honest H params ops witness salt roots key vole pcs proof := by
  have hlen := le_voleLength hvalid ops
  obtain ⟨vole, hcommit, hspec⟩ := commit_spec H salt (voleLength params ops) hvalid hroots
  obtain ⟨pcs, d, hall, hdlen, hdbits, hrunok, -⟩ := proverRun_spec hfits.built hwit
    (show witnessBits ops ≤ vole.u.len by rw [hspec.u_len]; omega)
    (show witnessBits ops ≤ vole.tags.length by rw [hspec.tags_length]; omega) true
  have hbits := wideHashBits_spec (ε := VoleithError) key
    (show 128 ≤ vole.u.len by rw [hspec.u_len]; omega)
  obtain ⟨vTilde, hrows, hvlen, hvbits⟩ := wideHashRows_spec VoleithError key
    (show 128 ≤ vole.tags.length by rw [hspec.tags_length]; omega)
  rw [hspec.u_len] at hbits
  rw [hspec.tags_length] at hvbits
  refine ⟨vole, pcs, d, _, hcommit, hrunok fun _ => immediatelySatisfied_of_satisfies hsat,
    Outcome.bind_eq_ok.mpr ⟨_, hbits, Outcome.bind_eq_ok.mpr ⟨_, hrows, rfl⟩⟩, ?_⟩
  exact ⟨hvalid, hfits, hwit, hsat, hspec, hall, rfl, rfl, rfl, hdlen, hdbits, rfl, hvlen, hvbits⟩

namespace Honest

variable {H : Xof} {params : Params} {ops : List Op} {witness : List Bool} {salt : Salt}
  {roots : List Seed} {key : WideHashKey} {vole : ProverVole} {pcs : List ProverConstraint}
  {proof : Proof} {a : Answer}

/-- Every stream and every final challenge is answered. -/
theorem exists_answer (h : Honest H params ops witness salt roots key vole pcs proof)
    (chi : XofReader) : ∃ qs, qs.length = (sizingOf ops).maxDeg ∧
      toPoly qs = voleMask (witnessBits ops) params.lambda ((sizingOf ops).maxDeg - 1) vole.u
          vole.tags +
        batchPoly (assignment witness) (witnessTags (witnessBits ops) vole.tags)
          (sizingOf ops).maxDeg (draws (constraints ops) chi) ∧
      ∀ chall, ∃ openings, vole.open (splitDelta chall params).2 = .ok openings ∧
        proverAnswer params (sizingOf ops) vole pcs true chi chall =
          .ok ⟨chi, qs, chall, openings⟩ := by
  obtain ⟨qs, hqs, hqlen, hpoly⟩ := proverQuickSilver_spec params chi
    (two_le_maxDeg ops) h.spec.u_len.ge h.spec.tags_length.ge h.recorded
    (fun c hc => (degree_le_assertedDegree hc).trans (Nat.le_max_left _ _))
    (fun a ha _ _ (_ : true = true) => error_of_mem_draws h.satisfied ha)
  rw [combinedError_eq_zero fun a ha => error_of_mem_draws h.satisfied ha, C_0, zero_mul,
    add_zero] at hpoly
  refine ⟨qs, hqlen, hpoly, fun chall => ?_⟩
  obtain ⟨openings, -, hopen, -⟩ := h.spec.reconstruct H h.valid chall
  refine ⟨openings, hopen, Outcome.bind_eq_ok.mpr ⟨qs, hqs, Outcome.bind_eq_ok.mpr
    ⟨openings, Outcome.mapErr_eq_ok.mpr hopen, rfl⟩⟩⟩

/-- What an answer of the prover consists of. -/
theorem answer_eq (h : Honest H params ops witness salt roots key vole pcs proof)
    (ha : proverAnswer params (sizingOf ops) vole pcs true a.chi a.chall = .ok a) :
    a.qsCoefficients.length = (sizingOf ops).maxDeg ∧
      toPoly a.qsCoefficients =
        voleMask (witnessBits ops) params.lambda ((sizingOf ops).maxDeg - 1) vole.u vole.tags +
          batchPoly (assignment witness) (witnessTags (witnessBits ops) vole.tags)
            (sizingOf ops).maxDeg (draws (constraints ops) a.chi) ∧
      vole.open (splitDelta a.chall params).2 = .ok a.openings := by
  obtain ⟨qs, hqlen, hpoly, hanswer⟩ := h.exists_answer a.chi
  obtain ⟨openings, hopen, hanswer⟩ := hanswer a.chall
  have heq := Except.ok.inj (hanswer.symm.trans ha)
  rw [← congrArg Answer.qsCoefficients heq, ← congrArg Answer.openings heq]
  exact ⟨hqlen, hpoly, hopen⟩

/-- Every answer of the prover is accepted. -/
theorem verifyAnswer_eq (h : Honest H params ops witness salt roots key vole pcs proof)
    (ha : proverAnswer params (sizingOf ops) vole pcs true a.chi a.chall = .ok a) :
    verifyAnswer H params (.ok ops) (sizingOf ops) proof key a = .ok () := by
  obtain ⟨hqlen, hpoly, hopen⟩ := h.answer_eq ha
  obtain ⟨openings, keys, hopen', hopenlen, hkeys, hklen, hkbits⟩ :=
    h.spec.reconstruct H h.valid a.chall
  obtain rfl := Except.ok.inj (hopen'.symm.trans hopen)
  have hlen := le_voleLength h.valid ops
  have hkeysAre : KeysAre (voleLength params ops) vole.u vole.tags _ keys := ⟨hklen, hkbits⟩
  obtain ⟨rows, hrows, hrlen, hrbits⟩ := wideHashRows_spec VoleithError key
    (show 128 ≤ keys.length by omega)
  rw [hklen] at hrbits
  have hshape : shapeMatches params (sizingOf ops) (voleLength params ops) (a.proof proof) = true := by
    simp only [shapeMatches, Answer.proof, h.d_len, h.coms_eq, h.corrections_eq, h.spec.coms_length,
      h.spec.corrections_length, hopenlen, h.vTilde_length, h.valid.lambda_eq, hqlen,
      h.spec.corrections_len, beq_self_eq_true, Bool.and_true]
    exact beq_self_eq_true _
  have hconsistent : checkConsistency params key proof.uTilde proof.vTilde
      (splitDelta a.chall params).1 keys = .ok () := by
    rw [checkConsistency, hrows, Outcome.ok_bind, h.valid.lambda_eq]
    have hcheck := rows_keys hkeysAre (by omega) h.vTilde_bits hrbits
    rw [← h.uTilde_eq] at hcheck
    exact (checkRows_eq_ok h.vTilde_length hrlen).mpr hcheck
  have hcircuit := verifyCircuit_spec params a.chi a.qsCoefficients h.fits.asserted h.d_len.ge
    hkeysAre
  rw [extractedWitness_eq h.witness_length h.d_bits, ← hpoly, beq_self_eq_true,
    Outcome.require_true] at hcircuit
  rw [← h.salt_eq, ← h.coms_eq, ← h.corrections_eq] at hkeys
  refine Outcome.bind_eq_ok.mpr ⟨(), Outcome.require_eq_ok.mpr hshape, ?_⟩
  exact Outcome.bind_eq_ok.mpr ⟨keys, Outcome.mapErr_eq_ok.mpr hkeys,
    Outcome.bind_eq_ok.mpr ⟨(), hconsistent, hcircuit⟩⟩

/-- Every tree is opened honestly, at the chunk of the challenge. -/
theorem opened_eq (h : Honest H params ops witness salt roots key vole pcs proof)
    (ha : proverAnswer params (sizingOf ops) vole pcs true a.chi a.chall = .ok a) {j : Nat}
    (hj : j < params.tau) : ∃ hide < 2 ^ params.k, a.opened H params proof j =
      { hide
        opening := honestOpening H (treeSalt H salt j) (rootSeed roots j) params.k hide
        leaves := openedLeaves H (treeSalt H salt j) (rootSeed roots j) params.k hide } := by
  obtain ⟨-, -, hopen⟩ := h.answer_eq ha
  obtain ⟨hchunks, hchunk⟩ := splitDelta_spec a.chall h.valid
  have hlt : ∀ d ∈ (splitDelta a.chall params).2, d < 2 ^ params.k := by
    intro d hd
    obtain ⟨j, hj⟩ := List.mem_iff_getElem?.mp hd
    obtain ⟨d', hd', hlt, -⟩ := hchunk j (hchunks ▸ (List.getElem?_eq_some_iff.mp hj).1)
    rwa [Option.some.inj (hj.symm.trans hd')]
  obtain ⟨hide, hhide, hhidelt, -⟩ := hchunk j hj
  have hopenings := Except.ok.inj ((open_spec H h.spec hchunks hlt).symm.trans hopen)
  have hopening : a.openings[j]? =
      some (honestOpening H (treeSalt H salt j) (rootSeed roots j) params.k hide) := by
    rw [← hopenings, honestOpenings, List.getElem?_map, List.getElem?_zipIdx, hhide]
    simp
  have hcom : proof.coms[j]? = some (committedRoot H roots salt params j) :=
    h.coms_eq ▸ h.spec.coms j hj
  have hverify := verify_honestOpening H (treeSalt H salt j) (rootSeed roots j)
    (Nat.pos_iff_ne_zero.mp h.valid.k_pos) (show params.k ≤ maxDepth from h.valid.k_le) hhidelt
  refine ⟨hide, hhidelt, ?_⟩
  simp only [Answer.opened, List.getD_eq_getElem?_getD, hhide, hopening, hcom, Option.getD_some,
    h.salt_eq, committedRoot, committedTree, hverify]

variable {answers : List Answer}

/-- Its answers are accepted, with no collision among what their openings hash. -/
theorem acceptedAnswers (h : Honest H params ops witness salt roots key vole pcs proof)
    (ha : ∀ a ∈ answers, proverAnswer params (sizingOf ops) vole pcs true a.chi a.chall = .ok a) :
    AcceptedAnswers H params (.ok ops) (sizingOf ops) proof key answers := by
  refine ⟨fun a hmem => h.verifyAnswer_eq (ha a hmem), fun a hmem b hmem' j hj => ?_⟩
  obtain ⟨hide, -, hopened⟩ := h.opened_eq (ha a hmem) hj
  obtain ⟨hide', -, hopened'⟩ := h.opened_eq (ha b hmem') hj
  rw [hopened, hopened', h.salt_eq]
  refine ⟨fun _ => ?_, fun i s s' hs hs' _ => ?_⟩
  · rw [Opened.coms, Opened.coms, recoveredComs_honestOpening, recoveredComs_honestOpening]
  · rw [eq_nodeSeed_of_openedLeaves hs, eq_nodeSeed_of_openedLeaves hs']

/-- Opened at two places, a tree reveals the seeds the prover has drawn. -/
theorem revealedSeed_eq (h : Honest H params ops witness salt roots key vole pcs proof)
    (ha : ∀ a ∈ answers, proverAnswer params (sizingOf ops) vole pcs true a.chi a.chall = .ok a)
    {j i : Nat} (hj : j < params.tau) (hi : i < 2 ^ params.k) (hforked : Forked params answers j) :
    revealedSeed H params proof answers j i =
      nodeSeed H (treeSalt H salt j) 0 (rootSeed roots j) params.k i := by
  -- one of the two answers does not hide the leaf
  obtain ⟨a, hmem, hne⟩ : ∃ a ∈ answers, i ≠ (a.opened H params proof j).hide := by
    obtain ⟨a, hmem, b, hmem', hne⟩ := hforked
    by_cases hi : i = (a.opened H params proof j).hide
    · exact ⟨b, hmem', hi ▸ hne⟩
    · exact ⟨a, hmem, hi⟩
  have hleaf := (h.acceptedAnswers ha).leaves_eq hmem hj hi hne
  obtain ⟨hide, -, hopened⟩ := h.opened_eq (ha a hmem) hj
  rw [hopened] at hleaf
  exact eq_nodeSeed_of_openedLeaves hleaf

/-- Opened at two places, a tree reveals the vector of the prover. -/
theorem revealedVector_eq (h : Honest H params ops witness salt roots key vole pcs proof)
    (ha : ∀ a ∈ answers, proverAnswer params (sizingOf ops) vole pcs true a.chi a.chall = .ok a)
    {j : Nat} (hj : j < params.tau) (hforked : Forked params answers j) :
    revealedVector H params (voleLength params ops) proof answers j = vole.u := by
  refine BitVector.ext h.spec.u_len.symm fun t ht => bitF2_injective ?_
  have hsum : ∑ i ∈ Finset.range params.leaves,
      (revealedLeaf H params (voleLength params ops) proof answers j i).coords =
        leafSum H roots salt (voleLength params ops) params j := by
    rw [leafSum, h.valid.leaves_eq]
    refine Finset.sum_congr rfl fun i hi => ?_
    rw [revealedLeaf, h.revealedSeed_eq ha hj (Finset.mem_range.mp hi) hforked, h.salt_eq,
      leafVector]
  calc (revealedVector H params (voleLength params ops) proof answers j).coords t
    _ = (∑ i ∈ Finset.range params.leaves,
          (revealedLeaf H params (voleLength params ops) proof answers j i).coords +
            correctionCoords (correctionOf proof.corrections j)) t := coords_treeVector _ _ _ _ ht
    _ = vole.u.coords t := by rw [hsum, h.corrections_eq, h.spec.leafSum_add hj]

theorem separates (h : Honest H params ops witness salt roots key vole pcs proof)
    (ha : ∀ a ∈ answers, proverAnswer params (sizingOf ops) vole pcs true a.chi a.chall = .ok a) :
    Separates H params (voleLength params ops) proof key answers := by
  intro i hi j hj hforked hforked' _
  rw [h.revealedVector_eq ha hi hforked, h.revealedVector_eq ha hj hforked']

/-- Once a tree is opened at two places, the extractor returns the prover's witness. -/
theorem extractedWitness_eq (h : Honest H params ops witness salt roots key vole pcs proof)
    (ha : ∀ a ∈ answers, proverAnswer params (sizingOf ops) vole pcs true a.chi a.chall = .ok a)
    {j : Nat} (hj : j < params.tau) (hforked : Forked params answers j) :
    extractedWitness (witnessBits ops)
        (extractVector H params (voleLength params ops) proof answers) proof.d =
      assignment witness := by
  have hvector := (h.acceptedAnswers ha).revealedVector_eq h.valid (h.separates ha) hj hforked
  have hu : extractVector H params (voleLength params ops) proof answers = vole.u :=
    hvector.symm.trans (h.revealedVector_eq ha hj hforked)
  rw [hu]
  exact Voleith.extractedWitness_eq h.witness_length h.d_bits

/-- Some of its answers are enough to extract. -/
theorem exists_oftenAnswered (h : Honest H params ops witness salt roots key vole pcs proof) :
    ∃ answers, (∀ a ∈ answers,
        proverAnswer params (sizingOf ops) vole pcs true a.chi a.chall = .ok a) ∧
      OftenAnswered ops (sizingOf ops) answers := by
  have hanswer : ∀ chi, ∃ qs, ∀ chall, ∃ a,
      proverAnswer params (sizingOf ops) vole pcs true a.chi a.chall = .ok a ∧
        a.chi = chi ∧ a.qsCoefficients = qs ∧ a.chall = chall := by
    intro chi
    obtain ⟨qs, -, -, hchall⟩ := h.exists_answer chi
    refine ⟨qs, fun chall => ?_⟩
    obtain ⟨openings, -, ha⟩ := hchall chall
    exact ⟨⟨chi, qs, chall, openings⟩, ha, rfl, rfl, rfl⟩
  choose qs answer ha hchi hqs hchall using hanswer
  -- every stream, for every challenge
  refine ⟨(Finset.univ : Finset ((Fin (chiCount ops) → GF2p128) × GF2p128)).toList.map fun p =>
    answer (elemReader (streamOf p.1) 0) p.2.toBytes, fun a hmem => ?_, Finset.univ,
    fun chi _ => ⟨qs (elemReader (streamOf chi) 0), Finset.univ.image GF2p128.toBytes, ?_, ?_⟩, ?_⟩
  · obtain ⟨p, -, rfl⟩ := List.mem_map.mp hmem
    exact ha _ _
  · rw [Finset.card_image_of_injective _ (Function.LeftInverse.injective GF2p128.fromBytes_toBytes),
      Finset.card_univ, GF2p128.card_eq]
    exact lt_of_le_of_lt (max_le h.fits.asserted (by decide)) (by decide : maxDegree < 2 ^ 128)
  · intro chall hmem
    obtain ⟨e, -, rfl⟩ := Finset.mem_image.mp hmem
    exact ⟨_, List.mem_map.mpr ⟨(chi, e), Finset.mem_toList.mpr (Finset.mem_univ _), rfl⟩,
      hchi _ _, hqs _ _, hchall _ _⟩
  · rw [Finset.card_univ, Nat.mul_comm]
    exact Nat.mul_lt_mul_of_pos_left (by decide) Fintype.card_pos

end Honest

/-! ## Proofs of `prove` -/

/-- `prove` takes witnesses of the circuit's length only. -/
theorem witness_length_of_prove {ρ : Type} [CryptoRngCore ρ] {H : Xof} {params : Params}
    {publicInput : List U8} {circuit : Circuit} {sizing : Sizing} {witness : List Bool} {rng : ρ}
    {proof : Proof} (hsized : sizeCircuit params circuit = .ok sizing)
    (h : (prove H params publicInput circuit witness rng).1 = .ok proof) :
    witness.length = sizing.l := by
  rw [prove, proveImpl, hsized, Outcome.ok_bind] at h
  by_cases hlen : witness.length = sizing.l
  · exact hlen
  · rw [beq_false_of_ne hlen] at h
    cases h

/-- A proof of a witness is the messages of an honest prover that answers its transcript. -/
theorem honest_of_proveCommitted {H : Xof} {params : Params} (hvalid : params.Valid)
    {publicInput : List U8} {ops : List Op} (hfits : Fits ops) {witness : List Bool}
    (hwit : witness.length = witnessBits ops) (hsat : Satisfies (assignment witness) ops)
    {salt : Salt} {roots : List Seed} (hroots : roots.length = params.tau) {proof : Proof}
    (h : proveCommitted H params publicInput (.ok ops) witness (sizingOf ops) salt roots true =
      .ok proof) :
    ∃ vole pcs, Honest H params ops witness salt roots
        (proof.wideKey H params publicInput (sizingOf ops)) vole pcs proof ∧
      proverAnswer params (sizingOf ops) vole pcs true
        (proof.answer H params publicInput (sizingOf ops)).chi
        (proof.answer H params publicInput (sizingOf ops)).chall =
          .ok (proof.answer H params publicInput (sizingOf ops)) := by
  obtain ⟨vole, pcs, d, hcommit, hrun, hmessages, hanswer⟩ := answer_of_proveCommitted h
  obtain ⟨vole', pcs', d', messages, hcommit', hrun', hmessages', hhonest⟩ :=
    exists_honest H hvalid hfits hwit hsat salt hroots
      (proof.wideKey H params publicInput (sizingOf ops))
  obtain rfl := Except.ok.inj (hcommit.symm.trans hcommit')
  obtain ⟨rfl, rfl⟩ := Prod.mk.inj (Except.ok.inj (hrun.symm.trans hrun'))
  obtain rfl := Except.ok.inj (hmessages.symm.trans hmessages')
  exact ⟨vole, pcs, ⟨hvalid, hfits, hwit, hsat, hhonest.spec, hhonest.recorded, hhonest.salt_eq,
    hhonest.coms_eq, hhonest.corrections_eq, hhonest.d_len, hhonest.d_bits, hhonest.uTilde_eq,
    hhonest.vTilde_length, hhonest.vTilde_bits⟩, hanswer⟩

/-- Behind a proof of a satisfying witness stands an honest prover. -/
theorem honest_of_prove {ρ : Type} [CryptoRngCore ρ] {H : Xof} {params : Params}
    {publicInput : List U8} {ops : List Op} {sizing : Sizing} {witness : List Bool} {rng : ρ}
    {proof : Proof} (hsized : sizeCircuit params (.ok ops) = .ok sizing)
    (hsat : Satisfies (assignment witness) ops)
    (hproof : (prove H params publicInput (.ok ops) witness rng).1 = .ok proof) :
    ∃ salt roots vole pcs, Honest H params ops witness salt roots
        (proof.wideKey H params publicInput sizing) vole pcs proof ∧
      proverAnswer params sizing vole pcs true (proof.answer H params publicInput sizing).chi
        (proof.answer H params publicInput sizing).chall =
          .ok (proof.answer H params publicInput sizing) := by
  have hwit := witness_length_of_prove hsized hproof
  obtain ⟨hvalid, ops', hops, hfits, rfl⟩ := of_sizeCircuit hsized
  obtain rfl := Except.ok.inj hops
  obtain ⟨salt, roots, hroots, hprove⟩ := prove_eq H hvalid publicInput hfits hwit rng
  exact ⟨salt, roots,
    honest_of_proveCommitted hvalid hfits hwit hsat hroots (hprove.symm.trans hproof)⟩

/-- One bit asserted zero, over the fast profile: what rewinding gives on answers of its prover to
    every stream and every final challenge. -/
theorem rewinding_extracts_witness_bit :
    let H : Xof := fun _ _ => 0#8
    let ops : List Op := [.witnessBit, .assertZero (.bit 0)]
    ∃ (proof : Proof) (answers : List Answer) (tags : List GF2p128),
      verify H params128Fast [] (.ok ops) proof = .ok () ∧ OftenAnswered ops ⟨1, 2, 1⟩ answers ∧
      (∀ a ∈ answers, ∃ keys,
        reconstructKeys H proof.salt 257 params128Fast proof.coms proof.corrections
          (splitDelta a.chall params128Fast).2 a.openings = .ok keys ∧
        KeysAre 257 (extractVector H params128Fast 257 proof answers) tags
          (splitDelta a.chall params128Fast).1 keys) ∧
      ∀ chi, Answered ⟨1, 2, 1⟩ answers chi → combinedError
        (extractedWitness 1 (extractVector H params128Fast 257 proof answers) proof.d)
        (draws (constraints ops) chi) = 0 := by
  intro H ops
  obtain ⟨proof, hproof, hverify⟩ := prove_bit
  obtain ⟨salt, roots, vole, pcs, hhonest, -⟩ :=
    honest_of_prove sizeCircuit_bit satisfies_bit hproof
  obtain ⟨answers, ha, hoften⟩ := hhonest.exists_oftenAnswered
  obtain ⟨⟨tags, hkeys⟩, herror, -⟩ := rewinding_extracts_witness sizeCircuit_bit
    (hhonest.acceptedAnswers ha) (hhonest.separates ha)
  exact ⟨proof, answers, tags, hverify, hoften, hkeys, herror⟩

/-- The prover of a satisfied circuit can answer every challenge, and its answers extract its own
    witness.  Behind a proof that `prove` returns for a satisfying witness stands one committed
    state: it gives the answer in the proof; it answers every stream and every final challenge, and
    `verify` accepts; any of its answers have no hash collision and separate the trees, and once a
    tree is opened at two places the extractor returns the witness; and some of its answers are
    enough to extract. -/
theorem prover_answers_extract {ρ : Type} [CryptoRngCore ρ] {H : Xof} {params : Params}
    {publicInput : List U8} {ops : List Op} {sizing : Sizing} {witness : List Bool} {rng : ρ}
    {proof : Proof} (hsized : sizeCircuit params (.ok ops) = .ok sizing)
    (hsat : Satisfies (assignment witness) ops)
    (hproof : (prove H params publicInput (.ok ops) witness rng).1 = .ok proof) :
    let key := proof.wideKey H params publicInput sizing
    let lHat := sizing.l + sizing.maxDeg * params.lambda
    ∃ (vole : ProverVole) (pcs : List ProverConstraint),
      let respond := proverAnswer params sizing vole pcs true
      respond (proof.answer H params publicInput sizing).chi
        (proof.answer H params publicInput sizing).chall =
          .ok (proof.answer H params publicInput sizing) ∧
      (∀ chi chall, ∃ a, respond chi chall = .ok a ∧ a.chi = chi ∧ a.chall = chall ∧
        verifyAnswer H params (.ok ops) sizing proof key a = .ok ()) ∧
      (∀ answers, (∀ a ∈ answers, respond a.chi a.chall = .ok a) →
        AcceptedAnswers H params (.ok ops) sizing proof key answers ∧
        Separates H params lHat proof key answers ∧
        ∀ j < params.tau, Forked params answers j →
          extractedWitness sizing.l (extractVector H params lHat proof answers) proof.d =
            assignment witness) ∧
      ∃ answers, (∀ a ∈ answers, respond a.chi a.chall = .ok a) ∧
        OftenAnswered ops sizing answers := by
  intro key lHat
  obtain ⟨salt, roots, vole, pcs, hhonest, hanswer⟩ := honest_of_prove hsized hsat hproof
  obtain ⟨-, ops', hops, -, rfl⟩ := of_sizeCircuit hsized
  obtain rfl := Except.ok.inj hops
  refine ⟨vole, pcs, hanswer, fun chi chall => ?_, fun answers ha =>
    ⟨hhonest.acceptedAnswers ha, hhonest.separates ha,
      fun j hj hforked => hhonest.extractedWitness_eq ha hj hforked⟩,
    hhonest.exists_oftenAnswered⟩
  obtain ⟨qs, -, -, hchall⟩ := hhonest.exists_answer chi
  obtain ⟨openings, -, ha⟩ := hchall chall
  exact ⟨⟨chi, qs, chall, openings⟩, ha, rfl, rfl, hhonest.verifyAnswer_eq ha⟩

/-- One bit asserted zero, over the fast profile: enough answers satisfy the circuit. -/
theorem prover_answers_extract_bit :
    ∃ (proof : Proof) (answers : List Answer),
      verify (fun _ _ => 0#8) params128Fast [] (.ok [.witnessBit, .assertZero (.bit 0)]) proof =
        .ok () ∧
      OftenAnswered [.witnessBit, .assertZero (.bit 0)] ⟨1, 2, 1⟩ answers ∧
      AcceptedAnswers (fun _ _ => 0#8) params128Fast (.ok [.witnessBit, .assertZero (.bit 0)])
        ⟨1, 2, 1⟩ proof (proof.wideKey (fun _ _ => 0#8) params128Fast [] ⟨1, 2, 1⟩) answers := by
  obtain ⟨proof, hproof, hverify⟩ := prove_bit
  obtain ⟨vole, pcs, -, -, hanswers, answers, ha, hoften⟩ :=
    prover_answers_extract sizeCircuit_bit satisfies_bit hproof
  exact ⟨proof, answers, hverify, hoften, (hanswers answers ha).1⟩

end VoleAct.Voleith
