/-
  VoleAct.Voleith.ProofUniqueness

  A transcript has one accepted proof.

  Everything in a proof but its openings is absorbed before the final challenge.  The
  challenge fixes the hidden leaf of every tree, and a commitment has one accepted
  opening there, so nobody can change a proof and leave its transcript as it was.
-/
import VoleAct.VectorCommit.Uniqueness
import VoleAct.Voleith.Extraction

namespace VoleAct.Voleith

open VoleAct.BinaryFields VoleAct.VectorCommit VoleAct.Lib

variable {H : Xof} {params params' : Params} {publicInput publicInput' : List U8}
  {circuit circuit' : Circuit} {sizing sizing' : Sizing} {proof proof' : Proof}

/-- The final challenge depends on the openings not at all, and on the circuit by its dimensions. -/
theorem Proof.challenge_congr (hl : sizing.l = sizing'.l) (hdeg : sizing.maxDeg = sizing'.maxDeg)
    (hproof : proof' = { proof with openings := proof'.openings }) :
    proof'.challenge H params publicInput sizing' = proof.challenge H params publicInput sizing := by
  have hsteps : proof'.steps params publicInput sizing' = proof.steps params publicInput sizing := by
    rw [hproof]
    simp only [steps, dimsBytes, hl, hdeg]
  rw [challenge_eq_replay, challenge_eq_replay, hsteps]

/-- What `verify` accepts, once the circuit is sized. -/
theorem accepted_of_verify (hsized : sizeCircuit params circuit = .ok sizing)
    (h : verify H params publicInput circuit proof = .ok ()) :
    Checked params circuit sizing proof ∧ ∃ key keys,
      (proof.answer H params publicInput sizing).Accepted H params circuit sizing proof key keys := by
  rw [verify_eq_verifyAnswer, hsized, Outcome.ok_bind] at h
  obtain ⟨keys, hacc⟩ := accepted_of_verifyAnswer h
  obtain ⟨_, hshape, -⟩ := Outcome.bind_eq_ok.mp h
  exact ⟨⟨hsized, Outcome.require_eq_ok.mp hshape⟩, _, keys, hacc⟩

/-- Answers to one challenge over one commitment have the same openings. -/
theorem Answer.Accepted.openings_eq {key key' : WideHashKey} {keys keys' : List GF2p128}
    {a a' : Answer} (h : a.Accepted H params circuit sizing proof key keys)
    (h' : a'.Accepted H params circuit' sizing' proof' key' keys') (hsalt : proof'.salt = proof.salt)
    (hcoms : proof'.coms = proof.coms) (hchall : a'.chall = a.chall)
    (hcol : ∀ j < params.tau, Opened.CollisionFree H (treeSalt H proof.salt j) params.k
      (a.opened H params proof j) (a'.opened H params proof' j)) : a'.openings = a.openings := by
  apply List.ext_getElem?
  intro j
  by_cases hj : j < params.tau
  · obtain ⟨-, -, hopening, -⟩ := h.verify_opened hj
    obtain ⟨-, -, hopening', -⟩ := h'.verify_opened hj
    have hopened' := h'.accepted_opened hj
    rw [hsalt, hcoms] at hopened'
    have hhide : (a.opened H params proof j).hide = (a'.opened H params proof' j).hide := by
      simp only [Answer.opened, hchall]
    rw [hopening, hopening', Opened.opening_eq (h.accepted_opened hj) hopened' hhide (hcol j hj)]
  · rw [List.getElem?_eq_none (h.openings_length.trans_le (Nat.le_of_not_lt hj)),
      List.getElem?_eq_none (h'.openings_length.trans_le (Nat.le_of_not_lt hj))]

/-- Accepted proofs are not malleable.  Two calls of `verify` that accept and absorb the same
    messages before the final challenge, and in whose trees no hash collides, are calls on the same
    parameters and public input with one proof, openings included. -/
theorem accepted_proofs_unique (hsized : sizeCircuit params circuit = .ok sizing)
    (hsized' : sizeCircuit params' circuit' = .ok sizing')
    (h : verify H params publicInput circuit proof = .ok ())
    (h' : verify H params' publicInput' circuit' proof' = .ok ())
    (habsorbed : absorbed (proof.steps params publicInput sizing) =
      absorbed (proof'.steps params' publicInput' sizing'))
    (hcol : ∀ j < params.tau, Opened.CollisionFree H (treeSalt H proof.salt j) params.k
      ((proof.answer H params publicInput sizing).opened H params proof j)
      ((proof'.answer H params' publicInput' sizing').opened H params' proof' j)) :
    params' = params ∧ publicInput' = publicInput ∧ proof' = proof := by
  obtain ⟨hchecked, key, keys, hacc⟩ := accepted_of_verify hsized h
  obtain ⟨hchecked', key', keys', hacc'⟩ := accepted_of_verify hsized' h'
  obtain ⟨rfl, rfl, hl, hdeg, hproof⟩ := absorbed_inj hchecked hchecked' habsorbed
  refine ⟨rfl, rfl, ?_⟩
  have hsalt : proof'.salt = proof.salt := by rw [hproof]
  have hcoms : proof'.coms = proof.coms := by rw [hproof]
  have hopenings : proof'.openings = proof.openings :=
    hacc.openings_eq hacc' hsalt hcoms (Proof.challenge_congr hl hdeg hproof) hcol
  rw [hproof, hopenings]

/-- The proof of one bit asserted zero, verified twice. -/
theorem accepted_proofs_unique_bit :
    ∃ proof proof' : Proof,
      verify (fun _ _ => 0#8) params128Fast [] (.ok [.witnessBit, .assertZero (.bit 0)]) proof =
        .ok () ∧
      verify (fun _ _ => 0#8) params128Fast [] (.ok [.witnessBit, .assertZero (.bit 0)]) proof' =
        .ok () ∧ proof' = proof := by
  obtain ⟨proof, -, hverify⟩ := prove_bit
  refine ⟨proof, proof, hverify, hverify, (accepted_proofs_unique sizeCircuit_bit sizeCircuit_bit
    hverify hverify rfl fun j _ => ?_).2.2⟩
  -- one opening does not collide with itself
  refine ⟨⟨fun _ => rfl, fun i s s' hs hs' _ => ?_⟩, fun n seed seed' hseed hseed' _ _ _ _ _ => ?_⟩
  · exact Option.some.inj (Option.some.inj (hs.symm.trans hs'))
  · rw [Option.some.inj (hseed.symm.trans hseed')]

end VoleAct.Voleith
