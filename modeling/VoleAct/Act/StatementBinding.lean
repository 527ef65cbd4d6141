/-
  VoleAct.Act.StatementBinding

  What the Fiat–Shamir transcript of a request binds before its final challenge:
  the messages determine the proof up to its openings, and the public input among
  them, a statement, determines the circuit the request is checked against.
-/
import VoleAct.Act.Issue
import VoleAct.Act.Spend
import VoleAct.Voleith.TranscriptBinding

namespace VoleAct.Act

open VoleAct.BinaryFields VoleAct.Lib VoleAct.Mayo VoleAct.Voleith

/-- The circuits of two spends with equal public values, under one public key. -/
theorem PublicKey.spendCircuit_congr {H : Xof} {P P' : MayoParams} {pk : PublicKey H P}
    {pk' : PublicKey H P'} (hpk : (⟨P, pk⟩ : Σ P, PublicKey H P) = ⟨P', pk'⟩) (K : CredentialKind)
    (spend : U64) (nullifier : Bytes 32) (freshCommitment : List GF16) :
    pk.profile.params = pk'.profile.params ∧
      (pk.spendCircuit K spend nullifier freshCommitment).build =
        (pk'.spendCircuit K spend nullifier freshCommitment).build := by
  obtain ⟨rfl, hpk⟩ := Sigma.mk.inj hpk
  obtain rfl := eq_of_heq hpk
  exact ⟨rfl, rfl⟩

theorem PublicKey.issueCircuit_congr {H : Xof} {P P' : MayoParams} {pk : PublicKey H P}
    {pk' : PublicKey H P'} (hpk : (⟨P, pk⟩ : Σ P, PublicKey H P) = ⟨P', pk'⟩) (balance : U64)
    (commitment : List GF16) :
    pk.profile.params = pk'.profile.params ∧
      (pk.issueCircuit balance commitment).build = (pk'.issueCircuit balance commitment).build := by
  obtain ⟨rfl, hpk⟩ := Sigma.mk.inj hpk
  obtain rfl := eq_of_heq hpk
  exact ⟨rfl, rfl⟩

/-- Fiat–Shamir binds everything before the final challenge.  The challenge is drawn after exactly
    the messages of `Proof.steps`; two verifiers past their shape checks that absorbed the same
    messages verify the same proof up to its openings; the statements determine their fields and the
    two kinds are disjoint; and requests with equal statements run the same circuit under the same
    parameters when equal contexts mean equal public keys. -/
theorem transcript_binds_statement (H : Xof) :
    (∀ (params : Params) (publicInput : List U8) (sizing : Sizing) (proof : Proof),
      proof.challenge H params publicInput sizing =
        (((Transcript.new H protocolLabel).replay H
          (proof.steps params publicInput sizing)).challengeBytes H (ascii "delta") 16).1) ∧
    (∀ (params params' : Params) (publicInput publicInput' : List U8) (circuit circuit' : Circuit)
      (sizing sizing' : Sizing) (proof proof' : Proof),
      Checked params circuit sizing proof → Checked params' circuit' sizing' proof' →
      absorbed (proof.steps params publicInput sizing) =
        absorbed (proof'.steps params' publicInput' sizing') →
      (params.tau = params'.tau ∧ params.k = params'.k) ∧ publicInput = publicInput' ∧
        (sizing.l = sizing'.l ∧ sizing.maxDeg = sizing'.maxDeg) ∧
        proof' = { proof with openings := proof'.openings }) ∧
    (∀ P ∈ MayoParams.supported, ∀ P' ∈ MayoParams.supported,
      ∀ (K K' : CredentialKind) (S S' : SettlementMode) (context context' : Bytes 32)
        (spend spend' : U64) (nullifier nullifier' : Bytes 32)
        (freshCommitment freshCommitment' : List GF16),
      spendStatement P K S context spend nullifier freshCommitment =
        spendStatement P' K' S' context' spend' nullifier' freshCommitment' →
      (P = P' ∧ K = K' ∧ S = S') ∧ context = context' ∧ spend = spend' ∧ nullifier = nullifier' ∧
        freshCommitment = freshCommitment') ∧
    (∀ P ∈ MayoParams.supported, ∀ P' ∈ MayoParams.supported,
      ∀ (context context' : Bytes 32) (balance balance' : U64)
        (commitment commitment' : List GF16),
      issueStatement P context balance commitment =
        issueStatement P' context' balance' commitment' →
      P = P' ∧ context = context' ∧ balance = balance' ∧ commitment = commitment') ∧
    (∀ (P P' : MayoParams) (K : CredentialKind) (S : SettlementMode)
      (context context' nullifier : Bytes 32) (balance spend : U64)
      (commitment freshCommitment : List GF16),
      issueStatement P context balance commitment ≠
        spendStatement P' K S context' spend nullifier freshCommitment) ∧
    ∀ P ∈ MayoParams.supported, ∀ P' ∈ MayoParams.supported,
      ∀ (pk : PublicKey H P) (pk' : PublicKey H P'),
      (pk.context = pk'.context → (⟨P, pk⟩ : Σ P, PublicKey H P) = ⟨P', pk'⟩) →
      (∀ (K K' : CredentialKind) (S S' : SettlementMode) (request : TypedSpendRequest P K S)
        (request' : TypedSpendRequest P' K' S'),
        spendStatement P K S pk.context request.spend request.nullifier request.freshCommitment =
          spendStatement P' K' S' pk'.context request'.spend request'.nullifier
            request'.freshCommitment →
        pk.profile.params = pk'.profile.params ∧
        (pk.spendCircuit K request.spend request.nullifier request.freshCommitment).build =
          (pk'.spendCircuit K' request'.spend request'.nullifier
            request'.freshCommitment).build) ∧
      ∀ (balance balance' : U64) (request : IssueRequest P) (request' : IssueRequest P'),
        issueStatement P pk.context balance request.commitment =
          issueStatement P' pk'.context balance' request'.commitment →
        pk.profile.params = pk'.profile.params ∧
        (pk.issueCircuit balance request.commitment).build =
          (pk'.issueCircuit balance' request'.commitment).build := by
  refine ⟨fun params publicInput sizing proof =>
      proof.challenge_eq_replay params publicInput sizing H, ?_, ?_, ?_, ?_, ?_⟩
  · intro params params' publicInput publicInput' circuit circuit' sizing sizing' proof proof'
      hchecked hchecked' habsorbed
    obtain ⟨rfl, hpublic, hl, hdeg, hproof⟩ := absorbed_inj hchecked hchecked' habsorbed
    exact ⟨⟨rfl, rfl⟩, hpublic, ⟨hl, hdeg⟩, hproof⟩
  · intro P hP P' hP' K K' S S' context context' spend spend' nullifier nullifier' fresh fresh' h
    exact spendStatement_inj hP hP' h
  · intro P hP P' hP' context context' balance balance' commitment commitment' h
    exact issueStatement_inj hP hP' h
  · exact issueStatement_ne_spendStatement
  -- the statement names the context, and a context names one public key
  · intro P hP P' hP' pk pk' hcontexts
    constructor
    · intro K K' S S' request request' h
      obtain ⟨⟨-, rfl, -⟩, hcontext, hspend, hnullifier, hfresh⟩ := spendStatement_inj hP hP' h
      rw [← hspend, ← hnullifier, ← hfresh]
      exact PublicKey.spendCircuit_congr (hcontexts hcontext) K _ _ _
    · intro balance balance' request request' h
      obtain ⟨-, hcontext, rfl, hcommitment⟩ := issueStatement_inj hP hP' h
      rw [← hcommitment]
      exact PublicKey.issueCircuit_congr (hcontexts hcontext) balance _

/-- A proof `verify` accepts is past the shape check. -/
theorem exists_checked_of_verify {H : Xof} {params : Params} {publicInput : List U8}
    {circuit : Circuit} {proof : Proof} (h : verify H params publicInput circuit proof = .ok ()) :
    ∃ sizing, Checked params circuit sizing proof := by
  rw [verify_eq] at h
  obtain ⟨sizing, hsized, h⟩ := Outcome.bind_eq_ok.mp h
  obtain ⟨_, hshape, -⟩ := Outcome.bind_eq_ok.mp h
  exact ⟨sizing, hsized, Outcome.require_eq_ok.mp hshape⟩

/-- On the proof of one bit asserted zero, and on a statement of the smallest parameter set. -/
theorem transcript_binds_statement_bit :
    (∃ sizing proof, Checked params128Fast (.ok [.witnessBit, .assertZero (.bit 0)]) sizing proof ∧
      ∀ (publicInput' : List U8) (proof' : Proof),
        Checked params128Fast (.ok [.witnessBit, .assertZero (.bit 0)]) sizing proof' →
        absorbed (proof.steps params128Fast [7#8] sizing) =
          absorbed (proof'.steps params128Fast publicInput' sizing) →
        publicInput' = [7#8] ∧ proof'.qsCoefficients = proof.qsCoefficients) ∧
    (∀ (spend' : U64) (freshCommitment' : List GF16),
      spendStatement mayo2 .direct .fixedSpend (Vector.replicate 32 0#8) 5#64
          (Vector.replicate 32 1#8) [] =
        spendStatement mayo2 .direct .fixedSpend (Vector.replicate 32 0#8) spend'
          (Vector.replicate 32 1#8) freshCommitment' → spend' = 5#64 ∧ freshCommitment' = []) ∧
    ∀ balance' : U64, issueStatement mayo2 (Vector.replicate 32 0#8) 5#64 [] =
      issueStatement mayo2 (Vector.replicate 32 0#8) balance' [] → balance' = 5#64 := by
  obtain ⟨-, htranscript, hspend, hissue, -⟩ := transcript_binds_statement fun _ _ => 0#8
  have hmayo2 : mayo2 ∈ MayoParams.supported := by simp [MayoParams.supported]
  refine ⟨?_, ?_, ?_⟩
  · have hfits : Fits [.witnessBit, .assertZero (.bit 0)] :=
      fits_of_builtDegree (by decide) (by decide)
    obtain ⟨haccept, hprove, -⟩ := prove_spec (fun _ _ => 0#8) Params.shipped_valid.2.2 [7#8] hfits
      (show [false].length = _ from rfl) ()
    obtain ⟨proof, hproof⟩ := hprove (by
      intro op hop
      simp only [List.mem_cons, List.not_mem_nil, or_false] at hop
      rcases hop with rfl | rfl
      · trivial
      · rfl)
    obtain ⟨sizing, hchecked⟩ := exists_checked_of_verify (haccept proof hproof)
    refine ⟨sizing, proof, hchecked, fun publicInput' proof' hchecked' habsorbed => ?_⟩
    obtain ⟨-, hpublic, -, hproof'⟩ :=
      htranscript _ _ _ _ _ _ _ _ _ _ hchecked hchecked' habsorbed
    exact ⟨hpublic.symm, by rw [hproof']⟩
  · intro spend' fresh' h
    obtain ⟨-, -, hspend', -, hfresh⟩ :=
      hspend mayo2 hmayo2 mayo2 hmayo2 _ _ _ _ _ _ _ _ _ _ _ _ h
    exact ⟨hspend'.symm, hfresh.symm⟩
  · intro balance' h
    obtain ⟨-, -, hbalance, -⟩ := hissue mayo2 hmayo2 mayo2 hmayo2 _ _ _ _ _ _ h
    exact hbalance.symm

end VoleAct.Act
