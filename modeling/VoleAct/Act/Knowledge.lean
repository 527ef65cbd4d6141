/-
  VoleAct.Act.Knowledge

  What the proof of a request shows about its sender.

  Whoever answers enough challenges over the commitments of one proof holds a witness
  of the circuit, and a witness of the circuit is the bits of an opening: of the token
  that is spent and of the fresh commitment, or of the commitment to be issued.
-/
import VoleAct.Act.Client
import VoleAct.Act.IssuerKey
import VoleAct.Act.Session
import VoleAct.Voleith.HonestAnswers

namespace VoleAct.Act

open VoleAct.BinaryFields VoleAct.Lib VoleAct.Mayo VoleAct.Voleith

variable {H : Xof} {P : MayoParams} {K : CredentialKind} {S : SettlementMode}

/-- The token in the secrets of a spend. -/
def SpendSecrets.token (s : SpendSecrets) (context : Bytes 32) (K : CredentialKind) : Token P K where
  context := context
  signature := s.signature
  key := s.key
  baseBalance := s.baseBalance
  nonce := s.nonce
  topup := s.topup
  salt := s.salt

/-- The relation of a spend is that of a token of the issuer that holds the amount. -/
theorem spendRelation_token {pk : PublicKey H P} {spend : U64} {nullifier : Bytes 32}
    {freshCommitment : List GF16} {s : SpendSecrets}
    (h : SpendRelation pk.mayo (pk.spendCircuit K spend nullifier freshCommitment) s) :
    (s.token pk.context K : Token P K).Authentic pk ∧
      nullifier = (s.token pk.context K : Token P K).nullifier ∧
      s.freshBaseBalance.toNat + spend.toNat = s.baseBalance.toNat + s.topup.toNat ∧
      freshCommitment =
        credentialTarget P pk.context s.freshKey s.freshBaseBalance s.freshNonce :=
  ⟨⟨rfl, fun hkind => h.direct (inputKind_direct.mpr hkind), h.no_overflow, h.signed⟩,
    h.nullifier.symm, h.balance.symm, h.fresh.symm⟩

/-- The extracted bits of a proof. -/
def extractedBits (H : Xof) (params : Params) (sizing : Sizing) (proof : Proof)
    (answers : List Answer) : List Bool :=
  segment (extractedWitness sizing.l
    (extractVector H params (sizing.l + sizing.maxDeg * params.lambda) proof answers) proof.d)
    0 sizing.l

/-- Answers to the proof of a circuit that extract a witness of it. -/
structure Extracting (H : Xof) (params : Params) (ops : List Op) (sizing : Sizing) (proof : Proof)
    (key : WideHashKey) (answers : List Answer) : Prop where
  accepted : AcceptedAnswers H params (.ok ops) sizing proof key answers
  separates : Separates H params (sizing.l + sizing.maxDeg * params.lambda) proof key answers
  often : OftenAnswered ops sizing answers

/-- Verification over a circuit that is built checks the answer in the proof. -/
theorem PublicKey.verify_eq_verifyAnswer (pk : PublicKey H P) {circuit : Circuit} {ops : List Op}
    (hbuild : circuit = .ok ops) (hfits : Fits ops) (statement : List U8) (proof : Proof) :
    verify H pk.profile.params statement circuit proof =
      verifyAnswer H pk.profile.params (.ok ops) (sizingOf ops) proof
        (proof.wideKey H pk.profile.params statement (sizingOf ops))
        (proof.answer H pk.profile.params statement (sizingOf ops)) := by
  rw [hbuild, Voleith.verify_eq_verifyAnswer, sizeCircuit_ok pk.profile.params_valid hfits,
    Outcome.ok_bind]

/-- Answers that extract satisfy the circuit. -/
theorem Extracting.satisfies {params : Params} {ops : List Op} {proof : Proof} {key : WideHashKey}
    {answers : List Answer} (h : Extracting H params ops (sizingOf ops) proof key answers)
    (hvalid : params.Valid) (hfits : Fits ops) :
    Satisfies (extractedWitness (witnessBits ops)
      (extractVector H params (voleLength params ops) proof answers) proof.d) ops :=
  h.accepted.satisfies (sizeCircuit_ok hvalid hfits) h.separates h.often

/-- A prover of a satisfying witness has answers that extract it. -/
theorem PublicKey.exists_extracting {ρ : Type} [CryptoRngCore ρ] (pk : PublicKey H P)
    {circuit : Circuit} {ops : List Op} (hbuild : circuit = .ok ops) (hfits : Fits ops)
    {witness : List Bool} (hsat : Satisfies (assignment witness) ops) {statement : List U8} {rng : ρ}
    {proof : Proof}
    (hproof : (prove H pk.profile.params statement circuit witness rng).1 = .ok proof) :
    ∃ answers, Extracting H pk.profile.params ops (sizingOf ops) proof
        (proof.wideKey H pk.profile.params statement (sizingOf ops)) answers ∧
      extractedBits H pk.profile.params (sizingOf ops) proof answers = witness := by
  rw [hbuild] at hproof
  have hvalid := pk.profile.params_valid
  obtain ⟨_, _, vole, pcs, hhonest, -⟩ := honest_of_prove (sizeCircuit_ok hvalid hfits) hsat hproof
  obtain ⟨answers, ha, hoften⟩ := hhonest.exists_oftenAnswered
  obtain ⟨j, hj, hforked⟩ :=
    hoften.exists_forked hvalid (lt_of_lt_of_le (by decide) (le_max_right _ _))
  refine ⟨answers, ⟨hhonest.acceptedAnswers ha, hhonest.separates ha, hoften⟩, ?_⟩
  rw [extractedBits]
  refine (congrArg (segment · 0 _) (hhonest.extractedWitness_eq ha hj hforked)).trans ?_
  rw [show (sizingOf ops).l = witness.length from hhonest.witness_length.symm]
  exact segment_assignment witness

/-- Answers to the proof of an issuance extract an opening of its commitment. -/
theorem Extracting.exists_opening {pk : PublicKey H P} {balance : U64} {commitment : List GF16}
    (hdim : commitment.length = P.M) {ops : List Op}
    (hbuild : (pk.issueCircuit balance commitment).build = .ok ops) {proof : Proof}
    {wideKey : WideHashKey} {answers : List Answer}
    (h : Extracting H pk.profile.params ops (sizingOf ops) proof wideKey answers) :
    ∃ key nonce : Bytes 32, ((pk.issueCircuit balance commitment).witness key nonce :
        Outcome VoleithError (List Bool)) =
          .ok (extractedBits H pk.profile.params (sizingOf ops) proof answers) ∧
      credentialTarget P pk.context key balance nonce = commitment := by
  obtain ⟨ops', hbuild', hbits, hdeg, hsat⟩ := issue_exact (pk.issueCircuit balance commitment) hdim
  obtain rfl := Except.ok.inj (hbuild.symm.trans hbuild')
  obtain ⟨key, nonce, hwitness, htarget⟩ := (hsat _).mp
    (h.satisfies pk.profile.params_valid (fits_of_builtDegree (by omega) hdeg))
  refine ⟨key, nonce, ?_, htarget⟩
  rw [hwitness, extractedBits]
  exact congrArg (fun n => Except.ok (segment _ 0 n)) hbits.symm

/-- Answers to the proof of a spend extract secrets in its relation. -/
theorem Extracting.exists_secrets {pk : PublicKey H P} {spend : U64} {nullifier : Bytes 32}
    {freshCommitment : List GF16} (hdim : freshCommitment.length = P.M) {ops : List Op}
    (hbuild : (pk.spendCircuit K spend nullifier freshCommitment).build = .ok ops) {proof : Proof}
    {wideKey : WideHashKey} {answers : List Answer}
    (h : Extracting H pk.profile.params ops (sizingOf ops) proof wideKey answers) :
    ∃ s, ((pk.spendCircuit K spend nullifier freshCommitment).witness s :
        Outcome VoleithError (List Bool)) =
          .ok (extractedBits H pk.profile.params (sizingOf ops) proof answers) ∧
      SpendRelation pk.mayo (pk.spendCircuit K spend nullifier freshCommitment) s := by
  obtain ⟨ops', hbuild', hbits, hdeg, hsat⟩ :=
    spend_exact (pk.spendCircuit K spend nullifier freshCommitment) pk.terms_eq hdim
  obtain rfl := Except.ok.inj (hbuild.symm.trans hbuild')
  obtain ⟨s, hwitness, hrel⟩ := (hsat _).mp
    (h.satisfies pk.profile.params_valid (fits_of_builtDegree (by omega) hdeg))
  refine ⟨s, ?_, hrel⟩
  rw [hwitness, extractedBits]
  exact congrArg (fun n => Except.ok (segment _ 0 n)) hbits.symm

/-- A request for a spend is a proof of knowledge of the token it spends.  Verifying it checks one
    answer to its proof; and any answers that extract a witness extract a token of the issuer that
    has the nullifier and holds the amount, and the opening of the fresh commitment to what is left.
    -/
theorem spend_proof_of_knowledge (pk : PublicKey H P) (request : TypedSpendRequest P K S)
    (hdim : request.freshCommitment.length = P.M) :
    let c := pk.spendCircuit K request.spend request.nullifier request.freshCommitment
    let statement :=
      spendStatement P K S pk.context request.spend request.nullifier request.freshCommitment
    ∃ ops, c.build = .ok ops ∧
      pk.verifySpend request = verifyAnswer H pk.profile.params (.ok ops)
        (sizingOf ops) request.proof
        (request.proof.wideKey H pk.profile.params statement (sizingOf ops))
        (request.proof.answer H pk.profile.params statement (sizingOf ops)) ∧
      ∀ (wideKey : WideHashKey) (answers : List Answer),
        Extracting H pk.profile.params ops (sizingOf ops) request.proof wideKey answers →
        ∃ (token : Token P K) (freshKey : Bytes 32) (freshBaseBalance : U64) (freshNonce : Bytes 32),
          (c.witness (token.spendSecrets freshKey freshBaseBalance freshNonce) :
            Outcome VoleithError (List Bool)) =
              .ok (extractedBits H pk.profile.params (sizingOf ops) request.proof answers) ∧
          token.Authentic pk ∧ request.nullifier = token.nullifier ∧
          freshBaseBalance.toNat + request.spend.toNat =
            token.baseBalance.toNat + token.topup.toNat ∧
          request.freshCommitment =
            credentialTarget P pk.context freshKey freshBaseBalance freshNonce := by
  intro c statement
  obtain ⟨ops, hbuild, hbits, hdeg, -⟩ := spend_exact c pk.terms_eq hdim
  have hfits : Fits ops := fits_of_builtDegree (by omega) hdeg
  refine ⟨ops, hbuild,
    pk.verify_eq_verifyAnswer hbuild hfits statement request.proof, fun wideKey answers h => ?_⟩
  obtain ⟨s, hwitness, hrel⟩ := h.exists_secrets hdim hbuild
  obtain ⟨hauth, hnullifier, hbalance, hfresh⟩ := spendRelation_token hrel
  exact ⟨s.token pk.context K, s.freshKey, s.freshBaseBalance, s.freshNonce, hwitness, hauth,
    hnullifier, hbalance, hfresh⟩

/-- Behind the request a client prepares stand answers that extract its own secrets. -/
theorem Prepared.exists_extracting {ρ : Type} [CryptoRngCore ρ] {pk : PublicKey H P}
    {token : Token P K} {spend : U64} {rng : ρ} {pending : TypedPendingSpend P K S}
    {request : TypedSpendRequest P K S} (h : Prepared pk token spend pending request)
    (hauth : token.Authentic pk)
    (hprepare : (token.prepareTypedSpend S pk spend rng).1 = .ok (pending, request)) :
    let c := pk.spendCircuit K request.spend request.nullifier request.freshCommitment
    ∃ ops answers, c.build = .ok ops ∧
      Extracting H pk.profile.params ops (sizingOf ops) request.proof
        (request.proof.wideKey H pk.profile.params (spendStatement P K S pk.context request.spend
          request.nullifier request.freshCommitment) (sizingOf ops)) answers ∧
      c.witness (token.spendSecrets pending.freshKey pending.freshBaseBalance pending.freshNonce) =
        (.ok (extractedBits H pk.profile.params (sizingOf ops) request.proof answers) :
          Outcome VoleithError (List Bool)) := by
  intro c
  have hrel := h.relation hauth
  obtain ⟨ops, hbuild, hbits, hdeg, hsat⟩ := spend_exact c pk.terms_eq h.length_freshCommitment
  obtain ⟨-, witness, rng', hwitness, hproof⟩ := Token.prepareTypedSpend_draws hprepare
  obtain ⟨bits, hok, hlen⟩ := SpendCircuit.witness_ok c hrel.length_signature hrel.no_overflow
  obtain rfl := Except.ok.inj (hwitness.symm.trans (hok _))
  -- the client's witness satisfies the circuit it proves
  have hseg := segment_assignment witness
  rw [hlen] at hseg
  have hsatisfied : Satisfies (assignment witness) ops :=
    (hsat _).mpr ⟨_, hseg.symm ▸ hok _, hrel⟩
  obtain ⟨answers, hanswers, hextracted⟩ := pk.exists_extracting hbuild
    (fits_of_builtDegree (by omega) hdeg) hsatisfied hproof
  exact ⟨ops, answers, hbuild, hanswers, hextracted ▸ hok _⟩

/-- Behind the request for an issuance that a client prepares stand answers that extract its
    opening. -/
theorem PublicKey.exists_extracting_issue {ρ : Type} [CryptoRngCore ρ] {pk : PublicKey H P}
    {balance : U64} {rng : ρ} {pending : PendingIssue P} {request : IssueRequest P}
    (hopening : request.commitment =
      credentialTarget P pk.context pending.key balance pending.nonce)
    (hprepare : (pk.prepareIssue balance rng).1 = .ok (pending, request)) :
    let c := pk.issueCircuit balance request.commitment
    ∃ ops answers, c.build = .ok ops ∧
      Extracting H pk.profile.params ops (sizingOf ops) request.proof
        (request.proof.wideKey H pk.profile.params
          (issueStatement P pk.context balance request.commitment) (sizingOf ops)) answers ∧
      c.witness pending.key pending.nonce =
        (.ok (extractedBits H pk.profile.params (sizingOf ops) request.proof answers) :
          Outcome VoleithError (List Bool)) := by
  intro c
  have hdim : request.commitment.length = P.M := by
    rw [hopening]
    exact credentialTarget_length P _ _ _ _
  obtain ⟨ops, hbuild, hbits, hdeg, hsat⟩ := issue_exact c hdim
  obtain ⟨-, witness, rng', hwitness, hproof⟩ := PublicKey.prepareIssue_draws hprepare
  obtain ⟨bits, hok, hlen⟩ := c.witness_ok pending.key pending.nonce
  obtain rfl := Except.ok.inj (hwitness.symm.trans (hok _))
  have hseg := segment_assignment witness
  rw [hlen] at hseg
  have hsatisfied : Satisfies (assignment witness) ops :=
    (hsat _).mpr ⟨_, _, hseg.symm ▸ hok _, hopening.symm⟩
  obtain ⟨answers, hanswers, hextracted⟩ := pk.exists_extracting hbuild
    (fits_of_builtDegree (by omega) hdeg) hsatisfied hproof
  exact ⟨ops, answers, hbuild, hanswers, hextracted ▸ hok _⟩

/-- The tiny issuer's token of five credits, spent whole: what the answers extract. -/
theorem spend_proof_of_knowledge_tiny :
    let issuer := tinyIssuer fun _ _ => 0#8
    ∃ (K : CredentialKind) (request : SpendRequest tinyParams K) (token : Token tinyParams K),
      issuer.publicKey.verifySpend request = .ok () ∧ request.spend = 5#64 ∧
        token.Authentic issuer.publicKey ∧ request.nullifier = token.nullifier ∧
        5 ≤ token.baseBalance.toNat + token.topup.toNat := by
  intro issuer
  obtain ⟨_, _, _, _, spent, -, -, -, hauth, -, hspent⟩ := tinyIssuer_token fun _ _ => 0#8
  have hle : (5#64).toNat ≤ spent.baseBalance.toNat + spent.topup.toNat := by
    rw [congrArg Token.baseBalance hspent]
    exact Nat.le_add_right _ _
  obtain ⟨pending, request, hprepare, hprepared⟩ :=
    Token.prepareTypedSpend_spec .fixedSpend hauth hle (RepeatRng.mk 7#32)
  obtain ⟨ops, answers, hbuild, hanswers, -⟩ := hprepared.exists_extracting hauth hprepare
  obtain ⟨ops', hbuild', -, hextract⟩ :=
    spend_proof_of_knowledge issuer.publicKey request hprepared.length_freshCommitment
  obtain rfl := Except.ok.inj (hbuild.symm.trans hbuild')
  obtain ⟨token, _, freshBaseBalance, _, -, htoken, hnullifier, hbalance, -⟩ :=
    hextract _ answers hanswers
  refine ⟨.direct, request, token, hprepared.accepted, hprepared.spend_eq, htoken, hnullifier, ?_⟩
  rw [← hbalance, hprepared.spend_eq]
  exact Nat.le_add_left _ _

end VoleAct.Act
