/-
  VoleAct.Act.Settlement

  What one call of the issuer does to its store and its generator.

  A call is inverted once (`settle_cases`); that a failed call leaves no trace, and
  that a repeated one only repeats the stored response, are read off the cases.
-/
import VoleAct.Act.IssuerKey

namespace VoleAct.Act

open VoleAct.BinaryFields VoleAct.Lib VoleAct.Mayo VoleAct.Voleith

variable {H : Xof} {P : MayoParams} {K : CredentialKind} {S : SettlementMode} {ρ : Type}

/-! ## Signing -/

namespace IssuerKey

variable [CryptoRngCore ρ] (issuer : IssuerKey H P)

/-- Signing fails in one way, and otherwise returns a preimage of the wrapped commitment. -/
theorem signTokenTarget_cases (commitment : List GF16) (topup : U64) (rng : ρ) :
    (∃ rng', issuer.signTokenTarget commitment topup rng = (Outcome.err .signingFailed, rng')) ∨
    ∃ signature salt rng', issuer.signTokenTarget commitment topup rng = (.ok (signature, salt), rng') ∧
      signature.length = P.KN ∧
      eval issuer.publicKey.mayo signature = .ok (signedTokenTarget P commitment topup salt) := by
  rw [signTokenTarget]
  dsimp only
  cases hspre : spre issuer.secret (signedTokenTarget P commitment topup
      (CryptoRngCore.fillBytes 32 rng).1) (CryptoRngCore.fillBytes 32 rng).2 with
  | mk result rng' =>
      cases result with
      | error e => exact .inl ⟨rng', rfl⟩
      | ok signature =>
          obtain ⟨hlen, heval⟩ := spre_spec hspre
          refine .inr ⟨signature, _, rng', rfl, hlen, ?_⟩
          rw [issuer.public_eq]
          exact heval

/-- Everything an issuance can do: fail a check, fail to sign, or sign the commitment. -/
theorem issue_cases (request : IssueRequest P) (balance : U64) (rng : ρ) :
    (∃ f, issuer.issue request balance rng = (.error f, rng)) ∨
    ((request.commitment.length = P.M ∧ issuer.publicKey.verifyIssue balance request = .ok ()) ∧
      ∃ rng', issuer.issue request balance rng = (Outcome.err .signingFailed, rng')) ∨
    ∃ response rng', issuer.issue request balance rng = (.ok response, rng') ∧
      request.commitment.length = P.M ∧ issuer.publicKey.verifyIssue balance request = .ok () ∧
      response.signature.length = P.KN ∧
      eval issuer.publicKey.mayo response.signature =
        .ok (signedTokenTarget P request.commitment 0 response.salt) := by
  unfold issue
  cases hchecked : (do
      validateRequestDimensions P request.commitment
      (issuer.publicKey.verifyIssue balance request).mapErr proofError : Outcome Error Unit) with
  | error f => exact .inl ⟨f, rfl⟩
  | ok u =>
      obtain ⟨_, hdim, hverified⟩ := Outcome.bind_eq_ok.mp hchecked
      replace hdim := beq_iff_eq.mp (Outcome.require_eq_ok.mp hdim)
      replace hverified := Outcome.mapErr_eq_ok.mp hverified
      rcases issuer.signTokenTarget_cases request.commitment 0 rng with
        ⟨rng', hsign⟩ | ⟨signature, salt, rng', hsign, hlen, heval⟩
      · rw [hsign]
        exact .inr (.inl ⟨⟨hdim, hverified⟩, rng', rfl⟩)
      · rw [hsign]
        exact .inr (.inr ⟨_, rng', rfl, hdim, hverified, hlen, heval⟩)

/-- A verified issuance is signed, with the salt that is drawn first, when sampling succeeds. -/
theorem issue_of_samples {request : IssueRequest P} {balance : U64} {rng : ρ}
    (hlen : request.commitment.length = P.M)
    (hverified : issuer.publicKey.verifyIssue balance request = .ok ())
    (hsamples : issuer.Samples request.commitment 0 rng) :
    ∃ response rng', issuer.issue request balance rng = (.ok response, rng') ∧
      eval issuer.publicKey.mayo response.signature =
        .ok (signedTokenTarget P request.commitment 0 response.salt) ∧
      response.salt = (CryptoRngCore.fillBytes 32 rng).1 := by
  obtain ⟨signature, rng', hsign⟩ := hsamples.sign
  have hissue : issuer.issue request balance rng =
      (.ok { signature, salt := (CryptoRngCore.fillBytes 32 rng).1 }, rng') := by
    rw [issue, validateRequestDimensions, hlen, beq_self_eq_true, Outcome.require_true,
      Outcome.ok_bind, hverified, hsign]
    rfl
  rcases issuer.issue_cases request balance rng with ⟨f, h⟩ | ⟨-, rng'', h⟩ |
    ⟨response, rng'', h, -, -, -, hsigned⟩
  · exact nomatch (Prod.mk.inj (hissue.symm.trans h)).1
  · exact nomatch (Prod.mk.inj (hissue.symm.trans h)).1
  · refine ⟨response, rng'', h, hsigned, ?_⟩
    rw [← Except.ok.inj (Prod.mk.inj (hissue.symm.trans h)).1]

/-- A client is issued a token of the opening it drew, when sampling succeeds. -/
theorem exists_token {ρ' : Type} [CryptoRngCore ρ'] (balance : U64) (clientRng : ρ') {rng : ρ}
    (hsamples : ∀ pending request,
      (issuer.publicKey.prepareIssue balance clientRng).1 = .ok (pending, request) →
        issuer.Samples request.commitment 0 rng) :
    ∃ (pending : PendingIssue P) (request : IssueRequest P) (response : IssueResponse P) (rng' : ρ)
      (token : Token P .direct),
      (issuer.publicKey.prepareIssue balance clientRng).1 = .ok (pending, request) ∧
      issuer.issue request balance rng = (.ok response, rng') ∧
      pending.finish issuer.publicKey request response = .ok token ∧
      token.Authentic issuer.publicKey ∧ request.commitment = token.commitment ∧
      token = { context := issuer.publicKey.context, signature := response.signature,
                key := (CryptoRngCore.fillBytes 32 clientRng).1, baseBalance := balance,
                nonce := (CryptoRngCore.fillBytes 32 (CryptoRngCore.fillBytes 32 clientRng).2).1,
                topup := 0, salt := (CryptoRngCore.fillBytes 32 rng).1 } := by
  obtain ⟨pending, request, hprepare, hopens, hbalance, hcommitment, hverified, -⟩ :=
    issuer.publicKey.prepareIssue_spec balance clientRng
  have hlen : request.commitment.length = P.M := by
    rw [hcommitment, hopens.commitment_eq]
    exact credentialTarget_length P _ _ _ _
  obtain ⟨response, rng', hissue, hsigned, hsalt⟩ :=
    issuer.issue_of_samples hlen hverified (hsamples pending request hprepare)
  rw [hcommitment] at hsigned
  have hfinish := PendingIssue.finish_eq_ok.mpr ⟨⟨hopens.context_eq, hcommitment, hsigned⟩, rfl⟩
  obtain ⟨⟨hkey, hnonce⟩, -⟩ := PublicKey.prepareIssue_draws hprepare
  refine ⟨pending, request, response, rng', _, hprepare, hissue, hfinish,
    PendingIssue.Opens.authentic hopens.commitment_eq hfinish,
    hcommitment.trans hopens.commitment_eq, ?_⟩
  rw [hopens.context_eq, hkey, hbalance, hnonce, hsalt]

/-- An issuance that leaves no trace when a check fails, and otherwise signs what was verified. -/
structure AtomicIssue (request : IssueRequest P) (balance : U64) (rng : ρ)
    (out : Outcome Error (IssueResponse P) × ρ) : Prop where
  /-- Only a failure to sign may have drawn randomness. -/
  error_rng : ∀ f, out.1 = .error f → f ≠ .err .signingFailed → out.2 = rng
  /-- Randomness is drawn only after both checks have passed. -/
  drawn : out.2 ≠ rng → request.commitment.length = P.M ∧
    issuer.publicKey.verifyIssue balance request = .ok ()
  /-- A response signs the commitment of a request that was verified. -/
  signed : ∀ response, out.1 = .ok response →
    (request.commitment.length = P.M ∧ issuer.publicKey.verifyIssue balance request = .ok ()) ∧
    eval issuer.publicKey.mayo response.signature =
      .ok (signedTokenTarget P request.commitment 0 response.salt)

theorem atomic_issue (request : IssueRequest P) (balance : U64) (rng : ρ) :
    issuer.AtomicIssue request balance rng (issuer.issue request balance rng) := by
  rcases issuer.issue_cases request balance rng with ⟨f, h⟩ | ⟨hchecked, rng', h⟩ |
    ⟨response, rng', h, hdim, hverified, -, hsigned⟩
  · rw [h]
    exact ⟨fun _ _ _ => rfl, fun hne => absurd rfl hne, fun _ hok => nomatch hok⟩
  · rw [h]
    exact ⟨fun f hf hne => absurd (Except.error.inj hf).symm hne, fun _ => hchecked,
      fun _ hok => nomatch hok⟩
  · rw [h]
    refine ⟨fun _ hf => (nomatch hf), fun _ => ⟨hdim, hverified⟩, fun response' hok => ?_⟩
    obtain rfl := Except.ok.inj hok
    exact ⟨⟨hdim, hverified⟩, hsigned⟩

/-- The record a first call proposes for its request. -/
structure Proposal (request : TypedSpendRequest P K S) (digest : Bytes 32)
    (record : RetryRecord P) : Prop where
  digest_eq : record.requestDigest = digest
  settlement_eq : record.response.settlement = S
  return_le : record.response.returnAmount.toNat ≤ request.spend.toNat
  length_signature : record.response.signature.length = P.KN
  verified : issuer.publicKey.verifySpend request = .ok ()
  signed : eval issuer.publicKey.mayo record.response.signature =
    .ok (signedTokenTarget P request.freshCommitment record.response.returnAmount
      record.response.salt)

theorem check_eq_ok {request : TypedSpendRequest P K S} {returnAmount : U64} :
    issuer.check request returnAmount = .ok () ↔
      returnAmount.toNat ≤ request.spend.toNat ∧ issuer.publicKey.verifySpend request = .ok () := by
  simp only [check, Outcome.bind_eq_ok, Outcome.require_eq_ok, Outcome.mapErr_eq_ok,
    Bool.not_eq_true', decide_eq_false_iff_not, BitVec.lt_def, Nat.not_lt, exists_const]

/-- The checks draw no randomness; a proposal is a signed response of the request's settlement. -/
theorem propose_cases {returnAmount : U64} (hreturn : S = .fixedSpend → returnAmount = 0)
    (request : TypedSpendRequest P K S) (digest : Bytes 32) (rng : ρ) :
    (∃ f, issuer.check request returnAmount = .error f ∧
      issuer.propose request digest returnAmount rng = (.error f, rng)) ∨
    (issuer.check request returnAmount = .ok () ∧
      ∃ rng', issuer.propose request digest returnAmount rng = (Outcome.err .signingFailed, rng')) ∨
    ∃ record rng', issuer.propose request digest returnAmount rng = (.ok record, rng') ∧
      record.response.returnAmount = returnAmount ∧ issuer.Proposal request digest record := by
  rw [propose]
  cases hcheck : issuer.check request returnAmount with
  | error f => exact .inl ⟨f, rfl, rfl⟩
  | ok u =>
      obtain ⟨hle, hverified⟩ := issuer.check_eq_ok.mp hcheck
      rcases issuer.signTokenTarget_cases request.freshCommitment returnAmount rng with
        ⟨rng', hsign⟩ | ⟨signature, salt, rng', hsign, hlen, heval⟩
      · rw [hsign]
        exact .inr (.inl ⟨rfl, rng', rfl⟩)
      · rw [hsign]
        refine .inr (.inr ⟨_, rng', rfl, ?_⟩)
        -- a fixed response has no amount, and none was asked for
        cases S with
        | fixedSpend =>
            obtain rfl := hreturn rfl
            exact ⟨rfl, rfl, rfl, hle, hlen, hverified, heval⟩
        | deferredReturnSpend => exact ⟨rfl, rfl, rfl, hle, hlen, hverified, heval⟩

/-- A request that passes the checks is proposed, with the salt that is drawn first, when sampling
    succeeds. -/
theorem propose_of_samples {request : TypedSpendRequest P K S} {returnAmount : U64} {rng : ρ}
    (hreturn : S = .fixedSpend → returnAmount = 0) (digest : Bytes 32)
    (hcheck : issuer.check request returnAmount = .ok ())
    (hsamples : issuer.Samples request.freshCommitment returnAmount rng) :
    ∃ record rng', issuer.propose request digest returnAmount rng = (.ok record, rng') ∧
      record.response.returnAmount = returnAmount ∧ issuer.Proposal request digest record ∧
      record.response.salt = (CryptoRngCore.fillBytes 32 rng).1 := by
  obtain ⟨signature, rng', hsign⟩ := hsamples.sign
  have hpropose : ∃ record, issuer.propose request digest returnAmount rng = (.ok record, rng') ∧
      record.response.salt = (CryptoRngCore.fillBytes 32 rng).1 := by
    rw [propose, hcheck]
    dsimp only
    rw [hsign]
    refine ⟨_, rfl, ?_⟩
    cases S <;> rfl
  obtain ⟨record, hrecord, hsalt⟩ := hpropose
  rcases issuer.propose_cases hreturn request digest rng with ⟨f, hfailed, -⟩ | ⟨-, rng'', h⟩ | h
  · exact nomatch hcheck.symm.trans hfailed
  · exact nomatch (Prod.mk.inj (hrecord.symm.trans h)).1
  · obtain ⟨candidate, rng'', h, hamount, hproposal⟩ := h
    obtain rfl := Except.ok.inj (Prod.mk.inj (hrecord.symm.trans h)).1
    exact ⟨record, rng'', h, hamount, hproposal, hsalt⟩

/-- The response a record gives to the request it was made for. -/
theorem Proposal.respond_eq {issuer : IssuerKey H P} {request : TypedSpendRequest P K S}
    {digest : Bytes 32} {record : RetryRecord P} (h : issuer.Proposal request digest record) :
    record.respond K S digest = .ok
      { signature := record.response.signature, returnAmount := record.response.returnAmount,
        salt := record.response.salt } := by
  rw [RetryRecord.respond, h.digest_eq, beq_self_eq_true, Outcome.require_true, Outcome.ok_bind,
    h.settlement_eq, beq_self_eq_true, Outcome.require_true, Outcome.ok_bind]
  rfl

end IssuerKey

/-- A prepared request is received as the digest that its client keeps. -/
theorem Prepared.receive_eq {issuer : IssuerKey H P} {token : Token P K} {spend : U64}
    {pending : TypedPendingSpend P K S} {request : TypedSpendRequest P K S}
    (h : Prepared issuer.publicKey token spend pending request) :
    issuer.receive request = .ok pending.requestDigest := by
  rw [IssuerKey.receive, IssuerKey.validateRequestDimensions, h.length_freshCommitment,
    beq_self_eq_true, Outcome.require_true, Outcome.ok_bind]
  exact h.digest Error

/-- It passes the checks with any return within the spend. -/
theorem Prepared.check_eq {issuer : IssuerKey H P} {token : Token P K} {spend returnAmount : U64}
    {pending : TypedPendingSpend P K S} {request : TypedSpendRequest P K S}
    (h : Prepared issuer.publicKey token spend pending request)
    (hle : returnAmount.toNat ≤ spend.toNat) : issuer.check request returnAmount = .ok () :=
  issuer.check_eq_ok.mpr ⟨h.spend_eq ▸ hle, h.accepted⟩

/-- It is proposed a record when sampling succeeds. -/
theorem Prepared.exists_proposal [CryptoRngCore ρ] {issuer : IssuerKey H P} {token : Token P K}
    {spend returnAmount : U64} {pending : TypedPendingSpend P K S}
    {request : TypedSpendRequest P K S} {rng : ρ}
    (h : Prepared issuer.publicKey token spend pending request)
    (hreturn : S = .fixedSpend → returnAmount = 0) (hle : returnAmount.toNat ≤ spend.toNat)
    (hsamples : issuer.Samples request.freshCommitment returnAmount rng) :
    ∃ record rng', issuer.propose request pending.requestDigest returnAmount rng =
        (.ok record, rng') ∧ record.response.returnAmount = returnAmount ∧
      issuer.Proposal request pending.requestDigest record ∧
      record.response.salt = (CryptoRngCore.fillBytes 32 rng).1 :=
  issuer.propose_of_samples hreturn pending.requestDigest (h.check_eq hle) hsamples

/-- A record answers one digest and one settlement. -/
theorem RetryRecord.respond_eq_ok {stored : RetryRecord P} {digest : Bytes 32}
    {response : TypedSpendResponse P K S} :
    stored.respond K S digest = .ok response ↔
      (stored.requestDigest = digest ∧ stored.response.settlement = S) ∧
        response = { signature := stored.response.signature,
                     returnAmount := stored.response.returnAmount,
                     salt := stored.response.salt } := by
  simp only [respond, Outcome.bind_eq_ok, Outcome.require_eq_ok, beq_iff_eq]
  constructor
  · rintro ⟨_, hdigest, _, hsettlement, h⟩
    exact ⟨⟨hdigest, hsettlement⟩, (Except.ok.inj h).symm⟩
  · rintro ⟨⟨hdigest, hsettlement⟩, rfl⟩
    exact ⟨(), hdigest, (), hsettlement, rfl⟩

/-! ## One call -/

namespace Issuer

variable [CryptoRngCore ρ] (issuer : Issuer H P (MemoryNullifierStore P))

/-- The issuer with one more record. -/
def record (nullifier : Bytes 32) (candidate : RetryRecord P) : Issuer H P (MemoryNullifierStore P) :=
  { issuer with spent := ⟨issuer.spent.records.insert nullifier candidate⟩ }

/-- A stored record answers. -/
theorem settle_of_some {issuer : Issuer H P (MemoryNullifierStore P)}
    {request : TypedSpendRequest P K S} {digest : Bytes 32} {stored : RetryRecord P}
    (hreceive : issuer.receive request = .ok digest)
    (hlookup : issuer.spent.lookup request.nullifier = some stored) (returnAmount : U64) (rng : ρ) :
    issuer.settle request returnAmount rng = (stored.respond K S digest, issuer, rng) := by
  rw [settle, hreceive]
  dsimp only
  rw [MemoryNullifierStore.get_eq, hlookup]

/-- Everything a settlement can do: fail before the store is read, repeat what is stored, fail
    before it is written, or write one record and answer from it. -/
theorem settle_cases {returnAmount : U64} (hreturn : S = .fixedSpend → returnAmount = 0)
    (request : TypedSpendRequest P K S) (rng : ρ) :
    (∃ f, issuer.receive request = .error f ∧
      issuer.settle request returnAmount rng = (.error f, issuer, rng)) ∨
    ∃ digest, issuer.receive request = .ok digest ∧
      ((∃ stored, issuer.spent.lookup request.nullifier = some stored ∧
        issuer.settle request returnAmount rng = (stored.respond K S digest, issuer, rng)) ∨
      issuer.spent.lookup request.nullifier = none ∧
        ((∃ f, issuer.check request returnAmount = .error f ∧
          issuer.settle request returnAmount rng = (.error f, issuer, rng)) ∨
        (issuer.check request returnAmount = .ok () ∧
          ∃ rng', issuer.settle request returnAmount rng =
            (Outcome.err .signingFailed, issuer, rng')) ∨
        ∃ candidate rng', issuer.settle request returnAmount rng =
            (candidate.respond K S digest, issuer.record request.nullifier candidate, rng') ∧
          candidate.response.returnAmount = returnAmount ∧
          issuer.toIssuerKey.Proposal request digest candidate)) := by
  rw [settle]
  -- split as `settle` is written: receive, look up, propose, insert
  cases hreceive : issuer.receive request with
  | error f => exact .inl ⟨f, rfl, rfl⟩
  | ok digest =>
      refine .inr ⟨digest, rfl, ?_⟩
      dsimp only
      rw [MemoryNullifierStore.get_eq]
      cases hlookup : issuer.spent.lookup request.nullifier with
      | some stored => exact .inl ⟨stored, rfl, rfl⟩
      | none =>
          refine .inr ⟨rfl, ?_⟩
          dsimp only
          rcases issuer.propose_cases hreturn request digest rng with
            ⟨f, hcheck, hpropose⟩ | ⟨hcheck, rng', hpropose⟩ |
            ⟨candidate, rng', hpropose, hamount, hproposal⟩
          · rw [hpropose]
            exact .inl ⟨f, hcheck, rfl⟩
          · rw [hpropose]
            exact .inr (.inl ⟨hcheck, rng', rfl⟩)
          · rw [hpropose]
            refine .inr (.inr ⟨candidate, rng', ?_, hamount, hproposal⟩)
            dsimp only
            rw [MemoryNullifierStore.insertIfAbsent_of_none hlookup]
            rfl

/-- A first request that passes the checks is settled when sampling succeeds. -/
theorem settle_of_samples {request : TypedSpendRequest P K S} {returnAmount : U64}
    {digest : Bytes 32} {rng : ρ} (hreturn : S = .fixedSpend → returnAmount = 0)
    (hreceive : issuer.receive request = .ok digest)
    (hnone : issuer.spent.lookup request.nullifier = none)
    (hcheck : issuer.check request returnAmount = .ok ())
    (hsamples : issuer.Samples request.freshCommitment returnAmount rng) :
    ∃ candidate rng', issuer.settle request returnAmount rng =
        (candidate.respond K S digest, issuer.record request.nullifier candidate, rng') ∧
      candidate.response.returnAmount = returnAmount ∧
      issuer.toIssuerKey.Proposal request digest candidate ∧
      candidate.response.salt = (CryptoRngCore.fillBytes 32 rng).1 := by
  obtain ⟨candidate, rng', hpropose, h⟩ :=
    issuer.propose_of_samples hreturn digest hcheck hsamples
  refine ⟨candidate, rng', ?_, h⟩
  rw [settle, hreceive]
  dsimp only
  rw [MemoryNullifierStore.get_eq, hnone]
  dsimp only
  rw [hpropose]
  dsimp only
  rw [MemoryNullifierStore.insertIfAbsent_of_none hnone]
  rfl

/-- A request of the right dimension is received as its digest. -/
theorem receive_eq {request : TypedSpendRequest P K S} (h : request.freshCommitment.length = P.M) :
    issuer.receive request = spendRequestDigest H issuer.publicKey.context request := by
  rw [IssuerKey.receive, IssuerKey.validateRequestDimensions, h, beq_self_eq_true,
    Outcome.require_true, Outcome.ok_bind]

theorem length_of_receive {request : TypedSpendRequest P K S} {digest : Bytes 32}
    (h : issuer.receive request = .ok digest) : request.freshCommitment.length = P.M := by
  obtain ⟨_, hdim, -⟩ := Outcome.bind_eq_ok.mp h
  exact beq_iff_eq.mp (Outcome.require_eq_ok.mp hdim)

/-- A call that leaves no trace when it fails, repeats what is stored, and otherwise writes one
    signed record. -/
structure Atomic (request : TypedSpendRequest P K S) (returnAmount : U64) (rng : ρ)
    (out : Outcome Error (TypedSpendResponse P K S) × Issuer H P (MemoryNullifierStore P) × ρ) :
    Prop where
  /-- A failed call leaves the issuer and its store as they were. -/
  error_store : ∀ f, out.1 = .error f → out.2.1 = issuer
  /-- Only a failure to sign may have drawn randomness. -/
  error_rng : ∀ f, out.1 = .error f → f ≠ .err .signingFailed → out.2.2 = rng
  /-- Randomness is drawn only after the dimension, the lookup, the return and the proof have been
      checked. -/
  drawn : out.2.2 ≠ rng → request.freshCommitment.length = P.M ∧
    issuer.spent.lookup request.nullifier = none ∧ returnAmount.toNat ≤ request.spend.toNat ∧
    issuer.publicKey.verifySpend request = .ok ()
  /-- A stored record alone answers, to the request's digest. -/
  replay : ∀ stored, issuer.spent.lookup request.nullifier = some stored →
    request.freshCommitment.length = P.M →
      out = (spendRequestDigest H issuer.publicKey.context request >>= stored.respond K S,
        issuer, rng)
  /-- A new answer is one new record, signed over the fresh commitment. -/
  settled : ∀ response, issuer.spent.lookup request.nullifier = none → out.1 = .ok response →
    ∃ stored, out.2.1 = issuer.record request.nullifier stored ∧
      out.2.1.spentCount = issuer.spentCount + 1 ∧
      eval issuer.publicKey.mayo stored.response.signature =
        .ok (signedTokenTarget P request.freshCommitment stored.response.returnAmount
          stored.response.salt) ∧
      stored.response.returnAmount.toNat ≤ request.spend.toNat ∧
      response = { signature := stored.response.signature,
                   returnAmount := stored.response.returnAmount,
                   salt := stored.response.salt }

theorem atomic_settle {returnAmount : U64} (hreturn : S = .fixedSpend → returnAmount = 0)
    (request : TypedSpendRequest P K S) (rng : ρ) :
    issuer.Atomic request returnAmount rng (issuer.settle request returnAmount rng) := by
  rcases issuer.settle_cases hreturn request rng with ⟨f, hreceive, h⟩ | ⟨digest, hreceive, hcases⟩
  · -- rejected before the store is read
    rw [h]
    refine ⟨fun _ _ => rfl, fun _ _ _ => rfl, fun hne => absurd rfl hne, fun stored _ hlen => ?_,
      fun response _ hok => nomatch hok⟩
    rw [← issuer.receive_eq hlen, hreceive]
    rfl
  have hlen := issuer.length_of_receive hreceive
  have hdigest := (issuer.receive_eq hlen).symm.trans hreceive
  rcases hcases with ⟨stored, hlookup, h⟩ | ⟨hnone, hcases⟩
  · -- answered from the store
    rw [h]
    refine ⟨fun _ _ => rfl, fun _ _ _ => rfl, fun hne => absurd rfl hne, fun stored' hlookup' _ => ?_,
      fun response hnone _ => nomatch hlookup.symm.trans hnone⟩
    obtain rfl := Option.some.inj (hlookup.symm.trans hlookup')
    rw [hdigest]
    rfl
  have hreplay (out) : ∀ stored, issuer.spent.lookup request.nullifier = some stored →
      request.freshCommitment.length = P.M →
        out = (spendRequestDigest H issuer.publicKey.context request >>= stored.respond K S,
          issuer, rng) := fun stored hsome _ => nomatch hnone.symm.trans hsome
  -- a new nullifier: refused by the check, not signed, or recorded with its answer
  rcases hcases with ⟨f, -, h⟩ | ⟨hcheck, rng', h⟩ | ⟨candidate, rng', h, hamount, hproposal⟩
  · rw [h]
    exact ⟨fun _ _ => rfl, fun _ _ _ => rfl, fun hne => absurd rfl hne, hreplay _,
      fun response _ hok => nomatch hok⟩
  · rw [h]
    exact ⟨fun _ _ => rfl, fun f hf hne => absurd (Except.error.inj hf).symm hne,
      fun _ => ⟨hlen, hnone, issuer.check_eq_ok.mp hcheck⟩, hreplay _,
      fun response _ hok => nomatch hok⟩
  · rw [h, hproposal.respond_eq]
    refine ⟨fun f hf => (nomatch hf), fun f hf => (nomatch hf),
      fun _ => ⟨hlen, hnone, hamount ▸ hproposal.return_le, hproposal.verified⟩, hreplay _,
      fun response _ hok => ?_⟩
    exact ⟨candidate, rfl, MemoryNullifierStore.size_insert hnone candidate, hproposal.signed,
      hproposal.return_le, (Except.ok.inj hok).symm⟩

/-- Calls of one issuer are atomic on error and inert on retry, in every state of the store and of
    the generator and for every request.  A failed spend leaves the store as it was; any failure but
    that of signing leaves the generator as it was, and nothing is drawn before every check of the
    call has passed; a stored record alone answers a retry; and a new answer adds one record, which
    is signed over the fresh commitment and returns at most the spend. -/
theorem calls_atomic (rng : ρ) :
    (∀ (request : IssueRequest P) (balance : U64),
      issuer.AtomicIssue request balance rng (issuer.issue request balance rng)) ∧
    (∀ (K : CredentialKind) (request : SpendRequest P K),
      issuer.Atomic request 0 rng (issuer.spend request rng)) ∧
    ∀ (K : CredentialKind) (request : DeferredReturnSpendRequest P K) (returnAmount : U64),
      issuer.Atomic request returnAmount rng
        (issuer.spendWithDeferredReturn request returnAmount rng) :=
  ⟨fun request balance => issuer.atomic_issue request balance rng,
    fun _ request => issuer.atomic_settle (fun _ => rfl) request rng,
    fun _ request _ => issuer.atomic_settle (S := .deferredReturnSpend)
      (fun h => (nomatch h)) request rng⟩

end Issuer

/-! ## A spend of a token that is issued -/

/-- A token that an issuer issued to its client, and a spend that the client prepared from it. -/
structure Spending [CryptoRngCore ρ] (issuer : IssuerKey H P) (S : SettlementMode)
    (balance spend : U64) (rng : ρ) where
  pendingIssue : PendingIssue P
  issueRequest : IssueRequest P
  issueResponse : IssueResponse P
  token : Token P .direct
  pending : TypedPendingSpend P .direct S
  request : TypedSpendRequest P .direct S
  requested : (issuer.publicKey.prepareIssue balance rng).1 = .ok (pendingIssue, issueRequest)
  issued : ∃ rng', issuer.issue issueRequest balance rng = (.ok issueResponse, rng')
  finished : pendingIssue.finish issuer.publicKey issueRequest issueResponse = .ok token
  authentic : token.Authentic issuer.publicKey
  commitment_eq : issueRequest.commitment = token.commitment
  token_eq : token =
    { context := issuer.publicKey.context, signature := issueResponse.signature,
      key := (CryptoRngCore.fillBytes 32 rng).1, baseBalance := balance,
      nonce := (CryptoRngCore.fillBytes 32 (CryptoRngCore.fillBytes 32 rng).2).1, topup := 0,
      salt := (CryptoRngCore.fillBytes 32 rng).1 }
  prepare_eq : (token.prepareTypedSpend S issuer.publicKey spend rng).1 = .ok (pending, request)
  prepared : Prepared issuer.publicKey token spend pending request

/-- A client is issued a token and prepares a spend of it, when sampling succeeds. -/
theorem IssuerKey.exists_spending [CryptoRngCore ρ] (issuer : IssuerKey H P) (S : SettlementMode)
    {balance spend : U64} (hle : spend.toNat ≤ balance.toNat) {rng : ρ}
    (hsamples : ∀ pending request,
      (issuer.publicKey.prepareIssue balance rng).1 = .ok (pending, request) →
        issuer.Samples request.commitment 0 rng) :
    Nonempty (Spending issuer S balance spend rng) := by
  obtain ⟨pendingIssue, issueRequest, issueResponse, rng', token, hrequested, hissue, hfinish, hauth,
    hcommitment, htoken⟩ := issuer.exists_token balance rng hsamples
  have hheld : spend.toNat ≤ token.baseBalance.toNat + token.topup.toNat := by
    rw [htoken]
    exact Nat.le_add_right_of_le hle
  obtain ⟨pending, request, hprepare, hprepared⟩ := Token.prepareTypedSpend_spec S hauth hheld rng
  exact ⟨{ pendingIssue, issueRequest, issueResponse, token, pending, request,
           requested := hrequested, issued := ⟨rng', hissue⟩, finished := hfinish,
           authentic := hauth, commitment_eq := hcommitment, token_eq := htoken,
           prepare_eq := hprepare, prepared := hprepared }⟩

theorem Spending.baseBalance_eq [CryptoRngCore ρ] {issuer : IssuerKey H P} {balance spend : U64}
    {rng : ρ} (x : Spending issuer S balance spend rng) : x.token.baseBalance = balance :=
  congrArg Token.baseBalance x.token_eq

/-! ## A token of the tiny issuer -/

/-- A client of the tiny issuer is issued five credits for an opening of sevens. -/
theorem tinyIssuer_token (H : Xof) :
    let issuer := tinyIssuer H
    let rng := RepeatRng.mk 7#32
    ∃ (pending : PendingIssue tinyParams) (request : IssueRequest tinyParams)
      (response : IssueResponse tinyParams) (rng' : RepeatRng) (token : Token tinyParams .direct),
      (issuer.publicKey.prepareIssue 5 rng).1 = .ok (pending, request) ∧
      issuer.issue request 5 rng = (.ok response, rng') ∧
      pending.finish issuer.publicKey request response = .ok token ∧
      token.Authentic issuer.publicKey ∧ request.commitment = token.commitment ∧
      token = { context := issuer.publicKey.context, signature := response.signature,
                key := Vector.replicate 32 7#8, baseBalance := 5,
                nonce := Vector.replicate 32 7#8, topup := 0, salt := Vector.replicate 32 7#8 } :=
  (tinyIssuer H).exists_token 5 (RepeatRng.mk 7#32)
    fun _ request _ => tinyIssuer_samples H request.commitment 0

/-- The commitments of its openings of sevens, under a context of zeros. -/
theorem tinyCommitment_five : credentialTarget tinyParams (Vector.replicate 32 0#8)
    (Vector.replicate 32 7#8) 5#64 (Vector.replicate 32 7#8) = [13#8, 8#8].map GF16.new := by
  decide +kernel

theorem tinyCommitment_one : credentialTarget tinyParams (Vector.replicate 32 0#8)
    (Vector.replicate 32 7#8) 1#64 (Vector.replicate 32 7#8) = [6#8, 7#8].map GF16.new := by
  decide +kernel

theorem tinyTarget_ne : signedTokenTarget tinyParams ([13#8, 8#8].map GF16.new) 0#64
    (Vector.replicate 32 7#8) ≠
      signedTokenTarget tinyParams ([6#8, 7#8].map GF16.new) 1#64 (Vector.replicate 32 7#8) := by
  decide +kernel

theorem tinyNullifier_ne :
    deriveNullifier tinyParams (Vector.replicate 32 0#8) (Vector.replicate 32 7#8) 5#64
        (Vector.replicate 32 7#8) ≠
      deriveNullifier tinyParams (Vector.replicate 32 0#8) (Vector.replicate 32 7#8) 1#64
        (Vector.replicate 32 7#8) := by
  decide +kernel

theorem tinyIssuer_context :
    (tinyIssuer fun _ _ => 0#8).publicKey.context = Vector.replicate 32 0#8 := by
  show (Vector.ofFn fun _ => 0#8 : Bytes 32) = _
  decide

/-- Five credits are issued to a client, which prepares a spend of four. -/
theorem tinyIssuer_spending : Nonempty
    (Spending (tinyIssuer fun _ _ => 0#8) .deferredReturnSpend 5 4 (RepeatRng.mk 7#32)) :=
  (tinyIssuer _).exists_spending _ (by decide) fun _ request _ =>
    tinyIssuer_samples _ request.commitment 0

/-- A replica proposes a record for that spend, with any return within it. -/
theorem tinyIssuer_proposal
    (x : Spending (tinyIssuer fun _ _ => 0#8) .deferredReturnSpend 5 4 (RepeatRng.mk 7#32))
    {returnAmount : U64} (hle : returnAmount.toNat ≤ 4) :
    ∃ record rng', (tinyIssuer fun _ _ => 0#8).propose x.request x.pending.requestDigest
        returnAmount (RepeatRng.mk 7#32) = (.ok record, rng') ∧
      record.response.returnAmount = returnAmount ∧
      (tinyIssuer fun _ _ => 0#8).Proposal x.request x.pending.requestDigest record ∧
      record.response.salt = (CryptoRngCore.fillBytes 32 (RepeatRng.mk 7#32)).1 :=
  x.prepared.exists_proposal (absurd · SettlementMode.deferredReturnSpend_ne_fixedSpend) hle
    (tinyIssuer_samples _ x.request.freshCommitment returnAmount)

/-- A return of one redeems three of its four credits. -/
theorem tinyIssuer_redeemed
    (x : Spending (tinyIssuer fun _ _ => 0#8) .deferredReturnSpend 5 4 (RepeatRng.mk 7#32))
    {returnAmount : U64} (h : returnAmount = 1) :
    0 + (x.request.spend.toNat - returnAmount.toNat) = 3 := by
  rw [x.prepared.spend_eq, h]
  rfl

/-- The openings of that client, of the token and of what is left, are of sevens. -/
theorem tinyIssuer_openings
    (x : Spending (tinyIssuer fun _ _ => 0#8) .deferredReturnSpend 5 4 (RepeatRng.mk 7#32)) :
    (x.token.key = Vector.replicate 32 7#8 ∧ x.token.baseBalance = 5#64 ∧
      x.token.nonce = Vector.replicate 32 7#8) ∧
    x.pending.freshKey = Vector.replicate 32 7#8 ∧ x.pending.freshBaseBalance = 1#64 ∧
      x.pending.freshNonce = Vector.replicate 32 7#8 := by
  obtain ⟨⟨hfreshKey, hfreshNonce⟩, -⟩ := Token.prepareTypedSpend_draws x.prepare_eq
  have htopup : x.token.topup = 0#64 := congrArg Token.topup x.token_eq
  have hfresh : x.pending.freshBaseBalance = 1#64 := by
    have hsum := x.prepared.fresh_balance
    rw [x.baseBalance_eq, htopup] at hsum
    exact BitVec.eq_of_toNat_eq (by simp at hsum ⊢; omega)
  exact ⟨⟨congrArg Token.key x.token_eq, x.baseBalance_eq, congrArg Token.nonce x.token_eq⟩,
    hfreshKey, hfresh, hfreshNonce⟩

end VoleAct.Act
