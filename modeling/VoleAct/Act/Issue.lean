/-
  VoleAct.Act.Issue

  Client-side issuance: pending state, requests and responses
  (`protocol/issue.rs`, `PublicKey::prepare_issue`).
-/
import VoleAct.Act.Token

namespace VoleAct.Act

open VoleAct.BinaryFields VoleAct.Lib VoleAct.Mayo VoleAct.Voleith

/-- `WIRE_ISSUE_REQUEST`, `WIRE_ISSUE_RESPONSE` and `WIRE_PENDING_ISSUE`. -/
def wireIssueRequest : U8 := 3#8

def wireIssueResponse : U8 := 4#8

def wirePendingIssue : U8 := 5#8

/-- Client-side state retained while an issuance request is in flight. -/
structure PendingIssue (P : MayoParams) where
  context : Bytes 32
  key : Bytes 32
  balance : U64
  nonce : Bytes 32
  commitment : List GF16
  deriving DecidableEq

/-- Issuance request sent from client to issuer. -/
structure IssueRequest (P : MayoParams) where
  commitment : List GF16
  proof : Proof

/-- Issuer response completing issuance. -/
structure IssueResponse (P : MayoParams) where
  signature : List GF16
  salt : Bytes 32
  deriving DecidableEq

variable {H : Xof} {P : MayoParams}

/-- Start an issuance request for the public `balance`. -/
def PublicKey.prepareIssue {ρ : Type} [CryptoRngCore ρ] (pk : PublicKey H P) (balance : U64)
    (rng : ρ) : Outcome Error (PendingIssue P × IssueRequest P) × ρ :=
  let (key, rng) := CryptoRngCore.fillBytes 32 rng
  let (nonce, rng) := CryptoRngCore.fillBytes 32 rng
  let commitment := credentialTarget P pk.context key balance nonce
  let circuit : IssueCircuit P := { context := pk.context, balance, target := commitment }
  match (circuit.witness key nonce : Outcome Error (List Bool)) with
  | .error e => (.error e, rng)
  | .ok witness =>
      let statement := issueStatement P pk.context balance commitment
      let (proofResult, rng) := prove H pk.profile.params statement circuit.build witness rng
      (do
        let proof ← proofResult.mapErr proofError
        return ({ context := pk.context, key, balance, nonce, commitment }, { commitment, proof }),
        rng)

namespace PendingIssue

/-- The fields of an encoded pending issuance; the commitment is recomputed. -/
def bodyBytes (pending : PendingIssue P) : List U8 :=
  pending.context.toList ++ pending.key.toList ++ le64 pending.balance.toNat ++
    pending.nonce.toList

def toBytes (pending : PendingIssue P) : List U8 :=
  Wire.header wirePendingIssue P.wireId 0 0 ++ pending.bodyBytes

def body (P : MayoParams) : Wire.WireDecoder (PendingIssue P) := do
  let context ← Wire.array 32
  let key ← Wire.array 32
  let balance ← Wire.u64
  let nonce ← Wire.array 32
  let commitment := credentialTarget P context key balance nonce
  return { context, key, balance, nonce, commitment }

/-- Restore canonical issuance state for this public key. -/
def fromBytes (pk : PublicKey H P) (input : List U8) : Outcome WireError (PendingIssue P) := do
  let pending ← Outcome.ofResult id
    (Wire.decode (Wire.artifact wirePendingIssue P.wireId 0 0 (body P)) input)
  Outcome.require (pending.context == pk.context) .wrongArtifact
  return pending

/-- Validate the issuer response and construct a direct token. -/
def finish (pending : PendingIssue P) (pk : PublicKey H P) (request : IssueRequest P)
    (response : IssueResponse P) : Outcome Error (Token P .direct) := do
  Outcome.require (pending.context == pk.context) .wrongContext
  Outcome.require (request.commitment == pending.commitment) .invalidRequest
  let target := signedTokenTarget P pending.commitment 0 response.salt
  -- the salt of the response is in the target that is signed
  pk.checkSignature response.signature target
  return { context := pending.context, signature := response.signature, key := pending.key,
           baseBalance := pending.balance, nonce := pending.nonce, topup := 0,
           salt := response.salt }

end PendingIssue

namespace IssueRequest

def toBytes {ε : Type} (request : IssueRequest P) : Outcome ε (List U8) := do
  let proof ← Wire.putProof request.proof
  return Wire.header wireIssueRequest P.wireId 0 0 ++ Wire.packNibbles request.commitment ++ proof

def body (P : MayoParams) : Wire.WireDecoder (IssueRequest P) := do
  let commitment ← Wire.nibbles P.M
  let proof ← Wire.proof
  return { commitment, proof }

def fromBytes (P : MayoParams) (input : List U8) : Except WireError (IssueRequest P) :=
  Wire.decode (Wire.artifact wireIssueRequest P.wireId 0 0 (body P)) input

end IssueRequest

namespace IssueResponse

def bodyBytes (response : IssueResponse P) : List U8 :=
  Wire.packNibbles response.signature ++ response.salt.toList

def toBytes (response : IssueResponse P) : List U8 :=
  Wire.header wireIssueResponse P.wireId 0 0 ++ response.bodyBytes

def body (P : MayoParams) : Wire.WireDecoder (IssueResponse P) := do
  let signature ← Wire.nibbles P.KN
  let salt ← Wire.array 32
  return { signature, salt }

def fromBytes (P : MayoParams) (input : List U8) : Except WireError (IssueResponse P) :=
  Wire.decode (Wire.artifact wireIssueResponse P.wireId 0 0 (body P)) input

end IssueResponse

/-! ## Preparing and finishing -/

/-- What a pending issuance of an issuer carries: the commitment of its opening. -/
structure PendingIssue.Opens (pk : PublicKey H P) (pending : PendingIssue P) : Prop where
  context_eq : pending.context = pk.context
  commitment_eq : pending.commitment =
    credentialTarget P pending.context pending.key pending.balance pending.nonce

/-- The circuit of an issuance. -/
def PublicKey.issueCircuit (pk : PublicKey H P) (balance : U64) (commitment : List GF16) :
    IssueCircuit P where
  context := pk.context
  balance := balance
  target := commitment

/-- The verification of an issuance request. -/
def PublicKey.verifyIssue (pk : PublicKey H P) (balance : U64) (request : IssueRequest P) :
    Outcome VoleithError Unit :=
  verify H pk.profile.params (issueStatement P pk.context balance request.commitment)
    (pk.issueCircuit balance request.commitment).build request.proof

/-- The proof of the witness of an opening is accepted for its commitment. -/
theorem PublicKey.prove_issue {ρ : Type} [CryptoRngCore ρ] (pk : PublicKey H P) (key nonce : Bytes 32)
    (balance : U64) (statement : List U8) {witness : List Bool} (rng : ρ)
    (hwitness : (pk.issueCircuit balance (credentialTarget P pk.context key balance nonce)).witness
      key nonce = (.ok witness : Outcome VoleithError (List Bool))) :
    ∃ proof, (prove H pk.profile.params statement
        (pk.issueCircuit balance (credentialTarget P pk.context key balance nonce)).build
        witness rng).1 = .ok proof ∧
      verify H pk.profile.params statement
        (pk.issueCircuit balance (credentialTarget P pk.context key balance nonce)).build
        proof = .ok () ∧ Wire.Encodable proof := by
  let c := pk.issueCircuit balance (credentialTarget P pk.context key balance nonce)
  obtain ⟨ops, hbuild, hbits, hdeg, hsat⟩ := issue_exact c (by simp [c, issueCircuit])
  obtain ⟨bits, hbitsok, hlen⟩ := c.witness_ok key nonce
  obtain rfl := Except.ok.inj (hwitness.symm.trans (hbitsok _))
  -- the witness satisfies the circuit, since the opening hashes to the commitment
  have hseg := segment_assignment witness
  rw [hlen] at hseg
  have hsatisfied : Satisfies (assignment witness) ops :=
    (hsat _).mpr ⟨key, nonce, hseg.symm ▸ hwitness, rfl⟩
  have hfits : Fits ops := fits_of_builtDegree (by omega) hdeg
  obtain ⟨proof, hproof, hverify, hproofFits, hdecodes⟩ := prove_accepted H
    pk.profile.params_valid statement hfits (by omega) (hlen.trans hbits.symm) hsatisfied rng
  rw [← hbuild] at hproof hverify
  exact ⟨proof, hproof, hverify, hproofFits, hdecodes⟩

/-- `prepare_issue` succeeds for every balance and generator: the pending state opens the requested
    commitment, and the request is accepted and written. -/
theorem PublicKey.prepareIssue_spec {ρ : Type} [CryptoRngCore ρ] (pk : PublicKey H P) (balance : U64)
    (rng : ρ) : ∃ pending request, (pk.prepareIssue balance rng).1 = .ok (pending, request) ∧
      pending.Opens pk ∧ pending.balance = balance ∧ request.commitment = pending.commitment ∧
      pk.verifyIssue balance request = .ok () ∧ Wire.Encodable request.proof := by
  let key := (CryptoRngCore.fillBytes 32 rng).1
  let rng1 := (CryptoRngCore.fillBytes 32 rng).2
  let nonce := (CryptoRngCore.fillBytes 32 rng1).1
  let rng2 := (CryptoRngCore.fillBytes 32 rng1).2
  let commitment := credentialTarget P pk.context key balance nonce
  let c := pk.issueCircuit balance commitment
  let statement := issueStatement P pk.context balance commitment
  obtain ⟨witness, hwitness, -⟩ := c.witness_ok key nonce
  obtain ⟨proof, hproof, hverify, hencodable⟩ :=
    pk.prove_issue key nonce balance statement rng2 (hwitness VoleithError)
  refine ⟨{ context := pk.context, key, balance, nonce, commitment }, { commitment, proof }, ?_,
    ⟨rfl, rfl⟩, rfl, rfl, hverify, hencodable⟩
  have hrun : (pk.prepareIssue balance rng).1 =
      ((prove H pk.profile.params statement c.build witness rng2).1.mapErr proofError >>=
        fun proof => Except.ok ({ context := pk.context, key, balance, nonce, commitment },
          { commitment, proof })) := by
    have hwitness' : (IssueCircuit.witness
        { context := pk.context, balance, target := commitment } key nonce :
          Outcome Error (List Bool)) = .ok witness := hwitness Error
    unfold prepareIssue
    dsimp only
    rw [hwitness']
    rfl
  rw [hrun, hproof]
  rfl

/-- The opening a pending issuance keeps is what was drawn first, and its request has the proof of
    that opening's witness. -/
theorem PublicKey.prepareIssue_draws {ρ : Type} [CryptoRngCore ρ] {pk : PublicKey H P} {balance : U64}
    {rng : ρ} {pending : PendingIssue P} {request : IssueRequest P}
    (h : (pk.prepareIssue balance rng).1 = .ok (pending, request)) :
    (pending.key = (CryptoRngCore.fillBytes 32 rng).1 ∧
      pending.nonce = (CryptoRngCore.fillBytes 32 (CryptoRngCore.fillBytes 32 rng).2).1) ∧
    ∃ (witness : List Bool) (rng' : ρ),
      (pk.issueCircuit balance request.commitment).witness pending.key pending.nonce =
        (.ok witness : Outcome Error (List Bool)) ∧
      (prove H pk.profile.params (issueStatement P pk.context balance request.commitment)
        (pk.issueCircuit balance request.commitment).build witness rng').1 = .ok request.proof := by
  unfold prepareIssue at h
  dsimp only at h
  split at h
  · cases h
  · rename_i witness hwitness
    obtain ⟨proof, hprove, hproof⟩ := Outcome.bind_eq_ok.mp h
    obtain ⟨rfl, rfl⟩ := Prod.mk.inj (Except.ok.inj hproof)
    exact ⟨⟨rfl, rfl⟩, witness, _, hwitness, Outcome.mapErr_eq_ok.mp hprove⟩

/-- A finished issuance is a token of the issuer over the pending opening, with no return. -/
theorem PendingIssue.finish_eq_ok {pk : PublicKey H P} {pending : PendingIssue P}
    {request : IssueRequest P} {response : IssueResponse P} {token : Token P .direct} :
    pending.finish pk request response = .ok token ↔
      (pending.context = pk.context ∧ request.commitment = pending.commitment ∧
        eval pk.mayo response.signature =
          .ok (signedTokenTarget P pending.commitment 0 response.salt)) ∧
      token = { context := pending.context, signature := response.signature, key := pending.key,
                baseBalance := pending.balance, nonce := pending.nonce, topup := 0,
                salt := response.salt } := by
  simp only [finish, Outcome.bind_eq_ok, Outcome.require_eq_ok, beq_iff_eq,
    PublicKey.checkSignature_eq_ok]
  constructor
  · rintro ⟨_, hcontext, _, hcommitment, _, hsigned, h⟩
    exact ⟨⟨hcontext, hcommitment, hsigned⟩, (Except.ok.inj h).symm⟩
  · rintro ⟨⟨hcontext, hcommitment, hsigned⟩, rfl⟩
    exact ⟨(), hcontext, (), hcommitment, (), hsigned, rfl⟩

/-- A pending issuance that opens its commitment finishes only with a token of the issuer. -/
theorem PendingIssue.Opens.authentic {pk : PublicKey H P} {pending : PendingIssue P}
    {request : IssueRequest P} {response : IssueResponse P} {token : Token P .direct}
    (h : pending.commitment =
      credentialTarget P pending.context pending.key pending.balance pending.nonce)
    (hfinish : pending.finish pk request response = .ok token) : token.Authentic pk := by
  obtain ⟨⟨hcontext, -, hsigned⟩, rfl⟩ := PendingIssue.finish_eq_ok.mp hfinish
  refine ⟨hcontext, fun _ => rfl, ?_, ?_⟩
  · show pending.balance.toNat + 0 < 2 ^ 64
    exact pending.balance.isLt
  · rwa [h] at hsigned

/-! ## Codecs -/

theorem PendingIssue.body_run ⦃input rest : List U8⦄ ⦃pending : PendingIssue P⦄ :
    (body P).run input = .ok (pending, rest) ↔
      pending.commitment =
          credentialTarget P pending.context pending.key pending.balance pending.nonce ∧
        input = pending.bodyBytes ++ rest := by
  simp only [body, bodyBytes, Decoder.run_bind_eq_ok, Wire.array_run, Wire.u64_run,
    List.append_assoc]
  constructor
  · rintro ⟨context, _, rfl, key, _, rfl, balance, _, rfl, nonce, _, rfl, h⟩
    obtain ⟨rfl, rfl⟩ := Prod.mk.inj (Except.ok.inj h)
    exact ⟨rfl, rfl⟩
  · rintro ⟨hcommitment, rfl⟩
    refine ⟨_, _, rfl, _, _, rfl, _, _, rfl, _, _, rfl, ?_⟩
    rw [← hcommitment]
    rfl

/-- The pending issuances of an issuer are exactly what decodes from their encodings. -/
theorem PendingIssue.fromBytes_eq_ok {pk : PublicKey H P} {input : List U8}
    {pending : PendingIssue P} :
    fromBytes pk input = .ok pending ↔ pending.Opens pk ∧ input = pending.toBytes := by
  simp only [fromBytes, Outcome.bind_eq_ok, Outcome.ofResult_eq_ok, Outcome.require_eq_ok,
    Wire.decode_artifact_eq_ok body_run, beq_iff_eq]
  constructor
  · rintro ⟨_, ⟨hcommitment, hinput, -⟩, _, hcontext, h⟩
    obtain rfl := Except.ok.inj h
    exact ⟨⟨hcontext, hcommitment⟩, hinput⟩
  · rintro ⟨hopens, rfl⟩
    have hlen : pending.toBytes.length = 113 := by
      simp [toBytes, bodyBytes, Wire.header_length, le64]
    exact ⟨pending, ⟨hopens.commitment_eq, rfl, hlen.trans_le (by decide)⟩, (), hopens.context_eq,
      rfl⟩

theorem IssueRequest.body_run ⦃input rest : List U8⦄ ⦃request : IssueRequest P⦄ :
    (body P).run input = .ok (request, rest) ↔
      (request.commitment.length = P.M ∧ Wire.Encodable request.proof) ∧
        input = Wire.packNibbles request.commitment ++ Wire.proofBytes request.proof ++ rest := by
  simp only [body, Decoder.run_bind_eq_ok, Wire.nibbles_run, Wire.proof_run, List.append_assoc]
  constructor
  · rintro ⟨commitment, _, ⟨hlen, rfl⟩, proof, _, ⟨hproof, rfl⟩, h⟩
    obtain ⟨rfl, rfl⟩ := Prod.mk.inj (Except.ok.inj h)
    exact ⟨⟨hlen, hproof⟩, rfl⟩
  · rintro ⟨⟨hlen, hproof⟩, rfl⟩
    exact ⟨_, _, ⟨hlen, rfl⟩, _, _, ⟨hproof, rfl⟩, rfl⟩

theorem IssueRequest.toBytes_eq_ok {ε : Type} {request : IssueRequest P} {input : List U8} :
    (request.toBytes : Outcome ε _) = .ok input ↔
      (request.proof.Fits ∧ request.proof.encoding.length < 2 ^ 32) ∧
        input = Wire.header wireIssueRequest P.wireId 0 0 ++
          (Wire.packNibbles request.commitment ++ Wire.proofBytes request.proof) := by
  simp only [toBytes, Outcome.bind_eq_ok, Wire.putProof_eq_ok, List.append_assoc]
  constructor
  · rintro ⟨_, ⟨hfits, hlen, rfl⟩, h⟩
    exact ⟨⟨hfits, hlen⟩, (Except.ok.inj h).symm⟩
  · rintro ⟨⟨hfits, hlen⟩, rfl⟩
    exact ⟨_, ⟨hfits, hlen, rfl⟩, rfl⟩

/-- A request with an encodable proof is written. -/
theorem IssueRequest.exists_toBytes {request : IssueRequest P} (h : Wire.Encodable request.proof) :
    ∃ input, ∀ ε : Type, (request.toBytes : Outcome ε _) = .ok input :=
  ⟨_, fun _ => toBytes_eq_ok.mpr ⟨⟨h.fits, h.length_lt⟩, rfl⟩⟩

/-- What decodes to a request is its encoding. -/
theorem IssueRequest.fromBytes_eq_ok {ε : Type} {input : List U8} {request : IssueRequest P} :
    fromBytes P input = .ok request ↔
      (request.commitment.length = P.M ∧ Wire.Encodable request.proof) ∧
        (request.toBytes : Outcome ε _) = .ok input := by
  rw [fromBytes, Wire.decode_artifact_eq_ok body_run, toBytes_eq_ok]
  constructor
  · rintro ⟨⟨hlen, hproof⟩, hinput, -⟩
    exact ⟨⟨hlen, hproof⟩, ⟨hproof.fits, hproof.length_lt⟩, hinput⟩
  · rintro ⟨⟨hlen, hproof⟩, -, rfl⟩
    refine ⟨⟨hlen, hproof⟩, rfl, ?_⟩
    have hm := P.m_le
    have hle := hproof.length_le
    rw [List.length_append, List.length_append, Wire.header_length, Wire.packNibbles_eq,
      packed_length, hlen, Wire.proofBytes, List.length_append]
    simp only [le32, leBytes_length, Wire.maxBytes, maxProofWireBytes] at hle ⊢
    omega

theorem IssueResponse.body_run ⦃input rest : List U8⦄ ⦃response : IssueResponse P⦄ :
    (body P).run input = .ok (response, rest) ↔
      response.signature.length = P.KN ∧ input = response.bodyBytes ++ rest := by
  simp only [body, bodyBytes, Decoder.run_bind_eq_ok, Wire.array_run, Wire.nibbles_run,
    List.append_assoc]
  constructor
  · rintro ⟨signature, _, ⟨hlen, rfl⟩, salt, _, rfl, h⟩
    obtain ⟨rfl, rfl⟩ := Prod.mk.inj (Except.ok.inj h)
    exact ⟨hlen, rfl⟩
  · rintro ⟨hlen, rfl⟩
    exact ⟨_, _, ⟨hlen, rfl⟩, _, _, rfl, rfl⟩

theorem IssueResponse.fromBytes_eq_ok {input : List U8} {response : IssueResponse P} :
    fromBytes P input = .ok response ↔
      response.signature.length = P.KN ∧ input = response.toBytes := by
  rw [fromBytes, Wire.decode_artifact_eq_ok body_run]
  constructor
  · rintro ⟨hlen, hinput, -⟩
    exact ⟨hlen, hinput⟩
  · rintro ⟨hlen, rfl⟩
    refine ⟨hlen, rfl, ?_⟩
    have hkn := P.kn_le
    have hbytes : response.toBytes.length = (P.KN + 1) / 2 + 41 := by
      simp [toBytes, bodyBytes, Wire.packNibbles_eq, packed_length, Wire.header_length, hlen]
      omega
    unfold Wire.maxBytes
    unfold MayoParams.KN at hbytes
    omega

end VoleAct.Act
