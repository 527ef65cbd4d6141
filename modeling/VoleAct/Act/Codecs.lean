/-
  VoleAct.Act.Codecs

  The codecs of all protocol artifacts, side by side.

  Each artifact has a pair of an encoder and a decoder of its own, generic in the
  parameter set and in the markers.  What they have in common is stated once, over
  the table of the pairs: a decoder accepts exactly the encodings of the values
  that fit it, and the envelope tells the decoders apart.
-/
import VoleAct.Act.Client
import VoleAct.Act.IssuerKey
import VoleAct.Act.Settlement

namespace VoleAct.Act

open VoleAct.BinaryFields VoleAct.Lib VoleAct.Mayo VoleAct.Voleith

variable {H : Xof} {P : MayoParams} {K : CredentialKind} {S : SettlementMode} {ρ : Type}

/-- Encoding a public key succeeds for keys that fit. -/
theorem PublicKey.exists_toBytes (hP : P.KeysFit) {ε : Type} (pk : PublicKey H P) :
    ∃ input, (pk.toBytes : Outcome ε _) = .ok input := by
  rw [toBytes]
  exact ⟨_, by
    rw [show putKey pk.profile pk.applicationContext pk.mayo.toBytes = .ok _ from
      (fields_fit hP pk).put]
    rfl⟩

/-- The artifacts, one for each decoder. -/
inductive Artifact where
  | publicKey
  | issuerKey
  | issueRequest
  | issueResponse
  | pendingIssue
  | token (K : CredentialKind)
  | spendRequest (K : CredentialKind) (S : SettlementMode)
  | spendResponse (K : CredentialKind) (S : SettlementMode)
  | pendingSpend (K : CredentialKind) (S : SettlementMode)
  | retryRecord
  deriving DecidableEq

/-- An encoder, which may panic, and a decoder. -/
structure ArtifactCodec (α : Type) where
  encode : α → Outcome Error (List U8)
  decode : List U8 → Outcome WireError α

namespace Artifact

/-- The values of an artifact. -/
def Value (H : Xof) (P : MayoParams) : Artifact → Type
  | publicKey => PublicKey H P
  | issuerKey => IssuerKey H P
  | issueRequest => IssueRequest P
  | issueResponse => IssueResponse P
  | pendingIssue => PendingIssue P
  | token K => Token P K
  | spendRequest K S => TypedSpendRequest P K S
  | spendResponse K S => TypedSpendResponse P K S
  | pendingSpend K S => TypedPendingSpend P K S
  | retryRecord => RetryRecord P

/-- The `to_bytes` and `from_bytes` of an artifact; client state is restored for a public key. -/
def codec (pk : PublicKey H P) : (a : Artifact) → ArtifactCodec (a.Value H P)
  | publicKey => ⟨PublicKey.toBytes, fun b => Outcome.ofResult id (PublicKey.fromBytes H P b)⟩
  | issuerKey => ⟨IssuerKey.keyBytes, fun b => Outcome.ofResult id (IssuerKey.fromKeyBytes H P b)⟩
  | issueRequest => ⟨IssueRequest.toBytes, fun b => Outcome.ofResult id (IssueRequest.fromBytes P b)⟩
  | issueResponse =>
      ⟨fun v => .ok v.toBytes, fun b => Outcome.ofResult id (IssueResponse.fromBytes P b)⟩
  | pendingIssue => ⟨fun v => .ok v.toBytes, PendingIssue.fromBytes pk⟩
  | token K => ⟨fun v => .ok v.toBytes, Token.fromBytes pk K⟩
  | spendRequest K S =>
      ⟨TypedSpendRequest.toBytes, fun b => Outcome.ofResult id (TypedSpendRequest.fromBytes P K S b)⟩
  | spendResponse K S => ⟨fun v => .ok v.toBytes, TypedSpendResponse.fromBytes P K S⟩
  | pendingSpend K S => ⟨fun v => .ok v.toBytes, TypedPendingSpend.fromBytes pk K S⟩
  | retryRecord => ⟨fun v => .ok v.toBytes, fun b => Outcome.ofResult id (RetryRecord.fromBytes P b)⟩

/-! ## What the decoders accept -/

/-- The values a decoder can return. -/
def Fits (pk : PublicKey H P) : (a : Artifact) → a.Value H P → Prop
  | publicKey, _ => True
  | issuerKey, _ => True
  | issueRequest, (v : IssueRequest P) => v.commitment.length = P.M ∧ Wire.Encodable v.proof
  | issueResponse, (v : IssueResponse P) => v.signature.length = P.KN
  | pendingIssue, (v : PendingIssue P) => v.Opens pk
  | token _, (v : Token P _) => v.Authentic pk
  | spendRequest _ _, (v : TypedSpendRequest P _ _) =>
      v.freshCommitment.length = P.M ∧ Wire.Encodable v.proof
  | spendResponse _ S, (v : TypedSpendResponse P _ S) =>
      v.signature.length = P.KN ∧ (S = .fixedSpend → v.returnAmount = 0)
  | pendingSpend _ _, (v : TypedPendingSpend P _ _) => v.Opens pk
  | retryRecord, (v : RetryRecord P) => v.response.signature.length = P.KN

/-- A decoder accepts exactly the encodings of the values that fit it. -/
theorem decode_eq_ok (hP : P.KeysFit) (pk : PublicKey H P) (a : Artifact)
    {v : a.Value H P} {b : List U8} :
    (a.codec pk).decode b = .ok v ↔ a.Fits pk v ∧ (a.codec pk).encode v = .ok b := by
  -- for encoders that cannot fail, and for types that carry their invariant
  have hpure {fits : Prop} {bytes : List U8} :
      fits ∧ b = bytes ↔ fits ∧ (.ok bytes : Outcome Error (List U8)) = .ok b :=
    and_congr_right fun _ => ⟨fun h => congrArg Except.ok h.symm, fun h => (Except.ok.inj h).symm⟩
  have hkey {p : Prop} : p ↔ True ∧ p := ⟨fun h => ⟨trivial, h⟩, And.right⟩
  cases a with
  | publicKey =>
      exact Outcome.ofResult_eq_ok.trans ((PublicKey.toBytes_eq_ok hP v).symm.trans hkey)
  | issuerKey =>
      exact Outcome.ofResult_eq_ok.trans ((IssuerKey.keyBytes_eq_ok hP v).symm.trans hkey)
  | issueRequest => exact Outcome.ofResult_eq_ok.trans IssueRequest.fromBytes_eq_ok
  | issueResponse => exact Outcome.ofResult_eq_ok.trans (IssueResponse.fromBytes_eq_ok.trans hpure)
  | pendingIssue => exact PendingIssue.fromBytes_eq_ok.trans hpure
  | token K => exact Token.fromBytes_eq_ok.trans hpure
  | spendRequest K S => exact Outcome.ofResult_eq_ok.trans TypedSpendRequest.fromBytes_eq_ok
  | spendResponse K S => exact TypedSpendResponse.fromBytes_eq_ok.trans hpure
  | pendingSpend K S => exact TypedPendingSpend.fromBytes_eq_ok.trans hpure
  | retryRecord => exact Outcome.ofResult_eq_ok.trans (RetryRecord.fromBytes_eq_ok.trans hpure)

/-- Every value that fits is encoded without a panic. -/
theorem exists_encode (hP : P.KeysFit) (pk : PublicKey H P) (a : Artifact)
    {v : a.Value H P} (h : a.Fits pk v) : ∃ b, (a.codec pk).encode v = .ok b := by
  cases a with
  | publicKey => exact PublicKey.exists_toBytes hP v
  | issuerKey => exact IssuerKey.exists_keyBytes hP v
  | issueRequest =>
      obtain ⟨-, hproof⟩ : _ ∧ Wire.Encodable _ := h
      exact (IssueRequest.exists_toBytes hproof).imp fun _ hbytes => hbytes _
  | spendRequest K S =>
      obtain ⟨-, hproof⟩ : _ ∧ Wire.Encodable _ := h
      exact (TypedSpendRequest.exists_toBytes hproof).imp fun _ hbytes => hbytes _
  | issueResponse => exact ⟨_, rfl⟩
  | pendingIssue => exact ⟨_, rfl⟩
  | token K => exact ⟨_, rfl⟩
  | spendResponse K S => exact ⟨_, rfl⟩
  | pendingSpend K S => exact ⟨_, rfl⟩
  | retryRecord => exact ⟨_, rfl⟩

/-! ## Telling the decoders apart -/

/-- The artifact and credential bytes of an envelope. -/
def ids : Artifact → U8 × U8
  | publicKey => (wirePublicKey, 0)
  | issuerKey => (wireIssuerKey, 0)
  | issueRequest => (wireIssueRequest, 0)
  | issueResponse => (wireIssueResponse, 0)
  | pendingIssue => (wirePendingIssue, 0)
  | token K => (wireToken, K.wireId)
  | spendRequest K _ => (wireSpendRequest, K.wireId)
  | spendResponse K _ => (wireSpendResponse, K.wireId)
  | pendingSpend K _ => (wirePendingSpend, K.wireId)
  | retryRecord => (wireRetryRecord, 0)

/-- The settlement byte; a retry record has that of its response. -/
def settlementId : (a : Artifact) → a.Value H P → U8
  | spendRequest _ S, _ => S.wireId
  | spendResponse _ S, _ => S.wireId
  | pendingSpend _ S, _ => S.wireId
  | retryRecord, (v : RetryRecord P) => v.response.settlement.wireId
  | _, _ => 0

/-- The kind and the settlement that a byte stands for. -/
def kindOf (id : U8) : CredentialKind := if id = 1#8 then .direct else .deferredReturn

def settlementOf (id : U8) : SettlementMode := if id = 1#8 then .fixedSpend else .deferredReturnSpend

theorem kindOf_wireId (K : CredentialKind) : kindOf K.wireId = K := by
  cases K <;> rfl

theorem settlementOf_wireId (S : SettlementMode) : settlementOf S.wireId = S := by
  cases S <;> rfl

/-- The artifact of an envelope. -/
def ofIds (ids : U8 × U8) (settlement : U8) : Artifact :=
  match ids.1.toNat with
  | 1 => publicKey
  | 2 => issuerKey
  | 3 => issueRequest
  | 4 => issueResponse
  | 5 => pendingIssue
  | 6 => token (kindOf ids.2)
  | 7 => spendRequest (kindOf ids.2) (settlementOf settlement)
  | 8 => spendResponse (kindOf ids.2) (settlementOf settlement)
  | 9 => pendingSpend (kindOf ids.2) (settlementOf settlement)
  | _ => retryRecord

theorem ofIds_ids (a : Artifact) (v : a.Value H P) : ofIds a.ids (a.settlementId v) = a := by
  cases a with
  | token K => exact congrArg token (kindOf_wireId K)
  | spendRequest K S => exact congrArg₂ spendRequest (kindOf_wireId K) (settlementOf_wireId S)
  | spendResponse K S => exact congrArg₂ spendResponse (kindOf_wireId K) (settlementOf_wireId S)
  | pendingSpend K S => exact congrArg₂ pendingSpend (kindOf_wireId K) (settlementOf_wireId S)
  | publicKey => rfl
  | issuerKey => rfl
  | issueRequest => rfl
  | issueResponse => rfl
  | pendingIssue => rfl
  | retryRecord => rfl

/-- Every encoding begins with the envelope of its artifact. -/
theorem header_of_encode (pk : PublicKey H P) (a : Artifact) {v : a.Value H P} {b : List U8}
    (h : (a.codec pk).encode v = .ok b) :
    ∃ rest, b = Wire.header a.ids.1 P.wireId a.ids.2 (a.settlementId v) ++ rest := by
  cases a with
  | publicKey =>
      obtain ⟨rest, -, h⟩ := Outcome.bind_eq_ok.mp h
      exact ⟨rest, (Except.ok.inj h).symm⟩
  | issuerKey =>
      obtain ⟨rest, -, h⟩ := Outcome.bind_eq_ok.mp h
      exact ⟨rest, (Except.ok.inj h).symm⟩
  | issueRequest => exact ⟨_, (IssueRequest.toBytes_eq_ok.mp h).2⟩
  | spendRequest K S => exact ⟨_, (TypedSpendRequest.toBytes_eq_ok.mp h).2⟩
  | issueResponse => exact ⟨_, (Except.ok.inj h).symm⟩
  | pendingIssue => exact ⟨_, (Except.ok.inj h).symm⟩
  | token K => exact ⟨_, (Except.ok.inj h).symm⟩
  | spendResponse K S => exact ⟨_, (Except.ok.inj h).symm⟩
  | pendingSpend K S => exact ⟨_, (Except.ok.inj h).symm⟩
  | retryRecord => exact ⟨_, (Except.ok.inj h).symm⟩

end Artifact

/-! ## The values the API returns -/

/-- Issuance requests: prepared, or decoded. -/
inductive IssueRequest.Sent : IssueRequest P → Prop
  | prepared {H : Xof} {ρ : Type} [CryptoRngCore ρ] {pk : PublicKey H P} {balance : U64}
      {rng rng' : ρ} {pending : PendingIssue P} {request : IssueRequest P}
      (h : pk.prepareIssue balance rng = (.ok (pending, request), rng')) : Sent request
  | decoded {input : List U8} {request : IssueRequest P} (h : fromBytes P input = .ok request) :
      Sent request

/-- Issuance responses: issued, or decoded. -/
inductive IssueResponse.Sent : IssueResponse P → Prop
  | issued {H : Xof} {ρ : Type} [CryptoRngCore ρ] {issuer : IssuerKey H P}
      {request : IssueRequest P} {balance : U64} {rng rng' : ρ} {response : IssueResponse P}
      (h : issuer.issue request balance rng = (.ok response, rng')) : Sent response
  | decoded {input : List U8} {response : IssueResponse P} (h : fromBytes P input = .ok response) :
      Sent response

/-- Spend requests: prepared from any value of the token type, or decoded. -/
inductive TypedSpendRequest.Sent : TypedSpendRequest P K S → Prop
  | prepared {H : Xof} {ρ : Type} [CryptoRngCore ρ] {pk : PublicKey H P} {token : Token P K}
      {spend : U64} {rng rng' : ρ} {pending : TypedPendingSpend P K S}
      {request : TypedSpendRequest P K S}
      (h : token.prepareTypedSpend S pk spend rng = (.ok (pending, request), rng')) : Sent request
  | decoded {input : List U8} {request : TypedSpendRequest P K S}
      (h : fromBytes P K S input = .ok request) : Sent request

/-- Retry records: proposed to a store by a call, or decoded. -/
inductive RetryRecord.Kept : RetryRecord P → Prop
  | proposed {H : Xof} {ρ : Type} [CryptoRngCore ρ] {K : CredentialKind} {S : SettlementMode}
      {issuer : IssuerKey H P} {request : TypedSpendRequest P K S} {digest : Bytes 32}
      {returnAmount : U64} {rng rng' : ρ} {record : RetryRecord P}
      (hreturn : S = .fixedSpend → returnAmount = 0)
      (h : issuer.propose request digest returnAmount rng = (.ok record, rng')) : Kept record
  | decoded {input : List U8} {record : RetryRecord P} (h : fromBytes P input = .ok record) :
      Kept record

/-- A store of such records. -/
def MemoryNullifierStore.Kept (store : MemoryNullifierStore P) : Prop :=
  ∀ nullifier record, store.lookup nullifier = some record → record.Kept

/-- Spend responses: answered by an issuer over such a store, or decoded. -/
inductive TypedSpendResponse.Sent : TypedSpendResponse P K S → Prop
  | settled {H : Xof} {ρ : Type} [CryptoRngCore ρ] {issuer : Issuer H P (MemoryNullifierStore P)}
      {request : TypedSpendRequest P K S} {returnAmount : U64} {rng : ρ}
      {response : TypedSpendResponse P K S} (hstore : issuer.spent.Kept)
      (hreturn : S = .fixedSpend → returnAmount = 0)
      (h : (issuer.settle request returnAmount rng).1 = .ok response) : Sent response
  | decoded {input : List U8} {response : TypedSpendResponse P K S}
      (h : fromBytes P K S input = .ok response) : Sent response

/-- What the API returns of an artifact; keys carry their invariants in their types. -/
def Artifact.Reachable (pk : PublicKey H P) : (a : Artifact) → a.Value H P → Prop
  | publicKey, _ => True
  | issuerKey, _ => True
  | issueRequest, (v : IssueRequest P) => v.Sent
  | issueResponse, (v : IssueResponse P) => v.Sent
  | pendingIssue, (v : PendingIssue P) => v.Held pk
  | token K, (v : Token P K) => Token.Held pk K v
  | spendRequest _ _, (v : TypedSpendRequest P _ _) => TypedSpendRequest.Sent v
  | spendResponse _ _, (v : TypedSpendResponse P _ _) => TypedSpendResponse.Sent v
  | pendingSpend _ _, (v : TypedPendingSpend P _ _) => TypedPendingSpend.Held pk v
  | retryRecord, (v : RetryRecord P) => v.Kept

/-- A call keeps the records of its store among those proposed or decoded. -/
theorem Issuer.settle_kept [CryptoRngCore ρ] {issuer : Issuer H P (MemoryNullifierStore P)}
    (hstore : issuer.spent.Kept) {returnAmount : U64} (hreturn : S = .fixedSpend → returnAmount = 0)
    (request : TypedSpendRequest P K S) (rng : ρ) :
    (issuer.settle request returnAmount rng).2.1.spent.Kept := by
  rw [settle]
  cases issuer.receive request with
  | error f => exact hstore
  | ok digest =>
      dsimp only
      rw [MemoryNullifierStore.get_eq]
      cases hlookup : issuer.spent.lookup request.nullifier with
      | some stored => exact hstore
      | none =>
          dsimp only
          rcases hpropose : issuer.propose request digest returnAmount rng with
            ⟨f | candidate, rng'⟩
          · exact hstore
          · dsimp only
            -- the one record that is written was proposed by this call
            rw [MemoryNullifierStore.insertIfAbsent_of_none hlookup]
            intro nullifier record h
            dsimp only at h
            rw [MemoryNullifierStore.lookup_insert] at h
            split at h
            · obtain rfl := Option.some.inj h
              exact .proposed hreturn hpropose
            · exact hstore nullifier record h

/-! ## They fit their decoders -/

theorem IssueRequest.Sent.fits {request : IssueRequest P} (h : request.Sent) :
    request.commitment.length = P.M ∧ Wire.Encodable request.proof := by
  cases h with
  | @prepared H ρ _ pk balance rng rng' _ _ h =>
      obtain ⟨pending, request', h', hopens, -, hcommitment, -, hproof⟩ :=
        pk.prepareIssue_spec balance rng
      rw [h] at h'
      obtain ⟨rfl, rfl⟩ := Prod.mk.inj (Except.ok.inj h')
      rw [hcommitment, hopens.commitment_eq]
      exact ⟨credentialTarget_length P _ _ _ _, hproof⟩
  | decoded h => exact ((fromBytes_eq_ok (ε := Error)).mp h).1

theorem IssueResponse.Sent.fits {response : IssueResponse P} (h : response.Sent) :
    response.signature.length = P.KN := by
  cases h with
  | @issued H ρ _ issuer request balance rng rng' _ h =>
      rcases issuer.issue_cases request balance rng with ⟨f, h'⟩ | ⟨-, rng'', h'⟩ |
        ⟨response', rng'', h', -, -, hlen, -⟩
      · exact nomatch (Prod.mk.inj (h.symm.trans h')).1
      · exact nomatch (Prod.mk.inj (h.symm.trans h')).1
      · obtain rfl := Except.ok.inj (Prod.mk.inj (h.symm.trans h')).1
        exact hlen
  | decoded h => exact (fromBytes_eq_ok.mp h).1

theorem TypedSpendRequest.Sent.fits {request : TypedSpendRequest P K S}
    (h : TypedSpendRequest.Sent request) :
    request.freshCommitment.length = P.M ∧ Wire.Encodable request.proof := by
  cases h with
  | prepared h =>
      have hprepared := Prepared.of_prepare h
      exact ⟨hprepared.length_freshCommitment, hprepared.encodable⟩
  | decoded h => exact ((fromBytes_eq_ok (ε := Error)).mp h).1

theorem RetryRecord.Kept.fits {record : RetryRecord P} (h : record.Kept) :
    record.response.signature.length = P.KN := by
  cases h with
  | @proposed H ρ _ K S issuer request digest returnAmount rng rng' _ hreturn h =>
      rcases issuer.propose_cases hreturn request digest rng with ⟨f, -, h'⟩ | ⟨-, rng'', h'⟩ |
        ⟨record', rng'', h', -, hproposal⟩
      · exact nomatch (Prod.mk.inj (h.symm.trans h')).1
      · exact nomatch (Prod.mk.inj (h.symm.trans h')).1
      · obtain rfl := Except.ok.inj (Prod.mk.inj (h.symm.trans h')).1
        exact hproposal.length_signature
  | decoded h => exact (fromBytes_eq_ok.mp h).1

theorem TypedSpendResponse.Sent.fits {response : TypedSpendResponse P K S}
    (h : TypedSpendResponse.Sent response) :
    response.signature.length = P.KN ∧ (S = .fixedSpend → response.returnAmount = 0) := by
  cases h with
  | @settled H ρ _ issuer request returnAmount rng _ hstore hreturn h =>
      obtain ⟨stored, digest, hkept, hrespond⟩ : ∃ (stored : RetryRecord P) (digest : Bytes 32),
          stored.Kept ∧ stored.respond K S digest = .ok response := by
        rcases issuer.settle_cases hreturn request rng with ⟨f, -, h'⟩ | ⟨digest, -,
          ⟨stored, hlookup, h'⟩ | ⟨-, ⟨f, -, h'⟩ | ⟨-, rng', h'⟩ | ⟨candidate, rng', h', -⟩⟩⟩
        · rw [h'] at h
          exact nomatch h
        · rw [h'] at h
          exact ⟨stored, digest, hstore _ _ hlookup, h⟩
        · rw [h'] at h
          exact nomatch h
        · rw [h'] at h
          exact nomatch h
        · -- the new record is in the store after the call
          have hafter := Issuer.settle_kept hstore hreturn request rng
          rw [h'] at h hafter
          refine ⟨candidate, digest, hafter request.nullifier candidate ?_, h⟩
          show MemoryNullifierStore.lookup ⟨_⟩ _ = _
          rw [MemoryNullifierStore.lookup_insert, if_pos rfl]
      obtain ⟨⟨-, rfl⟩, rfl⟩ := RetryRecord.respond_eq_ok.mp hrespond
      exact ⟨hkept.fits, fun hfixed => RetryResponse.returnAmount_of_fixed hfixed⟩
  | decoded h => exact (fromBytes_eq_ok.mp h).1

theorem Artifact.Reachable.fits {pk : PublicKey H P} {a : Artifact} {v : a.Value H P}
    (h : a.Reachable pk v) : a.Fits pk v := by
  cases a with
  | publicKey => trivial
  | issuerKey => trivial
  | issueRequest => exact IssueRequest.Sent.fits h
  | issueResponse => exact IssueResponse.Sent.fits h
  | pendingIssue => exact PendingIssue.Held.opens h
  | token K => exact Token.Held.authentic h
  | spendRequest K S => exact TypedSpendRequest.Sent.fits h
  | spendResponse K S => exact TypedSpendResponse.Sent.fits h
  | pendingSpend K S => exact TypedPendingSpend.Held.opens h
  | retryRecord => exact RetryRecord.Kept.fits h

/-- The protocol codecs are canonical.  For every parameter set and artifact, what is decoded
    encodes back to exactly the bytes read; one decoder at most accepts a byte string; and every
    value the API returns is encoded, and decoded again as itself: a key with the context and the
    terms it had, a pending state with its commitment. -/
theorem protocol_codecs_canonical (H : Xof) :
    (∀ P ∈ MayoParams.supported, ∀ (pk : PublicKey H P) (a : Artifact) (b : List U8)
      (v : a.Value H P), (a.codec pk).decode b = .ok v → (a.codec pk).encode v = .ok b) ∧
    (∀ P ∈ MayoParams.supported, ∀ P' ∈ MayoParams.supported, ∀ (pk : PublicKey H P)
      (pk' : PublicKey H P') (a a' : Artifact) (b : List U8) (v : a.Value H P)
      (v' : a'.Value H P'), (a.codec pk).decode b = .ok v → (a'.codec pk').decode b = .ok v' →
        P = P' ∧ a = a') ∧
    ∀ P ∈ MayoParams.supported, ∀ (pk : PublicKey H P) (a : Artifact) (v : a.Value H P),
      a.Reachable pk v → ∃ b, (a.codec pk).encode v = .ok b ∧ (a.codec pk).decode b = .ok v := by
  refine ⟨fun P hP pk a b v h => ((a.decode_eq_ok (.of_supported hP) pk).mp h).2, ?_, ?_⟩
  · intro P hP P' hP' pk pk' a a' b v v' h h'
    obtain ⟨rest, hb⟩ := a.header_of_encode pk ((a.decode_eq_ok (.of_supported hP) pk).mp h).2
    obtain ⟨rest', hb'⟩ := a'.header_of_encode pk' ((a'.decode_eq_ok (.of_supported hP') pk').mp h').2
    obtain ⟨⟨hartifact, hparams, hkind, hsettlement⟩, -⟩ := Wire.header_inj (hb.symm.trans hb')
    refine ⟨MayoParams.eq_of_wireId hP hP' hparams, ?_⟩
    rw [← Artifact.ofIds_ids a v, Prod.ext hartifact hkind, hsettlement, Artifact.ofIds_ids a' v']
  · intro P hP pk a v h
    obtain ⟨b, hb⟩ := a.exists_encode (.of_supported hP) pk h.fits
    exact ⟨b, hb, (a.decode_eq_ok (.of_supported hP) pk).mpr ⟨h.fits, hb⟩⟩

/-- An issuer of the second parameter set, for examples of codecs. -/
def generatedIssuer (H : Xof) : IssuerKey H mayo2 :=
  IssuerKey.derive H (trapgen mayo2 (RepeatRng.mk 7#32)).1.1 .compact [1#8, 2#8] (by decide)
    (trapgen_isUpper mayo2 _)

/-- A client of it keeps the pending state of an issuance of five credits, and sends the request. -/
theorem protocol_codecs_canonical_generated :
    let pk := (generatedIssuer fun _ i => BitVec.ofNat 8 i).publicKey
    ∃ pending request b b', (pk.prepareIssue 5 (RepeatRng.mk 7#32)).1 = .ok (pending, request) ∧
      ((Artifact.pendingIssue.codec pk).encode pending = .ok b ∧
        (Artifact.pendingIssue.codec pk).decode b = .ok pending) ∧
      (Artifact.issueRequest.codec pk).encode request = .ok b' ∧
        (Artifact.issueRequest.codec pk).decode b' = .ok request := by
  intro pk
  obtain ⟨pending, request, hprepare, -⟩ := pk.prepareIssue_spec 5 (RepeatRng.mk 7#32)
  have hprepared : pk.prepareIssue 5 (RepeatRng.mk 7#32) = (.ok (pending, request), _) :=
    Prod.ext hprepare rfl
  have hP : mayo2 ∈ MayoParams.supported := by simp [MayoParams.supported]
  obtain ⟨b, hb⟩ := (protocol_codecs_canonical _).2.2 mayo2 hP pk .pendingIssue pending
    (PendingIssue.Held.prepared hprepared)
  obtain ⟨b', hb'⟩ := (protocol_codecs_canonical _).2.2 mayo2 hP pk .issueRequest request
    (IssueRequest.Sent.prepared hprepared)
  exact ⟨pending, request, b, b', hprepare, hb, hb'⟩

end VoleAct.Act
