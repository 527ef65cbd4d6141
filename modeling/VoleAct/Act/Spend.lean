/-
  VoleAct.Act.Spend

  Spend requests, responses, pending spends and request digests
  (`protocol/spend.rs`).

  The two settlements share every artifact; the types are indexed by the kind of
  the input credential and by the settlement, as the source's are.
-/
import VoleAct.Act.Token

namespace VoleAct.Act

open VoleAct.BinaryFields VoleAct.Lib VoleAct.Mayo VoleAct.Voleith

/-- `WIRE_SPEND_REQUEST`, `WIRE_SPEND_RESPONSE` and `WIRE_PENDING_SPEND`. -/
def wireSpendRequest : U8 := 7#8

def wireSpendResponse : U8 := 8#8

def wirePendingSpend : U8 := 9#8

/-- Typed spend request. -/
structure TypedSpendRequest (P : MayoParams) (K : CredentialKind) (S : SettlementMode) where
  spend : U64
  nullifier : Bytes 32
  freshCommitment : List GF16
  proof : Proof

/-- Typed issuer response. -/
structure TypedSpendResponse (P : MayoParams) (K : CredentialKind) (S : SettlementMode) where
  signature : List GF16
  returnAmount : U64
  salt : Bytes 32
  deriving DecidableEq

/-- Typed client-side state retained while a spend is in flight. -/
structure TypedPendingSpend (P : MayoParams) (K : CredentialKind) (S : SettlementMode) where
  context : Bytes 32
  freshKey : Bytes 32
  freshBaseBalance : U64
  freshNonce : Bytes 32
  freshCommitment : List GF16
  requestDigest : Bytes 32
  deriving DecidableEq

abbrev SpendRequest (P : MayoParams) (K : CredentialKind) := TypedSpendRequest P K .fixedSpend

abbrev DeferredReturnSpendRequest (P : MayoParams) (K : CredentialKind) :=
  TypedSpendRequest P K .deferredReturnSpend

abbrev SpendResponse (P : MayoParams) (K : CredentialKind) := TypedSpendResponse P K .fixedSpend

abbrev DeferredReturnSpendResponse (P : MayoParams) (K : CredentialKind) :=
  TypedSpendResponse P K .deferredReturnSpend

abbrev PendingSpend (P : MayoParams) (K : CredentialKind) := TypedPendingSpend P K .fixedSpend

abbrev PendingDeferredReturnSpend (P : MayoParams) (K : CredentialKind) :=
  TypedPendingSpend P K .deferredReturnSpend

variable {H : Xof} {P : MayoParams} {K : CredentialKind} {S : SettlementMode}

namespace TypedSpendRequest

def toBytes {ε : Type} (request : TypedSpendRequest P K S) : Outcome ε (List U8) := do
  let proof ← Wire.putProof request.proof
  return Wire.header wireSpendRequest P.wireId K.wireId S.wireId ++ le64 request.spend.toNat ++
    request.nullifier.toList ++ Wire.packNibbles request.freshCommitment ++ proof

def body (P : MayoParams) (K : CredentialKind) (S : SettlementMode) :
    Wire.WireDecoder (TypedSpendRequest P K S) := do
  let spend ← Wire.u64
  let nullifier ← Wire.array 32
  let freshCommitment ← Wire.nibbles P.M
  let proof ← Wire.proof
  return { spend, nullifier, freshCommitment, proof }

def fromBytes (P : MayoParams) (K : CredentialKind) (S : SettlementMode) (input : List U8) :
    Except WireError (TypedSpendRequest P K S) :=
  Wire.decode (Wire.artifact wireSpendRequest P.wireId K.wireId S.wireId (body P K S)) input

end TypedSpendRequest

namespace TypedSpendResponse

def bodyBytes (response : TypedSpendResponse P K S) : List U8 :=
  Wire.packNibbles response.signature ++ le64 response.returnAmount.toNat ++ response.salt.toList

def toBytes (response : TypedSpendResponse P K S) : List U8 :=
  Wire.header wireSpendResponse P.wireId K.wireId S.wireId ++ response.bodyBytes

def body (P : MayoParams) (K : CredentialKind) (S : SettlementMode) :
    Wire.WireDecoder (TypedSpendResponse P K S) := do
  let signature ← Wire.nibbles P.KN
  let returnAmount ← Wire.u64
  let salt ← Wire.array 32
  return { signature, returnAmount, salt }

/-- Decode a canonical response of exactly this type; an ordinary spend returns nothing. -/
def fromBytes (P : MayoParams) (K : CredentialKind) (S : SettlementMode) (input : List U8) :
    Outcome WireError (TypedSpendResponse P K S) := do
  let response ← Outcome.ofResult id
    (Wire.decode (Wire.artifact wireSpendResponse P.wireId K.wireId S.wireId (body P K S)) input)
  Outcome.require (!(S.wireId == SettlementMode.fixedSpend.wireId && response.returnAmount != 0))
    .invalidEncoding
  return response

end TypedSpendResponse

/-! ## The request digest -/

/-- `hash_framed` input. -/
def framed (bytes : List U8) : List U8 := le64 bytes.length ++ bytes

def spendRequestDigest {ε : Type} (H : Xof) (context : Bytes 32)
    (request : TypedSpendRequest P K S) : Outcome ε (Bytes 32) := do
  let bytes ← request.toBytes
  return H.digest 32 (ascii "VOLE-ACT/spend-request-digest/v5" ++ context.toList ++ framed bytes)

/-! ## Preparing -/

/-- The circuit of a spend. -/
def PublicKey.spendCircuit (pk : PublicKey H P) (K : CredentialKind) (spend : U64)
    (nullifier : Bytes 32) (freshCommitment : List GF16) : SpendCircuit P where
  terms := pk.terms
  terms_fit := pk.terms_fit
  context := pk.context
  spend := spend
  nullifier := nullifier
  freshCommitment := freshCommitment
  inputKind := inputKind K

/-- The checks of `prepare_typed_spend` before it draws randomness, and the balance. -/
def Token.checkSpend (token : Token P K) (pk : PublicKey H P) (spend : U64) :
    Outcome Error U64 := do
  Outcome.require (token.context == pk.context) .wrongContext
  pk.verifyToken token
  let balance ← token.balance
  Outcome.require (decide (spend ≤ balance)) .insufficientBalance
  return balance

/-- The secrets of a spend of a token. -/
def Token.spendSecrets (token : Token P K) (freshKey : Bytes 32) (freshBaseBalance : U64)
    (freshNonce : Bytes 32) : SpendSecrets where
  signature := token.signature
  key := token.key
  baseBalance := token.baseBalance
  nonce := token.nonce
  topup := token.topup
  salt := token.salt
  freshKey := freshKey
  freshBaseBalance := freshBaseBalance
  freshNonce := freshNonce

/-- The one-time nullifier of a token. -/
def Token.nullifier (token : Token P K) : Bytes 32 :=
  deriveNullifier P token.context token.key token.baseBalance token.nonce

/-- `prepare_typed_spend`. -/
def Token.prepareTypedSpend {ρ : Type} [CryptoRngCore ρ] (token : Token P K) (S : SettlementMode)
    (pk : PublicKey H P) (spend : U64) (rng : ρ) :
    Outcome Error (TypedPendingSpend P K S × TypedSpendRequest P K S) × ρ :=
  match token.checkSpend pk spend with
  | .error e => (.error e, rng)
  | .ok balance =>
      let freshBaseBalance := balance - spend
      let (freshKey, rng) := CryptoRngCore.fillBytes 32 rng
      let (freshNonce, rng) := CryptoRngCore.fillBytes 32 rng
      let freshCommitment :=
        credentialTarget P token.context freshKey freshBaseBalance freshNonce
      let nullifier := token.nullifier
      let circuit := { pk.spendCircuit K spend nullifier freshCommitment with
        context := token.context }
      match (circuit.witness (token.spendSecrets freshKey freshBaseBalance freshNonce) :
        Outcome Error (List Bool)) with
      | .error e => (.error e, rng)
      | .ok witness =>
          let statement := spendStatement P K S token.context spend nullifier freshCommitment
          let (proofResult, rng) := prove H pk.profile.params statement circuit.build witness rng
          (do
            let proof ← proofResult.mapErr proofError
            let request := { spend, nullifier, freshCommitment, proof }
            let requestDigest ← spendRequestDigest H token.context request
            return ({ context := token.context, freshKey, freshBaseBalance, freshNonce,
                      freshCommitment, requestDigest }, request),
            rng)

/-- Prepare an ordinary spend. -/
def Token.prepareSpend {ρ : Type} [CryptoRngCore ρ] (token : Token P K) (pk : PublicKey H P)
    (amount : U64) (rng : ρ) : Outcome Error (PendingSpend P K × SpendRequest P K) × ρ :=
  token.prepareTypedSpend .fixedSpend pk amount rng

/-- Prepare a spend whose return the issuer supplies. -/
def Token.prepareSpendWithDeferredReturn {ρ : Type} [CryptoRngCore ρ] (token : Token P K)
    (pk : PublicKey H P) (maximumSpend : U64) (rng : ρ) :
    Outcome Error (PendingDeferredReturnSpend P K × DeferredReturnSpendRequest P K) × ρ :=
  token.prepareTypedSpend .deferredReturnSpend pk maximumSpend rng

/-! ## Finishing -/

namespace TypedPendingSpend

/-- The fields of an encoded pending spend; the fresh commitment is recomputed. -/
def bodyBytes (pending : TypedPendingSpend P K S) : List U8 :=
  pending.context.toList ++ pending.freshKey.toList ++ le64 pending.freshBaseBalance.toNat ++
    pending.freshNonce.toList ++ pending.requestDigest.toList

def toBytes (pending : TypedPendingSpend P K S) : List U8 :=
  Wire.header wirePendingSpend P.wireId K.wireId S.wireId ++ pending.bodyBytes

def body (P : MayoParams) (K : CredentialKind) (S : SettlementMode) :
    Wire.WireDecoder (TypedPendingSpend P K S) := do
  let context ← Wire.array 32
  let freshKey ← Wire.array 32
  let freshBaseBalance ← Wire.u64
  let freshNonce ← Wire.array 32
  let requestDigest ← Wire.array 32
  let freshCommitment := credentialTarget P context freshKey freshBaseBalance freshNonce
  return { context, freshKey, freshBaseBalance, freshNonce, freshCommitment, requestDigest }

/-- Restore canonical pending-spend state for this public key. -/
def fromBytes (pk : PublicKey H P) (K : CredentialKind) (S : SettlementMode) (input : List U8) :
    Outcome WireError (TypedPendingSpend P K S) := do
  let pending ← Outcome.ofResult id
    (Wire.decode (Wire.artifact wirePendingSpend P.wireId K.wireId S.wireId (body P K S)) input)
  Outcome.require (pending.context == pk.context) .wrongArtifact
  return pending

def validateRequest (pending : TypedPendingSpend P K S) (pk : PublicKey H P)
    (request : TypedSpendRequest P K S) : Outcome Error Unit := do
  Outcome.require (pending.context == pk.context) .wrongContext
  let digest ← spendRequestDigest H pending.context request
  Outcome.require (digest == pending.requestDigest &&
    request.freshCommitment == pending.freshCommitment) .invalidRequest

/-- The tail of both `finish` functions: authenticate the response over the fresh opening with a
    return amount, and construct the token. -/
def settle (pending : TypedPendingSpend P K S) (pk : PublicKey H P) (K' : CredentialKind)
    (topup : U64) (response : TypedSpendResponse P K S) : Outcome Error (Token P K') := do
  let target := signedTokenTarget P pending.freshCommitment topup response.salt
  pk.checkSignature response.signature target
  return { context := pending.context, signature := response.signature, key := pending.freshKey,
           baseBalance := pending.freshBaseBalance, nonce := pending.freshNonce, topup := topup,
           salt := response.salt }

end TypedPendingSpend

/-- Validate the exact ordinary-spend artifacts and construct a direct change token. -/
def PendingSpend.finish (pending : PendingSpend P K) (pk : PublicKey H P)
    (request : SpendRequest P K) (response : SpendResponse P K) :
    Outcome Error (Token P .direct) := do
  pending.validateRequest pk request
  pending.settle pk .direct 0 response

/-- Validate the exact deferred-return artifacts and construct a deferred-return token. -/
def PendingDeferredReturnSpend.finish (pending : PendingDeferredReturnSpend P K)
    (pk : PublicKey H P) (request : DeferredReturnSpendRequest P K)
    (response : DeferredReturnSpendResponse P K) : Outcome Error (Token P .deferredReturn) := do
  pending.validateRequest pk request
  Outcome.require (!(decide (request.spend < response.returnAmount) ||
    (checkedAdd pending.freshBaseBalance response.returnAmount).isNone)) .invalidReturnAmount
  pending.settle pk .deferredReturn response.returnAmount response

/-! ## What a prepared spend consists of -/

/-- A spend is checked exactly when the token is the issuer's and holds the amount. -/
theorem Token.checkSpend_eq_ok {token : Token P K} {pk : PublicKey H P} {spend balance : U64} :
    token.checkSpend pk spend = .ok balance ↔
      (token.Authentic pk ∧ spend.toNat ≤ token.baseBalance.toNat + token.topup.toNat) ∧
        balance = token.baseBalance + token.topup := by
  simp only [checkSpend, Outcome.bind_eq_ok, Outcome.require_eq_ok, PublicKey.verifyToken_eq_ok,
    beq_iff_eq, decide_eq_true_iff]
  constructor
  · rintro ⟨_, -, _, hauth, balance', hbalance, _, hle, h⟩
    obtain rfl := Except.ok.inj h
    obtain rfl := Except.ok.inj (hbalance.symm.trans hauth.balance_eq)
    have hnat : spend.toNat ≤ (token.baseBalance + token.topup).toNat := hle
    rw [toNat_add_of_lt hauth.no_overflow] at hnat
    exact ⟨⟨hauth, hnat⟩, rfl⟩
  · rintro ⟨⟨hauth, hle⟩, rfl⟩
    refine ⟨(), hauth.context_eq, (), hauth, _, hauth.balance_eq, (), ?_, rfl⟩
    show spend.toNat ≤ (token.baseBalance + token.topup).toNat
    rwa [toNat_add_of_lt hauth.no_overflow]

/-- On a token of the issuer the balance is the only obstacle. -/
theorem Token.Authentic.checkSpend_eq_err {token : Token P K} {pk : PublicKey H P}
    (h : token.Authentic pk) {spend : U64} :
    token.checkSpend pk spend = Outcome.err .insufficientBalance ↔
      token.baseBalance.toNat + token.topup.toNat < spend.toNat := by
  have hcheck : token.checkSpend pk spend =
      (Outcome.require (decide (spend ≤ token.baseBalance + token.topup)) .insufficientBalance >>=
        fun _ => .ok (token.baseBalance + token.topup)) := by
    have hverify : pk.verifyToken token = .ok () := PublicKey.verifyToken_eq_ok.mpr h
    rw [checkSpend, h.context_eq, beq_self_eq_true, Outcome.require_true, Outcome.ok_bind,
      hverify, Outcome.ok_bind, h.balance_eq, Outcome.ok_bind]
    rfl
  have hle : spend ≤ token.baseBalance + token.topup ↔
      spend.toNat ≤ token.baseBalance.toNat + token.topup.toNat := by
    rw [BitVec.le_def, toNat_add_of_lt h.no_overflow]
  rw [hcheck, ← Nat.not_le, ← hle]
  by_cases hspend : spend ≤ token.baseBalance + token.topup
  · rw [decide_eq_true hspend]
    exact iff_of_false (fun heq => nomatch heq) (not_not_intro hspend)
  · rw [decide_eq_false hspend]
    exact iff_of_true rfl hspend

/-- What a pending spend of an issuer carries: the commitment of its fresh opening. -/
structure TypedPendingSpend.Opens (pk : PublicKey H P) (pending : TypedPendingSpend P K S) :
    Prop where
  context_eq : pending.context = pk.context
  commitment_eq : pending.freshCommitment =
    credentialTarget P pending.context pending.freshKey pending.freshBaseBalance pending.freshNonce

/-- The verification of a spend request. -/
def PublicKey.verifySpend (pk : PublicKey H P) (request : TypedSpendRequest P K S) :
    Outcome VoleithError Unit :=
  verify H pk.profile.params
    (spendStatement P K S pk.context request.spend request.nullifier request.freshCommitment)
    (pk.spendCircuit K request.spend request.nullifier request.freshCommitment).build request.proof

/-- A spend of a token that the issuer will accept, and the state to finish it. -/
structure Prepared (pk : PublicKey H P) (token : Token P K) (spend : U64)
    (pending : TypedPendingSpend P K S) (request : TypedSpendRequest P K S) : Prop where
  opens : pending.Opens pk
  fresh_balance : pending.freshBaseBalance.toNat + spend.toNat =
    token.baseBalance.toNat + token.topup.toNat
  spend_eq : request.spend = spend
  nullifier_eq : request.nullifier = token.nullifier
  freshCommitment_eq : request.freshCommitment = pending.freshCommitment
  digest : ∀ ε : Type, (spendRequestDigest H pk.context request : Outcome ε _) =
    .ok pending.requestDigest
  accepted : pk.verifySpend request = .ok ()
  encodable : Wire.Encodable request.proof

theorem Prepared.length_freshCommitment {pk : PublicKey H P} {token : Token P K} {spend : U64}
    {pending : TypedPendingSpend P K S} {request : TypedSpendRequest P K S}
    (h : Prepared pk token spend pending request) : request.freshCommitment.length = P.M := by
  rw [h.freshCommitment_eq, h.opens.commitment_eq]
  exact credentialTarget_length P _ _ _ _

/-- The proof of the witness of a valid spend is accepted. -/
theorem PublicKey.prove_spend {ρ : Type} [CryptoRngCore ρ] (pk : PublicKey H P) {spend : U64}
    {nullifier : Bytes 32} {freshCommitment : List GF16} {s : SpendSecrets} (statement : List U8)
    {witness : List Bool} (rng : ρ) (hfresh : freshCommitment.length = P.M)
    (hrel : SpendRelation pk.mayo (pk.spendCircuit K spend nullifier freshCommitment) s)
    (hwitness : (pk.spendCircuit K spend nullifier freshCommitment).witness s =
      (.ok witness : Outcome VoleithError (List Bool))) :
    ∃ proof, (prove H pk.profile.params statement
        (pk.spendCircuit K spend nullifier freshCommitment).build witness rng).1 = .ok proof ∧
      verify H pk.profile.params statement
        (pk.spendCircuit K spend nullifier freshCommitment).build proof = .ok () ∧
      Wire.Encodable proof := by
  obtain ⟨ops, hbuild, hbits, hdeg, hsat⟩ := spend_exact
    (pk.spendCircuit K spend nullifier freshCommitment) pk.terms_eq hfresh
  obtain ⟨bits, hbitsok, hlen⟩ := SpendCircuit.witness_ok
    (pk.spendCircuit K spend nullifier freshCommitment) hrel.length_signature hrel.no_overflow
  obtain rfl := Except.ok.inj (hwitness.symm.trans (hbitsok _))
  -- the witness satisfies the circuit, since its secrets are related
  have hseg := segment_assignment witness
  rw [hlen] at hseg
  have hsatisfied : Satisfies (assignment witness) ops :=
    (hsat _).mpr ⟨s, hseg.symm ▸ hwitness, hrel⟩
  have hkn := P.kn_le
  have hfits : Fits ops := fits_of_builtDegree (by omega) hdeg
  have hsmall : witnessBits ops ≤ 61440 := by
    unfold MayoParams.KN at hbits
    omega
  obtain ⟨proof, hproof, hverify, hproofFits, hdecodes⟩ := prove_accepted H
    pk.profile.params_valid statement hfits hsmall (hlen.trans hbits.symm) hsatisfied rng
  rw [← hbuild] at hproof hverify
  exact ⟨proof, hproof, hverify, hproofFits, hdecodes⟩

/-- The secrets of a spend of a token satisfy the relation of its circuit. -/
theorem Token.Authentic.spendRelation {token : Token P K} {pk : PublicKey H P}
    (h : token.Authentic pk) {spend freshBaseBalance : U64} (freshKey freshNonce : Bytes 32)
    (hfresh : freshBaseBalance.toNat + spend.toNat =
      token.baseBalance.toNat + token.topup.toNat) :
    SpendRelation pk.mayo
      (pk.spendCircuit K spend token.nullifier
        (credentialTarget P pk.context freshKey freshBaseBalance freshNonce))
      (token.spendSecrets freshKey freshBaseBalance freshNonce) where
  signed := by
    have hsigned := h.signed
    rwa [commitment, h.context_eq] at hsigned
  nullifier := by
    show deriveNullifier P pk.context _ _ _ = token.nullifier
    rw [nullifier, h.context_eq]
    rfl
  fresh := rfl
  balance := hfresh.symm
  no_overflow := h.no_overflow
  direct := fun hkind => h.direct (inputKind_direct.mp hkind)

theorem TypedSpendRequest.toBytes_eq_ok {ε : Type} {request : TypedSpendRequest P K S}
    {input : List U8} : (request.toBytes : Outcome ε _) = .ok input ↔
      (request.proof.Fits ∧ request.proof.encoding.length < 2 ^ 32) ∧
        input = Wire.header wireSpendRequest P.wireId K.wireId S.wireId ++
          (le64 request.spend.toNat ++ (request.nullifier.toList ++
            (Wire.packNibbles request.freshCommitment ++ Wire.proofBytes request.proof))) := by
  simp only [toBytes, Outcome.bind_eq_ok, Wire.putProof_eq_ok, List.append_assoc]
  constructor
  · rintro ⟨_, ⟨hfits, hlen, rfl⟩, h⟩
    exact ⟨⟨hfits, hlen⟩, (Except.ok.inj h).symm⟩
  · rintro ⟨⟨hfits, hlen⟩, rfl⟩
    exact ⟨_, ⟨hfits, hlen, rfl⟩, rfl⟩

/-- A request with an encodable proof is written. -/
theorem TypedSpendRequest.exists_toBytes {request : TypedSpendRequest P K S}
    (h : Wire.Encodable request.proof) :
    ∃ input, ∀ ε : Type, (request.toBytes : Outcome ε _) = .ok input :=
  ⟨_, fun _ => toBytes_eq_ok.mpr ⟨⟨h.fits, h.length_lt⟩, rfl⟩⟩

/-- Two requests with one encoding are one request of one kind and settlement. -/
theorem TypedSpendRequest.toBytes_inj {ε : Type} {K' : CredentialKind} {S' : SettlementMode}
    {request : TypedSpendRequest P K S} {request' : TypedSpendRequest P K' S'} {input : List U8}
    (hlen : request.freshCommitment.length = request'.freshCommitment.length)
    (h : (request.toBytes : Outcome ε _) = .ok input)
    (h' : (request'.toBytes : Outcome ε _) = .ok input) :
    (⟨K, S, request⟩ : Σ K S, TypedSpendRequest P K S) = ⟨K', S', request'⟩ := by
  obtain ⟨⟨hfits, -⟩, rfl⟩ := toBytes_eq_ok.mp h
  obtain ⟨⟨hfits', -⟩, heq⟩ := toBytes_eq_ok.mp h'
  -- the header gives the kind and the settlement, then the fields follow one by one
  obtain ⟨⟨-, -, hkind, hsettlement⟩, h0⟩ := Wire.header_inj heq
  obtain rfl := CredentialKind.wireId_inj hkind
  obtain rfl := SettlementMode.wireId_inj hsettlement
  obtain ⟨hspend, h1⟩ := le64_unique trivial trivial h0
  obtain ⟨hnullifier, h2⟩ := UniquePrefix.toList trivial trivial h1
  rw [Wire.packNibbles_eq, Wire.packNibbles_eq] at h2
  obtain ⟨hpacked, h3⟩ := List.append_inj h2 (by rw [packed_length, packed_length, hlen])
  obtain ⟨-, hencoding⟩ := List.append_inj h3 (by simp [le32])
  have hfresh := packed_inj hlen hpacked
  have hproof := Proof.encoding_inj hfits hfits' hencoding
  obtain ⟨spend, nullifier, freshCommitment, proof⟩ := request
  obtain ⟨spend', nullifier', freshCommitment', proof'⟩ := request'
  dsimp only at hspend hnullifier hfresh hproof
  rw [hspend, hnullifier, hfresh, hproof]

/-- The digest of a request that is written. -/
theorem spendRequestDigest_eq_ok {ε : Type} {context digest : Bytes 32}
    {request : TypedSpendRequest P K S} :
    (spendRequestDigest H context request : Outcome ε _) = .ok digest ↔
      ∃ bytes, (request.toBytes : Outcome ε _) = .ok bytes ∧
        digest = H.digest 32
          (ascii "VOLE-ACT/spend-request-digest/v5" ++ context.toList ++ framed bytes) := by
  rw [spendRequestDigest, Outcome.bind_eq_ok]
  exact exists_congr fun bytes => and_congr_right fun _ =>
    ⟨fun h => (Except.ok.inj h).symm, fun h => congrArg Except.ok h.symm⟩

theorem exists_spendRequestDigest (H : Xof) (context : Bytes 32) {request : TypedSpendRequest P K S}
    (h : Wire.Encodable request.proof) :
    ∃ digest, ∀ ε : Type, (spendRequestDigest H context request : Outcome ε _) = .ok digest := by
  obtain ⟨bytes, hbytes⟩ := TypedSpendRequest.exists_toBytes h
  exact ⟨_, fun ε => spendRequestDigest_eq_ok.mpr ⟨bytes, hbytes ε, rfl⟩⟩

/-- Both `prepare` functions succeed on every token of the issuer that holds the amount. -/
theorem Token.prepareTypedSpend_spec {ρ : Type} [CryptoRngCore ρ] {token : Token P K}
    (S : SettlementMode) {pk : PublicKey H P} {spend : U64} (hauth : token.Authentic pk)
    (hle : spend.toNat ≤ token.baseBalance.toNat + token.topup.toNat) (rng : ρ) :
    ∃ pending request, (token.prepareTypedSpend S pk spend rng).1 = .ok (pending, request) ∧
      Prepared pk token spend pending request := by
  have hcheck := checkSpend_eq_ok.mpr ⟨⟨hauth, hle⟩, rfl⟩
  -- the draws in the order of the source: fresh key, fresh nonce, then the prover's own
  let freshBaseBalance := token.baseBalance + token.topup - spend
  let freshKey := (CryptoRngCore.fillBytes 32 rng).1
  let rng1 := (CryptoRngCore.fillBytes 32 rng).2
  let freshNonce := (CryptoRngCore.fillBytes 32 rng1).1
  let rng2 := (CryptoRngCore.fillBytes 32 rng1).2
  let freshCommitment := credentialTarget P token.context freshKey freshBaseBalance freshNonce
  -- neither the sum nor the difference wraps
  have hsum := toNat_add_of_lt hauth.no_overflow
  have hbalance : freshBaseBalance.toNat + spend.toNat =
      token.baseBalance.toNat + token.topup.toNat := by
    have hspend : spend ≤ token.baseBalance + token.topup := by
      rw [BitVec.le_def, hsum]
      exact hle
    rw [BitVec.toNat_sub_of_le hspend, hsum]
    omega
  have hrel := hauth.spendRelation freshKey freshNonce hbalance
  rw [← hauth.context_eq] at hrel
  let c := pk.spendCircuit K spend token.nullifier freshCommitment
  -- the client builds the circuit with the context of the token, the verifier with that of the key
  have hcircuit : { c with context := token.context } = c := by
    rw [hauth.context_eq]
    rfl
  obtain ⟨witness, hwitness, -⟩ := SpendCircuit.witness_ok c hrel.length_signature hrel.no_overflow
  let statement := spendStatement P K S token.context spend token.nullifier freshCommitment
  obtain ⟨proof, hproof, hverify, hencodable⟩ := pk.prove_spend statement rng2
    (credentialTarget_length P _ _ _ _) hrel (hwitness VoleithError)
  let request : TypedSpendRequest P K S :=
    { spend, nullifier := token.nullifier, freshCommitment, proof }
  have hencodable' : Wire.Encodable request.proof := hencodable
  obtain ⟨requestDigest, hdigest⟩ := exists_spendRequestDigest H token.context hencodable'
  let pending (requestDigest : Bytes 32) : TypedPendingSpend P K S :=
    { context := token.context, freshKey, freshBaseBalance, freshNonce, freshCommitment,
      requestDigest }
  refine ⟨pending requestDigest, request, ?_, ?_⟩
  · have hrun : (token.prepareTypedSpend S pk spend rng).1 = ((prove H pk.profile.params statement
        c.build witness rng2).1.mapErr proofError >>= fun proof =>
          let request : TypedSpendRequest P K S :=
            { spend, nullifier := token.nullifier, freshCommitment, proof }
          spendRequestDigest H token.context request >>= fun requestDigest =>
            Except.ok (pending requestDigest, request)) := by
      have hwitness' := hwitness Error
      rw [← hcircuit] at hwitness'
      rw [← hcircuit]
      unfold prepareTypedSpend
      rw [hcheck]
      dsimp only
      rw [hwitness']
      rfl
    rw [hrun, hproof, Outcome.mapErr_ok, Outcome.ok_bind]
    show (spendRequestDigest H token.context request >>= _) = _
    rw [hdigest]
    rfl
  · refine ⟨⟨hauth.context_eq, rfl⟩, hbalance, rfl, rfl, rfl, ?_, ?_, hencodable⟩
    · rw [← hauth.context_eq]
      exact hdigest
    · rw [PublicKey.verifySpend, ← hauth.context_eq]
      exact hverify

/-- The fresh opening of a pending spend is what was drawn first, and its request has the proof of
    the witness of that opening and the token. -/
theorem Token.prepareTypedSpend_draws {ρ : Type} [CryptoRngCore ρ] {token : Token P K}
    {pk : PublicKey H P} {spend : U64} {rng : ρ} {pending : TypedPendingSpend P K S}
    {request : TypedSpendRequest P K S}
    (h : (token.prepareTypedSpend S pk spend rng).1 = .ok (pending, request)) :
    let c := pk.spendCircuit K request.spend request.nullifier request.freshCommitment
    (pending.freshKey = (CryptoRngCore.fillBytes 32 rng).1 ∧
      pending.freshNonce = (CryptoRngCore.fillBytes 32 (CryptoRngCore.fillBytes 32 rng).2).1) ∧
    ∃ (witness : List Bool) (rng' : ρ),
      c.witness (token.spendSecrets pending.freshKey pending.freshBaseBalance pending.freshNonce) =
        (.ok witness : Outcome Error (List Bool)) ∧
      (prove H pk.profile.params (spendStatement P K S pk.context request.spend request.nullifier
        request.freshCommitment) c.build witness rng').1 = .ok request.proof := by
  intro c
  unfold prepareTypedSpend at h
  split at h
  · cases h
  · rename_i balance hcheck
    have hcontext := (checkSpend_eq_ok.mp hcheck).1.1.context_eq
    have hcircuit (freshCommitment : List GF16) :
        { pk.spendCircuit K spend token.nullifier freshCommitment with context := token.context } =
          pk.spendCircuit K spend token.nullifier freshCommitment := by
      rw [hcontext]
      rfl
    dsimp only at h
    rw [hcircuit] at h
    split at h
    · cases h
    · rename_i witness hwitness
      obtain ⟨proof, hprove, hproof⟩ := Outcome.bind_eq_ok.mp h
      obtain ⟨digest, -, hdigest⟩ := Outcome.bind_eq_ok.mp hproof
      obtain ⟨rfl, rfl⟩ := Prod.mk.inj (Except.ok.inj hdigest)
      rw [← hcontext]
      exact ⟨⟨rfl, rfl⟩, witness, _, hwitness, Outcome.mapErr_eq_ok.mp hprove⟩

/-- The secrets of a prepared spend satisfy the relation of its request. -/
theorem Prepared.relation {pk : PublicKey H P} {token : Token P K} {spend : U64}
    {pending : TypedPendingSpend P K S} {request : TypedSpendRequest P K S}
    (h : Prepared pk token spend pending request) (hauth : token.Authentic pk) :
    SpendRelation pk.mayo
      (pk.spendCircuit K request.spend request.nullifier request.freshCommitment)
      (token.spendSecrets pending.freshKey pending.freshBaseBalance pending.freshNonce) := by
  rw [h.spend_eq, h.nullifier_eq, h.freshCommitment_eq, h.opens.commitment_eq, h.opens.context_eq]
  exact hauth.spendRelation _ _ h.fresh_balance

/-! ## What finishing establishes -/

theorem TypedPendingSpend.validateRequest_eq_ok {pending : TypedPendingSpend P K S}
    {pk : PublicKey H P} {request : TypedSpendRequest P K S} {u : Unit} :
    pending.validateRequest pk request = .ok u ↔
      pending.context = pk.context ∧
        (spendRequestDigest H pending.context request : Outcome Error _) =
          .ok pending.requestDigest ∧
        request.freshCommitment = pending.freshCommitment := by
  simp only [validateRequest, Outcome.bind_eq_ok, Outcome.require_eq_ok, beq_iff_eq,
    Bool.and_eq_true]
  constructor
  · rintro ⟨_, hcontext, digest, hdigest, rfl, hfresh⟩
    exact ⟨hcontext, hdigest, hfresh⟩
  · rintro ⟨hcontext, hdigest, hfresh⟩
    exact ⟨(), hcontext, _, hdigest, rfl, hfresh⟩

/-- A pending spend recognizes the request it was made with. -/
theorem Prepared.validateRequest {pk : PublicKey H P} {token : Token P K} {spend : U64}
    {pending : TypedPendingSpend P K S} {request : TypedSpendRequest P K S}
    (h : Prepared pk token spend pending request) : pending.validateRequest pk request = .ok () :=
  TypedPendingSpend.validateRequest_eq_ok.mpr ⟨h.opens.context_eq,
    h.opens.context_eq ▸ h.digest Error, h.freshCommitment_eq⟩

/-- The token a settled response stands for. -/
def TypedPendingSpend.token (pending : TypedPendingSpend P K S) (K' : CredentialKind) (topup : U64)
    (response : TypedSpendResponse P K S) : Token P K' where
  context := pending.context
  signature := response.signature
  key := pending.freshKey
  baseBalance := pending.freshBaseBalance
  nonce := pending.freshNonce
  topup := topup
  salt := response.salt

theorem TypedPendingSpend.settle_eq_ok {pending : TypedPendingSpend P K S} {pk : PublicKey H P}
    {K' : CredentialKind} {topup : U64} {response : TypedSpendResponse P K S} {token : Token P K'} :
    pending.settle pk K' topup response = .ok token ↔
      eval pk.mayo response.signature =
        .ok (signedTokenTarget P pending.freshCommitment topup response.salt) ∧
      token = pending.token K' topup response := by
  simp only [settle, Outcome.bind_eq_ok, PublicKey.checkSignature_eq_ok]
  constructor
  · rintro ⟨_, hsigned, h⟩
    exact ⟨hsigned, (Except.ok.inj h).symm⟩
  · rintro ⟨hsigned, rfl⟩
    exact ⟨(), hsigned, rfl⟩

theorem PendingSpend.finish_eq_ok {pending : PendingSpend P K} {pk : PublicKey H P}
    {request : SpendRequest P K} {response : SpendResponse P K} {token : Token P .direct} :
    pending.finish pk request response = .ok token ↔
      pending.validateRequest pk request = .ok () ∧
        pending.settle pk .direct 0 response = .ok token := by
  rw [finish, Outcome.bind_eq_ok]
  exact ⟨fun ⟨_, hvalid, hsettle⟩ => ⟨hvalid, hsettle⟩, fun ⟨hvalid, hsettle⟩ => ⟨(), hvalid, hsettle⟩⟩

theorem PendingDeferredReturnSpend.finish_eq_ok {pending : PendingDeferredReturnSpend P K}
    {pk : PublicKey H P} {request : DeferredReturnSpendRequest P K}
    {response : DeferredReturnSpendResponse P K} {token : Token P .deferredReturn} :
    pending.finish pk request response = .ok token ↔
      pending.validateRequest pk request = .ok () ∧
        (response.returnAmount.toNat ≤ request.spend.toNat ∧
          pending.freshBaseBalance.toNat + response.returnAmount.toNat < 2 ^ 64) ∧
        pending.settle pk .deferredReturn response.returnAmount response = .ok token := by
  -- the two bounds of the combined test
  have hgate : (!(decide (request.spend < response.returnAmount) ||
      (checkedAdd pending.freshBaseBalance response.returnAmount).isNone)) = true ↔
      response.returnAmount.toNat ≤ request.spend.toNat ∧
        pending.freshBaseBalance.toNat + response.returnAmount.toNat < 2 ^ 64 := by
    rw [Bool.not_eq_true', Bool.or_eq_false_iff, decide_eq_false_iff_not, BitVec.lt_def, Nat.not_lt]
    refine and_congr_right fun _ => ?_
    rw [checkedAdd]
    split
    · next h => exact iff_of_true rfl h
    · next h => exact iff_of_false Bool.true_eq_false_eq_False h
  simp only [finish, Outcome.bind_eq_ok, Outcome.require_eq_ok, hgate]
  constructor
  · rintro ⟨_, hvalid, _, hbound, hsettle⟩
    exact ⟨hvalid, hbound, hsettle⟩
  · rintro ⟨hvalid, hbound, hsettle⟩
    exact ⟨(), hvalid, (), hbound, hsettle⟩

/-- A settled pending spend that opens its commitment is a token of the issuer. -/
theorem TypedPendingSpend.authentic_of_settle {pending : TypedPendingSpend P K S}
    {pk : PublicKey H P} {K' : CredentialKind} {topup : U64} {response : TypedSpendResponse P K S}
    {token : Token P K'} (hopens : pending.Opens pk) (hdirect : K' = .direct → topup = 0)
    (hlt : pending.freshBaseBalance.toNat + topup.toNat < 2 ^ 64)
    (h : pending.settle pk K' topup response = .ok token) : token.Authentic pk := by
  obtain ⟨hsigned, rfl⟩ := settle_eq_ok.mp h
  rw [hopens.commitment_eq] at hsigned
  exact ⟨hopens.context_eq, hdirect, hlt, hsigned⟩

/-! ## Codecs -/

theorem TypedSpendRequest.body_run ⦃input rest : List U8⦄ ⦃request : TypedSpendRequest P K S⦄ :
    (body P K S).run input = .ok (request, rest) ↔
      (request.freshCommitment.length = P.M ∧ Wire.Encodable request.proof) ∧
        input = le64 request.spend.toNat ++ (request.nullifier.toList ++
          (Wire.packNibbles request.freshCommitment ++ Wire.proofBytes request.proof)) ++ rest := by
  simp only [body, Decoder.run_bind_eq_ok, Wire.u64_run, Wire.array_run, Wire.nibbles_run,
    Wire.proof_run, List.append_assoc]
  constructor
  · rintro ⟨spend, _, rfl, nullifier, _, rfl, freshCommitment, _, ⟨hlen, rfl⟩, proof, _,
      ⟨hproof, rfl⟩, h⟩
    obtain ⟨rfl, rfl⟩ := Prod.mk.inj (Except.ok.inj h)
    exact ⟨⟨hlen, hproof⟩, rfl⟩
  · rintro ⟨⟨hlen, hproof⟩, rfl⟩
    exact ⟨_, _, rfl, _, _, rfl, _, _, ⟨hlen, rfl⟩, _, _, ⟨hproof, rfl⟩, rfl⟩

/-- What decodes to a request is its encoding. -/
theorem TypedSpendRequest.fromBytes_eq_ok {ε : Type} {input : List U8}
    {request : TypedSpendRequest P K S} : fromBytes P K S input = .ok request ↔
      (request.freshCommitment.length = P.M ∧ Wire.Encodable request.proof) ∧
        (request.toBytes : Outcome ε _) = .ok input := by
  rw [fromBytes, Wire.decode_artifact_eq_ok body_run, toBytes_eq_ok]
  constructor
  · rintro ⟨⟨hlen, hproof⟩, hinput, -⟩
    exact ⟨⟨hlen, hproof⟩, ⟨hproof.fits, hproof.length_lt⟩, hinput⟩
  · rintro ⟨⟨hlen, hproof⟩, -, rfl⟩
    refine ⟨⟨hlen, hproof⟩, rfl, ?_⟩
    have hm := P.m_le
    have hle := hproof.length_le
    simp only [List.length_append, Wire.header_length, Wire.packNibbles_eq, packed_length, hlen,
      Wire.proofBytes, le32, le64, leBytes_length, Vector.length_toList, Wire.maxBytes,
      maxProofWireBytes] at hle ⊢
    omega

theorem TypedSpendResponse.body_run ⦃input rest : List U8⦄
    ⦃response : TypedSpendResponse P K S⦄ : (body P K S).run input = .ok (response, rest) ↔
      response.signature.length = P.KN ∧ input = response.bodyBytes ++ rest := by
  simp only [body, bodyBytes, Decoder.run_bind_eq_ok, Wire.array_run, Wire.u64_run,
    Wire.nibbles_run, List.append_assoc]
  constructor
  · rintro ⟨signature, _, ⟨hlen, rfl⟩, returnAmount, _, rfl, salt, _, rfl, h⟩
    obtain ⟨rfl, rfl⟩ := Prod.mk.inj (Except.ok.inj h)
    exact ⟨hlen, rfl⟩
  · rintro ⟨hlen, rfl⟩
    exact ⟨_, _, ⟨hlen, rfl⟩, _, _, rfl, _, _, rfl, rfl⟩

/-- A response of the ordinary settlement carries no return. -/
theorem TypedSpendResponse.fromBytes_eq_ok {input : List U8}
    {response : TypedSpendResponse P K S} : fromBytes P K S input = .ok response ↔
      (response.signature.length = P.KN ∧ (S = .fixedSpend → response.returnAmount = 0)) ∧
        input = response.toBytes := by
  have hgate : (!(S.wireId == SettlementMode.fixedSpend.wireId && response.returnAmount != 0)) =
      true ↔ (S = .fixedSpend → response.returnAmount = 0) := by
    cases S with
    | fixedSpend => simp
    | deferredReturnSpend => simp [SettlementMode.wireId]
  simp only [fromBytes, Outcome.bind_eq_ok, Outcome.ofResult_eq_ok, Outcome.require_eq_ok,
    Wire.decode_artifact_eq_ok body_run]
  constructor
  · rintro ⟨_, ⟨hlen, hinput, -⟩, _, hreturn, h⟩
    obtain rfl := Except.ok.inj h
    exact ⟨⟨hlen, hgate.mp hreturn⟩, hinput⟩
  · rintro ⟨⟨hlen, hreturn⟩, rfl⟩
    refine ⟨response, ⟨hlen, rfl, ?_⟩, (), hgate.mpr hreturn, rfl⟩
    have hkn := P.kn_le
    simp only [toBytes, bodyBytes, List.length_append, Wire.header_length, Wire.packNibbles_eq,
      packed_length, hlen, le64, leBytes_length, Vector.length_toList, Wire.maxBytes,
      MayoParams.KN]
    omega

theorem TypedPendingSpend.body_run ⦃input rest : List U8⦄ ⦃pending : TypedPendingSpend P K S⦄ :
    (body P K S).run input = .ok (pending, rest) ↔
      pending.freshCommitment = credentialTarget P pending.context pending.freshKey
          pending.freshBaseBalance pending.freshNonce ∧
        input = pending.bodyBytes ++ rest := by
  simp only [body, bodyBytes, Decoder.run_bind_eq_ok, Wire.array_run, Wire.u64_run,
    List.append_assoc]
  constructor
  · rintro ⟨context, _, rfl, freshKey, _, rfl, freshBaseBalance, _, rfl, freshNonce, _, rfl, digest,
      _, rfl, h⟩
    obtain ⟨rfl, rfl⟩ := Prod.mk.inj (Except.ok.inj h)
    exact ⟨rfl, rfl⟩
  · rintro ⟨hcommitment, rfl⟩
    refine ⟨_, _, rfl, _, _, rfl, _, _, rfl, _, _, rfl, _, _, rfl, ?_⟩
    rw [← hcommitment]
    rfl

/-- The pending spends of an issuer are exactly what decodes from their encodings. -/
theorem TypedPendingSpend.fromBytes_eq_ok {pk : PublicKey H P} {input : List U8}
    {pending : TypedPendingSpend P K S} :
    fromBytes pk K S input = .ok pending ↔ pending.Opens pk ∧ input = pending.toBytes := by
  simp only [fromBytes, Outcome.bind_eq_ok, Outcome.ofResult_eq_ok, Outcome.require_eq_ok,
    Wire.decode_artifact_eq_ok body_run, beq_iff_eq]
  constructor
  · rintro ⟨_, ⟨hcommitment, hinput, -⟩, _, hcontext, h⟩
    obtain rfl := Except.ok.inj h
    exact ⟨⟨hcontext, hcommitment⟩, hinput⟩
  · rintro ⟨hopens, rfl⟩
    have hlen : pending.toBytes.length = 145 := by
      simp [toBytes, bodyBytes, Wire.header_length, le64]
    exact ⟨pending, ⟨hopens.commitment_eq, rfl, hlen.trans_le (by decide)⟩, (), hopens.context_eq,
      rfl⟩

end VoleAct.Act
