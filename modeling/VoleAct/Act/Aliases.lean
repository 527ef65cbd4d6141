/-
  VoleAct.Act.Aliases

  Tokens that differ only in their credential-kind byte.

  The byte is not authenticated: a token without a return decodes under either
  kind.  Both views have one opening, hence one nullifier, and a store answers one
  request for a nullifier, so an alias is worth nothing.
-/
import VoleAct.Act.Client
import VoleAct.Act.Replicas

namespace VoleAct.Act

open VoleAct.BinaryFields VoleAct.Lib VoleAct.Mayo VoleAct.Voleith

variable {H : Xof} {P : MayoParams} {K K' : CredentialKind} {S : SettlementMode} {σ ρ : Type}

/-! ## The other view of a token -/

/-- An encoding with another credential-kind byte: byte 7, after the magic, the version, the
    artifact and the parameter set. -/
def retagBytes (K : CredentialKind) (input : List U8) : List U8 := input.set 7 K.wireId

namespace Token

/-- The same fields as a token of another kind. -/
def retag (token : Token P K) (K' : CredentialKind) : Token P K' where
  context := token.context
  signature := token.signature
  key := token.key
  baseBalance := token.baseBalance
  nonce := token.nonce
  topup := token.topup
  salt := token.salt

/-- The target a token's signature is on; none for a direct token with a return. -/
def signedTarget (token : Token P K) : Option (List GF16) :=
  signingTarget P K token.commitment token.topup token.salt

/-- Two tokens open one commitment, whatever authenticates it. -/
structure SameOpening (token : Token P K) (token' : Token P K') : Prop where
  context_eq : token.context = token'.context
  key_eq : token.key = token'.key
  baseBalance_eq : token.baseBalance = token'.baseBalance
  nonce_eq : token.nonce = token'.nonce

theorem SameOpening.nullifier_eq {token : Token P K} {token' : Token P K'}
    (h : token.SameOpening token') : token.nullifier = token'.nullifier := by
  rw [nullifier, nullifier, h.context_eq, h.key_eq, h.baseBalance_eq, h.nonce_eq]

theorem sameOpening_retag (token : Token P K) (K' : CredentialKind) :
    token.SameOpening (token.retag K') := ⟨rfl, rfl, rfl, rfl⟩

theorem toBytes_retag (token : Token P K) (K' : CredentialKind) :
    (token.retag K').toBytes = retagBytes K' token.toBytes := rfl

/-- Under another kind the fields authenticate unless they are a return on a direct token. -/
theorem Authentic.retag {pk : PublicKey H P} {token : Token P K} (h : token.Authentic pk)
    (hdirect : K' = .direct → token.topup = 0) : (token.retag K').Authentic pk :=
  ⟨h.context_eq, hdirect, h.no_overflow, h.signed⟩

theorem fromBytes_retag {pk : PublicKey H P} {input : List U8} {token : Token P K}
    (h : fromBytes pk K input = .ok token) (hdirect : K' = .direct → token.topup = 0) :
    fromBytes pk K' (retagBytes K' input) = .ok (token.retag K') := by
  obtain ⟨hauth, rfl⟩ := fromBytes_eq_ok.mp h
  rw [fromBytes_eq_ok]
  exact ⟨hauth.retag hdirect, (token.toBytes_retag K').symm⟩

/-- A token with a return is no direct token. -/
theorem fromBytes_retag_wrongArtifact {pk : PublicKey H P} {input : List U8} {token : Token P K}
    (h : fromBytes pk K input = .ok token) (htopup : token.topup ≠ 0) :
    fromBytes pk .direct (retagBytes .direct input) = Outcome.err .wrongArtifact := by
  obtain ⟨hauth, rfl⟩ := fromBytes_eq_ok.mp h
  have hlen : (token.retag .direct).signature.length = P.KN := hauth.length_signature
  have hdecode : Wire.decode (Wire.artifact wireToken P.wireId CredentialKind.direct.wireId 0
      (body P .direct)) (token.retag .direct).toBytes = .ok (token.retag .direct) :=
    (Wire.decode_artifact_eq_ok body_run).mpr ⟨hlen, rfl, toBytes_length_le hlen⟩
  have hreturn : ((token.retag .direct).topup != 0) = true := bne_iff_ne.mpr htopup
  have hreject : ((token.retag .direct).context == pk.context &&
      !(!CredentialKind.direct.hasTopup && (token.retag .direct).topup != 0)) = false := by
    rw [hreturn]
    exact Bool.and_false _
  rw [← toBytes_retag, fromBytes, hdecode, Outcome.ofResult, Outcome.ok_bind, hreject]
  rfl

/-- What the other view is, when there is one. -/
theorem eq_retag_of_fromBytes {pk : PublicKey H P} {input : List U8} {token : Token P K}
    {token' : Token P K'} (h : fromBytes pk K input = .ok token)
    (h' : fromBytes pk K' (retagBytes K' input) = .ok token') : token' = token.retag K' := by
  have hdirect : K' = .direct → token.topup = 0 := by
    rintro rfl
    by_contra htopup
    exact nomatch h'.symm.trans (fromBytes_retag_wrongArtifact h htopup)
  exact Except.ok.inj (h'.symm.trans (fromBytes_retag h hdirect))

theorem Authentic.signedTarget_eq {pk : PublicKey H P} {token : Token P K}
    (h : token.Authentic pk) :
    token.signedTarget = some (signedTokenTarget P token.commitment token.topup token.salt) :=
  signingTarget_eq_some.mpr ⟨h.direct, rfl⟩

/-- The requests a token produces. -/
inductive Makes (H : Xof) (token : Token P K) : AnyRequest P → Prop
  | prepared {ρ : Type} [CryptoRngCore ρ] {S : SettlementMode} {pk : PublicKey H P} {spend : U64}
      {rng rng' : ρ} {pending : TypedPendingSpend P K S} {request : TypedSpendRequest P K S}
      (h : token.prepareTypedSpend S pk spend rng = (.ok (pending, request), rng')) :
      Makes H token ⟨K, S, request⟩

end Token

/-- The nullifier of a request of any kind and settlement. -/
def AnyRequest.nullifier (q : AnyRequest P) : Bytes 32 := q.2.2.nullifier

theorem Token.Makes.nullifier_eq {token : Token P K} {q : AnyRequest P} (h : token.Makes H q) :
    q.nullifier = token.nullifier := by
  cases h with
  | prepared h => exact (Prepared.of_prepare h).nullifier_eq

/-! ## A run of one issuer -/

/-- A call of an issuer. -/
inductive IssuerCall (P : MayoParams) where
  | issue (request : IssueRequest P) (balance : U64)
  | spend (K : CredentialKind) (request : SpendRequest P K)
  | spendWithDeferredReturn (K : CredentialKind) (request : DeferredReturnSpendRequest P K)
      (returnAmount : U64)

/-- A request that was answered with a response. -/
def answeredBy {α : Type} (result : Outcome Error α) (q : AnyRequest P) : List (AnyRequest P) :=
  match result with
  | .ok _ => [q]
  | .error _ => []

namespace Issuer

variable [NullifierStore P σ] [CryptoRngCore ρ]

/-- The issuer after a call, and the spend request it answered; `issue` takes `&self`. -/
def call (issuer : Issuer H P σ) (c : IssuerCall P) (rng : ρ) :
    Issuer H P σ × List (AnyRequest P) :=
  match c with
  | .issue _ _ => (issuer, [])
  | .spend K request =>
      let (result, issuer, _) := issuer.spend request rng
      (issuer, answeredBy result ⟨K, .fixedSpend, request⟩)
  | .spendWithDeferredReturn K request returnAmount =>
      let (result, issuer, _) := issuer.spendWithDeferredReturn request returnAmount rng
      (issuer, answeredBy result ⟨K, .deferredReturnSpend, request⟩)

/-- The issuer after a sequence of calls, and the requests answered with a response. -/
def run (issuer : Issuer H P σ) : List (IssuerCall P × ρ) → Issuer H P σ × List (AnyRequest P)
  | [] => (issuer, [])
  | (c, rng) :: calls =>
      let (issuer, answered) := issuer.call c rng
      let (issuer, later) := issuer.run calls
      (issuer, answered ++ later)

end Issuer

/-- A request was received with the digest its nullifier is recorded with. -/
def IssuerKey.Recorded (key : IssuerKey H P) (records : Bytes 32 → Option (RetryRecord P))
    (q : AnyRequest P) : Prop :=
  ∃ digest stored, key.receive q.2.2 = .ok digest ∧ records q.nullifier = some stored ∧
    stored.requestDigest = digest

theorem IssuerKey.Recorded.mono {key : IssuerKey H P}
    {records records' : Bytes 32 → Option (RetryRecord P)} {q : AnyRequest P}
    (h : key.Recorded records q) (hextends : WriteOnce.Extends records records') :
    key.Recorded records' q := by
  obtain ⟨digest, stored, hreceive, hlookup, hdigest⟩ := h
  exact ⟨digest, stored, hreceive, hextends _ _ hlookup, hdigest⟩

namespace Issuer

variable [NullifierStore P σ] [CryptoRngCore ρ]

/-- What calls do to an issuer over a lawful store: the key stays, records stay, and every answered
    request is recorded. -/
structure Moves (store : NullifierStore.Lawful P σ) (issuer issuer' : Issuer H P σ)
    (answered : List (AnyRequest P)) : Prop where
  key_eq : issuer'.toIssuerKey = issuer.toIssuerKey
  grows : WriteOnce.Extends (store.lookup issuer.spent) (store.lookup issuer'.spent)
  recorded : ∀ q ∈ answered, issuer.toIssuerKey.Recorded (store.lookup issuer'.spent) q

variable {store : NullifierStore.Lawful P σ} {issuer issuer' : Issuer H P σ}

/-- A call that answers nothing and leaves the store alone. -/
theorem Moves.idle : Moves store issuer issuer [] :=
  ⟨rfl, WriteOnce.Extends.refl _, fun _ h => nomatch h⟩

/-- An answer from the record that the store holds after the call. -/
theorem Moves.of_respond {request : TypedSpendRequest P K S} {digest : Bytes 32}
    {stored : RetryRecord P}
    (hkey : issuer'.toIssuerKey = issuer.toIssuerKey)
    (hgrows : WriteOnce.Extends (store.lookup issuer.spent) (store.lookup issuer'.spent))
    (hreceive : issuer.receive request = .ok digest)
    (hlookup : store.lookup issuer'.spent request.nullifier = some stored) :
    Moves store issuer issuer' (answeredBy (stored.respond K S digest) ⟨K, S, request⟩) := by
  refine ⟨hkey, hgrows, fun q hq => ?_⟩
  cases hrespond : stored.respond K S digest with
  | error f =>
      rw [hrespond] at hq
      exact nomatch hq
  | ok response =>
      rw [hrespond] at hq
      obtain rfl := List.mem_singleton.mp hq
      exact ⟨digest, stored, hreceive, hlookup, (RetryRecord.respond_eq_ok.mp hrespond).1.1⟩

variable (store issuer)

/-- One settlement, whatever the store answers. -/
theorem settle_moves (request : TypedSpendRequest P K S) (returnAmount : U64) (rng : ρ) :
    Moves store issuer (issuer.settle request returnAmount rng).2.1
      (answeredBy (issuer.settle request returnAmount rng).1 ⟨K, S, request⟩) := by
  rw [settle]
  -- along the branches of `settle`; only a stored record answers
  cases hreceive : issuer.receive request with
  | error f => exact .idle
  | ok digest =>
      dsimp only
      cases hget : NullifierStore.get (P := P) issuer.spent request.nullifier with
      | error e => exact .idle
      | ok found =>
          have hfound := store.get_ok hget
          cases found with
          | some stored => exact .of_respond rfl (WriteOnce.Extends.refl _) hreceive hfound
          | none =>
              dsimp only
              cases hpropose : issuer.propose request digest returnAmount rng with
              | mk result rng' =>
                cases result with
                | error f => exact .idle
                | ok candidate =>
                    dsimp only
                    cases hinsert : NullifierStore.insertIfAbsent issuer.spent request.nullifier
                        candidate with
                    | mk result spent =>
                      cases result with
                      | error e =>
                          exact ⟨rfl, store.insert_error hinsert, fun _ h => absurd h List.not_mem_nil⟩
                      | ok stored =>
                          have hwrite := store.insert_ok hinsert
                          have hself := WriteOnce.insertIfAbsent_self (store.lookup issuer.spent)
                            request.nullifier candidate
                          have hgrows := WriteOnce.extends_insertIfAbsent
                            (store.lookup issuer.spent) request.nullifier candidate
                          rw [hwrite] at hself hgrows
                          exact .of_respond rfl hgrows hreceive hself

/-- One call. -/
theorem call_moves (c : IssuerCall P) (rng : ρ) :
    Moves store issuer (issuer.call c rng).1 (issuer.call c rng).2 := by
  cases c with
  | issue request balance => exact .idle
  | spend K request => exact settle_moves store issuer request 0 rng
  | spendWithDeferredReturn K request returnAmount =>
      exact settle_moves store issuer request returnAmount rng

/-- A run. -/
theorem run_moves (calls : List (IssuerCall P × ρ)) :
    Moves store issuer (issuer.run calls).1 (issuer.run calls).2 := by
  induction calls generalizing issuer with
  | nil => exact .idle
  | cons turn calls ih =>
      obtain ⟨c, rng⟩ := turn
      have hcall := call_moves store issuer c rng
      have hlater := ih (issuer.call c rng).1
      refine ⟨hlater.key_eq.trans hcall.key_eq, hcall.grows.trans hlater.grows, fun q hq => ?_⟩
      rcases List.mem_append.mp hq with hq | hq
      · exact (hcall.recorded q hq).mono hlater.grows
      · rw [← hcall.key_eq]
        exact hlater.recorded q hq

end Issuer

/-- The digest has no collision among the encodings of some requests under one context. -/
def RequestDigestsCollisionFree (H : Xof) (context : Bytes 32) (requests : List (AnyRequest P)) :
    Prop :=
  ∀ q ∈ requests, ∀ q' ∈ requests, ∀ bytes bytes', (q.2.2.toBytes : Outcome Error _) = .ok bytes →
    (q'.2.2.toBytes : Outcome Error _) = .ok bytes' →
    H.digest 32 (digestInput context bytes) = H.digest 32 (digestInput context bytes') →
    digestInput context bytes = digestInput context bytes'

/-- A run answers one request for a nullifier. -/
theorem Issuer.eq_of_answered [NullifierStore P σ] [CryptoRngCore ρ]
    (store : NullifierStore.Lawful P σ) (issuer : Issuer H P σ) (calls : List (IssuerCall P × ρ))
    (hfree : RequestDigestsCollisionFree H issuer.publicKey.context (issuer.run calls).2)
    {q q' : AnyRequest P} (hq : q ∈ (issuer.run calls).2) (hq' : q' ∈ (issuer.run calls).2)
    (hnullifier : q.nullifier = q'.nullifier) : q = q' := by
  have hmoves := run_moves store issuer calls
  obtain ⟨digest, stored, hreceive, hlookup, hdigest⟩ := hmoves.recorded q hq
  obtain ⟨digest', stored', hreceive', hlookup', hdigest'⟩ := hmoves.recorded q' hq'
  -- one nullifier has one record, and a record has one digest
  rw [hnullifier] at hlookup
  obtain rfl := Option.some.inj (hlookup.symm.trans hlookup')
  obtain rfl := hdigest.symm.trans hdigest'
  exact (IssuerKey.eq_of_receive hreceive hreceive' (hfree q hq q' hq')).2

/-- Aliases are fiscally inert.  Of a direct token the other view always decodes, of a
    deferred-return token exactly when nothing was returned; both views have one balance and one
    signed target.  All requests made from tokens over one opening, of either kind and whatever
    authenticates them, carry one nullifier, and a run of one issuer answers at most one of them. -/
theorem zero_return_aliases_are_inert (pk : PublicKey H P) :
    (∀ (input : List U8) (token : Token P .direct),
      Token.fromBytes pk .direct input = .ok token →
        Token.fromBytes pk .deferredReturn (retagBytes .deferredReturn input) =
          .ok (token.retag .deferredReturn)) ∧
    (∀ (input : List U8) (token : Token P .deferredReturn),
      Token.fromBytes pk .deferredReturn input = .ok token →
        (token.topup = 0 → Token.fromBytes pk .direct (retagBytes .direct input) =
          .ok (token.retag .direct)) ∧
        (token.topup ≠ 0 → Token.fromBytes pk .direct (retagBytes .direct input) =
          Outcome.err .wrongArtifact)) ∧
    (∀ (K K' : CredentialKind) (input : List U8) (token : Token P K) (token' : Token P K'),
      Token.fromBytes pk K input = .ok token →
      Token.fromBytes pk K' (retagBytes K' input) = .ok token' →
        token.SameOpening token' ∧
        (∃ balance, (token.balance : Outcome Error U64) = .ok balance ∧
          (token'.balance : Outcome Error U64) = .ok balance) ∧
        ∃ target, token.signedTarget = some target ∧ token'.signedTarget = some target) ∧
    (∀ (K K' : CredentialKind) (token : Token P K) (token' : Token P K') (q q' : AnyRequest P),
      token.SameOpening token' → token.Makes H q → token'.Makes H q' →
        q.nullifier = q'.nullifier) ∧
    (∀ (σ ρ : Type) [NullifierStore P σ] [CryptoRngCore ρ], NullifierStore.Lawful P σ →
      ∀ (issuer : Issuer H P σ) (calls : List (IssuerCall P × ρ)),
        RequestDigestsCollisionFree H issuer.publicKey.context (issuer.run calls).2 →
        ∀ (K K' : CredentialKind) (token : Token P K) (token' : Token P K'),
          token.SameOpening token' →
          ∀ q ∈ (issuer.run calls).2, ∀ q' ∈ (issuer.run calls).2,
            token.Makes H q → token'.Makes H q' → q = q') := by
  have hnullifier : ∀ (K K' : CredentialKind) (token : Token P K) (token' : Token P K')
      (q q' : AnyRequest P), token.SameOpening token' → token.Makes H q → token'.Makes H q' →
        q.nullifier = q'.nullifier := fun K K' token token' q q' hsame hq hq' => by
    rw [hq.nullifier_eq, hq'.nullifier_eq, hsame.nullifier_eq]
  refine ⟨fun input token h => Token.fromBytes_retag h (fun hkind => nomatch hkind),
    fun input token h => ⟨fun htopup => Token.fromBytes_retag h fun _ => htopup,
      Token.fromBytes_retag_wrongArtifact h⟩, ?views, hnullifier, ?answered⟩
  case views =>
    -- what the changed string decodes to is the same token under the other kind
    intro K K' input token token' h h'
    have hauth := (Token.fromBytes_eq_ok.mp h).1
    have hauth' := (Token.fromBytes_eq_ok.mp h').1
    obtain rfl := Token.eq_retag_of_fromBytes h h'
    exact ⟨token.sameOpening_retag K', ⟨_, hauth.balance_eq, hauth'.balance_eq⟩,
      ⟨_, hauth.signedTarget_eq, hauth'.signedTarget_eq⟩⟩
  case answered =>
    intro σ ρ _ _ store issuer calls hfree K K' token token' hsame q hq q' hq' hmakes hmakes'
    exact issuer.eq_of_answered store calls hfree hq hq'
      (hnullifier K K' token token' q q' hsame hmakes hmakes')

end VoleAct.Act
