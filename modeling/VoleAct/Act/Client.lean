/-
  VoleAct.Act.Client

  What a client can hold, whatever an issuer sends it.

  Pending states and tokens are built in several places (`protocol/issue.rs`,
  `protocol/spend.rs`), some of them from stored bytes.  Each kind of value is
  described by the calls that return it, with arbitrary requests, responses and
  bytes, and the invariant the rest of the client relies on is read off the calls.
-/
import VoleAct.Act.Issue
import VoleAct.Act.Spend

namespace VoleAct.Act

open VoleAct.BinaryFields VoleAct.Lib VoleAct.Mayo VoleAct.Voleith

variable {H : Xof} {P : MayoParams} {K : CredentialKind} {S : SettlementMode}

/-! ## The values a client holds -/

/-- The pending issuances a client gets under a public key. -/
inductive PendingIssue.Held (pk : PublicKey H P) : PendingIssue P → Prop
  | prepared {ρ : Type} [CryptoRngCore ρ] {balance : U64} {rng rng' : ρ} {pending : PendingIssue P}
      {request : IssueRequest P} (h : pk.prepareIssue balance rng = (.ok (pending, request), rng')) :
      Held pk pending
  | restored {input : List U8} {pending : PendingIssue P} (h : fromBytes pk input = .ok pending) :
      Held pk pending

/-- The pending spends a client gets under a public key; the token may be any value. -/
inductive TypedPendingSpend.Held (pk : PublicKey H P) : TypedPendingSpend P K S → Prop
  | prepared {ρ : Type} [CryptoRngCore ρ] {token : Token P K} {spend : U64} {rng rng' : ρ}
      {pending : TypedPendingSpend P K S} {request : TypedSpendRequest P K S}
      (h : token.prepareTypedSpend S pk spend rng = (.ok (pending, request), rng')) :
      Held pk pending
  | restored {input : List U8} {pending : TypedPendingSpend P K S}
      (h : fromBytes pk K S input = .ok pending) : Held pk pending

/-- The tokens a client gets under a public key; the pending state may be of another key. -/
inductive Token.Held (pk : PublicKey H P) : (K : CredentialKind) → Token P K → Prop
  | issued {pk' : PublicKey H P} {pending : PendingIssue P} {request : IssueRequest P}
      {response : IssueResponse P} {token : Token P .direct} (hpending : pending.Held pk')
      (h : pending.finish pk request response = .ok token) : Held pk .direct token
  | spent {pk' : PublicKey H P} {K : CredentialKind} {pending : PendingSpend P K}
      {request : SpendRequest P K} {response : SpendResponse P K} {token : Token P .direct}
      (hpending : TypedPendingSpend.Held pk' pending)
      (h : pending.finish pk request response = .ok token) : Held pk .direct token
  | spentWithDeferredReturn {pk' : PublicKey H P} {K : CredentialKind}
      {pending : PendingDeferredReturnSpend P K} {request : DeferredReturnSpendRequest P K}
      {response : DeferredReturnSpendResponse P K} {token : Token P .deferredReturn}
      (hpending : TypedPendingSpend.Held pk' pending)
      (h : pending.finish pk request response = .ok token) : Held pk .deferredReturn token
  | restored {K : CredentialKind} {input : List U8} {token : Token P K}
      (h : Token.fromBytes pk K input = .ok token) : Held pk K token

/-! ## Preparing never panics -/

theorem Token.checkSpend_safe (token : Token P K) (pk : PublicKey H P) (spend : U64) :
    Outcome.Safe (token.checkSpend pk spend) fun _ => True := by
  refine (Outcome.Safe.require _ _).bind fun _ _ => ?_
  refine (pk.verifyToken_safe token).bind fun _ hauth => ?_
  -- the balance of a verified token does not overflow
  rw [hauth.balance_eq, Outcome.ok_bind]
  exact (Outcome.Safe.require _ _).bind fun _ _ => .ok trivial

/-- Preparing either fails its checks, or returns a spend of a token of the issuer. -/
theorem Token.prepareTypedSpend_cases {ρ : Type} [CryptoRngCore ρ] (token : Token P K)
    (S : SettlementMode) (pk : PublicKey H P) (spend : U64) (rng : ρ) :
    (∃ f, token.checkSpend pk spend = .error f ∧
      token.prepareTypedSpend S pk spend rng = (.error f, rng)) ∨
    ∃ pending request, (token.prepareTypedSpend S pk spend rng).1 = .ok (pending, request) ∧
      token.Authentic pk ∧ Prepared pk token spend pending request := by
  cases hcheck : token.checkSpend pk spend with
  | error f =>
      refine .inl ⟨f, rfl, ?_⟩
      rw [prepareTypedSpend, hcheck]
  | ok balance =>
      obtain ⟨⟨hauth, hle⟩, -⟩ := checkSpend_eq_ok.mp hcheck
      obtain ⟨pending, request, h, hprepared⟩ := prepareTypedSpend_spec S hauth hle rng
      exact .inr ⟨pending, request, h, hauth, hprepared⟩

theorem Token.prepareTypedSpend_safe {ρ : Type} [CryptoRngCore ρ] (token : Token P K)
    (S : SettlementMode) (pk : PublicKey H P) (spend : U64) (rng : ρ) :
    Outcome.Safe (token.prepareTypedSpend S pk spend rng).1 fun _ => True := by
  rcases token.prepareTypedSpend_cases S pk spend rng with ⟨f, hcheck, h⟩ | ⟨_, _, h, -⟩
  · have hsafe := token.checkSpend_safe pk spend
    rw [hcheck] at hsafe
    rw [h]
    exact .of_ne_panic (fun hpanic => hsafe.ne_panic (congrArg Except.error (Except.error.inj hpanic)))
      fun _ _ => trivial
  · rw [h]
    exact .ok trivial

/-! ## What is held satisfies the invariant -/

/-- Every pending issuance opens its commitment. -/
theorem PendingIssue.Held.opens {pk : PublicKey H P} {pending : PendingIssue P}
    (h : pending.Held pk) : pending.Opens pk := by
  cases h with
  | @prepared ρ _ balance rng rng' _ request h =>
      obtain ⟨pending', request', h', hopens, -⟩ := pk.prepareIssue_spec balance rng
      rw [h] at h'
      obtain ⟨rfl, -⟩ := Prod.mk.inj (Except.ok.inj h')
      exact hopens
  | restored h => exact (fromBytes_eq_ok.mp h).1

/-- A prepared spend comes from a token of the issuer. -/
theorem Prepared.of_prepare {ρ : Type} [CryptoRngCore ρ] {token : Token P K} {pk : PublicKey H P}
    {spend : U64} {rng rng' : ρ} {pending : TypedPendingSpend P K S}
    {request : TypedSpendRequest P K S}
    (h : token.prepareTypedSpend S pk spend rng = (.ok (pending, request), rng')) :
    Prepared pk token spend pending request := by
  rcases token.prepareTypedSpend_cases S pk spend rng with
    ⟨f, -, h'⟩ | ⟨pending', request', h', -, hprepared⟩
  · exact nomatch (Prod.mk.inj (h.symm.trans h')).1
  · rw [h] at h'
    obtain ⟨rfl, rfl⟩ := Prod.mk.inj (Except.ok.inj h')
    exact hprepared

/-- Every pending spend opens its fresh commitment. -/
theorem TypedPendingSpend.Held.opens {pk : PublicKey H P} {pending : TypedPendingSpend P K S}
    (h : pending.Held pk) : pending.Opens pk := by
  cases h with
  | prepared h => exact (Prepared.of_prepare h).opens
  | restored h => exact (fromBytes_eq_ok.mp h).1

/-- A finished spend is a token of the key that finished it, whichever key prepared it. -/
theorem TypedPendingSpend.Opens.authentic {pk pk' : PublicKey H P}
    {pending : TypedPendingSpend P K S} {request : TypedSpendRequest P K S} {K' : CredentialKind}
    {topup : U64} {response : TypedSpendResponse P K S} {token : Token P K'}
    (hopens : pending.Opens pk') (hvalid : pending.validateRequest pk request = .ok ())
    (hdirect : K' = .direct → topup = 0)
    (hlt : pending.freshBaseBalance.toNat + topup.toNat < 2 ^ 64)
    (h : pending.settle pk K' topup response = .ok token) : token.Authentic pk :=
  authentic_of_settle ⟨(validateRequest_eq_ok.mp hvalid).1, hopens.commitment_eq⟩ hdirect hlt h

/-- Every token is a token of the issuer. -/
theorem Token.Held.authentic {pk : PublicKey H P} {K : CredentialKind} {token : Token P K}
    (h : Token.Held pk K token) : token.Authentic pk := by
  cases h with
  | issued hpending h => exact PendingIssue.Opens.authentic hpending.opens.commitment_eq h
  | @spent _ _ pending request response _ hpending h =>
      obtain ⟨hvalid, hsettle⟩ := PendingSpend.finish_eq_ok.mp h
      exact hpending.opens.authentic hvalid (fun _ => rfl) pending.freshBaseBalance.isLt hsettle
  | spentWithDeferredReturn hpending h =>
      obtain ⟨hvalid, ⟨-, hlt⟩, hsettle⟩ := PendingDeferredReturnSpend.finish_eq_ok.mp h
      exact hpending.opens.authentic hvalid (fun hkind => nomatch hkind) hlt hsettle
  | restored h => exact (fromBytes_eq_ok.mp h).1

/-- A token of the issuer never panics: its balance is its two parts, every spend has a witness, and
    preparing fails with an error of the protocol. -/
theorem Token.Authentic.no_panic {pk : PublicKey H P} {token : Token P K} (h : token.Authentic pk) :
    (token.balance : Outcome Error U64) = .ok (token.baseBalance + token.topup) ∧
    (∀ (circuit : SpendCircuit P) (freshKey : Bytes 32) (freshBaseBalance : U64)
      (freshNonce : Bytes 32), ∃ bits,
        (circuit.witness (token.spendSecrets freshKey freshBaseBalance freshNonce) :
          Outcome Error (List Bool)) = .ok bits) := by
  refine ⟨h.balance_eq, fun circuit freshKey freshBaseBalance freshNonce => ?_⟩
  obtain ⟨bits, hbits, -⟩ := SpendCircuit.witness_ok
    (s := token.spendSecrets freshKey freshBaseBalance freshNonce) circuit h.length_signature
    h.no_overflow
  exact ⟨bits, hbits Error⟩

/-- Whatever an issuer answers, what a client holds is sound.  Every pending state commits to its
    opening; every token verifies under the key that returned it, has no return when it is direct
    and a balance that does not overflow, so that reading the balance, making a witness and
    preparing a spend do not panic, and is restored by its encoding; and a deferred return is
    finished only within the request's spend, for a request of the digest that was prepared. -/
theorem client_token_safety (pk : PublicKey H P) :
    (∀ pending : PendingIssue P, pending.Held pk → pending.commitment =
      credentialTarget P pending.context pending.key pending.balance pending.nonce) ∧
    (∀ (K : CredentialKind) (S : SettlementMode) (pending : TypedPendingSpend P K S),
      pending.Held pk → pending.freshCommitment = credentialTarget P pending.context
        pending.freshKey pending.freshBaseBalance pending.freshNonce) ∧
    (∀ (K : CredentialKind) (token : Token P K), Token.Held pk K token →
      (pk.verifyToken token = .ok () ∧ (K = .direct → token.topup = 0) ∧
        token.baseBalance.toNat + token.topup.toNat < 2 ^ 64) ∧
      (∃ balance, (token.balance : Outcome Error U64) = .ok balance ∧
        balance.toNat = token.baseBalance.toNat + token.topup.toNat) ∧
      (∀ (circuit : SpendCircuit P) (freshKey : Bytes 32) (freshBaseBalance : U64)
        (freshNonce : Bytes 32), ∃ bits,
          (circuit.witness (token.spendSecrets freshKey freshBaseBalance freshNonce) :
            Outcome Error (List Bool)) = .ok bits) ∧
      (∀ (ρ : Type) [CryptoRngCore ρ] (S : SettlementMode) (pk' : PublicKey H P) (spend : U64)
        (rng : ρ), (token.prepareTypedSpend S pk' spend rng).1 ≠ Outcome.panic) ∧
      Token.fromBytes pk K token.toBytes = .ok token) ∧
    ∀ (K : CredentialKind) (pending : PendingDeferredReturnSpend P K)
      (request : DeferredReturnSpendRequest P K) (response : DeferredReturnSpendResponse P K)
      (token : Token P .deferredReturn), pending.finish pk request response = .ok token →
        response.returnAmount ≤ request.spend ∧
        (spendRequestDigest H pending.context request : Outcome Error _) =
          .ok pending.requestDigest := by
  refine ⟨fun _ h => h.opens.commitment_eq, fun _ _ _ h => h.opens.commitment_eq, ?_, ?_⟩
  -- every held token opens a signed commitment; the rest follows from that
  · intro K token h
    have hauth := h.authentic
    obtain ⟨hbalance, hwitness⟩ := hauth.no_panic
    exact ⟨⟨PublicKey.verifyToken_eq_ok.mpr hauth, hauth.direct, hauth.no_overflow⟩,
      ⟨_, hbalance, toNat_add_of_lt hauth.no_overflow⟩, hwitness,
      fun _ _ S pk' spend rng => (token.prepareTypedSpend_safe S pk' spend rng).ne_panic,
      Token.fromBytes_eq_ok.mpr ⟨hauth, rfl⟩⟩
  · intro K pending request response token h
    obtain ⟨hvalid, ⟨hle, -⟩, -⟩ := PendingDeferredReturnSpend.finish_eq_ok.mp h
    exact ⟨hle, (TypedPendingSpend.validateRequest_eq_ok.mp hvalid).2.1⟩

end VoleAct.Act
