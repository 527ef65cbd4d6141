/-
  VoleAct.Act.Issuer

  The issuer: proof verification, MAYO preimage sampling and settlement
  (`protocol/issuer.rs`).

  A call that takes `&mut self` returns the issuer after it, also when it fails.
  The steps of a settlement are functions of their own, so that calls of several
  replicas over one store can be interleaved between them.
-/
import VoleAct.Act.Issue
import VoleAct.Act.Store

namespace VoleAct.Act

open VoleAct.BinaryFields VoleAct.Lib VoleAct.Mayo VoleAct.Voleith

/-- `WIRE_ISSUER_KEY`. -/
def wireIssuerKey : U8 := 2#8

/-- An issuer without its store: the trapdoor and the public key it determines. -/
structure IssuerKey (H : Xof) (P : MayoParams) where
  secret : SecretKey P
  publicKey : PublicKey H P
  public_eq : publicKey.mayo = secret.publicKey
  secret_upper : secret.IsUpper

/-- Stateful issuer with its MAYO trapdoor and nullifier/retry store. -/
structure Issuer (H : Xof) (P : MayoParams) (σ : Type) extends IssuerKey H P where
  spent : σ

variable {H : Xof} {P : MayoParams} {K : CredentialKind} {S : SettlementMode} {σ ρ : Type}

namespace IssuerKey

/-- The issuer of a trapdoor: its public key recomputed. -/
def derive (H : Xof) (secret : SecretKey P) (profile : PerformanceProfile)
    (applicationContext : List U8)
    (hle : applicationContext.length ≤ maxApplicationContextBytes) (hupper : secret.IsUpper) :
    IssuerKey H P where
  secret := secret
  publicKey := PublicKey.derive H secret.publicKey profile applicationContext hle
    (SecretKey.publicKey_isUpper hupper)
  public_eq := rfl
  secret_upper := hupper

/-- Every issuer is derived from its trapdoor, profile and application context. -/
theorem eq_derive (issuer : IssuerKey H P) : issuer =
    derive H issuer.secret issuer.publicKey.profile issuer.publicKey.applicationContext
      issuer.publicKey.applicationContext_le issuer.secret_upper := by
  obtain ⟨secret, publicKey, heq, hupper⟩ := issuer
  obtain ⟨mayo, terms, context, profile, applicationContext, rfl, rfl, hle, hmayo⟩ := publicKey
  dsimp only at heq
  subst heq
  rfl

/-- Encode the issuer trapdoor and public protocol context canonically. -/
def keyBytes {ε : Type} (issuer : IssuerKey H P) : Outcome ε (List U8) := do
  let body ← putKey issuer.publicKey.profile issuer.publicKey.applicationContext
    issuer.secret.toBytes
  return Wire.header wireIssuerKey P.wireId 0 0 ++ body

/-- The fields of an encoded issuer key. -/
def decodeFields (P : MayoParams) (input : List U8) :
    Except WireError (PerformanceProfile × List U8 × SecretKey P) :=
  Wire.decode (Wire.artifact wireIssuerKey P.wireId 0 0 (keyBody (SecretKey.fromBytes P))) input

theorem decodeFields_eq_ok {input : List U8} {x : PerformanceProfile × List U8 × SecretKey P} :
    decodeFields P input = .ok x ↔
      KeyBodyFits SecretKey.toBytes SecretKey.IsUpper x ∧
        input = Wire.header wireIssuerKey P.wireId 0 0 ++ keyBodyBytes SecretKey.toBytes x ∧
        input.length ≤ Wire.maxBytes :=
  Wire.decode_artifact_eq_ok (keyBody_run fun _ _ => SecretKey.fromBytes_eq_ok)

/-- The key part of `from_key_bytes_with_store`: the public map and its terms and context are
    recomputed from the trapdoor. -/
def fromKeyBytes (H : Xof) (P : MayoParams) (input : List U8) : Except WireError (IssuerKey H P) :=
  match h : decodeFields P input with
  | .ok (profile, applicationContext, secret) =>
      have hfits := (decodeFields_eq_ok.mp h).1
      .ok (derive H secret profile applicationContext hfits.applicationContext_le hfits.key)
  | .error e => .error e

/-- The fields of an issuer key that its encoding carries. -/
def fields (issuer : IssuerKey H P) : PerformanceProfile × List U8 × SecretKey P :=
  (issuer.publicKey.profile, issuer.publicKey.applicationContext, issuer.secret)

theorem fromKeyBytes_eq_ok {input : List U8} {issuer : IssuerKey H P} :
    fromKeyBytes H P input = .ok issuer ↔ decodeFields P input = .ok issuer.fields := by
  rw [fromKeyBytes]
  split
  · next profile app secret h =>
      constructor
      · intro heq
        rw [h, ← Except.ok.inj heq]
        rfl
      · intro heq
        obtain ⟨hprofile, hrest⟩ := Prod.mk.inj (Except.ok.inj (h.symm.trans heq))
        obtain ⟨happ, hsecret⟩ := Prod.mk.inj hrest
        subst hprofile happ hsecret
        exact congrArg Except.ok issuer.eq_derive.symm
  · next e h =>
      exact ⟨fun heq => (nomatch heq), fun heq => (nomatch h.symm.trans heq)⟩

/-- The encoding of an issuer key is what restores it, with everything it recomputes. -/
theorem keyBytes_eq_ok (hP : P.KeysFit) {ε : Type} (issuer : IssuerKey H P)
    {input : List U8} :
    (issuer.keyBytes : Outcome ε _) = .ok input ↔ fromKeyBytes H P input = .ok issuer := by
  have hkey := SecretKey.toBytes_length_le hP issuer.secret
  have hfits : KeyBodyFits SecretKey.toBytes SecretKey.IsUpper issuer.fields :=
    ⟨issuer.publicKey.applicationContext_le, issuer.secret_upper, hkey.trans_lt (by decide)⟩
  rw [fromKeyBytes_eq_ok, decodeFields_eq_ok]
  exact hfits.put_header hkey

/-! ## The steps of a call -/

def validateRequestDimensions (P : MayoParams) (commitment : List GF16) : Outcome Error Unit :=
  Outcome.require (commitment.length == P.M) .invalidRequest

/-- Sample a preimage of the salted wrapper of a commitment and return amount. -/
def signTokenTarget [CryptoRngCore ρ] (issuer : IssuerKey H P) (commitment : List GF16)
    (topup : U64) (rng : ρ) : Outcome Error (List GF16 × Bytes 32) × ρ :=
  let (salt, rng) := CryptoRngCore.fillBytes 32 rng
  let target := signedTokenTarget P commitment topup salt
  match spre issuer.secret target rng with
  | (.error _, rng) => (Outcome.err .signingFailed, rng)
  | (.ok signature, rng) => (.ok (signature, salt), rng)

/-- The dimension check and the digest, before the store is read. -/
def receive (issuer : IssuerKey H P) (request : TypedSpendRequest P K S) :
    Outcome Error (Bytes 32) := do
  validateRequestDimensions P request.freshCommitment
  spendRequestDigest H issuer.publicKey.context request

/-- The checks of a first call: the bound on the return amount, then the proof. -/
def check (issuer : IssuerKey H P) (request : TypedSpendRequest P K S) (returnAmount : U64) :
    Outcome Error Unit := do
  Outcome.require (!decide (request.spend < returnAmount)) .invalidReturnAmount
  (issuer.publicKey.verifySpend request).mapErr proofError

/-- What a first call does between reading and writing the store. -/
def propose [CryptoRngCore ρ] (issuer : IssuerKey H P) (request : TypedSpendRequest P K S)
    (digest : Bytes 32) (returnAmount : U64) (rng : ρ) : Outcome Error (RetryRecord P) × ρ :=
  match issuer.check request returnAmount with
  | .error e => (.error e, rng)
  | .ok () =>
      match issuer.signTokenTarget request.freshCommitment returnAmount rng with
      | (.error e, rng) => (.error e, rng)
      | (.ok (signature, salt), rng) =>
          (.ok { requestDigest := digest,
                 response := S.retryResponse signature returnAmount salt }, rng)

/-- Verify an issuance request for the externally authorized public `balance`, then sign a
    uniformly salted wrapper around its commitment. -/
def issue [CryptoRngCore ρ] (issuer : IssuerKey H P) (request : IssueRequest P) (balance : U64)
    (rng : ρ) : Outcome Error (IssueResponse P) × ρ :=
  let checked : Outcome Error Unit := do
    validateRequestDimensions P request.commitment
    (issuer.publicKey.verifyIssue balance request).mapErr proofError
  match checked with
  | .error e => (.error e, rng)
  | .ok () =>
      -- an issued token has no return
      match issuer.signTokenTarget request.commitment 0 rng with
      | (.error e, rng) => (.error e, rng)
      | (.ok (signature, salt), rng) => (.ok { signature, salt }, rng)

end IssuerKey

/-- The response a stored record gives to a request of one settlement with a digest. -/
def RetryRecord.respond (K : CredentialKind) (S : SettlementMode) (stored : RetryRecord P)
    (digest : Bytes 32) : Outcome Error (TypedSpendResponse P K S) := do
  Outcome.require (stored.requestDigest == digest) .nullifierAlreadySpent
  Outcome.require (stored.response.settlement == S) .invalidRequest
  return { signature := stored.response.signature, returnAmount := stored.response.returnAmount,
           salt := stored.response.salt }

def fixedResponse (K : CredentialKind) (stored : RetryRecord P) (digest : Bytes 32) :
    Outcome Error (SpendResponse P K) := stored.respond K .fixedSpend digest

def deferredResponse (K : CredentialKind) (stored : RetryRecord P) (digest : Bytes 32) :
    Outcome Error (DeferredReturnSpendResponse P K) :=
  stored.respond K .deferredReturnSpend digest

namespace Issuer

variable [NullifierStore P σ] [CryptoRngCore ρ]

/-- The call both settlements make: digest, lookup, checks, signature, insertion, response. -/
def settle (issuer : Issuer H P σ) (request : TypedSpendRequest P K S) (returnAmount : U64)
    (rng : ρ) : Outcome Error (TypedSpendResponse P K S) × Issuer H P σ × ρ :=
  match issuer.receive request with
  | .error e => (.error e, issuer, rng)
  | .ok digest =>
      match NullifierStore.get issuer.spent request.nullifier with
      | .error e => (Outcome.err e, issuer, rng)
      -- a record answers at once: no proof is verified and nothing is signed
      | .ok (some stored) => (stored.respond K S digest, issuer, rng)
      | .ok none =>
          match issuer.propose request digest returnAmount rng with
          | (.error e, rng) => (.error e, issuer, rng)
          | (.ok candidate, rng) =>
              match NullifierStore.insertIfAbsent issuer.spent request.nullifier candidate with
              | (.error e, spent) => (Outcome.err e, { issuer with spent }, rng)
              -- the record in the store answers, which need not be the candidate
              | (.ok stored, spent) => (stored.respond K S digest, { issuer with spent }, rng)

/-- Verify and process an ordinary spend: nothing is returned, and the bound on the return amount
    holds of zero. -/
def spend (issuer : Issuer H P σ) (request : SpendRequest P K) (rng : ρ) :
    Outcome Error (SpendResponse P K) × Issuer H P σ × ρ :=
  issuer.settle request 0 rng

/-- Verify and process a deferred-return spend. -/
def spendWithDeferredReturn (issuer : Issuer H P σ) (request : DeferredReturnSpendRequest P K)
    (returnAmount : U64) (rng : ρ) :
    Outcome Error (DeferredReturnSpendResponse P K) × Issuer H P σ × ρ :=
  issuer.settle request returnAmount rng

/-- Generate a fresh issuer backed by an explicit nullifier store; panics on an application
    context that is too long. -/
def generateWithStore {ε : Type} (H : Xof) (P : MayoParams) (applicationContext : List U8)
    (profile : PerformanceProfile) (spent : σ) (rng : ρ) : Outcome ε (Issuer H P σ) × ρ :=
  if hle : applicationContext.length ≤ maxApplicationContextBytes then
    let keys := trapgen P rng
    have hpublic := publicKey_trapgen P rng
    have hupper := trapgen_isUpper P rng
    (.ok { secret := keys.1.1
           publicKey := PublicKey.derive H keys.1.2 profile applicationContext hle
             (hpublic ▸ SecretKey.publicKey_isUpper hupper)
           public_eq := hpublic.symm
           secret_upper := hupper
           spent }, keys.2)
  else (Outcome.panic, rng)

/-- Generate an issuer with an explicit proof size/latency profile. -/
def generateWithProfile {ε : Type} (H : Xof) (P : MayoParams) (applicationContext : List U8)
    (profile : PerformanceProfile) (rng : ρ) :
    Outcome ε (Issuer H P (MemoryNullifierStore P)) × ρ :=
  generateWithStore H P applicationContext profile .default rng

/-- Generate a fresh issuer. -/
def generate {ε : Type} (H : Xof) (P : MayoParams) (applicationContext : List U8) (rng : ρ) :
    Outcome ε (Issuer H P (MemoryNullifierStore P)) × ρ :=
  generateWithProfile H P applicationContext .balanced rng

/-- Restore an issuer key using an explicitly supplied nullifier store. -/
def fromKeyBytesWithStore (H : Xof) (P : MayoParams) (input : List U8) (spent : σ) :
    Except WireError (Issuer H P σ) := do
  let issuer ← IssuerKey.fromKeyBytes H P input
  return { issuer with spent }

/-- Number of consumed nullifiers in the built-in process-local store. -/
def spentCount (issuer : Issuer H P (MemoryNullifierStore P)) : Nat := issuer.spent.records.size

end Issuer

end VoleAct.Act
