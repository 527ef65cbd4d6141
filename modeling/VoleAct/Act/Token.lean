/-
  VoleAct.Act.Token

  Client-held tokens and their verification (`protocol/spend.rs`,
  `protocol/public_key.rs`).
-/
import VoleAct.Act.PublicKey
import VoleAct.Mayo.Preimage

namespace VoleAct.Act

open VoleAct.BinaryFields VoleAct.Lib VoleAct.Mayo VoleAct.Voleith

/-- `WIRE_TOKEN`. -/
def wireToken : U8 := 6#8

/-- A client-held anonymous credit token. -/
structure Token (P : MayoParams) (K : CredentialKind) where
  context : Bytes 32
  signature : List GF16
  key : Bytes 32
  baseBalance : U64
  nonce : Bytes 32
  topup : U64
  salt : Bytes 32
  deriving DecidableEq

variable {H : Xof} {P : MayoParams} {K : CredentialKind}

namespace PublicKey

/-- The check every authentication ends with: the signature evaluates to the target. -/
def checkSignature (pk : PublicKey H P) (signature target : List GF16) : Outcome Error Unit := do
  let evaluated ← Outcome.ofResult (fun _ => .invalidSignature) (eval pk.mayo signature)
  Outcome.require (evaluated == target) .invalidSignature

/-- Verify either supported token kind against this issuer. -/
def verifyToken (pk : PublicKey H P) (token : Token P K) : Outcome Error Unit := do
  Outcome.require (token.context == pk.context) .wrongContext
  let _ ← Outcome.okOr .invalidSignature (effectiveBalance K token.baseBalance token.topup)
  let commitment := credentialTarget P token.context token.key token.baseBalance token.nonce
  let target ← Outcome.okOr .invalidSignature (signingTarget P K commitment token.topup token.salt)
  pk.checkSignature token.signature target

end PublicKey

namespace Token

/-- Current private effective balance. -/
def balance {ε : Type} (token : Token P K) : Outcome ε U64 :=
  Outcome.expect (effectiveBalance K token.baseBalance token.topup)

/-- The commitment a token opens. -/
def commitment (token : Token P K) : List GF16 :=
  credentialTarget P token.context token.key token.baseBalance token.nonce

/-- The fields of an encoded token. -/
def bodyBytes (token : Token P K) : List U8 :=
  token.context.toList ++ Wire.packNibbles token.signature ++ token.key.toList ++
    le64 token.baseBalance.toNat ++ token.nonce.toList ++ le64 token.topup.toNat ++
    token.salt.toList

def toBytes (token : Token P K) : List U8 :=
  Wire.header wireToken P.wireId K.wireId 0 ++ token.bodyBytes

def body (P : MayoParams) (K : CredentialKind) : Wire.WireDecoder (Token P K) := do
  let context ← Wire.array 32
  let signature ← Wire.nibbles P.KN
  let key ← Wire.array 32
  let baseBalance ← Wire.u64
  let nonce ← Wire.array 32
  let topup ← Wire.u64
  let salt ← Wire.array 32
  return { context, signature, key, baseBalance, nonce, topup, salt }

/-- Decode and authenticate client-held token state. -/
def fromBytes (pk : PublicKey H P) (K : CredentialKind) (input : List U8) :
    Outcome WireError (Token P K) := do
  let token ← Outcome.ofResult id
    (Wire.decode (Wire.artifact wireToken P.wireId K.wireId 0 (body P K)) input)
  Outcome.require (token.context == pk.context && !(!K.hasTopup && token.topup != 0))
    .wrongArtifact
  (pk.verifyToken token).mapErr fun _ => .invalidCredential
  return token

end Token

/-! ## What verification establishes -/

theorem PublicKey.checkSignature_eq_ok {pk : PublicKey H P} {signature target : List GF16}
    {u : Unit} : pk.checkSignature signature target = .ok u ↔ eval pk.mayo signature = .ok target := by
  rw [checkSignature, Outcome.bind_eq_ok]
  simp only [Outcome.ofResult_eq_ok, Outcome.require_eq_ok, beq_iff_eq]
  constructor
  · rintro ⟨_, heval, rfl⟩
    exact heval
  · intro heval
    exact ⟨target, heval, rfl⟩

/-- A token of an issuer: a signed commitment to its opening, without a return on a direct token and
    with a balance that does not overflow. -/
structure Token.Authentic (pk : PublicKey H P) (token : Token P K) : Prop where
  context_eq : token.context = pk.context
  direct : K = .direct → token.topup = 0
  no_overflow : token.baseBalance.toNat + token.topup.toNat < 2 ^ 64
  signed : eval pk.mayo token.signature =
    .ok (signedTokenTarget P token.commitment token.topup token.salt)

theorem PublicKey.verifyToken_eq_ok {pk : PublicKey H P} {token : Token P K} {u : Unit} :
    pk.verifyToken token = .ok u ↔ token.Authentic pk := by
  simp only [verifyToken, Outcome.bind_eq_ok, Outcome.require_eq_ok, Outcome.okOr_eq_ok,
    effectiveBalance_eq_some, signingTarget_eq_some, checkSignature_eq_ok, beq_iff_eq]
  constructor
  · rintro ⟨_, hcontext, _, ⟨hdirect, hlt, -⟩, _, ⟨-, rfl⟩, hsigned⟩
    exact ⟨hcontext, hdirect, hlt, hsigned⟩
  · rintro ⟨hcontext, hdirect, hlt, hsigned⟩
    exact ⟨(), hcontext, _, ⟨hdirect, hlt, rfl⟩, _, ⟨hdirect, rfl⟩, hsigned⟩

theorem PublicKey.checkSignature_safe (pk : PublicKey H P) (signature target : List GF16) :
    Outcome.Safe (pk.checkSignature signature target) fun _ => True :=
  (Outcome.Safe.ofResult _ _).bind fun _ _ => (Outcome.Safe.require _ _).mono fun _ _ => trivial

theorem PublicKey.verifyToken_safe (pk : PublicKey H P) (token : Token P K) :
    Outcome.Safe (pk.verifyToken token) fun _ => token.Authentic pk := by
  have hsafe : Outcome.Safe (pk.verifyToken token) fun _ => True := by
    refine (Outcome.Safe.require _ _).bind fun _ _ => ?_
    refine (Outcome.Safe.okOr _ _).bind fun _ _ => ?_
    exact (Outcome.Safe.okOr _ _).bind fun _ _ => pk.checkSignature_safe _ _
  exact .of_ne_panic hsafe.ne_panic fun _ h => verifyToken_eq_ok.mp h

namespace Token

theorem Authentic.length_signature {pk : PublicKey H P} {token : Token P K}
    (h : token.Authentic pk) : token.signature.length = P.KN := length_of_eval h.signed

theorem Authentic.balance_eq {ε : Type} {pk : PublicKey H P} {token : Token P K}
    (h : token.Authentic pk) :
    (token.balance : Outcome ε U64) = .ok (token.baseBalance + token.topup) := by
  rw [balance, effectiveBalance_eq_some.mpr ⟨h.direct, h.no_overflow, rfl⟩]
  rfl

theorem body_run ⦃input rest : List U8⦄ ⦃token : Token P K⦄ :
    (body P K).run input = .ok (token, rest) ↔
      token.signature.length = P.KN ∧ input = token.bodyBytes ++ rest := by
  simp only [body, bodyBytes, Decoder.run_bind_eq_ok, Wire.array_run, Wire.u64_run,
    Wire.nibbles_run, List.append_assoc]
  constructor
  · rintro ⟨context, _, rfl, signature, _, ⟨hlen, rfl⟩, key, _, rfl, baseBalance, _, rfl, nonce, _,
      rfl, topup, _, rfl, salt, _, rfl, h⟩
    obtain ⟨rfl, rfl⟩ := Prod.mk.inj (Except.ok.inj h)
    exact ⟨hlen, rfl⟩
  · rintro ⟨hlen, rfl⟩
    exact ⟨_, _, rfl, _, _, ⟨hlen, rfl⟩, _, _, rfl, _, _, rfl, _, _, rfl, _, _, rfl, _, _, rfl, rfl⟩

theorem toBytes_length_le {token : Token P K} (h : token.signature.length = P.KN) :
    token.toBytes.length ≤ Wire.maxBytes := by
  have hkn := P.kn_le
  have hlen : token.toBytes.length = (P.KN + 1) / 2 + 153 := by
    simp [toBytes, bodyBytes, Wire.packNibbles_eq, packed_length, Wire.header_length, h, le64]
    omega
  unfold Wire.maxBytes
  unfold MayoParams.KN at hlen
  omega

/-- A token decodes exactly from its encoding, when it is a token of the issuer. -/
theorem fromBytes_eq_ok {pk : PublicKey H P} {input : List U8} {token : Token P K} :
    fromBytes pk K input = .ok token ↔ token.Authentic pk ∧ input = token.toBytes := by
  simp only [fromBytes, Outcome.bind_eq_ok, Outcome.ofResult_eq_ok, Outcome.require_eq_ok,
    Outcome.mapErr_eq_ok, PublicKey.verifyToken_eq_ok, Wire.decode_artifact_eq_ok body_run,
    Bool.and_eq_true, beq_iff_eq, Bool.not_eq_true', topup_rejected]
  constructor
  · rintro ⟨_, ⟨hlen, hinput, -⟩, _, -, _, hauth, h⟩
    obtain rfl := Except.ok.inj h
    exact ⟨hauth, hinput⟩
  · rintro ⟨hauth, rfl⟩
    have hlen := hauth.length_signature
    exact ⟨token, ⟨hlen, rfl, toBytes_length_le hlen⟩, (), ⟨hauth.context_eq, hauth.direct⟩, (),
      hauth, rfl⟩

end Token

end VoleAct.Act
