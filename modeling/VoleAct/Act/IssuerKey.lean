/-
  VoleAct.Act.IssuerKey

  An issuer key over its whole life: its encoding restores the trapdoor and the
  public map it determines, and signing with it takes a number of attempts, and an
  amount of randomness, that does not depend on what is signed.
-/
import VoleAct.Act.Issuer
import VoleAct.Mayo.Attempts

namespace VoleAct.Act

open VoleAct.BinaryFields VoleAct.Lib VoleAct.Mayo

variable {H : Xof} {P : MayoParams} {ρ σ : Type}

/-! ## Encoding and restoring -/

/-- Encoding an issuer key succeeds for keys that fit. -/
theorem IssuerKey.exists_keyBytes (hP : P.KeysFit) {ε : Type}
    (issuer : IssuerKey H P) : ∃ input, (issuer.keyBytes : Outcome ε _) = .ok input := by
  have hkey := SecretKey.toBytes_length_le hP issuer.secret
  have hfits : KeyBodyFits SecretKey.toBytes SecretKey.IsUpper issuer.fields :=
    ⟨issuer.publicKey.applicationContext_le, issuer.secret_upper, hkey.trans_lt (by decide)⟩
  rw [IssuerKey.keyBytes]
  exact ⟨_, by
    rw [show putKey issuer.publicKey.profile issuer.publicKey.applicationContext
      issuer.secret.toBytes = .ok _ from hfits.put]
    rfl⟩

/-- The encoding of an issuer restores it, over any store. -/
theorem Issuer.fromKeyBytesWithStore_keyBytes (hP : P.KeysFit) {ε : Type}
    (issuer : Issuer H P σ) (spent : σ) : ∃ input,
      (issuer.toIssuerKey.keyBytes : Outcome ε _) = .ok input ∧
      Issuer.fromKeyBytesWithStore H P input spent = .ok { issuer with spent } := by
  obtain ⟨input, hinput⟩ := issuer.toIssuerKey.exists_keyBytes (ε := ε) hP
  refine ⟨input, hinput, ?_⟩
  rw [Issuer.fromKeyBytesWithStore, (issuer.toIssuerKey.keyBytes_eq_ok hP).mp hinput]
  rfl

/-- Generation panics on an application context that is too long; otherwise the issuer is derived
    from its trapdoor, and its encoding restores it over any store. -/
theorem Issuer.generateWithStore_spec [CryptoRngCore ρ] (hP : P.KeysFit) {ε : Type}
    (applicationContext : List U8) (profile : PerformanceProfile) (spent : σ) (rng : ρ) :
    (maxApplicationContextBytes < applicationContext.length →
      (generateWithStore H P applicationContext profile spent rng : Outcome ε _ × ρ).1 =
        Outcome.panic) ∧
    ∀ hle : applicationContext.length ≤ maxApplicationContextBytes, ∃ issuer : Issuer H P σ,
      (generateWithStore H P applicationContext profile spent rng : Outcome ε _ × ρ).1 = .ok issuer ∧
      issuer.toIssuerKey = IssuerKey.derive H (trapgen P rng).1.1 profile applicationContext hle
        (trapgen_isUpper P rng) ∧
      ∀ spent' : σ, ∃ input, (issuer.keyBytes : Outcome ε _) = .ok input ∧
        Issuer.fromKeyBytesWithStore H P input spent' = .ok { issuer with spent := spent' } := by
  refine ⟨fun hlt => ?_, fun hle => ?_⟩
  · rw [generateWithStore, dif_neg (Nat.not_le.mpr hlt)]
  · rw [generateWithStore, dif_pos hle]
    refine ⟨_, rfl, ?_, fun spent' => Issuer.fromKeyBytesWithStore_keyBytes hP _ spent'⟩
    refine (IssuerKey.eq_derive _).trans ?_
    rfl

/-- The expanded key codecs.  Triangular keys are read back as they were; what is accepted is what
    is written back; every key the scheme produces or accepts is triangular; so a restored trapdoor
    has the public key, and a restored issuer the public map, that it had; and a generated issuer
    holds a trapdoor that was sampled, and is restored from its encoding. -/
theorem expanded_key_codecs (P : MayoParams) {ρ : Type} [CryptoRngCore ρ] :
    (∀ pk : Mayo.PublicKey P, pk.IsUpper → Mayo.PublicKey.fromBytes P pk.toBytes = .ok pk) ∧
    (∀ sk : SecretKey P, sk.IsUpper → SecretKey.fromBytes P sk.toBytes = .ok sk) ∧
    (∀ (b : List U8) (pk : Mayo.PublicKey P),
      Mayo.PublicKey.fromBytes P b = .ok pk → pk.IsUpper ∧ pk.toBytes = b) ∧
    (∀ (b : List U8) (sk : SecretKey P),
      SecretKey.fromBytes P b = .ok sk → sk.IsUpper ∧ sk.toBytes = b) ∧
    (∀ rng : ρ, (trapgen P rng).1.1.IsUpper ∧ (trapgen P rng).1.2.IsUpper) ∧
    (∀ sk : SecretKey P, sk.IsUpper → sk.publicKey.IsUpper ∧
      (SecretKey.fromBytes P sk.toBytes).map (fun sk => sk.publicKey.toBytes) =
        .ok sk.publicKey.toBytes) ∧
    (P ∈ MayoParams.supported → ∀ (H : Xof) (σ : Type) (issuer : Issuer H P σ) (spent : σ),
      ∃ input restored, (issuer.toIssuerKey.keyBytes : Outcome Error _) = .ok input ∧
        Issuer.fromKeyBytesWithStore H P input spent = .ok restored ∧
        restored.secret = issuer.secret ∧ restored.publicKey = issuer.publicKey) ∧
    (P ∈ MayoParams.supported → ∀ (H : Xof) (σ : Type) (applicationContext : List U8)
      (profile : PerformanceProfile) (spent spent' : σ) (rng : ρ),
      applicationContext.length ≤ maxApplicationContextBytes →
        ∃ (issuer : Issuer H P σ) (input : List U8),
          (Issuer.generateWithStore H P applicationContext profile spent rng :
            Outcome Error _ × ρ).1 = .ok issuer ∧
          issuer.secret = (trapgen P rng).1.1 ∧ (issuer.keyBytes : Outcome Error _) = .ok input ∧
          Issuer.fromKeyBytesWithStore H P input spent' = .ok { issuer with spent := spent' }) := by
  refine ⟨fun pk h => Mayo.PublicKey.fromBytes_eq_ok.mpr ⟨h, rfl⟩,
    fun sk h => SecretKey.fromBytes_eq_ok.mpr ⟨h, rfl⟩, ?_, ?_, ?_, ?_, ?_, ?_⟩
  · intro b pk h
    obtain ⟨hupper, rfl⟩ := Mayo.PublicKey.fromBytes_eq_ok.mp h
    exact ⟨hupper, rfl⟩
  · intro b sk h
    obtain ⟨hupper, rfl⟩ := SecretKey.fromBytes_eq_ok.mp h
    exact ⟨hupper, rfl⟩
  · intro rng
    refine ⟨trapgen_isUpper P rng, ?_⟩
    rw [← publicKey_trapgen P rng]
    exact SecretKey.publicKey_isUpper (trapgen_isUpper P rng)
  · intro sk h
    refine ⟨SecretKey.publicKey_isUpper h, ?_⟩
    rw [SecretKey.fromBytes_eq_ok.mpr ⟨h, rfl⟩]
    rfl
  · -- the issuer's own record holds the secret key; the public key is recomputed
    intro hP H σ issuer spent
    obtain ⟨input, hinput, hrestored⟩ :=
      issuer.fromKeyBytesWithStore_keyBytes (ε := Error) (.of_supported hP) spent
    exact ⟨input, _, hinput, hrestored, rfl, rfl⟩
  · intro hP H σ applicationContext profile spent spent' rng hle
    obtain ⟨issuer, hgenerated, hderived, hrestored⟩ :=
      (Issuer.generateWithStore_spec (H := H) (.of_supported hP) applicationContext profile spent
        rng).2 hle
    obtain ⟨input, hinput, hrestored⟩ := hrestored spent'
    exact ⟨issuer, input, hgenerated, congrArg IssuerKey.secret hderived, hinput, hrestored⟩

theorem tinyKey_isUpper : tinyKey.IsUpper := by
  intro a r c h
  have := r.isLt
  have := c.isLt
  simp only [MayoParams.V, tinyParams] at *
  omega

theorem tinyParams_keysFit : tinyParams.KeysFit := ⟨by decide, by decide⟩

/-- The codec of the tiny parameters, whose secret keys have five entries. -/
theorem expanded_key_codecs_tiny :
    SecretKey.fromBytes tinyParams tinyKey.toBytes = .ok tinyKey :=
  (expanded_key_codecs tinyParams (ρ := Unit)).2.1 tinyKey tinyKey_isUpper

/-- An issuer of the tiny parameters, for examples of runs. -/
def tinyIssuer (H : Xof) : IssuerKey H tinyParams :=
  IssuerKey.derive H tinyKey .compact [] (Nat.zero_le _) tinyKey_isUpper

/-! ## The attempts of signing -/

/-- Preimage sampling does not exhaust its attempts on a signature. -/
def IssuerKey.Samples [CryptoRngCore ρ] (issuer : IssuerKey H P) (commitment : List GF16)
    (topup : U64) (rng : ρ) : Prop :=
  let (salt, rng) := CryptoRngCore.fillBytes 32 rng
  ∃ signature, (spre issuer.secret (signedTokenTarget P commitment topup salt) rng).1 = .ok signature

theorem IssuerKey.Samples.sign [CryptoRngCore ρ] {issuer : IssuerKey H P} {commitment : List GF16}
    {topup : U64} {rng : ρ} (h : issuer.Samples commitment topup rng) :
    ∃ signature rng', issuer.signTokenTarget commitment topup rng =
      (.ok (signature, (CryptoRngCore.fillBytes 32 rng).1), rng') := by
  obtain ⟨signature, hsignature⟩ := h
  rw [IssuerKey.signTokenTarget]
  dsimp only
  rcases hspre : spre issuer.secret _ _ with ⟨result, rng'⟩
  obtain rfl : result = .ok signature := (congrArg Prod.fst hspre).symm.trans hsignature
  exact ⟨signature, rng', rfl⟩

/-- The tiny issuer samples a preimage of every target from one generator: whether it does depends
    on the key and the generator alone. -/
theorem tinyIssuer_samples (H : Xof) (commitment : List GF16) (topup : U64) :
    (tinyIssuer H).Samples commitment topup (RepeatRng.mk 7#32) := by
  have hlen : ([9#8, 4#8].map GF16.new).length = tinyParams.M := rfl
  obtain ⟨-, -, hout⟩ := spre_target tinyKey hlen (signedTokenTarget_length tinyParams commitment
    topup (CryptoRngCore.fillBytes 32 (RepeatRng.mk 7#32)).1) (RepeatRng.mk 7#32)
  rw [spre_tinyKey] at hout
  rcases hout with ⟨d, x, x', -, -, hx'⟩ | ⟨hfailed, -⟩
  · exact ⟨_, hx'⟩
  · exact nomatch hfailed

/-- The randomness of the attempts of `sign_token_target`. -/
def IssuerKey.signLog [CryptoRngCore ρ] (issuer : IssuerKey H P) (commitment : List GF16)
    (topup : U64) (rng : ρ) : List (Draws P) :=
  let (salt, rng) := CryptoRngCore.fillBytes 32 rng
  spreLog issuer.secret (signedTokenTarget P commitment topup salt) rng

theorem IssuerKey.signTokenTarget_eq [CryptoRngCore ρ] (issuer : IssuerKey H P)
    (commitment : List GF16) (topup : U64) (rng : ρ) :
    issuer.signTokenTarget commitment topup rng =
      (let (salt, rng) := CryptoRngCore.fillBytes 32 rng
       let (out, rng) := spre issuer.secret (signedTokenTarget P commitment topup salt) rng
       (Outcome.ofResult (fun _ => Error.signingFailed) (out.map (·, salt)), rng)) := by
  rw [IssuerKey.signTokenTarget]
  dsimp only
  rcases spre issuer.secret _ _ with ⟨⟨⟩ | ⟨⟩, rng'⟩ <;> rfl

/-- Preimage sampling attempts do not depend on the target.  The log is that of the loop of `spre`.
    Two runs on targets of the right length from one generator state draw the same values in the
    same attempts, leave the generator in the same state, and return preimages with the same vinegar
    values or both fail; so do two signatures, from generators that agree once the salt is drawn. -/
theorem signing_attempts_oblivious (P : MayoParams) {ρ : Type} [CryptoRngCore ρ] :
    (∀ (sk : SecretKey P) (t : Vector GF16 P.M) (rng : ρ),
      spreLoopLog sk t 256 rng = (spre sk t.toList rng, spreLog sk t.toList rng)) ∧
    (∀ (sk : SecretKey P) (t t' : List GF16) (rng : ρ), t.length = P.M → t'.length = P.M →
      spreLog sk t rng = spreLog sk t' rng ∧ (spre sk t rng).2 = (spre sk t' rng).2 ∧
        SameOutcome sk (spreLog sk t rng) (spre sk t rng).1 (spre sk t' rng).1) ∧
    (∀ (H : Xof) (issuer : IssuerKey H P) (commitment commitment' : List GF16) (topup topup' : U64)
      (rng rng' : ρ), (CryptoRngCore.fillBytes 32 rng).2 = (CryptoRngCore.fillBytes 32 rng').2 →
      issuer.signLog commitment topup rng = issuer.signLog commitment' topup' rng' ∧
        (issuer.signTokenTarget commitment topup rng).2 =
          (issuer.signTokenTarget commitment' topup' rng').2 ∧
        ((issuer.signTokenTarget commitment topup rng).1 = Outcome.err .signingFailed ↔
          (issuer.signTokenTarget commitment' topup' rng').1 = Outcome.err .signingFailed)) := by
  refine ⟨spreLoopLog_eq, fun sk t t' rng ht ht' => spre_target sk ht ht' rng, ?_⟩
  intro H issuer commitment commitment' topup topup' rng rng' hrng
  rw [IssuerKey.signTokenTarget_eq, IssuerKey.signTokenTarget_eq]
  dsimp only [IssuerKey.signLog]
  rw [hrng]
  obtain ⟨hlog, hstate, hout⟩ := spre_target issuer.secret
    (signedTokenTarget_length P commitment topup (CryptoRngCore.fillBytes 32 rng).1)
    (signedTokenTarget_length P commitment' topup' (CryptoRngCore.fillBytes 32 rng').1)
    (CryptoRngCore.fillBytes 32 rng').2
  refine ⟨hlog, hstate, ?_⟩
  rcases hout with ⟨d, x, x', -, hx, hx'⟩ | ⟨hx, hx'⟩
  · rw [hx, hx']
    exact ⟨fun h => (nomatch h), fun h => (nomatch h)⟩
  · rw [hx, hx']
    rfl

end VoleAct.Act
