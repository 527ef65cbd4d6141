/-
  VoleAct.Act.PublicKey

  The issuer public key and its derived circuit terms and context
  (`protocol/public_key.rs`).

  The term table and the context are functions of the other fields wherever a
  key is built, and the decoders bound the application context and only return
  triangular matrices, so these facts are fields of the structure.
-/
import VoleAct.Act.CircuitSpec
import VoleAct.Act.Statement
import VoleAct.Mayo.KeyCodec

namespace VoleAct.Act

open VoleAct.BinaryFields VoleAct.Lib VoleAct.Mayo VoleAct.Voleith

/-- `MAX_APPLICATION_CONTEXT_BYTES`. -/
def maxApplicationContextBytes : Nat := 4096

/-- `WIRE_PUBLIC_KEY`. -/
def wirePublicKey : U8 := 1#8

/-- Issuer public key and precomputed MAYO circuit representation. -/
structure PublicKey (H : Xof) (P : MayoParams) where
  mayo : Mayo.PublicKey P
  terms : MayoTermTable
  context : Bytes 32
  profile : PerformanceProfile
  applicationContext : List U8
  terms_eq : terms = (mayoTermsAndHash H mayo).1
  context_eq : context =
    deriveContext H P applicationContext (mayoTermsAndHash H mayo).2 profile
  applicationContext_le : applicationContext.length ≤ maxApplicationContextBytes
  mayo_upper : mayo.IsUpper

namespace PublicKey

variable {H : Xof} {P : MayoParams}

/-- The public key of a MAYO map: its terms and its context recomputed. -/
def derive (H : Xof) (mayo : Mayo.PublicKey P) (profile : PerformanceProfile)
    (applicationContext : List U8)
    (hle : applicationContext.length ≤ maxApplicationContextBytes) (hupper : mayo.IsUpper) :
    PublicKey H P where
  mayo := mayo
  terms := (mayoTermsAndHash H mayo).1
  context := deriveContext H P applicationContext (mayoTermsAndHash H mayo).2 profile
  profile := profile
  applicationContext := applicationContext
  terms_eq := rfl
  context_eq := rfl
  applicationContext_le := hle
  mayo_upper := hupper

/-- Every public key is derived from its map, profile and application context. -/
theorem eq_derive (pk : PublicKey H P) : pk =
    derive H pk.mayo pk.profile pk.applicationContext pk.applicationContext_le pk.mayo_upper := by
  obtain ⟨mayo, terms, context, profile, applicationContext, rfl, rfl, hle, hupper⟩ := pk
  rfl

theorem terms_fit (pk : PublicKey H P) : pk.terms.Fits P := pk.terms_eq ▸ mayoTerms_fits H pk.mayo

end PublicKey

/-! ## Key codecs

  The public key and the issuer key share one layout: the profile, the application context and an
  encoded MAYO key. -/

section KeyBody

variable {κ : Type}

/-- The body of a key artifact. -/
def keyBody (keyFromBytes : List U8 → Except MayoError κ) :
    Wire.WireDecoder (PerformanceProfile × List U8 × κ) := do
  let id ← Wire.u8
  let profile ← Decoder.lift (PerformanceProfile.fromWireId id)
  let applicationContext ← Wire.bytes
  Decoder.require (decide (applicationContext.length ≤ maxApplicationContextBytes)) .invalidEncoding
  let encoded ← Wire.bytes
  -- what was wrong with the key is not passed on
  let key ← Decoder.lift ((keyFromBytes encoded).mapError fun _ => .invalidEncoding)
  return (profile, applicationContext, key)

/-- What `to_bytes` writes after the header of a key artifact. -/
def putKey {ε : Type} (profile : PerformanceProfile) (applicationContext key : List U8) :
    Outcome ε (List U8) := do
  let applicationContext ← Wire.putBytes applicationContext
  let key ← Wire.putBytes key
  return [profile.wireId] ++ applicationContext ++ key

/-- The bytes of the body. -/
def keyBodyBytes (keyToBytes : κ → List U8) (x : PerformanceProfile × List U8 × κ) : List U8 :=
  [x.1.wireId] ++ (le32 x.2.1.length ++ x.2.1 ++
    (le32 (keyToBytes x.2.2).length ++ keyToBytes x.2.2))

/-- The bodies that are read back. -/
structure KeyBodyFits (keyToBytes : κ → List U8) (Q : κ → Prop)
    (x : PerformanceProfile × List U8 × κ) : Prop where
  applicationContext_le : x.2.1.length ≤ maxApplicationContextBytes
  key : Q x.2.2
  key_length : (keyToBytes x.2.2).length < 2 ^ 32

variable {keyFromBytes : List U8 → Except MayoError κ} {keyToBytes : κ → List U8} {Q : κ → Prop}
  {x : PerformanceProfile × List U8 × κ}

theorem KeyBodyFits.applicationContext_lt (h : KeyBodyFits keyToBytes Q x) :
    x.2.1.length < 2 ^ 32 := h.applicationContext_le.trans_lt (by decide)

theorem KeyBodyFits.put {ε : Type} (h : KeyBodyFits keyToBytes Q x) :
    (putKey x.1 x.2.1 (keyToBytes x.2.2) : Outcome ε _) = .ok (keyBodyBytes keyToBytes x) := by
  rw [putKey, Wire.putBytes_eq_ok.mpr ⟨h.applicationContext_lt, rfl⟩, Outcome.ok_bind,
    Wire.putBytes_eq_ok.mpr ⟨h.key_length, rfl⟩, Outcome.ok_bind, List.append_assoc]
  rfl

theorem KeyBodyFits.length_le (h : KeyBodyFits keyToBytes Q x) :
    (keyBodyBytes keyToBytes x).length ≤ (keyToBytes x.2.2).length + 4105 := by
  have hle := h.applicationContext_le
  have hlen : (keyBodyBytes keyToBytes x).length =
      (keyToBytes x.2.2).length + x.2.1.length + 9 := by
    simp [keyBodyBytes, le32]
    omega
  unfold maxApplicationContextBytes at hle
  omega

/-- A key of ordinary size is written after its header exactly as it is read. -/
theorem KeyBodyFits.put_header {ε : Type} {a p : U8} {input : List U8}
    (h : KeyBodyFits keyToBytes Q x) (hkey : (keyToBytes x.2.2).length ≤ 1000000) :
    ((do
      let body ← putKey x.1 x.2.1 (keyToBytes x.2.2)
      return Wire.header a p 0 0 ++ body) : Outcome ε (List U8)) = .ok input ↔
      KeyBodyFits keyToBytes Q x ∧ input = Wire.header a p 0 0 ++ keyBodyBytes keyToBytes x ∧
        input.length ≤ Wire.maxBytes := by
  rw [h.put, Outcome.ok_bind]
  constructor
  · intro heq
    obtain rfl := Except.ok.inj heq
    refine ⟨h, rfl, ?_⟩
    have hlen := h.length_le
    rw [List.length_append, Wire.header_length]
    unfold Wire.maxBytes
    omega
  · rintro ⟨-, rfl, -⟩
    rfl

theorem keyBody_run (hkey : ∀ bytes key, keyFromBytes bytes = .ok key ↔
    Q key ∧ bytes = keyToBytes key) ⦃input rest : List U8⦄
    ⦃x : PerformanceProfile × List U8 × κ⦄ :
    (keyBody keyFromBytes).run input = .ok (x, rest) ↔
      KeyBodyFits keyToBytes Q x ∧ input = keyBodyBytes keyToBytes x ++ rest := by
  simp only [keyBody, keyBodyBytes, Decoder.run_bind_eq_ok, Decoder.run_lift_eq_ok,
    Decoder.run_require_eq_ok, Wire.u8_run, Wire.bytes_run, Wire.mapError_eq_ok,
    PerformanceProfile.fromWireId_eq_ok, hkey, decide_eq_true_iff, List.append_assoc,
    List.cons_append]
  constructor
  · rintro ⟨id, _, rfl, profile, _, ⟨rfl, rfl⟩, app, _, ⟨-, rfl⟩, -, _, ⟨hle, rfl⟩, encoded, _,
      ⟨hlen, rfl⟩, key, _, ⟨⟨hQ, rfl⟩, rfl⟩, h⟩
    obtain ⟨rfl, rfl⟩ := Prod.mk.inj (Except.ok.inj h)
    exact ⟨⟨hle, hQ, hlen⟩, rfl⟩
  · rintro ⟨h, rfl⟩
    exact ⟨_, _, rfl, x.1, _, ⟨rfl, rfl⟩, x.2.1, _, ⟨h.applicationContext_lt, rfl⟩, (), _,
      ⟨h.applicationContext_le, rfl⟩, _, _, ⟨h.key_length, rfl⟩, x.2.2, _, ⟨⟨h.key, rfl⟩, rfl⟩, rfl⟩

end KeyBody

namespace PublicKey

variable {H : Xof} {P : MayoParams}

def toBytes {ε : Type} (pk : PublicKey H P) : Outcome ε (List U8) := do
  let body ← putKey pk.profile pk.applicationContext pk.mayo.toBytes
  return Wire.header wirePublicKey P.wireId 0 0 ++ body

/-- The fields of an encoded public key. -/
def decodeFields (P : MayoParams) (input : List U8) :
    Except WireError (PerformanceProfile × List U8 × Mayo.PublicKey P) :=
  Wire.decode (Wire.artifact wirePublicKey P.wireId 0 0 (keyBody (Mayo.PublicKey.fromBytes P))) input

theorem decodeFields_eq_ok {input : List U8}
    {x : PerformanceProfile × List U8 × Mayo.PublicKey P} :
    decodeFields P input = .ok x ↔
      KeyBodyFits Mayo.PublicKey.toBytes Mayo.PublicKey.IsUpper x ∧
        input = Wire.header wirePublicKey P.wireId 0 0 ++
          keyBodyBytes Mayo.PublicKey.toBytes x ∧
        input.length ≤ Wire.maxBytes :=
  Wire.decode_artifact_eq_ok (keyBody_run fun _ _ => Mayo.PublicKey.fromBytes_eq_ok)

/-- Decode a canonical public key, recomputing all derived circuit terms and the context. -/
def fromBytes (H : Xof) (P : MayoParams) (input : List U8) : Except WireError (PublicKey H P) :=
  match h : decodeFields P input with
  | .ok (profile, applicationContext, mayo) =>
      have hfits := (decodeFields_eq_ok.mp h).1
      .ok (derive H mayo profile applicationContext hfits.applicationContext_le hfits.key)
  | .error e => .error e

/-- The fields of a public key that its encoding carries. -/
def fields (pk : PublicKey H P) : PerformanceProfile × List U8 × Mayo.PublicKey P :=
  (pk.profile, pk.applicationContext, pk.mayo)

theorem fromBytes_eq_ok {input : List U8} {pk : PublicKey H P} :
    fromBytes H P input = .ok pk ↔ decodeFields P input = .ok pk.fields := by
  rw [fromBytes]
  split
  · next profile app mayo h =>
      constructor
      · intro heq
        rw [h, ← Except.ok.inj heq]
        rfl
      · intro heq
        obtain ⟨hprofile, hrest⟩ := Prod.mk.inj (Except.ok.inj (h.symm.trans heq))
        obtain ⟨happ, hmayo⟩ := Prod.mk.inj hrest
        subst hprofile happ hmayo
        exact congrArg Except.ok pk.eq_derive.symm
  · next e h =>
      exact ⟨fun heq => (nomatch heq), fun heq => (nomatch h.symm.trans heq)⟩

theorem fields_fit (hP : P.KeysFit) (pk : PublicKey H P) :
    KeyBodyFits Mayo.PublicKey.toBytes Mayo.PublicKey.IsUpper pk.fields where
  applicationContext_le := pk.applicationContext_le
  key := pk.mayo_upper
  key_length := (Mayo.PublicKey.toBytes_length_le hP pk.mayo).trans_lt (by decide)

/-- The encoding of a public key is what decodes to it, with everything it recomputes. -/
theorem toBytes_eq_ok (hP : P.KeysFit) {ε : Type} (pk : PublicKey H P)
    {input : List U8} : (pk.toBytes : Outcome ε _) = .ok input ↔ fromBytes H P input = .ok pk := by
  have hkey := Mayo.PublicKey.toBytes_length_le hP pk.mayo
  rw [fromBytes_eq_ok, decodeFields_eq_ok]
  exact (fields_fit hP pk).put_header hkey

end PublicKey

end VoleAct.Act
