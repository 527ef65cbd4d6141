/-
  VoleAct.Act.Wire

  The versioned envelope and the field codecs of protocol artifacts
  (`vole-act/src/wire.rs`).
-/
import VoleAct.BinaryFields.Nibbles
import VoleAct.Lib.Codec
import VoleAct.Sha3
import VoleAct.Voleith.ProofCodec

namespace VoleAct.Act

open VoleAct.BinaryFields VoleAct.Lib VoleAct.Voleith

/-- Failure to decode or authenticate a protocol artifact. -/
inductive WireError where
  | invalidEncoding
  | wrongArtifact
  | wrongParameterSet
  | tooLarge
  | invalidCredential
  | unsupportedVersion
  deriving DecidableEq, Repr

namespace Wire

/-- `MAGIC`. -/
def magic : Bytes 4 := #v[0x56#8, 0x41#8, 0x43#8, 0x54#8]

/-- `WIRE_VERSION`. -/
def version : U8 := 2#8

/-- `MAX_WIRE_BYTES`. -/
def maxBytes : Nat := 32 * 1024 * 1024

/-! ## Encoding -/

def header (artifact parameterSet credentialKind settlement : U8) : List U8 :=
  magic.toList ++ [version] ++ [artifact, parameterSet, credentialKind, settlement]

/-- `put_bytes`: a `u32` length, or a panic when it does not fit, then the bytes. -/
def putBytes {ε : Type} (bytes : List U8) : Outcome ε (List U8) := do
  Outcome.assert (decide (bytes.length < 2 ^ 32))
  return le32 bytes.length ++ bytes

/-- `put_bytes` of an encoded proof. -/
def putProof {ε : Type} (p : Proof) : Outcome ε (List U8) := do
  let encoded ← p.toBytes
  putBytes encoded

def packNibbles (values : List GF16) : List U8 := (values.foldl pushNext ([], 0)).1

/-! ## Decoding -/

/-- `Decoder`: the unread input. -/
abbrev WireDecoder (α : Type) := Decoder Empty U8 WireError α

def array (n : Nat) : WireDecoder (Bytes n) := Decoder.array .invalidEncoding n

def u8 : WireDecoder U8 := do
  let bytes ← array 1
  return bytes.get ⟨0, Nat.one_pos⟩

def u64 : WireDecoder U64 := do
  let value ← Decoder.uint .invalidEncoding 8
  return BitVec.ofNat 64 value

/-- `Decoder::new`: the size limit and the envelope. -/
def start (artifact parameterSet credentialKind settlement : U8) : WireDecoder Unit := do
  let len ← Decoder.remaining
  Decoder.require (decide (len ≤ maxBytes)) .tooLarge
  let actualMagic ← array 4
  Decoder.require (actualMagic == magic) .invalidEncoding
  let actualVersion ← u8
  Decoder.require (actualVersion == version) .unsupportedVersion
  let actual ← array 4
  Decoder.require (actual == #v[artifact, parameterSet, credentialKind, settlement])
    -- the parameter set decides which error it is
    (if actual.get 1 = parameterSet then .wrongArtifact else .wrongParameterSet)

def bytes : WireDecoder (List U8) := do
  let len ← Decoder.uint .invalidEncoding 4
  Decoder.take .invalidEncoding len

/-- `nibbles`: a packed list of known length, without a spare nibble. -/
def nibbles (count : Nat) : WireDecoder (List GF16) := do
  let bytes ← Decoder.take .invalidEncoding ((count + 1) / 2)
  Decoder.require (paddingClear bytes count) .invalidEncoding
  return unpackNibbles bytes count

def finish : WireDecoder Unit := Decoder.finish .invalidEncoding

/-- The map of proof decoding errors both request decoders use. -/
def ofProofError : ProofDecodeError → WireError
  | .tooLarge => .tooLarge
  | .invalidEncoding => .invalidEncoding
  | .unsupportedVersion => .unsupportedVersion

/-- A length-prefixed proof. -/
def proof : WireDecoder Proof := do
  let encoded ← bytes
  Decoder.lift ((Proof.fromBytes encoded).mapError ofProofError)

/-! ## Fields -/

theorem mapError_eq_ok {ε ε' α : Type} {f : ε → ε'} {x : Except ε α} {a : α} :
    x.mapError f = .ok a ↔ x = .ok a := by
  cases x <;> simp [Except.mapError]

theorem packNibbles_eq (values : List GF16) : packNibbles values = packed values :=
  congrArg Prod.fst (foldl_pushNext values [])

theorem header_length (a p k s : U8) : (header a p k s).length = 9 := rfl

theorem header_inj {a p k s a' p' k' s' : U8} {r r' : List U8}
    (h : header a p k s ++ r = header a' p' k' s' ++ r') :
    (a = a' ∧ p = p' ∧ k = k' ∧ s = s') ∧ r = r' := by
  obtain ⟨hheader, rfl⟩ := List.append_inj h rfl
  have hfields := List.append_cancel_left hheader
  simpa using hfields

theorem putBytes_eq_ok {ε : Type} {bytes b : List U8} :
    (putBytes bytes : Outcome ε _) = .ok b ↔
      bytes.length < 2 ^ 32 ∧ b = le32 bytes.length ++ bytes := by
  rw [putBytes, assert_bind_eq_ok, decide_eq_true_iff]
  exact and_congr_right fun _ =>
    ⟨fun h => (Except.ok.inj h).symm, fun h => congrArg Except.ok h.symm⟩

theorem array_run {n : Nat} {v : Bytes n} {input rest : List U8} :
    (array n).run input = .ok (v, rest) ↔ input = v.toList ++ rest := Decoder.run_array_eq_ok

theorem u8_run {value : U8} {input rest : List U8} :
    u8.run input = .ok (value, rest) ↔ input = value :: rest := by
  rw [u8, Decoder.run_bind_eq_ok]
  constructor
  · rintro ⟨v, mid, hv, h⟩
    obtain ⟨rfl, rfl⟩ := Prod.mk.inj (Except.ok.inj h)
    obtain rfl := array_run.mp hv
    -- a one-byte array is its byte
    obtain ⟨⟨l⟩, hl⟩ := v
    obtain ⟨b, rfl⟩ := List.length_eq_one_iff.mp hl
    rfl
  · rintro rfl
    exact ⟨#v[value], rest, array_run.mpr rfl, rfl⟩

theorem u64_run {value : U64} {input rest : List U8} :
    u64.run input = .ok (value, rest) ↔ input = le64 value.toNat ++ rest := by
  rw [u64, Decoder.run_bind_eq_ok]
  constructor
  · rintro ⟨n, mid, hn, h⟩
    obtain ⟨rfl, rfl⟩ := Prod.mk.inj (Except.ok.inj h)
    obtain ⟨hlt, rfl⟩ := Decoder.run_uint_eq_ok.mp hn
    have hvalue : n % 2 ^ 64 = n := Nat.mod_eq_of_lt hlt
    rw [BitVec.toNat_ofNat, hvalue]
    rfl
  · rintro rfl
    refine ⟨value.toNat, rest, Decoder.run_uint_eq_ok.mpr ⟨value.isLt, rfl⟩, ?_⟩
    rw [BitVec.ofNat_toNat, BitVec.setWidth_eq]
    rfl

theorem bytes_run {bs input rest : List U8} :
    bytes.run input = .ok (bs, rest) ↔
      bs.length < 2 ^ 32 ∧ input = le32 bs.length ++ bs ++ rest := by
  rw [bytes, Decoder.run_bind_eq_ok]
  constructor
  · rintro ⟨n, mid, hn, h⟩
    obtain ⟨rfl, rfl⟩ := Decoder.run_take_eq_ok.mp h
    obtain ⟨hlt, rfl⟩ := Decoder.run_uint_eq_ok.mp hn
    exact ⟨hlt, (List.append_assoc _ _ _).symm⟩
  · rintro ⟨hlt, rfl⟩
    rw [List.append_assoc]
    exact ⟨_, _, Decoder.run_uint_eq_ok.mpr ⟨hlt, rfl⟩, Decoder.run_take_eq_ok.mpr ⟨rfl, rfl⟩⟩

theorem nibbles_run {count : Nat} {values : List GF16} {input rest : List U8} :
    (nibbles count).run input = .ok (values, rest) ↔
      values.length = count ∧ input = packNibbles values ++ rest := by
  rw [nibbles, Decoder.run_bind_eq_ok, packNibbles_eq]
  constructor
  · rintro ⟨bs, mid, hbs, h⟩
    obtain ⟨_, mid', hpad, h⟩ := Decoder.run_bind_eq_ok.mp h
    obtain ⟨rfl, rfl⟩ := Prod.mk.inj (Except.ok.inj h)
    obtain ⟨hclear, rfl⟩ := Decoder.run_require_eq_ok.mp hpad
    obtain ⟨hlen, rfl⟩ := Decoder.run_take_eq_ok.mp hbs
    exact ⟨unpackNibbles_length bs count, by rw [packed_unpackNibbles hlen hclear]⟩
  · rintro ⟨rfl, rfl⟩
    refine ⟨_, _, Decoder.run_take_eq_ok.mpr ⟨packed_length values, rfl⟩, ?_⟩
    rw [Decoder.run_bind (Decoder.run_require (paddingClear_packed values) _ _),
      unpackNibbles_packed]
    rfl

/-- A length-prefixed proof on the wire. -/
def proofBytes (p : Proof) : List U8 := le32 p.encoding.length ++ p.encoding

/-- The proofs a request decoder reads back. -/
structure Encodable (p : Proof) : Prop where
  fits : p.Fits
  decodes : Proof.fromBytes p.encoding = .ok p

theorem Encodable.length_le {p : Proof} (h : Encodable p) :
    p.encoding.length ≤ maxProofWireBytes := (Proof.fromBytes_eq_ok.mp h.decodes).1

theorem putProof_eq_ok {ε : Type} {p : Proof} {b : List U8} :
    (putProof p : Outcome ε _) = .ok b ↔
      p.Fits ∧ p.encoding.length < 2 ^ 32 ∧ b = proofBytes p := by
  simp only [putProof, Outcome.bind_eq_ok, Proof.toBytes_eq_ok, putBytes_eq_ok]
  constructor
  · rintro ⟨_, ⟨hfits, rfl⟩, hlen, rfl⟩
    exact ⟨hfits, hlen, rfl⟩
  · rintro ⟨hfits, hlen, rfl⟩
    exact ⟨_, ⟨hfits, rfl⟩, hlen, rfl⟩

theorem Encodable.length_lt {p : Proof} (h : Encodable p) : p.encoding.length < 2 ^ 32 := by
  have hlen := h.length_le
  unfold maxProofWireBytes at hlen
  omega

theorem proof_run {p : Proof} {input rest : List U8} :
    proof.run input = .ok (p, rest) ↔ Encodable p ∧ input = proofBytes p ++ rest := by
  rw [proof, Decoder.run_bind_eq_ok]
  constructor
  · rintro ⟨bs, mid, hbs, h⟩
    obtain ⟨hproof, rfl⟩ := Decoder.run_lift_eq_ok.mp h
    obtain ⟨-, rfl⟩ := bytes_run.mp hbs
    have hdecode := mapError_eq_ok.mp hproof
    obtain ⟨-, hrun⟩ := Proof.fromBytes_eq_ok.mp hdecode
    obtain ⟨rfl, hfits, -⟩ := ProofDecoder.proof_exact hrun
    exact ⟨⟨hfits, hdecode⟩, rfl⟩
  · rintro ⟨hp, rfl⟩
    exact ⟨p.encoding, rest, bytes_run.mpr ⟨hp.length_lt, rfl⟩,
      Decoder.run_lift_eq_ok.mpr ⟨mapError_eq_ok.mpr hp.decodes, rfl⟩⟩

/-! ## The envelope -/

/-- On a well-formed header within the size limit only the last check is left. -/
theorem start_header {a p k s a' p' k' s' : U8} {rest : List U8}
    (hle : (header a' p' k' s' ++ rest).length ≤ maxBytes) :
    (start a p k s).run (header a' p' k' s' ++ rest) =
      (Decoder.require (#v[a', p', k', s'] == #v[a, p, k, s])
        (if p' = p then .wrongArtifact else .wrongParameterSet) : WireDecoder Unit).run rest := by
  have hmagic : (array 4).run (header a' p' k' s' ++ rest) =
      .ok (magic, version :: a' :: p' :: k' :: s' :: rest) := array_run.mpr rfl
  have hversion : u8.run (version :: a' :: p' :: k' :: s' :: rest) =
      .ok (version, a' :: p' :: k' :: s' :: rest) := u8_run.mpr rfl
  have hfields : (array 4).run (a' :: p' :: k' :: s' :: rest) = .ok (#v[a', p', k', s'], rest) :=
    array_run.mpr rfl
  rw [start, Decoder.run_bind (Decoder.run_remaining _),
    Decoder.run_bind (Decoder.run_require (decide_eq_true hle) _ _), Decoder.run_bind hmagic,
    Decoder.run_bind (Decoder.run_require (beq_self_eq_true _) _ _),
    Decoder.run_bind hversion,
    Decoder.run_bind (Decoder.run_require (beq_self_eq_true _) _ _), Decoder.run_bind hfields]
  rfl

/-- The envelope admits exactly its own header, within the size limit. -/
theorem start_eq_ok {a p k s : U8} {input rest : List U8} :
    (start a p k s).run input = .ok ((), rest) ↔
      input.length ≤ maxBytes ∧ input = header a p k s ++ rest := by
  constructor
  · intro h
    obtain ⟨len, m0, hlen, h0⟩ := Decoder.run_bind_eq_ok.mp h
    obtain ⟨_, m1, hlimit, h1⟩ := Decoder.run_bind_eq_ok.mp h0
    obtain ⟨actualMagic, m2, hm, h2⟩ := Decoder.run_bind_eq_ok.mp h1
    obtain ⟨_, m3, hmagic, h3⟩ := Decoder.run_bind_eq_ok.mp h2
    obtain ⟨actualVersion, m4, hv, h4⟩ := Decoder.run_bind_eq_ok.mp h3
    obtain ⟨_, m5, hversion, h5⟩ := Decoder.run_bind_eq_ok.mp h4
    obtain ⟨actual, m6, ha, h6⟩ := Decoder.run_bind_eq_ok.mp h5
    -- every check passed, from the last to the first, so every field is the expected one
    obtain ⟨hactual, rfl⟩ := Decoder.run_require_eq_ok.mp h6
    obtain ⟨hversionEq, rfl⟩ := Decoder.run_require_eq_ok.mp hversion
    obtain ⟨hmagicEq, rfl⟩ := Decoder.run_require_eq_ok.mp hmagic
    obtain ⟨hle, rfl⟩ := Decoder.run_require_eq_ok.mp hlimit
    obtain ⟨rfl, rfl⟩ := Prod.mk.inj (Except.ok.inj hlen)
    obtain rfl := array_run.mp ha
    obtain rfl := u8_run.mp hv
    obtain rfl := array_run.mp hm
    obtain rfl := beq_iff_eq.mp hmagicEq
    obtain rfl := beq_iff_eq.mp hversionEq
    obtain rfl := beq_iff_eq.mp hactual
    exact ⟨of_decide_eq_true hle, rfl⟩
  · rintro ⟨hle, rfl⟩
    rw [start_header hle]
    exact Decoder.run_require (beq_self_eq_true _) _ _

/-- An artifact of the same parameter set is told apart by the rest of its header. -/
theorem start_wrongArtifact {a p k s a' k' s' : U8} {rest : List U8}
    (hle : (header a' p k' s' ++ rest).length ≤ maxBytes) (h : (a', k', s') ≠ (a, k, s)) :
    (start a p k s).run (header a' p k' s' ++ rest) = .error .wrongArtifact := by
  have hne : (#v[a', p, k', s'] == #v[a, p, k, s]) = false := by
    rw [beq_eq_false_iff_ne]
    intro heq
    have hlist := congrArg Vector.toList heq
    simp at hlist
    exact h (by simp [hlist])
  rw [start_header hle, hne, if_pos rfl]
  rfl

/-! ## Artifacts -/

/-- An artifact: its envelope, its body and nothing after it. -/
def artifact {α : Type} (a p k s : U8) (body : WireDecoder α) : WireDecoder α := do
  start a p k s
  let value ← body
  finish
  return value

/-- `from_bytes` of an artifact without further checks. -/
def decode {α : Type} (d : WireDecoder α) (input : List U8) : Except WireError α :=
  (d.run input).map Prod.fst

theorem decode_eq_ok {α : Type} {d : WireDecoder α} {input : List U8} {x : α} :
    decode d input = .ok x ↔ ∃ rest, d.run input = .ok (x, rest) := by
  rw [decode]
  cases h : d.run input with
  | ok r =>
      constructor
      · intro heq
        exact ⟨r.2, congrArg (fun y => Except.ok (y, r.2)) (Except.ok.inj heq)⟩
      · rintro ⟨rest, heq⟩
        rw [Except.ok.inj heq]
        rfl
  | error e => exact iff_of_false (fun heq => nomatch heq) fun ⟨_, heq⟩ => nomatch heq

/-- An artifact decoder accepts exactly the encodings, within the size limit, of the values its
    body reads. -/
theorem decode_artifact_eq_ok {α : Type} {a p k s : U8} {body : WireDecoder α}
    {enc : α → List U8} {Q : α → Prop} (hbody : ∀ ⦃input rest x⦄,
      body.run input = .ok (x, rest) ↔ Q x ∧ input = enc x ++ rest) {input : List U8} {x : α} :
    decode (artifact a p k s body) input = .ok x ↔
      Q x ∧ input = header a p k s ++ enc x ∧ input.length ≤ maxBytes := by
  have hrun {rest : List U8} : (artifact a p k s body).run input = .ok (x, rest) ↔
      (Q x ∧ input = header a p k s ++ enc x ∧ input.length ≤ maxBytes) ∧ rest = [] := by
    constructor
    · intro h
      obtain ⟨_, mid, hstart, h⟩ := Decoder.run_bind_eq_ok.mp h
      obtain ⟨y, mid', hvalue, h⟩ := Decoder.run_bind_eq_ok.mp h
      obtain ⟨_, mid'', hfinish, h⟩ := Decoder.run_bind_eq_ok.mp h
      obtain ⟨rfl, rfl⟩ := Prod.mk.inj (Except.ok.inj h)
      obtain ⟨rfl, rfl⟩ := Decoder.run_finish_eq_ok.mp hfinish
      obtain ⟨hQ, rfl⟩ := hbody.mp hvalue
      obtain ⟨hle, rfl⟩ := start_eq_ok.mp hstart
      rw [List.append_nil] at hle ⊢
      exact ⟨⟨hQ, rfl, hle⟩, rfl⟩
    · rintro ⟨⟨hQ, rfl, hle⟩, rfl⟩
      have hvalue : body.run (enc x) = .ok (x, []) :=
        hbody.mpr ⟨hQ, (List.append_nil _).symm⟩
      have hfinish : finish.run [] = .ok ((), []) := Decoder.run_finish_eq_ok.mpr ⟨rfl, rfl⟩
      rw [artifact, Decoder.run_bind (start_eq_ok.mpr ⟨hle, rfl⟩), Decoder.run_bind hvalue,
        Decoder.run_bind hfinish]
      rfl
  rw [decode_eq_ok]
  constructor
  · rintro ⟨rest, h⟩
    exact (hrun.mp h).1
  · intro h
    exact ⟨[], hrun.mpr ⟨h, rfl⟩⟩

end Wire

end VoleAct.Act
