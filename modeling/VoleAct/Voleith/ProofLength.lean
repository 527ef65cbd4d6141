/-
  VoleAct.Voleith.ProofLength

  How long a proof is (`Proof::payload_len`, `Proof::to_bytes`).

  The length is a function of the proof's shape, and `verify` fixes the shape by
  the parameters and by the circuit's dimensions.  So nothing else about a circuit
  reaches the length: not its constraints, nor the public input, nor the witness.
-/
import VoleAct.Voleith.ProofCodec

namespace VoleAct.Voleith

open VoleAct.BinaryFields VoleAct.VectorCommit VoleAct.Lib

/-- `Proof::payload_len`: every field once, without length prefixes. -/
def Proof.payloadLen (p : Proof) : Nat :=
  32 + p.coms.length * 32 + (p.corrections.map fun correction => correction.asBytes.length).sum +
    p.d.asBytes.length + 16 + p.vTilde.length * 16 + p.qsCoefficients.length * 16 +
    (p.openings.map fun opening => opening.siblings.length * 16 + 32).sum

/-- The payload of a proof for a circuit of `l` witness bits and degree `maxDeg`. -/
def payloadLength (params : Params) (l maxDeg : Nat) : Nat :=
  32 + params.tau * 32 + (params.tau - 1) * ((l + maxDeg * params.lambda + 7) / 8) +
    (l + 7) / 8 + 16 + params.lambda * 16 + maxDeg * 16 + params.tau * (params.k * 16 + 32)

/-- Its encoding: the payload, the magic, the version, and a prefix of 8 bytes for each bit vector
    and of 4 for each sequence. -/
def encodingLength (params : Params) (l maxDeg : Nat) : Nat :=
  payloadLength params l maxDeg + (33 + 8 * (params.tau - 1) + 4 * params.tau)

/-! ## Payload and encoding -/

theorem manyBytes_length {α : Type} (enc : α → List U8) (xs : List α) :
    (manyBytes enc xs).length = 4 + (xs.map fun x => (enc x).length).sum := by
  rw [manyBytes, List.length_append, List.length_flatMap, le32, leBytes_length]

/-- A sequence of items of one length. -/
theorem manyBytes_length_const {α : Type} {enc : α → List U8} {n : Nat}
    (h : ∀ x, (enc x).length = n) (xs : List α) : (manyBytes enc xs).length = 4 + xs.length * n := by
  rw [manyBytes_length, sum_map_eq_mul fun x _ => h x]

theorem bitsBytes_length (v : BitVector) : (bitsBytes v).length = 8 + v.asBytes.length := by
  rw [bitsBytes, List.length_append, le64, leBytes_length]

theorem openingBytes_length (o : VcOpening) :
    (openingBytes o).length = 4 + (o.siblings.length * 16 + 32) := by
  rw [openingBytes, List.length_append, manyBytes_length_const fun seed => seed.length_toList,
    Vector.length_toList]
  exact Nat.add_assoc _ _ _

/-- The encoding is the payload and its prefixes. -/
theorem Proof.encoding_length (p : Proof) :
    p.encoding.length =
      p.payloadLen + (33 + 8 * p.corrections.length + 4 * p.openings.length) := by
  have hcoms : (manyBytes comBytes p.coms).length = 4 + p.coms.length * 32 :=
    manyBytes_length_const (fun com => com.hash.length_toList) _
  have hcorrections : (manyBytes bitsBytes p.corrections).length = 4 + (p.corrections.length * 8 +
      (p.corrections.map fun correction => correction.asBytes.length).sum) := by
    simp only [manyBytes_length, bitsBytes_length]
    rw [sum_map_add_const]
  have helement (e : GF2p128) : (elementBytes e).length = 16 := e.toBytes.length_toList
  have hopenings : (manyBytes openingBytes p.openings).length = 4 + (p.openings.length * 4 +
      (p.openings.map fun opening => opening.siblings.length * 16 + 32).sum) := by
    simp only [manyBytes_length, openingBytes_length]
    rw [sum_map_add_const]
  simp only [encoding, payloadLen, List.length_append, Vector.length_toList, List.length_singleton,
    hcoms, hcorrections, bitsBytes_length, helement, manyBytes_length_const helement, hopenings]
  omega

/-! ## Shape and length -/

variable {params : Params} {l maxDeg : Nat} {p p' : Proof}

theorem Proof.HasShape.payloadLen_eq (h : p.HasShape params l maxDeg) :
    p.payloadLen = payloadLength params l maxDeg := by
  have hbytes (v : BitVector) : v.asBytes.length = (v.len + 7) / 8 := v.length_bytes
  have hcorrections : (p.corrections.map fun correction => correction.asBytes.length).sum =
      (params.tau - 1) * ((l + maxDeg * params.lambda + 7) / 8) := by
    rw [sum_map_eq_mul fun c hc => by rw [hbytes, h.correction_bits c hc], h.corrections]
  have hopenings : (p.openings.map fun opening => opening.siblings.length * 16 + 32).sum =
      params.tau * (params.k * 16 + 32) := by
    rw [sum_map_eq_mul fun o ho => by rw [h.siblings o ho], h.openings]
  rw [payloadLen, payloadLength, hcorrections, hopenings, hbytes, h.d_bits, h.coms, h.vTilde,
    h.qsCoefficients]

theorem Proof.HasShape.encoding_length (h : p.HasShape params l maxDeg) :
    p.encoding.length = encodingLength params l maxDeg := by
  rw [p.encoding_length, h.payloadLen_eq, h.corrections, h.openings, encodingLength]

/-- Proofs of one shape are written under the same conditions. -/
theorem Proof.HasShape.fits (h : p.HasShape params l maxDeg) (h' : p'.HasShape params l maxDeg)
    (hfits : p.Fits) : p'.Fits where
  coms := h'.coms.trans_lt (h.coms ▸ hfits.coms)
  corrections := h'.corrections.trans_lt (h.corrections ▸ hfits.corrections)
  correction_bits c hc := by
    -- the two proofs have as many corrections, so the first has one as well
    have hpos : 0 < p.corrections.length :=
      (h'.corrections.trans h.corrections.symm) ▸ List.length_pos_of_mem hc
    have hmem := List.getElem_mem hpos
    rw [h'.correction_bits c hc, ← h.correction_bits _ hmem]
    exact hfits.correction_bits _ hmem
  d_bits := h'.d_bits.trans_lt (h.d_bits ▸ hfits.d_bits)
  vTilde := h'.vTilde.trans_lt (h.vTilde ▸ hfits.vTilde)
  qsCoefficients := h'.qsCoefficients.trans_lt (h.qsCoefficients ▸ hfits.qsCoefficients)
  openings := h'.openings.trans_lt (h.openings ▸ hfits.openings)
  siblings o ho := by
    have hpos : 0 < p.openings.length :=
      (h'.openings.trans h.openings.symm) ▸ List.length_pos_of_mem ho
    have hmem := List.getElem_mem hpos
    rw [h'.siblings o ho, ← h.siblings _ hmem]
    exact hfits.siblings _ hmem

/-- Two proofs accepted for one circuit have one shape, whatever else they are about. -/
theorem Proof.hasShape_of_verify_both {H H' : Xof} {publicInput publicInput' : List U8}
    {circuit : Circuit} (h : verify H params publicInput circuit p = .ok ())
    (h' : verify H' params publicInput' circuit p' = .ok ()) :
    ∃ l maxDeg, p.HasShape params l maxDeg ∧ p'.HasShape params l maxDeg := by
  obtain ⟨-, ops, rfl, -, hshape⟩ := hasShape_of_verify h
  obtain ⟨-, ops', hops, -, hshape'⟩ := hasShape_of_verify h'
  obtain rfl := Except.ok.inj hops
  exact ⟨_, _, hshape, hshape'⟩

/-- The proofs `verify` accepts for one circuit have one length. -/
theorem Proof.length_of_verify {ε : Type} {H H' : Xof} {publicInput publicInput' : List U8}
    {circuit : Circuit} (h : verify H params publicInput circuit p = .ok ())
    (h' : verify H' params publicInput' circuit p' = .ok ()) :
    p.payloadLen = p'.payloadLen ∧
      ∀ b, (p.toBytes : Outcome ε _) = .ok b →
        ∃ b', (p'.toBytes : Outcome ε _) = .ok b' ∧ b.length = b'.length := by
  obtain ⟨l, maxDeg, hshape, hshape'⟩ := hasShape_of_verify_both h h'
  refine ⟨hshape.payloadLen_eq.trans hshape'.payloadLen_eq.symm, fun b hb => ?_⟩
  obtain ⟨hfits, rfl⟩ := toBytes_eq_ok.mp hb
  exact ⟨_, toBytes_eq_ok.mpr ⟨hshape.fits hshape' hfits, rfl⟩,
    hshape.encoding_length.trans hshape'.encoding_length.symm⟩

end VoleAct.Voleith
