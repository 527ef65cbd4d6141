/-
  VoleAct.Voleith.TranscriptBinding

  What the transcript of `verify` commits to before the final challenge.

  Several messages are absorbed as raw bytes, without their own length or count.
  They still determine the proof: the counts follow from the absorbed dimensions
  by the shape check, and the one dimension that is not bounded by a check, the
  number of witness bits, follows from its low 64 bits and the bytes of `d`.
-/
import VoleAct.Lib.Codec
import VoleAct.Voleith.Completeness

namespace VoleAct.Voleith

open VoleAct.BinaryFields VoleAct.VectorCommit VoleAct.Lib

/-! ## The transcript as a list of steps -/

/-- One step of a transcript: a labeled message, or a challenge under a label. -/
inductive TranscriptStep where
  | absorb (label data : List U8)
  | challenge (label : List U8)
  deriving DecidableEq

/-- The transcript after a list of steps; both kinds of challenge ratchet it alike. -/
def Transcript.replay (H : Xof) (tr : Transcript) : List TranscriptStep → Transcript
  | [] => tr
  | .absorb label data :: steps => (tr.absorb H label data).replay H steps
  | .challenge label :: steps => (tr.ratchet H label).replay H steps

theorem Transcript.replay_append (H : Xof) (tr : Transcript) (steps steps' : List TranscriptStep) :
    tr.replay H (steps ++ steps') = (tr.replay H steps).replay H steps' := by
  induction steps generalizing tr with
  | nil => rfl
  | cons step steps ih =>
      cases step with
      | absorb label data => rw [List.cons_append, replay, replay, ih]
      | challenge label => rw [List.cons_append, replay, replay, ih]

theorem Transcript.replay_map_absorb {α : Type} (H : Xof) (tr : Transcript) (label : List U8)
    (data : α → List U8) (xs : List α) :
    tr.replay H (xs.map fun x => .absorb label (data x)) =
      xs.foldl (fun tr x => tr.absorb H label (data x)) tr := by
  induction xs generalizing tr with
  | nil => rfl
  | cons x xs ih => rw [List.map_cons, replay, ih, List.foldl_cons]

/-- The (label, bytes) pairs of the messages. -/
def absorbed (steps : List TranscriptStep) : List (List U8 × List U8) :=
  steps.filterMap fun
    | .absorb label data => some (label, data)
    | .challenge _ => none

section Steps

variable (params : Params) (publicInput : List U8) (sizing : Sizing) (proof : Proof)

/-- The dimensions record. -/
def dimsBytes : List U8 :=
  le64 params.tau ++ le64 params.k ++ le64 sizing.l ++ le64 sizing.maxDeg

/-- The steps of `verify` before the final challenge. -/
def Proof.steps : List TranscriptStep :=
  [.absorb (ascii "public") publicInput, .absorb (ascii "dims") (dimsBytes params sizing),
    .absorb (ascii "salt") proof.salt.toList] ++
  proof.coms.map (fun com => .absorb (ascii "com") com.hash.toList) ++
  proof.corrections.map (fun c => .absorb (ascii "correction") c.asBytes) ++
  [.absorb (ascii "witness-d") proof.d.asBytes, .challenge (ascii "alpha"),
    .absorb (ascii "consistency") (elemBytes (proof.uTilde :: proof.vTilde)),
    .challenge (ascii "chi"), .absorb (ascii "quicksilver") (elemBytes proof.qsCoefficients)]

/-- The final challenge is drawn from the transcript after exactly these steps. -/
theorem Proof.challenge_eq_replay (H : Xof) : proof.challenge H params publicInput sizing =
    (((Transcript.new H protocolLabel).replay H (proof.steps params publicInput sizing)).challengeBytes
      H (ascii "delta") 16).1 := by
  simp only [Proof.steps, Transcript.replay_append, Transcript.replay_map_absorb]
  rfl

end Steps

/-- `verify` takes its final challenge from `Proof.challenge`. -/
theorem verify_eq (H : Xof) (params : Params) (publicInput : List U8) (circuit : Circuit)
    (proof : Proof) : verify H params publicInput circuit proof = (do
      let sizing ← sizeCircuit params circuit
      let lHat := sizing.l + sizing.maxDeg * params.lambda
      Outcome.require (shapeMatches params sizing lHat proof) .invalidProof
      let (delta, chunks) := splitDelta (proof.challenge H params publicInput sizing) params
      let keys ← (reconstructKeys H proof.salt lHat params proof.coms proof.corrections chunks
        proof.openings).mapErr fun _ => .invalidProof
      checkConsistency params (proof.wideKey H params publicInput sizing) proof.uTilde proof.vTilde
        delta keys
      verifyCircuit params circuit sizing proof.d keys (proof.chi H params publicInput sizing).1
        proof.qsCoefficients delta) := rfl

/-! ## The steps determine the proof -/

/-- A verifier past its shape check. -/
structure Checked (params : Params) (circuit : Circuit) (sizing : Sizing) (proof : Proof) : Prop where
  sized : sizeCircuit params circuit = .ok sizing
  shape : shapeMatches params sizing (sizing.l + sizing.maxDeg * params.lambda) proof = true

theorem elemBytes_inj {es es' : List GF2p128} (hlen : es.length = es'.length)
    (h : elemBytes es = elemBytes es') : es = es' := by
  have hunique : UniquePrefix (fun e : GF2p128 => e.toBytes.toList) fun _ => True :=
    .of_length (fun _ _ _ _ => by simp) fun a b _ _ hab => by
      rw [← GF2p128.fromBytes_toBytes a, Vector.toList_inj.mp hab, GF2p128.fromBytes_toBytes]
  rw [← List.append_nil (elemBytes es), ← List.append_nil (elemBytes es')] at h
  exact (hunique.flatMap hlen (fun _ _ => trivial) (fun _ _ => trivial) h).1

/-- Equal bytes of equal lengths are equal bit vectors. -/
theorem BitVector.eq_of_asBytes {v w : BitVector} (hlen : v.len = w.len)
    (h : v.asBytes = w.asBytes) : v = w :=
  BitVector.ext hlen fun t _ => congrArg (leBit · t) h

theorem le64_append_inj {n n' : Nat} {r r' : List U8} (h : le64 n ++ r = le64 n' ++ r') :
    n % 2 ^ 64 = n' % 2 ^ 64 ∧ r = r' := by
  obtain ⟨hn, hr⟩ := List.append_inj h (by simp [le64])
  have hmod (m : Nat) : ofLeBytes (le64 m) = m % 2 ^ 64 := ofLeBytes_leBytes_mod 8 m
  exact ⟨by rw [← hmod, ← hmod, hn], hr⟩

/-- A bit vector length is determined by its low 64 bits and the number of bytes. -/
theorem length_eq_of_mod {v w : BitVector} (hmod : v.len % 2 ^ 64 = w.len % 2 ^ 64)
    (h : v.asBytes = w.asBytes) : v.len = w.len := by
  have hbytes := congrArg List.length h
  rw [BitVector.asBytes, BitVector.asBytes, v.length_bytes, w.length_bytes] at hbytes
  omega

/-- The dimensions record determines the dimensions, the number of witness bits mod `2 ^ 64`. -/
theorem dimsBytes_inj {params params' : Params} {sizing sizing' : Sizing} (hvalid : params.Valid)
    (hvalid' : params'.Valid) (hdeg : sizing.maxDeg ≤ maxDegree) (hdeg' : sizing'.maxDeg ≤ maxDegree)
    (h : dimsBytes params sizing = dimsBytes params' sizing') :
    params = params' ∧ sizing.l % 2 ^ 64 = sizing'.l % 2 ^ 64 ∧ sizing.maxDeg = sizing'.maxDeg := by
  have hsmall {params : Params} (hvalid : params.Valid) : params.tau < 2 ^ 64 ∧ params.k < 2 ^ 64 := by
    have hmul := hvalid.tau_mul_k
    have htau : params.tau ≤ 128 := hmul ▸ Nat.le_mul_of_pos_right _ hvalid.k_pos
    have hk := hvalid.k_le
    omega
  obtain ⟨htaus, hks⟩ := hsmall hvalid
  obtain ⟨htaus', hks'⟩ := hsmall hvalid'
  simp only [dimsBytes, List.append_assoc] at h
  obtain ⟨htau, h⟩ := le64_append_inj h
  obtain ⟨hk, h⟩ := le64_append_inj h
  obtain ⟨hl, h⟩ := le64_append_inj h
  have hmax : sizing.maxDeg = sizing'.maxDeg := by
    simp only [maxDegree] at hdeg hdeg'
    exact leBytes_inj (show sizing.maxDeg < 256 ^ 8 by omega) (by omega) h
  refine ⟨?_, hl, hmax⟩
  rw [Nat.mod_eq_of_lt htaus, Nat.mod_eq_of_lt htaus'] at htau
  rw [Nat.mod_eq_of_lt hks, Nat.mod_eq_of_lt hks'] at hk
  cases params
  cases params'
  simp_all

/-- The messages in the order in which the verifier absorbs them. -/
theorem absorbed_steps (params : Params) (publicInput : List U8) (sizing : Sizing) (p : Proof) :
    absorbed (p.steps params publicInput sizing) =
      (ascii "public", publicInput) :: (ascii "dims", dimsBytes params sizing) ::
      (ascii "salt", p.salt.toList) ::
      (p.coms.map (fun com => (ascii "com", com.hash.toList)) ++
        (p.corrections.map (fun c => (ascii "correction", c.asBytes)) ++
        [(ascii "witness-d", p.d.asBytes),
          (ascii "consistency", elemBytes (p.uTilde :: p.vTilde)),
          (ascii "quicksilver", elemBytes p.qsCoefficients)])) := by
  simp [absorbed, Proof.steps, List.filterMap_append, List.filterMap_map]

/-- Two verifiers past their shape checks that absorbed the same messages verify the same proof up
    to its openings, over the same dimensions and public input. -/
theorem absorbed_inj {params params' : Params} {publicInput publicInput' : List U8}
    {circuit circuit' : Circuit} {sizing sizing' : Sizing} {proof proof' : Proof}
    (hchecked : Checked params circuit sizing proof)
    (hchecked' : Checked params' circuit' sizing' proof')
    (h : absorbed (proof.steps params publicInput sizing) =
      absorbed (proof'.steps params' publicInput' sizing')) :
    params = params' ∧ publicInput = publicInput' ∧ sizing.l = sizing'.l ∧
      sizing.maxDeg = sizing'.maxDeg ∧
      proof' = { proof with openings := proof'.openings } := by
  obtain ⟨hvalid, ops, rfl, hfits, rfl⟩ := of_sizeCircuit hchecked.sized
  obtain ⟨hvalid', ops', rfl, hfits', rfl⟩ := of_sizeCircuit hchecked'.sized
  have hshape := hchecked.shape
  have hshape' := hchecked'.shape
  simp only [shapeMatches, Bool.and_eq_true, beq_iff_eq, List.all_eq_true] at hshape hshape'
  obtain ⟨⟨⟨⟨⟨⟨hd, hcoms⟩, hcorrections⟩, -⟩, hv⟩, hqs⟩, hlens⟩ := hshape
  obtain ⟨⟨⟨⟨⟨⟨hd', hcoms'⟩, hcorrections'⟩, -⟩, hv'⟩, hqs'⟩, hlens'⟩ := hshape'
  simp only [absorbed_steps, List.cons.injEq, Prod.mk.injEq, true_and] at h
  obtain ⟨hpublic, hdims, hsalt, h⟩ := h
  have hdeg : (sizingOf ops).maxDeg ≤ maxDegree := max_le hfits.asserted (by decide)
  have hdeg' : (sizingOf ops').maxDeg ≤ maxDegree := max_le hfits'.asserted (by decide)
  obtain ⟨rfl, hlmod, hmax⟩ := dimsBytes_inj hvalid hvalid' hdeg hdeg' hdims
  -- the counts agree with the parameters, so the lists of messages split at the same places
  obtain ⟨hcomseq, h⟩ := List.append_inj h (by simp [hcoms, hcoms'])
  obtain ⟨hcorreq, h⟩ := List.append_inj h (by simp [hcorrections, hcorrections'])
  simp only [List.cons.injEq, Prod.mk.injEq, true_and, and_true] at h
  obtain ⟨hdbytes, hconsistency, hquicksilver⟩ := h
  have hdlen := length_eq_of_mod (hd.symm ▸ hd'.symm ▸ hlmod) hdbytes
  have hl : (sizingOf ops).l = (sizingOf ops').l := hd.symm.trans (hdlen.trans hd')
  -- each message is an injective encoding of the field it absorbs
  have hcomsinj : proof.coms = proof'.coms := by
    refine List.map_injective_iff.mpr (fun com com' hcom => ?_) hcomseq
    exact VcCommitment.ext (Vector.toList_inj.mp (Prod.mk.inj hcom).2)
  have hcorrinj : proof.corrections = proof'.corrections := by
    apply List.ext_getElem (by rw [hcorrections, hcorrections'])
    intro i hi hi'
    apply BitVector.eq_of_asBytes
    · rw [hlens _ (List.getElem_mem hi), hlens' _ (List.getElem_mem hi'), hl, hmax]
    · have hget := congrArg (·[i]?) hcorreq
      simpa [hi, hi'] using hget
  have helems := elemBytes_inj (by simp [hv, hv']) hconsistency
  obtain ⟨hu, hvs⟩ := List.cons.inj helems
  have hqsinj := elemBytes_inj (by rw [hqs, hqs', hmax]) hquicksilver
  refine ⟨rfl, hpublic, hl, hmax, ?_⟩
  have hsaltinj := Vector.toList_inj.mp hsalt
  have hdinj := BitVector.eq_of_asBytes hdlen hdbytes
  cases proof
  cases proof'
  simp_all

end VoleAct.Voleith
