/-
  VoleAct.Voleith.ZeroKnowledge

  The prover's messages over an ideal VOLE, given everything the verifier sees.

  For fixed keys, challenges and a satisfying witness, the corrections, the
  QuickSilver coefficients above the constant one and the consistency hash are a
  one-to-one function of `u`, range by range: the witness bits, the mask groups
  from the highest coefficient down, the hash mask.  The rest is determined by
  these and by what the verifier sees, so two witnesses are related by a
  permutation of the vectors `u`.
-/
import VoleAct.Voleith.Completeness

namespace VoleAct.Voleith

open Polynomial VoleAct.BinaryFields VoleAct.VectorCommit VoleAct.Lib

/-! ## The prover's computation -/

/-- What the prover publishes besides commitments and openings. -/
structure ProverMessages where
  d : BitVector
  uTilde : GF2p128
  vTilde : List GF2p128
  qsCoefficients : List GF2p128

/-- The prover's computation over a VOLE `(u, tags)`, on a hash key and a challenge stream. -/
def proverMessages (params : Params) (circuit : Circuit) (witness : List Bool) (sizing : Sizing)
    (u : BitVector) (tags : List GF2p128) (key : WideHashKey) (chi : XofReader) :
    Outcome VoleithError ProverMessages := do
  let (constraints, d) ← proverRun circuit witness sizing u tags true
  let uTilde ← wideHashBits key u
  let vTilde ← wideHashRows key tags
  let qsCoefficients ← proverQuickSilver params sizing u tags constraints chi true
  return { d, uTilde, vTilde, qsCoefficients }

/-- What `prove` publishes is `proverMessages` on its VOLE and on its transcript's challenges. -/
theorem proverMessages_of_proveCommitted {H : Xof} {params : Params} {publicInput : List U8}
    {circuit : Circuit} {witness : List Bool} {sizing : Sizing} {salt : Salt} {roots : List Seed}
    {proof : Proof}
    (h : proveCommitted H params publicInput circuit witness sizing salt roots true = .ok proof) :
    ∃ vole, ProverVole.commit H roots salt (sizing.l + sizing.maxDeg * params.lambda) params =
        .ok vole ∧
      proverMessages params circuit witness sizing vole.u vole.tags
        (proof.wideKey H params publicInput sizing) (proof.chi H params publicInput sizing).1 =
        .ok ⟨proof.d, proof.uTilde, proof.vTilde, proof.qsCoefficients⟩ := by
  obtain ⟨vole, hvole, h⟩ := Outcome.bind_eq_ok.mp h
  obtain ⟨⟨constraints, d⟩, hrun, h⟩ := Outcome.bind_eq_ok.mp h
  obtain ⟨uTilde, hu, h⟩ := Outcome.bind_eq_ok.mp h
  obtain ⟨vTilde, hv, h⟩ := Outcome.bind_eq_ok.mp h
  obtain ⟨qs, hqs, h⟩ := Outcome.bind_eq_ok.mp h
  obtain ⟨openings, -, h⟩ := Outcome.bind_eq_ok.mp h
  obtain rfl := Except.ok.inj h
  refine ⟨vole, Outcome.mapErr_eq_ok.mp hvole, ?_⟩
  refine Outcome.bind_eq_ok.mpr ⟨_, hrun, Outcome.bind_eq_ok.mpr ⟨_, hu,
    Outcome.bind_eq_ok.mpr ⟨_, hv, Outcome.bind_eq_ok.mpr ⟨_, hqs, rfl⟩⟩⟩⟩

/-- What the messages of a satisfying witness are. -/
structure MessagesSpec (params : Params) (ops : List Op) (witness : List Bool) (u : BitVector)
    (tags : List GF2p128) (key : WideHashKey) (chi : XofReader) (m : ProverMessages) : Prop where
  d_len : m.d.len = witnessBits ops
  d_bit : ∀ t < witnessBits ops, m.d.bit t = (u.bit t ^^ assignment witness t)
  uTilde : m.uTilde = columnHash key (voleLength params ops) u.bit
  vTilde_length : m.vTilde.length = 128
  vTilde_bit : ∀ r < 128, ∀ c < 128, (m.vTilde.getD r 0).bit c =
    (columnHash key (voleLength params ops) (rowsColumn tags c)).bit r
  qs_length : m.qsCoefficients.length = (sizingOf ops).maxDeg
  qs_poly : toPoly m.qsCoefficients =
    voleMask (witnessBits ops) params.lambda ((sizingOf ops).maxDeg - 1) u tags +
      batchPoly (assignment witness) (witnessTags (witnessBits ops) tags) (sizingOf ops).maxDeg
        (draws (constraints ops) chi)

theorem proverMessages_spec {params : Params} (hvalid : params.Valid) {ops : List Op}
    (hbuilt : builtDegree ops ≤ maxDegree) {witness : List Bool}
    (hwit : witness.length = witnessBits ops) (hsat : Satisfies (assignment witness) ops)
    {u : BitVector} (hu : u.len = voleLength params ops) {tags : List GF2p128}
    (htags : tags.length = voleLength params ops) (key : WideHashKey) (chi : XofReader) :
    ∃ m, proverMessages params (.ok ops) witness (sizingOf ops) u tags key chi = .ok m ∧
      MessagesSpec params ops witness u tags key chi m := by
  have hlen := le_voleLength hvalid ops
  obtain ⟨pcs, d, hall, hdlen, hdbits, hrunok, -⟩ := proverRun_spec hbuilt hwit
    (show witnessBits ops ≤ u.len by omega) (show witnessBits ops ≤ tags.length by omega) true
  obtain ⟨vTilde, hv, hvlen, hvbits⟩ := wideHashRows_spec VoleithError key
    (show 128 ≤ tags.length by omega)
  rw [htags] at hvbits
  obtain ⟨qs, hqs, hqlen, hpoly⟩ := proverQuickSilver_spec params chi (two_le_maxDeg ops) hu.ge
    htags.ge hall (fun c hc => (degree_le_assertedDegree hc).trans (Nat.le_max_left _ _))
    (fun a ha _ _ _ => error_of_mem_draws hsat ha)
  rw [combinedError_eq_zero fun a ha => error_of_mem_draws hsat ha, C_0, zero_mul, add_zero]
    at hpoly
  refine ⟨⟨d, columnHash key (voleLength params ops) u.bit, vTilde, qs⟩, ?_, hdlen, hdbits, rfl,
    hvlen, hvbits, hqlen, hpoly⟩
  rw [proverMessages, hrunok fun _ => immediatelySatisfied_of_satisfies hsat, Outcome.ok_bind]
  show (wideHashBits key u >>= fun uTilde => _) = _
  rw [wideHashBits_spec key (by omega), Outcome.ok_bind, hv, Outcome.ok_bind, hqs, Outcome.ok_bind,
    hu]
  rfl

/-! ## What is determined -/

/-- The keys of a VOLE with tags `K_t + u_t·Δ` are `K`. -/
theorem keysAre_swap {lHat : Nat} (u : BitVector) {keys : List GF2p128}
    (hkeys : keys.length = lHat) (delta : GF2p128) :
    KeysAre lHat u (voleKeys lHat u keys delta) delta keys := by
  refine ⟨hkeys, fun t ht => ?_⟩
  rw [(keysAre_voleKeys lHat u keys delta).2 t ht, add_assoc, CharTwo.add_self_eq_zero, add_zero]

theorem eval_toPoly_cons (q : GF2p128) (qs : List GF2p128) (x : GF2p128) :
    (toPoly (q :: qs)).eval x = q + x * (toPoly qs).eval x := by
  simp

/-- Coefficient lists that agree at one point and above the constant coefficient are equal. -/
theorem eq_of_eval_eq {qs qs' : List GF2p128} {x : GF2p128} (hpos : 0 < qs.length)
    (hlen : qs.length = qs'.length) (heval : (toPoly qs).eval x = (toPoly qs').eval x)
    (h : ∀ i, 1 ≤ i → i < qs.length → qs.getD i 0 = qs'.getD i 0) : qs = qs' := by
  match qs, qs' with
  | q :: qs, q' :: qs' =>
      obtain rfl : qs = qs' := by
        apply List.ext_getElem (by simpa using hlen)
        intro i h1 h2
        have hi := h (i + 1) (by omega) (by simpa using h1)
        simpa [List.getD_eq_getElem?_getD, h1, h2] using hi
      rw [eval_toPoly_cons, eval_toPoly_cons] at heval
      rw [add_right_cancel heval]
  | [], _ => simp at hpos
  | _ :: _, [] => simp at hlen

section Determined

variable {params : Params} {ops : List Op} {keys : List GF2p128} {delta : GF2p128}
  {key : WideHashKey} {chi : XofReader}

/-- The messages over keys `K`: the tags are `K_t + u_t·Δ`. -/
def OverKeys (params : Params) (ops : List Op) (keys : List GF2p128) (delta : GF2p128)
    (key : WideHashKey) (chi : XofReader) (witness : List Bool) (u : BitVector)
    (m : ProverMessages) : Prop :=
  MessagesSpec params ops witness u (voleKeys (voleLength params ops) u keys delta) key chi m

/-- What the verifier sees determines the constant coefficient and the hashed tags from the rest. -/
theorem messages_determined (hvalid : params.Valid) (hasserted : assertedDegree ops ≤ maxDegree)
    (hkeys : keys.length = voleLength params ops) {witness witness' : List Bool}
    (hwit : witness.length = witnessBits ops) (hwit' : witness'.length = witnessBits ops)
    {u u' : BitVector} {m m' : ProverMessages}
    (hm : OverKeys params ops keys delta key chi witness u m)
    (hm' : OverKeys params ops keys delta key chi witness' u' m')
    (hd : m.d = m'.d) (huTilde : m.uTilde = m'.uTilde)
    (hqs : ∀ i, 1 ≤ i → i < (sizingOf ops).maxDeg →
      m.qsCoefficients.getD i 0 = m'.qsCoefficients.getD i 0) : m = m' := by
  have hlen := le_voleLength hvalid ops
  -- both published polynomials pass the verifier's check on `K`, so they agree at `Δ`
  have hpass : ∀ {witness u m}, witness.length = witnessBits ops →
      OverKeys params ops keys delta key chi witness u m → ∀ qs,
      verifyCircuit params (.ok ops) (sizingOf ops) m.d keys chi qs delta =
        Outcome.require ((toPoly m.qsCoefficients).eval delta == (toPoly qs).eval delta)
          .invalidProof := by
    intro witness u m hwit hm qs
    rw [verifyCircuit_spec params chi qs hasserted hm.d_len.ge (keysAre_swap u hkeys delta),
      extractedWitness_eq hwit hm.d_bit, hm.qs_poly]
  have heval : (toPoly m.qsCoefficients).eval delta = (toPoly m'.qsCoefficients).eval delta := by
    have h := hpass hwit hm m'.qsCoefficients
    rw [hd, hpass hwit' hm', beq_self_eq_true, Outcome.require_true] at h
    exact beq_iff_eq.mp (Outcome.require_eq_ok.mp h.symm)
  have hcoeffs : m.qsCoefficients = m'.qsCoefficients := by
    have hpos := two_le_maxDeg ops
    exact eq_of_eval_eq (by rw [hm.qs_length]; omega) (by rw [hm.qs_length, hm'.qs_length]) heval
      (hm.qs_length ▸ hqs)
  -- the hashed tags are the hashed keys plus `Δ` at the bits of the hash of `u`
  obtain ⟨rows, -, -, hrows⟩ := wideHashRows_spec VoleithError key
    (show 128 ≤ keys.length by omega)
  rw [hkeys] at hrows
  have hrow := rows_keys (keysAre_swap u hkeys delta) (by omega) hm.vTilde_bit hrows
  have hrow' := rows_keys (keysAre_swap u' hkeys delta) (by omega) hm'.vTilde_bit hrows
  have hv : m.vTilde = m'.vTilde := by
    apply List.ext_getElem (by rw [hm.vTilde_length, hm'.vTilde_length])
    intro r h1 h2
    have hr : r < 128 := hm.vTilde_length ▸ h1
    have heq := (hrow r hr).symm.trans (hrow' r hr)
    rw [← hm.uTilde, ← hm'.uTilde, huTilde] at heq
    simpa [List.getD_eq_getElem?_getD, h1, h2] using add_right_cancel heq
  cases m
  cases m'
  simp only at hd huTilde hv hcoeffs
  rw [hd, huTilde, hv, hcoeffs]

/-! ## What is one-to-one -/

/-- Every coordinate lies in the witness range, in one mask group or in the hash mask. -/
theorem coordinate_cases {l n t : Nat} (ht : t < l + n * 128) :
    t < l ∨ ∃ g < n, ∃ b < 128, t = l + g * 128 + b := by
  rcases Nat.lt_or_ge t l with hl | hl
  · exact .inl hl
  · refine .inr ⟨(t - l) / 128, ?_, (t - l) % 128, Nat.mod_lt _ (by decide), by omega⟩
    omega

theorem voleLength_eq (hvalid : params.Valid) (ops : List Op) :
    voleLength params ops - 128 = witnessBits ops + ((sizingOf ops).maxDeg - 1) * 128 := by
  have := two_le_maxDeg ops
  rw [voleLength, hvalid.lambda_eq]
  omega

/-- The published coefficients determine the mask values, from the highest coefficient down. -/
theorem maskValue_inj {n : Nat} {value value' tag tag' base : Nat → GF2p128}
    (htag : ∀ g < n, tag g = base g + value g * delta)
    (htag' : ∀ g < n, tag' g = base g + value' g * delta)
    (h : ∀ g < n, (if g + 1 < n then tag (g + 1) else 0) + value g =
      (if g + 1 < n then tag' (g + 1) else 0) + value' g) :
    ∀ g < n, value g = value' g := by
  have hdown : ∀ k g, g + k + 1 = n → value g = value' g := by
    intro k
    induction k with
    | zero =>
        intro g hg
        have hcoeff := h g (by omega)
        rw [if_neg (by omega), if_neg (by omega)] at hcoeff
        exact add_left_cancel hcoeff
    | succ k ih =>
        intro g hg
        have hcoeff := h g (by omega)
        rw [if_pos (by omega), if_pos (by omega), htag _ (by omega), htag' _ (by omega),
          ih (g + 1) (by omega)] at hcoeff
        exact add_left_cancel hcoeff
  exact fun g hg => hdown (n - 1 - g) g (by omega)

/-- For one witness, the corrections, the coefficients above the constant one and the consistency
    hash determine `u`. -/
theorem messages_injective (hvalid : params.Valid) (hkeys : keys.length = voleLength params ops)
    {witness : List Bool} {u u' : BitVector} (hu : u.len = voleLength params ops)
    (hu' : u'.len = voleLength params ops) {m m' : ProverMessages}
    (hm : OverKeys params ops keys delta key chi witness u m)
    (hm' : OverKeys params ops keys delta key chi witness u' m')
    (hd : m.d = m'.d) (huTilde : m.uTilde = m'.uTilde)
    (hqs : ∀ i, 1 ≤ i → i < (sizingOf ops).maxDeg →
      m.qsCoefficients.getD i 0 = m'.qsCoefficients.getD i 0) : u = u' := by
  have hlen := le_voleLength hvalid ops
  have hmax := two_le_maxDeg ops
  -- the witness bits, and with them the tags of the witness stage
  have hbits : ∀ t < witnessBits ops, u.bit t = u'.bit t := by
    intro t ht
    have h := hm.d_bit t ht
    rw [hd, hm'.d_bit t ht] at h
    exact (Bool.xor_left_inj.mp h).symm
  have htags : witnessTags (witnessBits ops) (voleKeys (voleLength params ops) u keys delta) =
      witnessTags (witnessBits ops) (voleKeys (voleLength params ops) u' keys delta) := by
    funext t
    rw [witnessTags, witnessTags]
    by_cases ht : t < witnessBits ops
    · rw [if_pos ht, if_pos ht, (keysAre_voleKeys _ u keys delta).2 t (by omega),
        (keysAre_voleKeys _ u' keys delta).2 t (by omega), hbits t ht]
    · rw [if_neg ht, if_neg ht]
  -- the mask groups
  have hmask : ∀ g < (sizingOf ops).maxDeg - 1,
      maskValue (witnessBits ops) 128 u g = maskValue (witnessBits ops) 128 u' g := by
    have hrange : witnessBits ops + ((sizingOf ops).maxDeg - 1) * 128 ≤ voleLength params ops := by
      rw [← voleLength_eq hvalid]
      exact Nat.sub_le _ _
    refine maskValue_inj
      (fun g hg => maskTag_keys (keysAre_voleKeys _ u keys delta) hrange hg)
      (fun g hg => maskTag_keys (keysAre_voleKeys _ u' keys delta) hrange hg) fun g hg => ?_
    have hcoeff : (toPoly m.qsCoefficients).coeff (g + 1) =
        (toPoly m'.qsCoefficients).coeff (g + 1) := by
      rw [coeff_toPoly, coeff_toPoly, hqs (g + 1) (by omega) (by omega)]
    rw [hm.qs_poly, hm'.qs_poly, htags, coeff_add, coeff_add, hvalid.lambda_eq] at hcoeff
    have hcoeff := add_right_cancel hcoeff
    rwa [voleMask, voleMask, coeff_maskPoly _ _ _ hg, coeff_maskPoly _ _ _ hg] at hcoeff
  have hgroup : ∀ g < (sizingOf ops).maxDeg - 1, ∀ b < 128,
      u.bit (witnessBits ops + g * 128 + b) = u'.bit (witnessBits ops + g * 128 + b) := by
    intro g hg b hb
    have h := congrArg (fun x => x.bit b) (hmask g hg)
    simpa only [maskValue, maskSum_ofBool, GF2p128.bit_ofBits _ hb] using h
  have hbody : ∀ t < voleLength params ops - 128, u.bit t = u'.bit t := by
    intro t ht
    rw [voleLength_eq hvalid] at ht
    rcases coordinate_cases ht with hl | ⟨g, hg, b, hb, rfl⟩
    · exact hbits t hl
    · exact hgroup g hg b hb
  -- the hash mask
  have hlast : ∀ b < 128, u.bit (voleLength params ops - 128 + b) =
      u'.bit (voleLength params ops - 128 + b) := by
    intro b hb
    have h := hm.uTilde
    rw [huTilde, hm'.uTilde, columnHash, columnHash, columnBody_congr key hbody] at h
    have hbit := congrArg (fun x => x.bit b) (add_left_cancel h)
    simpa only [GF2p128.bit_ofBits _ hb] using hbit.symm
  apply BitVector.ext (by rw [hu, hu'])
  intro t ht
  rw [hu] at ht
  rcases Nat.lt_or_ge t (voleLength params ops - 128) with h | h
  · exact hbody t h
  · have := hlast (t - (voleLength params ops - 128)) (by omega)
    rwa [Nat.add_sub_cancel' h] at this

end Determined

/-! ## The permutation -/

/-- Bit vectors of one length. -/
abbrev BitVectorOf (n : Nat) := { u : BitVector // u.len = n }

instance (n : Nat) : Finite (BitVectorOf n) := by
  apply Finite.of_injective (fun u : BitVectorOf n => fun t : Fin n => u.val.bit t)
  intro u v h
  apply Subtype.ext
  apply BitVector.ext (by rw [u.property, v.property])
  intro t ht
  exact congrFun h ⟨t, u.property ▸ ht⟩

/-- The free part of the messages, one bit per coordinate: the corrections, the coefficients above
    the constant one, the consistency hash. -/
def messageBits (lHat l : Nat) (m : ProverMessages) : BitVector :=
  BitVector.ofFn lHat fun t =>
    if t < l then m.d.bit t
    else if t < lHat - 128 then (m.qsCoefficients.getD ((t - l) / 128 + 1) 0).bit ((t - l) % 128)
    else m.uTilde.bit (t - (lHat - 128))

theorem messageBits_inj {lHat l n : Nat} {m m' : ProverMessages}
    (hlHat : lHat = l + n * 128 + 128) (hd : m.d.len = l) (hd' : m'.d.len = l)
    (h : messageBits lHat l m = messageBits lHat l m') :
    m.d = m'.d ∧ m.uTilde = m'.uTilde ∧
      ∀ i, 1 ≤ i → i < n + 1 → m.qsCoefficients.getD i 0 = m'.qsCoefficients.getD i 0 := by
  have hbit : ∀ t < lHat, (messageBits lHat l m).bit t = (messageBits lHat l m').bit t :=
    fun t _ => by rw [h]
  simp only [messageBits] at hbit
  -- the masked witness, the hash, and the bit groups between them
  refine ⟨?_, ?_, fun i h1 hi => ?_⟩
  · apply BitVector.ext (hd.trans hd'.symm)
    intro t ht
    rw [hd] at ht
    have hb := hbit t (by omega)
    rwa [BitVector.bit_ofFn _ (by omega), BitVector.bit_ofFn _ (by omega), if_pos ht, if_pos ht]
      at hb
  · apply GF2p128.ext_bit
    intro b hb
    have hb' := hbit (lHat - 128 + b) (by omega)
    have hl : ¬ lHat - 128 + b < l := by omega
    have hr : ¬ lHat - 128 + b < lHat - 128 := by omega
    rw [BitVector.bit_ofFn _ (by omega), BitVector.bit_ofFn _ (by omega)] at hb'
    simp only [hl, hr, if_false, Nat.add_sub_cancel_left] at hb'
    exact hb'
  · apply GF2p128.ext_bit
    intro b hb
    have hlt : (i - 1) * 128 + b < n * 128 := by omega
    have hb' := hbit (l + ((i - 1) * 128 + b)) (by omega)
    have hdiv : ((i - 1) * 128 + b) / 128 + 1 = i := by omega
    have hmod : ((i - 1) * 128 + b) % 128 = b := by omega
    have hl : ¬ l + ((i - 1) * 128 + b) < l := by omega
    have hr : l + ((i - 1) * 128 + b) < lHat - 128 := by omega
    rw [BitVector.bit_ofFn _ (by omega), BitVector.bit_ofFn _ (by omega)] at hb'
    simp only [hl, hr, if_false, if_true, Nat.add_sub_cancel_left, hdiv, hmod] at hb'
    exact hb'

/-- Two satisfying witnesses are related by a permutation of the vectors `u`. -/
theorem exists_messages_perm {params : Params} (hvalid : params.Valid) {ops : List Op}
    (hbuilt : builtDegree ops ≤ maxDegree) (hasserted : assertedDegree ops ≤ maxDegree)
    (delta : GF2p128) (key : WideHashKey) (chi : XofReader) {keys : List GF2p128}
    (hkeys : keys.length = voleLength params ops) {witness witness' : List Bool}
    (hwit : witness.length = witnessBits ops) (hwit' : witness'.length = witnessBits ops)
    (hsat : Satisfies (assignment witness) ops) (hsat' : Satisfies (assignment witness') ops) :
    ∃ f : Equiv.Perm (BitVectorOf (voleLength params ops)), ∀ u,
      proverMessages params (.ok ops) witness (sizingOf ops) u.val
          (voleKeys (voleLength params ops) u.val keys delta) key chi =
        proverMessages params (.ok ops) witness' (sizingOf ops) (f u).val
          (voleKeys (voleLength params ops) (f u).val keys delta) key chi := by
  have hlHat : voleLength params ops =
      witnessBits ops + ((sizingOf ops).maxDeg - 1) * 128 + 128 := by
    have := le_voleLength hvalid ops
    rw [← voleLength_eq hvalid]
    omega
  have hmax : (sizingOf ops).maxDeg - 1 + 1 = (sizingOf ops).maxDeg :=
    Nat.sub_add_cancel ((by decide : 1 ≤ 2).trans (two_le_maxDeg ops))
  -- for each witness the free part of the messages is a permutation
  have hperm : ∀ witness : List Bool, witness.length = witnessBits ops →
      Satisfies (assignment witness) ops →
      ∃ g : Equiv.Perm (BitVectorOf (voleLength params ops)), ∀ u, ∃ m,
        proverMessages params (.ok ops) witness (sizingOf ops) u.val
          (voleKeys (voleLength params ops) u.val keys delta) key chi = .ok m ∧
        OverKeys params ops keys delta key chi witness u.val m ∧
        (g u).val = messageBits (voleLength params ops) (witnessBits ops) m := by
    intro witness hwit hsat
    choose m hm using fun u : BitVectorOf (voleLength params ops) =>
      proverMessages_spec hvalid hbuilt hwit hsat u.property
        (keysAre_voleKeys (voleLength params ops) u.val keys delta).1 key chi
    let g : BitVectorOf (voleLength params ops) → BitVectorOf (voleLength params ops) :=
      fun u => ⟨messageBits (voleLength params ops) (witnessBits ops) (m u), rfl⟩
    have hinj : Function.Injective g := by
      intro u v huv
      obtain ⟨hd, huTilde, hqs⟩ := messageBits_inj hlHat (hm u).2.d_len (hm v).2.d_len
        (congrArg Subtype.val huv)
      rw [hmax] at hqs
      exact Subtype.ext (messages_injective hvalid hkeys u.property v.property (hm u).2 (hm v).2 hd
        huTilde hqs)
    exact ⟨Equiv.ofBijective g (Finite.injective_iff_bijective.mp hinj),
      fun u => ⟨m u, (hm u).1, (hm u).2, rfl⟩⟩
  obtain ⟨g, hg⟩ := hperm witness hwit hsat
  obtain ⟨g', hg'⟩ := hperm witness' hwit' hsat'
  -- match the free parts; the rest of the messages is determined by them
  refine ⟨g.trans g'.symm, fun u => ?_⟩
  obtain ⟨m, hok, hm, hbits⟩ := hg u
  obtain ⟨m', hok', hm', hbits'⟩ := hg' (g'.symm (g u))
  rw [Equiv.apply_symm_apply, hbits] at hbits'
  obtain ⟨hd, huTilde, hqs⟩ := messageBits_inj hlHat hm.d_len hm'.d_len hbits'
  rw [hmax] at hqs
  rw [hok, Equiv.trans_apply, hok',
    messages_determined hvalid hasserted hkeys hwit hwit' hm hm' hd huTilde hqs]

/-- A program that builds a too large expression panics before it publishes anything. -/
theorem proverMessages_panic {params : Params} {ops : List Op}
    (hbuilt : maxDegree < builtDegree ops) {witness : List Bool}
    (hwit : witness.length = witnessBits ops) {u : BitVector} {tags : List GF2p128}
    (hu : witnessBits ops ≤ u.len) (htags : witnessBits ops ≤ tags.length) (key : WideHashKey)
    (chi : XofReader) :
    proverMessages params (.ok ops) witness (sizingOf ops) u tags key chi = Outcome.panic := by
  have hrun : (ProverBackend.new witness u tags).build (.ok ops) = Outcome.panic :=
    ProverBackend.run_panic ops _ hbuilt (by simp [ProverBackend.new, hwit])
      (by simpa [ProverBackend.new, hwit]) (by simpa [ProverBackend.new, hwit])
  rw [proverMessages, proverRun, hrun, Outcome.panic_bind, Outcome.panic_bind]

/-- Perfect zero knowledge of the messages.  For any keys, challenges and two satisfying witnesses
    of a program, a permutation of the vectors `u` carries the messages for one witness to those
    for the other, so each message comes from as many vectors under both; and what `prove` publishes
    besides its commitments and openings are these messages, on its own VOLE and challenges. -/
theorem perfect_zero_knowledge (params : Params) (hparams : params.validate = .ok ())
    (ops : List Op) (counter : CountingBackend)
    (hcounter : CountingBackend.default.build (.ok ops) = .ok counter)
    (hdeg : counter.sizing.maxDeg ≤ 16) (delta : GF2p128) (key : WideHashKey) (chi : XofReader)
    (keys : List GF2p128)
    (hkeys : keys.length = counter.sizing.l + counter.sizing.maxDeg * 128)
    (witness witness' : List Bool) (hwit : witness.length = counter.sizing.l)
    (hwit' : witness'.length = counter.sizing.l) (hsat : Satisfies (assignment witness) ops)
    (hsat' : Satisfies (assignment witness') ops) :
    let messages (witness : List Bool)
        (u : BitVectorOf (counter.sizing.l + counter.sizing.maxDeg * 128)) :=
      proverMessages params (.ok ops) witness counter.sizing u.val
        (voleKeys (counter.sizing.l + counter.sizing.maxDeg * 128) u.val keys delta) key chi
    (∃ f : Equiv.Perm (BitVectorOf (counter.sizing.l + counter.sizing.maxDeg * 128)),
      ∀ u, messages witness u = messages witness' (f u)) ∧
    (∀ m, Set.ncard { u | messages witness u = m } = Set.ncard { u | messages witness' u = m }) ∧
    ∀ (H : Xof) (publicInput : List U8) (salt : Salt) (roots : List Seed) (bits : List Bool)
      (proof : Proof),
      proveCommitted H params publicInput (.ok ops) bits counter.sizing salt roots true = .ok proof →
      ∃ vole, ProverVole.commit H roots salt
          (counter.sizing.l + counter.sizing.maxDeg * params.lambda) params = .ok vole ∧
        proverMessages params (.ok ops) bits counter.sizing vole.u vole.tags
          (proof.wideKey H params publicInput counter.sizing)
          (proof.chi H params publicInput counter.sizing).1 =
          .ok ⟨proof.d, proof.uTilde, proof.vTilde, proof.qsCoefficients⟩ := by
  have hvalid := Params.validate_eq_ok.mp hparams
  rw [CountingBackend.build, CountingBackend.foldl_step] at hcounter
  obtain rfl := Except.ok.inj hcounter
  -- the counting backend of the source gives the sizing, whatever the program builds
  have hasserted : assertedDegree ops ≤ maxDegree := by
    simp only [CountingBackend.sizing, CountingBackend.default, Nat.zero_max, usizeMax,
      maxDegree] at hdeg ⊢
    omega
  have hsizing : (CountingBackend.sizing _) = sizingOf ops := sizing_foldl_step hasserted
  have hlHat : (sizingOf ops).l + (sizingOf ops).maxDeg * 128 = voleLength params ops := by
    rw [voleLength, hvalid.lambda_eq]
    rfl
  rw [hsizing, hlHat] at hkeys ⊢
  rw [hsizing] at hwit hwit'
  intro messages
  obtain ⟨f, hf⟩ : ∃ f : Equiv.Perm (BitVectorOf (voleLength params ops)), ∀ u,
      messages witness u = messages witness' (f u) := by
    rcases Nat.lt_or_ge maxDegree (builtDegree ops) with hbuilt | hbuilt
    · -- the prover panics on either witness
      have hlen := le_voleLength hvalid ops
      refine ⟨Equiv.refl _, fun u => ?_⟩
      have hu : witnessBits ops ≤ u.val.len := by rw [u.property]; omega
      have htags : witnessBits ops ≤ (voleKeys (voleLength params ops) u.val keys delta).length := by
        rw [(keysAre_voleKeys (voleLength params ops) u.val keys delta).1]
        omega
      exact (proverMessages_panic hbuilt hwit hu htags key chi).trans
        (proverMessages_panic hbuilt hwit' hu htags key chi).symm
    · exact exists_messages_perm hvalid hbuilt hasserted delta key chi hkeys hwit hwit' hsat hsat'
  refine ⟨⟨f, hf⟩, fun m => ?_, fun _ _ _ _ _ _ h => proverMessages_of_proveCommitted h⟩
  -- a permutation that carries one transcript to the other carries the preimages along
  have himage : { u | messages witness' u = m } = f '' { u | messages witness u = m } := by
    ext u
    rw [Equiv.image_eq_preimage_symm]
    simp only [Set.mem_ofPred_eq, Set.mem_preimage, hf, Equiv.apply_symm_apply]
  rw [himage, Set.ncard_image_of_injective _ f.injective]

/-- Two bits with product zero: the witnesses `01` and `10`, under keys that all differ. -/
theorem perfect_zero_knowledge_product :
    let ops : List Op := [.witnessBit, .witnessBit, .assertMul (.bit 0) (.bit 1) (.constant 0)]
    let keys : List GF2p128 := (List.range 258).map fun t => ⟨BitVec.ofNat 128 (3 * t + 5)⟩
    let messages (witness : List Bool) (u : BitVectorOf (2 + 2 * 128)) :=
      proverMessages params128Fast (.ok ops) witness ⟨2, 2, 1⟩ u.val
        (voleKeys (2 + 2 * 128) u.val keys ⟨77⟩) ⟨⟨9⟩, ⟨2⟩, ⟨4⟩, ⟨1⟩⟩
        ⟨fun i => BitVec.ofNat 8 (7 * i + 1), 0⟩
    ∃ f : Equiv.Perm (BitVectorOf (2 + 2 * 128)), ∀ u,
      messages [false, true] u = messages [true, false] (f u) := by
  intro ops keys messages
  have hkeys : keys.length = 258 := by simp [keys]
  refine (perfect_zero_knowledge params128Fast (Params.validate_of_valid Params.shipped_valid.2.2)
    ops ⟨2, 1, 2, 0⟩ rfl (by decide) ⟨77⟩ ⟨⟨9⟩, ⟨2⟩, ⟨4⟩, ⟨1⟩⟩
    ⟨fun i => BitVec.ofNat 8 (7 * i + 1), 0⟩ keys hkeys [false, true] [true, false] rfl rfl
    ?_ ?_).1
  all_goals
    intro op hop
    simp only [ops, List.mem_cons, List.not_mem_nil, or_false] at hop
    rcases hop with rfl | rfl | rfl
    · trivial
    · trivial
  · show GF2p128.ofBool false * GF2p128.ofBool true = 0
    exact zero_mul _
  · show GF2p128.ofBool true * GF2p128.ofBool false = 0
    exact mul_zero _

end VoleAct.Voleith
