/-
  VoleAct.Act.RequestLength

  How long a spend request is.

  The length of a proof is a function of the parameters, of the witness bits and
  of the degree of its circuit (`Voleith.ProofLength`).  The constraints of a spend
  circuit depend on the kind of the credential and on the key's terms; its witness
  bits and its degree do not, since every spend circuit ends with a hash whose
  checkpoints have degree 16, the most a circuit may have.
-/
import VoleAct.Act.Client
import VoleAct.Act.Replicas
import VoleAct.Act.ShakeCircuit
import VoleAct.Voleith.ProofLength

namespace VoleAct.Act

open VoleAct.BinaryFields VoleAct.Lib VoleAct.Mayo VoleAct.Voleith VoleAct.Voleith.CircuitM
open VoleAct.Act.Keccak

/-! ## The degree of a hash -/

theorem degree_le_linear (state : Vector Expr 1600) (i : Fin 1600) :
    (state.get i).degree ≤ ((keccakLinearExpr state).get i).degree := by
  rw [keccakLinearExpr, Vector.get_ofFn]
  show _ ≤ max (state.get (position (coords i).1 (coords i).2.1 (coords i).2.2)).degree _
  rw [position_coords]
  exact Nat.le_max_left _ _

/-- A round at least doubles the degree. -/
theorem two_mul_le_roundBitExpr {theta : Vector Expr 1600} {d : Nat}
    (h : ∀ i, d ≤ (theta.get i).degree) (rc : U64) (i : Fin 1600) :
    2 * d ≤ (roundBitExpr theta rc i).degree := by
  have hproduct (j k : Fin 1600) : 2 * d ≤
      (Expr.exprMul (.exprAdd (.wireExpr (.constant 1)) (theta.get j)) (theta.get k)).degree := by
    rw [Expr.degree, Expr.degree, Nat.two_mul]
    exact Nat.add_le_add ((h j).trans (Nat.le_max_right _ _)) (h k)
  rw [roundBitExpr]
  dsimp only
  split
  · exact ((hproduct _ _).trans (Nat.le_max_right _ _)).trans (Nat.le_max_left _ _)
  · exact (hproduct _ _).trans (Nat.le_max_right _ _)

theorem ensures_rounds (rcs : List U64) : ∀ {d : Nat} {state : Vector Expr 1600},
    (∀ i, d ≤ (state.get i).degree) →
    Ensures (fun _ => True) (rcs.foldlM keccakRoundExpr state)
      fun out _ => ∀ i, 2 ^ rcs.length * d ≤ (out.get i).degree := by
  induction rcs with
  | nil =>
      intro d state h
      rw [List.length_nil, pow_zero, Nat.one_mul]
      exact .pure fun _ _ => h
  | cons rc rcs ih =>
      intro d state h
      rw [List.length_cons, pow_succ, Nat.mul_assoc, List.foldlM_cons]
      obtain ⟨new, hrun⟩ := run_keccakRoundExpr state rc
      have hround : Ensures (fun _ => True) (keccakRoundExpr state rc)
          fun out _ => ∀ i, 2 * d ≤ (out.get i).degree := by
        refine .of_run hrun fun _ _ i => ?_
        rw [Vector.get_ofFn]
        exact two_mul_le_roundBitExpr (fun i => (h i).trans (degree_le_linear state i)) rc i
      exact hround.bind fun out ops hout => ih hout ops trivial

/-- A checkpoint is asserted at the degree of the expressions. -/
theorem ensures_assertCheckpoint {n D : Nat} (hn : 0 < n) {expression : Vector Expr n}
    (checkpoint : Vector Wire n) (h : ∀ i, D ≤ (expression.get i).degree) :
    Ensures (fun _ => True) (assertCheckpoint expression checkpoint)
      fun _ ops => D ≤ assertedDegree ops := by
  have hne : List.finRange n ≠ [] := List.ne_nil_of_mem (List.mem_finRange ⟨0, hn⟩)
  refine .forM_of_ne_nil hne fun i _ => .call fun ops _ => ?_
  rw [assertedDegree_append]
  refine le_max_of_le_right ?_
  show D ≤ max (max (expression.get i).degree 1) 0
  exact ((h i).trans (Nat.le_max_left _ _)).trans (Nat.le_max_left _ _)

theorem ensures_shakeGroup (state : Vector Wire 1600) (group : Nat) :
    Ensures (fun _ => True) (shakeGroup state group)
      fun _ ops => 2 ^ ((RC.drop (4 * group)).take 4).length ≤ assertedDegree ops := by
  refine .bind_last fun checkpoint => ?_
  have hstate (i : Fin 1600) : 1 ≤ ((state.map Expr.wireExpr).get i).degree := Expr.degree_pos _
  have hrounds := ensures_rounds ((RC.drop (4 * group)).take 4) hstate
  rw [Nat.mul_one] at hrounds
  refine hrounds.bind fun out ops hout => ?_
  have hassert := ensures_assertCheckpoint (by decide) checkpoint hout
  exact (hassert.bind fun _ => .pure fun _ h => h) ops trivial

/-- The last of the six groups asserts degree 16. -/
theorem ensures_shakeDegree16 (msg : List Wire) :
    Ensures (fun _ => True) (shakeDegree16 msg) fun _ ops => 16 ≤ assertedDegree ops := by
  have hgroups : RC.length / 4 = 5 + 1 := rfl
  rw [shakeDegree16, hgroups, List.range_succ, List.foldlM_append]
  refine .bind_last fun state => ?_
  rw [List.foldlM_cons]
  exact (ensures_shakeGroup state 5).bind fun _ => .pure fun _ h => h

theorem ensures_assertEqual (D : Nat) (actual expected : List Wire) :
    Ensures (fun ops => D ≤ assertedDegree ops) (assertEqual actual expected)
      fun _ ops => D ≤ assertedDegree ops := by
  refine .forM fun p _ => .call fun ops h => ?_
  rw [assertedDegree_append]
  exact le_max_of_le_left h

theorem ensures_shakeAssertOutput (msg expected : List Wire) :
    Ensures (fun _ => True) (shakeAssertOutput msg expected)
      fun _ ops => 16 ≤ assertedDegree ops :=
  (ensures_shakeDegree16 msg).bind fun state => ensures_assertEqual 16 state.toList expected

/-! ## The dimensions of the spend circuit -/

section Dimensions

variable {P : MayoParams}

theorem ensures_assertHashes (c : SpendCircuit P) (wires : SpendWires P) :
    Ensures (fun _ => True) (c.assertHashes wires) fun _ ops => 16 ≤ assertedDegree ops :=
  -- the two hidden hashes, the MAYO system, the nullifier, and then the last hash
  .bind_last fun _ => .bind_last fun _ => .bind_last fun _ => .bind_last fun _ =>
    ensures_shakeAssertOutput _ _

theorem ensures_spendProgram (c : SpendCircuit P) :
    Ensures (fun _ => True) c.program fun _ ops => 16 ≤ assertedDegree ops := by
  have hrest : Ensures (fun _ => True)
      (SpendWires.alloc P >>= fun wires => c.assertBalances wires >>= fun _ => c.assertHashes wires)
      fun _ ops => 16 ≤ assertedDegree ops :=
    .bind_last fun wires => .bind_last fun _ => ensures_assertHashes c wires
  rw [SpendCircuit.program]
  split
  · exact .bind_last fun _ => hrest
  · exact hrest

theorem SpendCircuit.length_of_build {c : SpendCircuit P} {ops : List Op} (h : c.build = .ok ops) :
    c.freshCommitment.length = P.M := by
  by_contra hlen
  rw [SpendCircuit.build, SpendCircuit.program, if_pos (.inl hlen)] at h
  cases h

/-- A spend circuit that is built has the dimensions of its parameter set. -/
theorem SpendCircuit.dimensions {H : Xof} {pk : Mayo.PublicKey P} {c : SpendCircuit P}
    (hterms : c.terms = (mayoTermsAndHash H pk).1) {ops : List Op} (h : c.build = .ok ops)
    (hfits : Fits ops) : witnessBits ops = 4 * P.KN + 30464 ∧ (sizingOf ops).maxDeg = 16 := by
  obtain ⟨ops', hops, hbits, -, -⟩ := spend_exact c hterms (length_of_build h)
  obtain rfl := Except.ok.inj (h.symm.trans hops)
  have hlower : 16 ≤ assertedDegree ops := (ensures_spendProgram c).circuit h
  have hupper : assertedDegree ops ≤ 16 := hfits.asserted
  refine ⟨hbits, ?_⟩
  show max (assertedDegree ops) 2 = 16
  omega

end Dimensions

/-! ## The length of a request -/

variable {H H' : Xof} {P : MayoParams} {K : CredentialKind} {S : SettlementMode}

/-- The payload of a spend proof. -/
def spendPayloadLength (P : MayoParams) (profile : PerformanceProfile) : Nat :=
  payloadLength profile.params (4 * P.KN + 30464) 16

/-- The encoding of a spend request: header, amount, nullifier, fresh commitment and proof. -/
def spendRequestLength (P : MayoParams) (profile : PerformanceProfile) : Nat :=
  9 + 8 + 32 + (P.M + 1) / 2 + 4 + encodingLength profile.params (4 * P.KN + 30464) 16

/-- An accepted spend has the shape of its parameter set and profile. -/
theorem PublicKey.hasShape_of_verifySpend {pk : PublicKey H P} {request : TypedSpendRequest P K S}
    (h : pk.verifySpend request = .ok ()) : request.freshCommitment.length = P.M ∧
      request.proof.HasShape pk.profile.params (4 * P.KN + 30464) 16 := by
  obtain ⟨-, ops, hbuild, hfits, hshape⟩ := Proof.hasShape_of_verify h
  obtain ⟨hbits, hdeg⟩ := SpendCircuit.dimensions pk.terms_eq hbuild hfits
  rw [hbits, hdeg] at hshape
  exact ⟨SpendCircuit.length_of_build hbuild, hshape⟩

/-- So it is written, with the length of its parameter set and profile. -/
theorem PublicKey.length_of_verifySpend {pk : PublicKey H P} {request : TypedSpendRequest P K S}
    (h : pk.verifySpend request = .ok ()) :
    request.proof.payloadLen = spendPayloadLength P pk.profile ∧
      ∃ b, (∀ ε : Type, (request.toBytes : Outcome ε _) = .ok b) ∧
        b.length = spendRequestLength P pk.profile := by
  obtain ⟨hlen, hshape⟩ := hasShape_of_verifySpend h
  have hkn := P.kn_le
  have hbounded := Proof.bounded_of_verify h
  -- the bit vectors are far below the limits of the format
  have hd : request.proof.d.len ≤ 63488 := by
    rw [hshape.d_bits]
    unfold MayoParams.KN
    omega
  have hc : ∀ c ∈ request.proof.corrections, c.len ≤ 63488 := by
    intro c hmem
    rw [hshape.correction_bits c hmem, pk.profile.params_valid.lambda_eq]
    unfold MayoParams.KN
    omega
  have hfits := Proof.fits_of_bounded hbounded (hd.trans_lt (by decide)) fun c hmem =>
    (hc c hmem).trans_lt (by decide)
  have hle := Proof.encoding_length_le hbounded hd hc
  unfold maxProofWireBytes at hle
  refine ⟨hshape.payloadLen_eq, _, fun ε =>
    TypedSpendRequest.toBytes_eq_ok.mpr ⟨⟨hfits, by omega⟩, rfl⟩, ?_⟩
  simp only [List.length_append, Wire.header_length, le64, le32, leBytes_length,
    Vector.length_toList, Wire.packNibbles_eq, packed_length, hlen, Wire.proofBytes,
    hshape.encoding_length, spendRequestLength]
  omega

/-- The sizes `benchmark_profiles` asserts. -/
example : [PerformanceProfile.compact, .balanced, .lowLatency].map
    (fun profile => (spendPayloadLength mayo2 profile, spendRequestLength mayo2 profile)) =
      [(72784, 73086), (141424, 141918), (278704, 279582)] := by decide

/-! ## Two runs -/

/-- The requests produced under a public key, from any token of either kind. -/
inductive PublicKey.Produces (pk : PublicKey H P) : AnyRequest P → Prop
  | prepareSpend {ρ : Type} [CryptoRngCore ρ] {K : CredentialKind} {token : Token P K}
      {amount : U64} {rng rng' : ρ} {pending : PendingSpend P K} {request : SpendRequest P K}
      (h : token.prepareSpend pk amount rng = (.ok (pending, request), rng')) :
      Produces pk ⟨K, .fixedSpend, request⟩
  | prepareSpendWithDeferredReturn {ρ : Type} [CryptoRngCore ρ] {K : CredentialKind}
      {token : Token P K} {maximumSpend : U64} {rng rng' : ρ}
      {pending : PendingDeferredReturnSpend P K} {request : DeferredReturnSpendRequest P K}
      (h : token.prepareSpendWithDeferredReturn pk maximumSpend rng =
        (.ok (pending, request), rng')) :
      Produces pk ⟨K, .deferredReturnSpend, request⟩

/-- The issuer's verification accepts them. -/
theorem PublicKey.Produces.accepted {pk : PublicKey H P} {q : AnyRequest P} (h : pk.Produces q) :
    pk.verifySpend q.2.2 = .ok () := by
  cases h with
  | prepareSpend h => exact (Prepared.of_prepare h).accepted
  | prepareSpendWithDeferredReturn h => exact (Prepared.of_prepare h).accepted

/-- An observer of lengths cannot tell the two requests apart. -/
def AnyRequest.SameLength (q q' : AnyRequest P) : Prop :=
  q.2.2.proof.payloadLen = q'.2.2.proof.payloadLen ∧
    ∃ b b', (∀ ε : Type, (q.2.2.toBytes : Outcome ε _) = .ok b) ∧
      (∀ ε : Type, (q'.2.2.toBytes : Outcome ε _) = .ok b') ∧ b.length = b'.length

theorem PublicKey.sameLength_of_verifySpend {pk : PublicKey H P} {pk' : PublicKey H' P}
    (hprofile : pk.profile = pk'.profile) {q q' : AnyRequest P}
    (h : pk.verifySpend q.2.2 = .ok ()) (h' : pk'.verifySpend q'.2.2 = .ok ()) :
    q.SameLength q' := by
  obtain ⟨hpayload, b, hb, hlen⟩ := length_of_verifySpend h
  obtain ⟨hpayload', b', hb', hlen'⟩ := length_of_verifySpend h'
  rw [← hprofile] at hpayload' hlen'
  exact ⟨hpayload.trans hpayload'.symm, b, b', hb, hb', hlen.trans hlen'.symm⟩

/-- The length of a request says nothing but the parameter set and the profile.  Two requests
    produced under two issuers of one profile, from any tokens, for any amounts and settlements,
    have encodings of one length and proofs of one payload length; so has every spend an issuer of
    that profile accepts, whoever made it; and so have two proofs `verify` accepts for one circuit.
    -/
theorem request_length_leaks_only_profile :
    (∀ {H H' : Xof} {P : MayoParams} (pk : PublicKey H P) (pk' : PublicKey H' P),
      pk.profile = pk'.profile → ∀ q q', pk.Produces q → pk'.Produces q' → q.SameLength q') ∧
    (∀ {H H' : Xof} {P : MayoParams} (pk : PublicKey H P) (pk' : PublicKey H' P),
      pk.profile = pk'.profile → ∀ q q' : AnyRequest P, pk.Produces q →
        pk'.verifySpend q'.2.2 = .ok () → q.SameLength q') ∧
    ∀ {ε : Type} (H H' : Xof) (params : Params) (publicInput publicInput' : List U8)
      (circuit : Circuit) (p p' : Proof), verify H params publicInput circuit p = .ok () →
        verify H' params publicInput' circuit p' = .ok () →
        p.payloadLen = p'.payloadLen ∧ ∀ b, (p.toBytes : Outcome ε _) = .ok b →
          ∃ b', (p'.toBytes : Outcome ε _) = .ok b' ∧ b.length = b'.length := by
  refine ⟨fun pk pk' hprofile q q' hq hq' => ?_, fun pk pk' hprofile q q' hq hq' => ?_, ?_⟩
  · exact PublicKey.sameLength_of_verifySpend hprofile hq.accepted hq'.accepted
  · exact PublicKey.sameLength_of_verifySpend hprofile hq.accepted hq'
  · intro ε H H' params publicInput publicInput' circuit p p' h h'
    exact Proof.length_of_verify h h'

end VoleAct.Act
