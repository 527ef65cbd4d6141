/-
  VoleAct.Voleith.Completeness

  What `prove` returns, and that `verify` accepts it.

  The prover's run of the circuit, its consistency hash and its QuickSilver
  message are computed one by one; the verifier recomputes the same transcript,
  so it meets the same challenges and each of its checks is an identity between
  the two sides.
-/
import VoleAct.Voleith.QuickSilver
import VoleAct.Voleith.VoleCorrelation
import VoleAct.Voleith.WideHash

namespace VoleAct.Voleith

open Polynomial VoleAct.BinaryFields VoleAct.VectorCommit VoleAct.Lib

/-! ## Built and asserted degrees -/

theorem Expr.degree_le_builtDegree (e : Expr) : e.degree ≤ max e.builtDegree 1 := by
  induction e with
  | wireExpr w => simp [degree]
  | exprAdd a b iha ihb =>
      simp only [degree, builtDegree] at *
      omega
  | exprMul a b iha ihb =>
      simp only [degree, builtDegree] at *
      omega

/-- An asserted expression is a built one, so the built degree bounds the asserted degree. -/
theorem assertedDegree_le_builtDegree (ops : List Op) :
    assertedDegree ops ≤ max (builtDegree ops) 2 := by
  induction ops with
  | nil => simp
  | cons op ops ih =>
      have hop : (op.constraint?.map Constraint.degree).getD 0 ≤ max op.builtDegree 2 := by
        cases op with
        | assertExprZero e =>
            have := e.degree_le_builtDegree
            simp only [Op.constraint?, Option.map_some, Option.getD_some, Constraint.degree,
              Op.builtDegree]
            omega
        | witnessBit | assertZero a | assertMul a b c | assertQuadSystem s | build e =>
            simp [Op.constraint?, Constraint.degree]
      simp only [assertedDegree_cons, builtDegree_cons]
      omega

theorem fits_of_builtDegree {ops : List Op} (hbits : witnessBits ops ≠ 0)
    (hbuilt : builtDegree ops ≤ maxDegree) : Fits ops where
  bits := hbits
  built := hbuilt
  asserted := by
    have := assertedDegree_le_builtDegree ops
    simp only [maxDegree] at *
    omega

/-! ## The prover's run of the circuit -/

/-- The loop sets the bits from `i` on, and no other. -/
theorem foldlM_set (ε : Type) {l : Nat} (bits : List Bool) : ∀ (i : Nat) (d : BitVector),
    d.len = l → i + bits.length ≤ l →
    ∃ d', ((bits.zipIdx i).foldlM (fun d (bit, t) => d.set t bit) d : Outcome ε BitVector) =
        .ok d' ∧ d'.len = l ∧ (∀ t < i, d'.bit t = d.bit t) ∧
      ∀ t < bits.length, d'.bit (i + t) = bits.getD t false := by
  induction bits with
  | nil => intro i d hd _; exact ⟨d, rfl, hd, fun _ _ => rfl, fun t ht => absurd ht (by simp)⟩
  | cons bit bits ih =>
      intro i d hd hle
      rw [List.length_cons] at hle
      obtain ⟨d₁, hset, hlen₁, hbit₁⟩ := BitVector.set_of_lt ε d bit (show i < d.len by omega)
      obtain ⟨d₂, hrun, hlen₂, hlow, hhigh⟩ := ih (i + 1) d₁ (hlen₁.trans hd) (by omega)
      refine ⟨d₂, ?_, hlen₂, fun t ht => ?_, fun t ht => ?_⟩
      · rw [List.zipIdx_cons, List.foldlM_cons]
        simp only [hset, Outcome.ok_bind]
        exact hrun
      · rw [hlow t (by omega), hbit₁, if_neg (by omega)]
      · cases t with
        | zero => rw [Nat.add_zero, hlow i (by omega), hbit₁, if_pos rfl]; rfl
        | succ t =>
            rw [List.length_cons] at ht
            have := hhigh t (by omega)
            rw [show i + 1 + t = i + (t + 1) by omega] at this
            rw [this]
            rfl

/-- The published corrections: bit by bit what the backend recorded. -/
theorem setBits_spec (ε : Type) {l : Nat} (bits : List Bool) (h : bits.length ≤ l) :
    ∃ d, (setBits l bits : Outcome ε BitVector) = .ok d ∧ d.len = l ∧
      ∀ t < bits.length, d.bit t = bits.getD t false := by
  obtain ⟨d, hd, hlen, -, hbits⟩ :=
    foldlM_set ε (l := l) bits 0 (BitVector.zero l) rfl (by omega)
  refine ⟨d, hd, hlen, fun t ht => ?_⟩
  have := hbits t ht
  rwa [Nat.zero_add] at this

/-- The assignment a list of witness bits denotes. -/
def assignment (witness : List Bool) : Nat → Bool := fun t => witness.getD t false

/-- The assertions the prover checks while it runs the circuit. -/
def ImmediatelySatisfied (w : Nat → Bool) (ops : List Op) : Prop :=
  ∀ c ∈ constraints ops, c.immediateError w = 0

/-- The prover's run of a circuit: it records the program's constraints and the corrections
    `u + w`, and fails exactly when it enforces a violated assertion. -/
theorem proverRun_spec {ops : List Op} (hbuilt : builtDegree ops ≤ maxDegree)
    {witness : List Bool} (hwit : witness.length = witnessBits ops) {u : BitVector}
    {tags : List GF2p128} (hu : witnessBits ops ≤ u.len) (htags : witnessBits ops ≤ tags.length)
    (enforce : Bool) :
    ∃ pcs d, List.Forall₂
        (ProverConstraint.Records (assignment witness) (witnessTags (witnessBits ops) tags)) pcs
        (constraints ops) ∧
      d.len = witnessBits ops ∧
      (∀ t < witnessBits ops, d.bit t = (u.bit t ^^ assignment witness t)) ∧
      ((enforce = true → ImmediatelySatisfied (assignment witness) ops) →
        proverRun (.ok ops) witness (sizingOf ops) u tags enforce = .ok (pcs, d)) ∧
      (enforce = true → ¬ ImmediatelySatisfied (assignment witness) ops →
        proverRun (.ok ops) witness (sizingOf ops) u tags enforce = Outcome.err .unsatisfiable) := by
  obtain ⟨backend, hrun, hspec⟩ := ProverBackend.run_spec ops (ProverBackend.new witness u tags)
    hbuilt (by simp [ProverBackend.new, hwit]) (by simpa [ProverBackend.new, hwit])
    (by simpa [ProverBackend.new, hwit])
  have hvalues : (ProverBackend.new witness u tags).values = assignment witness := rfl
  have htagsOf : (ProverBackend.new witness u tags).tagsOf =
      witnessTags (witnessBits ops) tags := by
    funext t
    simp [ProverBackend.tagsOf, ProverBackend.new, witnessTags, hwit]
  obtain ⟨pcs, hpcs, hall⟩ := hspec.constraints
  rw [hvalues, htagsOf] at hall
  obtain rfl : backend.constraints = pcs := by rw [hpcs]; rfl
  -- what the run recorded: the masked witness and one constraint for each assertion
  have hd : backend.d = (List.range (witnessBits ops)).map fun t => u.bit t ^^ assignment witness t := by
    rw [hspec.d, hvalues, List.range_eq_range']
    rfl
  have hused : backend.bitsUsed = witnessBits ops := by
    rw [ProverBackend.bitsUsed, hspec.next]
    exact Nat.zero_add _
  have hlen : backend.constraints.length = (constraints ops).length := hall.length_eq
  have hsat : backend.satisfied = true ↔ ImmediatelySatisfied (assignment witness) ops := by
    rw [hspec.satisfied, hvalues]
    simp [ProverBackend.new, ImmediatelySatisfied]
  obtain ⟨d, hset, hdlen, hdbits⟩ := setBits_spec VoleithError (l := witnessBits ops)
    backend.d (by rw [hd]; simp)
  have hbuild : (ProverBackend.new witness u tags).build (.ok ops) = .ok backend := hrun
  have hmatch : (backend.bitsUsed == (sizingOf ops).l &&
      backend.constraints.length == (sizingOf ops).constraints) = true := by
    rw [hused, hlen]
    simp [sizingOf]
  -- `enforce` asks for the errors that each assertion checks as it is made
  refine ⟨backend.constraints, d, hall, hdlen, fun t ht => ?_, fun hok => ?_,
    fun henforce hviolated => ?_⟩
  · rw [hdbits t (by simpa [hd] using ht), hd, List.getD_eq_getElem?_getD, List.getElem?_map,
      List.getElem?_range ht, Option.map_some, Option.getD_some]
  · have hreq : (!enforce || backend.satisfied) = true := by
      cases enforce with
      | false => rfl
      | true => simpa using hsat.mpr (hok rfl)
    have hset' : (setBits (sizingOf ops).l backend.d : Outcome VoleithError BitVector) = .ok d :=
      hset
    simp only [proverRun, hbuild, Outcome.ok_bind, hmatch, Outcome.require_true, hreq, hset']
    rfl
  · have hreq : (!enforce || backend.satisfied) = false := by
      subst henforce
      simpa using mt hsat.mp hviolated
    simp only [proverRun, hbuild, Outcome.ok_bind, hmatch, Outcome.require_true, hreq,
      Outcome.require_false, Outcome.err_bind]

/-! ## The transcript of a proof -/

section Transcript

variable (H : Xof) (params : Params) (publicInput : List U8) (sizing : Sizing) (proof : Proof)

/-- The transcript up to the first challenge. -/
def Proof.prologue : Transcript :=
  absorbPrologue H (Transcript.new H protocolLabel) publicInput params sizing.l sizing.maxDeg
    proof.salt proof.coms proof.corrections proof.d

/-- The key of the consistency hash. -/
def Proof.wideKey : WideHashKey :=
  (WideHashKey.draw ((proof.prologue H params publicInput sizing).challengeXof H
    (ascii "alpha")).1).1

/-- The challenge stream of the batched check, and the transcript after it. -/
def Proof.chi : XofReader × Transcript :=
  let tr := ((proof.prologue H params publicInput sizing).challengeXof H (ascii "alpha")).2
  (tr.absorb H (ascii "consistency") (elemBytes (proof.uTilde :: proof.vTilde))).challengeXof H
    (ascii "chi")

/-- The final challenge. -/
def Proof.challenge : Bytes 16 :=
  (((proof.chi H params publicInput sizing).2.absorb H (ascii "quicksilver")
    (elemBytes proof.qsCoefficients)).challengeBytes H (ascii "delta") 16).1

end Transcript

/-- The length of the VOLE of a program. -/
def voleLength (params : Params) (ops : List Op) : Nat :=
  witnessBits ops + (sizingOf ops).maxDeg * params.lambda

theorem two_le_maxDeg (ops : List Op) : 2 ≤ (sizingOf ops).maxDeg := Nat.le_max_right _ _

theorem le_voleLength {params : Params} (hvalid : params.Valid) (ops : List Op) :
    witnessBits ops + 256 ≤ voleLength params ops := by
  rw [voleLength, hvalid.lambda_eq]
  exact Nat.add_le_add_left (Nat.mul_le_mul_right 128 (two_le_maxDeg ops)) _

/-- When each of the verifier's checks passes on the transcript's challenges, it accepts. -/
theorem verify_of_checks {H : Xof} {params : Params} (hvalid : params.Valid)
    {publicInput : List U8} {ops : List Op} (hfits : Fits ops) {proof : Proof}
    (hshape : shapeMatches params (sizingOf ops) (voleLength params ops) proof = true)
    {keys : List GF2p128}
    (hkeys : reconstructKeys H proof.salt (voleLength params ops) params proof.coms
      proof.corrections (splitDelta (proof.challenge H params publicInput (sizingOf ops)) params).2
      proof.openings = .ok keys)
    (hcheck : checkConsistency params (proof.wideKey H params publicInput (sizingOf ops))
      proof.uTilde proof.vTilde
      (splitDelta (proof.challenge H params publicInput (sizingOf ops)) params).1 keys = .ok ())
    (hcircuit : verifyCircuit params (.ok ops) (sizingOf ops) proof.d keys
      (proof.chi H params publicInput (sizingOf ops)).1 proof.qsCoefficients
      (splitDelta (proof.challenge H params publicInput (sizingOf ops)) params).1 = .ok ()) :
    verify H params publicInput (.ok ops) proof = .ok () := by
  have hkeys' := congrArg (Outcome.mapErr fun _ => VoleithError.invalidProof) hkeys
  rw [Outcome.mapErr_ok] at hkeys'
  rw [verify, sizeCircuit_ok hvalid hfits, Outcome.ok_bind]
  show (Outcome.require (shapeMatches params (sizingOf ops) (voleLength params ops) proof)
    VoleithError.invalidProof >>= fun _ =>
    (reconstructKeys H proof.salt (voleLength params ops) params proof.coms proof.corrections
      (splitDelta (proof.challenge H params publicInput (sizingOf ops)) params).2
      proof.openings).mapErr (fun _ => VoleithError.invalidProof) >>= fun keys =>
    checkConsistency params (proof.wideKey H params publicInput (sizingOf ops)) proof.uTilde
      proof.vTilde (splitDelta (proof.challenge H params publicInput (sizingOf ops)) params).1
      keys >>= fun _ =>
    verifyCircuit params (.ok ops) (sizingOf ops) proof.d keys
      (proof.chi H params publicInput (sizingOf ops)).1 proof.qsCoefficients
      (splitDelta (proof.challenge H params publicInput (sizingOf ops)) params).1) = _
  rw [hshape, Outcome.require_true, Outcome.ok_bind, hkeys', Outcome.ok_bind, hcheck,
    Outcome.ok_bind, hcircuit]

/-! ## The prover's messages -/

/-- The prover's proof, but for its QuickSilver message and the openings. -/
def honestProof (salt : Salt) (vole : ProverVole) (d : BitVector) (uTilde : GF2p128)
    (vTilde qs : List GF2p128) (openings : List VcOpening) : Proof :=
  ⟨salt, vole.coms, vole.corrections, d, uTilde, vTilde, qs, openings⟩

/-- After a successful run of the circuit the prover only still fails in its QuickSilver message. -/
theorem proveCommitted_eq {H : Xof} {params : Params} (hvalid : params.Valid)
    (publicInput : List U8) {ops : List Op} {witness : List Bool} {salt : Salt} {roots : List Seed}
    {vole : ProverVole}
    (hcommit : ProverVole.commit H roots salt (voleLength params ops) params = .ok vole)
    (hspec : CommitSpec H roots salt (voleLength params ops) params vole) {enforce : Bool}
    {pcs : List ProverConstraint} {d : BitVector}
    (hrun : proverRun (.ok ops) witness (sizingOf ops) vole.u vole.tags enforce = .ok (pcs, d)) :
    ∃ uTilde vTilde,
      let proof := honestProof salt vole d uTilde vTilde
      let key := (proof [] []).wideKey H params publicInput (sizingOf ops)
      uTilde = columnHash key (voleLength params ops) vole.u.bit ∧ vTilde.length = 128 ∧
      (∀ r < 128, ∀ c < 128, (vTilde.getD r 0).bit c =
        (columnHash key (voleLength params ops) (rowsColumn vole.tags c)).bit r) ∧
      proveCommitted H params publicInput (.ok ops) witness (sizingOf ops) salt roots enforce =
        (proverQuickSilver params (sizingOf ops) vole.u vole.tags pcs
          ((proof [] []).chi H params publicInput (sizingOf ops)).1 enforce >>= fun qs =>
          (vole.open (splitDelta ((proof qs []).challenge H params publicInput (sizingOf ops))
            params).2).mapErr (fun _ => VoleithError.invalidParameters) >>= fun openings =>
          .ok (proof qs openings)) := by
  have hlen := le_voleLength hvalid ops
  have hbits (key : WideHashKey) : (wideHashBits key vole.u : Outcome VoleithError GF2p128) =
      .ok (columnHash key (voleLength params ops) vole.u.bit) := by
    rw [wideHashBits_spec key (by rw [hspec.u_len]; omega), hspec.u_len]
  obtain ⟨vTilde, hrows, hvlen, hvbits⟩ := wideHashRows_spec VoleithError
    ((honestProof salt vole d 0 [] [] []).wideKey H params publicInput (sizingOf ops))
    (show 128 ≤ vole.tags.length by rw [hspec.tags_length]; omega)
  rw [hspec.tags_length] at hvbits
  refine ⟨columnHash ((honestProof salt vole d 0 [] [] []).wideKey H params publicInput
    (sizingOf ops)) (voleLength params ops) vole.u.bit, vTilde, rfl, hvlen, hvbits, ?_⟩
  -- the calls of `prove_committed` in order: commit, run the circuit, hash, QuickSilver, open
  have hcommit' := congrArg (Outcome.mapErr fun _ => VoleithError.invalidParameters) hcommit
  rw [Outcome.mapErr_ok] at hcommit'
  show ((ProverVole.commit H roots salt (voleLength params ops) params).mapErr _ >>= _) = _
  rw [hcommit', Outcome.ok_bind, hrun, Outcome.ok_bind]
  show (wideHashBits ((honestProof salt vole d 0 [] [] []).wideKey H params publicInput
      (sizingOf ops)) vole.u >>= fun uTilde =>
    wideHashRows ((honestProof salt vole d 0 [] [] []).wideKey H params publicInput
      (sizingOf ops)) vole.tags >>= _) = _
  rw [hbits, Outcome.ok_bind, hrows, Outcome.ok_bind]
  rfl

/-! ## The verifier accepts -/

theorem combinedError_eq_zero {w : Nat → Bool} {ds : List Draw}
    (h : ∀ a ∈ ds, a.constraint.error w a.phis = 0) : combinedError w ds = 0 := by
  rw [combinedError, List.map_congr_left fun a ha => by rw [h a ha, mul_zero]]
  simp

/-- Below the allocated bits the extracted witness is the prover's. -/
theorem extractedWitness_eq {l : Nat} {u d : BitVector} {witness : List Bool}
    (hwit : witness.length = l) (hd : ∀ t < l, d.bit t = (u.bit t ^^ assignment witness t)) :
    extractedWitness l u d = assignment witness := by
  funext t
  rw [extractedWitness]
  by_cases ht : t < l
  · rw [hd t ht, decide_eq_true ht, Bool.true_and, ← Bool.xor_assoc, Bool.xor_self,
      Bool.false_xor]
  · rw [decide_eq_false ht, Bool.false_and, assignment, List.getD_eq_getElem?_getD,
      List.getElem?_eq_none (by omega)]
    rfl

/-- An honest proof whose combined error is zero is accepted. -/
theorem verify_honestProof {H : Xof} {params : Params} (hvalid : params.Valid)
    {publicInput : List U8} {ops : List Op} (hfits : Fits ops) {witness : List Bool}
    (hwit : witness.length = witnessBits ops) {salt : Salt} {roots : List Seed} {vole : ProverVole}
    (hspec : CommitSpec H roots salt (voleLength params ops) params vole) {d : BitVector}
    (hdlen : d.len = witnessBits ops)
    (hd : ∀ t < witnessBits ops, d.bit t = (vole.u.bit t ^^ assignment witness t))
    {uTilde : GF2p128} {vTilde qs : List GF2p128} {openings : List VcOpening}
    (hu : uTilde = columnHash ((honestProof salt vole d uTilde vTilde qs openings).wideKey H params
      publicInput (sizingOf ops)) (voleLength params ops) vole.u.bit)
    (hvlen : vTilde.length = 128)
    (hv : ∀ r < 128, ∀ c < 128, (vTilde.getD r 0).bit c =
      (columnHash ((honestProof salt vole d uTilde vTilde qs openings).wideKey H params publicInput
        (sizingOf ops)) (voleLength params ops) (rowsColumn vole.tags c)).bit r)
    (hqlen : qs.length = (sizingOf ops).maxDeg)
    (hpoly : toPoly qs =
      voleMask (witnessBits ops) params.lambda ((sizingOf ops).maxDeg - 1) vole.u vole.tags +
        batchPoly (assignment witness) (witnessTags (witnessBits ops) vole.tags)
          (sizingOf ops).maxDeg (draws (constraints ops)
            ((honestProof salt vole d uTilde vTilde qs openings).chi H params publicInput
              (sizingOf ops)).1))
    (hopen : vole.open (splitDelta ((honestProof salt vole d uTilde vTilde qs openings).challenge H
      params publicInput (sizingOf ops)) params).2 = .ok openings) :
    verify H params publicInput (.ok ops) (honestProof salt vole d uTilde vTilde qs openings) =
      .ok () := by
  obtain ⟨openings', keys, hopen', hopenlen, hkeys, hklen, hkbits⟩ := hspec.reconstruct H hvalid
    ((honestProof salt vole d uTilde vTilde qs openings).challenge H params publicInput
      (sizingOf ops))
  obtain rfl : openings' = openings := Except.ok.inj (hopen'.symm.trans hopen)
  have hlen := le_voleLength hvalid ops
  have hkeysAre : KeysAre (voleLength params ops) vole.u vole.tags _ keys := ⟨hklen, hkbits⟩
  obtain ⟨rows, hrows, hrlen, hrbits⟩ := wideHashRows_spec VoleithError
    ((honestProof salt vole d uTilde vTilde qs openings').wideKey H params publicInput
      (sizingOf ops)) (show 128 ≤ keys.length by omega)
  rw [hklen] at hrbits
  -- the three checks: the shape, the consistency of the VOLE, and QuickSilver
  refine verify_of_checks hvalid hfits ?_ hkeys ?_ ?_
  · simp only [shapeMatches, honestProof, hdlen, hspec.coms_length, hspec.corrections_length,
      hopenlen, hvlen, hvalid.lambda_eq, hqlen, hspec.corrections_len, beq_self_eq_true, Bool.and_true]
    exact beq_self_eq_true _
  · rw [checkConsistency, hrows, Outcome.ok_bind, hvalid.lambda_eq]
    have hcheck := rows_keys hkeysAre (by omega) hv hrbits
    rw [← hu] at hcheck
    exact (checkRows_eq_ok hvlen hrlen).mpr hcheck
  · have hcheck := verifyCircuit_spec params
      ((honestProof salt vole d uTilde vTilde qs openings').chi H params publicInput
        (sizingOf ops)).1 qs hfits.asserted hdlen.ge hkeysAre
    rw [extractedWitness_eq hwit hd, ← hpoly, beq_self_eq_true, Outcome.require_true] at hcheck
    exact hcheck

/-! ## Completeness -/

theorem QuadSystem.foldedValue_eq_zero {s : QuadSystem} {w : Nat → Bool}
    (h : ∀ e < s.linear.length, s.equation w e = 0) (phis : List GF2p128) :
    s.foldedValue w phis = 0 := by
  have hzip : ∀ (es : List Nat), (∀ e ∈ es, s.equation w e = 0) → ∀ phis : List GF2p128,
      (List.zipWith (fun phi e => phi * s.equation w e) phis es).sum = 0 := by
    intro es hes phis
    induction es generalizing phis with
    | nil => simp
    | cons e es ih =>
        cases phis with
        | nil => rfl
        | cons phi phis =>
            rw [List.zipWith_cons_cons, List.sum_cons, hes e (by simp), mul_zero, zero_add,
              ih fun e' he' => hes e' (by simp [he'])]
  exact hzip _ (fun e he => h e (List.mem_range.mp he)) phis

/-- An assertion that holds has no error. -/
theorem error_eq_zero_of_holds {w : Nat → Bool} {op : Op} {c : Constraint}
    (hc : op.constraint? = some c) (h : op.Holds w) (phis : List GF2p128) :
    c.error w phis = 0 := by
  cases op with
  | witnessBit | build e => cases hc
  | assertZero a => cases hc; exact h
  | assertMul x y z => cases hc; exact GF2p128.add_eq_zero_iff.mpr h
  | assertQuadSystem s => cases hc; exact QuadSystem.foldedValue_eq_zero h phis
  | assertExprZero e => cases hc; exact h

/-- A violated assertion other than a system is found while the circuit runs. -/
theorem not_immediatelySatisfied {w : Nat → Bool} {ops : List Op} {op : Op} (hop : op ∈ ops)
    (hviolated : ¬ op.Holds w) (hsystem : ∀ s, op ≠ .assertQuadSystem s) :
    ¬ ImmediatelySatisfied w ops := by
  intro hall
  apply hviolated
  have hmem : ∀ c, op.constraint? = some c → c.immediateError w = 0 := fun c hc =>
    hall c (List.mem_filterMap.mpr ⟨op, hop, hc⟩)
  cases op with
  | witnessBit | build e => trivial
  | assertZero a => exact hmem _ rfl
  | assertMul x y z => exact GF2p128.add_eq_zero_iff.mp (hmem _ rfl)
  | assertQuadSystem s => exact absurd rfl (hsystem s)
  | assertExprZero e => exact hmem _ rfl

theorem error_of_mem_draws {w : Nat → Bool} {ops : List Op} (h : Satisfies w ops)
    {chi : XofReader} {a : Draw} (ha : a ∈ draws (constraints ops) chi) :
    a.constraint.error w a.phis = 0 := by
  obtain ⟨op, hop, hc⟩ := List.mem_filterMap.mp (constraint_of_mem_draws ha)
  exact error_eq_zero_of_holds hc (h op hop) a.phis

theorem immediatelySatisfied_of_satisfies {w : Nat → Bool} {ops : List Op} (h : Satisfies w ops) :
    ImmediatelySatisfied w ops := by
  intro c hc
  obtain ⟨op, hop, hopc⟩ := List.mem_filterMap.mp hc
  have herror := error_eq_zero_of_holds hopc (h op hop) []
  cases c with
  | system s => rfl
  | zero a | mul x y z | expr e => exact herror

/-- The immediate checks and the loop's checks of the systems leave no error. -/
theorem error_eq_zero_of_enforced {w : Nat → Bool} {ops : List Op} {chi : XofReader}
    (himm : ImmediatelySatisfied w ops)
    (hsys : ∀ a ∈ draws (constraints ops) chi, ∀ s, a.constraint = .system s →
      a.constraint.error w a.phis = 0) :
    ∀ a ∈ draws (constraints ops) chi, a.constraint.error w a.phis = 0 := by
  rintro ⟨c, phis, x⟩ ha
  cases c with
  | system s => exact hsys _ ha s rfl
  | zero a | mul x y z | expr e => exact himm _ (constraint_of_mem_draws ha)

/-- A successful enforced QuickSilver message found no system in error. -/
theorem proverQuickSilver_enforced {params : Params} {sizing : Sizing} {u : BitVector}
    {tags : List GF2p128} {w : Nat → Bool} {v : Nat → GF2p128} {pcs : List ProverConstraint}
    {cs : List Constraint} {chi : XofReader} {qs : List GF2p128}
    (h : List.Forall₂ (ProverConstraint.Records w v) pcs cs)
    (hok : proverQuickSilver params sizing u tags pcs chi true = .ok qs) :
    ∀ a ∈ draws cs chi, ∀ s, a.constraint = .system s → a.constraint.error w a.phis = 0 := by
  obtain ⟨masks, -, hloop⟩ := Outcome.bind_eq_ok.mp hok
  exact proverConstraints_enforced h chi hloop

theorem prove_eq {ρ : Type} [CryptoRngCore ρ] (H : Xof) {params : Params} (hvalid : params.Valid)
    (publicInput : List U8) {ops : List Op} (hfits : Fits ops) {witness : List Bool}
    (hwit : witness.length = witnessBits ops) (rng : ρ) :
    ∃ (salt : Salt) (roots : List Seed), roots.length = params.tau ∧
      (prove H params publicInput (.ok ops) witness rng).1 =
        proveCommitted H params publicInput (.ok ops) witness (sizingOf ops) salt roots true := by
  have hlen : (witness.length == (sizingOf ops).l) = true := by simpa [sizingOf] using hwit
  refine ⟨(CryptoRngCore.fillBytes 32 rng).1,
    (fillMany 16 params.tau (CryptoRngCore.fillBytes 32 rng).2).1, fillMany_length _ _ _, ?_⟩
  rw [prove, proveImpl, sizeCircuit_ok hvalid hfits, Outcome.ok_bind, hlen, Outcome.require_true]
  rfl

/-- What `prove` returns for a program that fits: a proof that `verify` accepts, whenever every
    assertion holds and only if every assertion but a system holds. -/
theorem prove_spec {ρ : Type} [CryptoRngCore ρ] (H : Xof) {params : Params}
    (hvalid : params.Valid) (publicInput : List U8) {ops : List Op} (hfits : Fits ops)
    {witness : List Bool} (hwit : witness.length = witnessBits ops) (rng : ρ) :
    (∀ proof, (prove H params publicInput (.ok ops) witness rng).1 = .ok proof →
      verify H params publicInput (.ok ops) proof = .ok ()) ∧
    (Satisfies (assignment witness) ops →
      ∃ proof, (prove H params publicInput (.ok ops) witness rng).1 = .ok proof) ∧
    ∀ op ∈ ops, ¬ op.Holds (assignment witness) → (∀ s, op ≠ .assertQuadSystem s) →
      (prove H params publicInput (.ok ops) witness rng).1 = Outcome.err .unsatisfiable := by
  have hlen := le_voleLength hvalid ops
  obtain ⟨salt, roots, hroots, hprove⟩ := prove_eq H hvalid publicInput hfits hwit rng
  rw [hprove]
  obtain ⟨vole, hcommit, hspec⟩ := commit_spec H salt (voleLength params ops) hvalid hroots
  obtain ⟨pcs, d, hall, hdlen, hdbits, hrunok, hrunfail⟩ := proverRun_spec hfits.built hwit
    (show witnessBits ops ≤ vole.u.len by rw [hspec.u_len]; omega)
    (show witnessBits ops ≤ vole.tags.length by rw [hspec.tags_length]; omega) true
  by_cases himm : ImmediatelySatisfied (assignment witness) ops
  · obtain ⟨uTilde, vTilde, hu, hvlen, hv, hmessages⟩ :=
      proveCommitted_eq hvalid publicInput hcommit hspec (hrunok fun _ => himm)
    -- a message with no system in error is the masks plus the batch
    have hmessage : (∀ a ∈ draws (constraints ops)
        ((honestProof salt vole d uTilde vTilde [] []).chi H params publicInput (sizingOf ops)).1,
        a.constraint.error (assignment witness) a.phis = 0) →
        ∃ qs openings, proveCommitted H params publicInput (.ok ops) witness (sizingOf ops) salt
            roots true = .ok (honestProof salt vole d uTilde vTilde qs openings) ∧
          verify H params publicInput (.ok ops) (honestProof salt vole d uTilde vTilde qs openings) =
            .ok () := by
      intro herror
      obtain ⟨qs, hqs, hqlen, hpoly⟩ := proverQuickSilver_spec params _
        (two_le_maxDeg ops) hspec.u_len.ge hspec.tags_length.ge hall
        (fun c hc => (degree_le_assertedDegree hc).trans (Nat.le_max_left _ _))
        (fun a ha _ _ _ => herror a ha)
      obtain ⟨openings, -, hopen, -⟩ := hspec.reconstruct H hvalid
        ((honestProof salt vole d uTilde vTilde qs []).challenge H params publicInput
          (sizingOf ops))
      rw [combinedError_eq_zero herror, C_0, zero_mul, add_zero] at hpoly
      refine ⟨qs, openings, ?_, verify_honestProof hvalid hfits hwit hspec hdlen hdbits hu hvlen hv
        hqlen hpoly hopen⟩
      rw [hmessages, hqs, Outcome.ok_bind, hopen]
      rfl
    refine ⟨fun proof hproof => ?_, fun hsat => ?_, fun op hop hviolated hsystem =>
      absurd himm (not_immediatelySatisfied hop hviolated hsystem)⟩
    · obtain ⟨qs, hqs, -⟩ := Outcome.bind_eq_ok.mp (hmessages ▸ hproof)
      obtain ⟨qs, openings, hok, hverify⟩ := hmessage
        (error_eq_zero_of_enforced himm (proverQuickSilver_enforced hall hqs))
      rw [Except.ok.inj (hproof.symm.trans hok)]
      exact hverify
    · obtain ⟨qs, openings, hok, -⟩ := hmessage fun a ha => error_of_mem_draws hsat ha
      exact ⟨_, hok⟩
  · -- a violated immediate assertion stops the prover
    have hfail : proveCommitted H params publicInput (.ok ops) witness (sizingOf ops) salt roots
        true = Outcome.err .unsatisfiable := by
      have hcommit' := congrArg (Outcome.mapErr fun _ => VoleithError.invalidParameters) hcommit
      rw [Outcome.mapErr_ok] at hcommit'
      show ((ProverVole.commit H roots salt (voleLength params ops) params).mapErr _ >>= _) = _
      rw [hcommit', Outcome.ok_bind, hrunfail rfl himm, Outcome.err_bind]
    refine ⟨fun proof hproof => ?_, fun hsat => absurd (immediatelySatisfied_of_satisfies hsat) himm,
      fun _ _ _ _ => hfail⟩
    rw [hfail] at hproof
    cases hproof

/-- Completeness of the proof system, for every program, valid parameters, public input and
    generator, whatever the hash function: what `prove` returns `verify` accepts, `prove` returns a
    proof for a satisfying witness, and reports any violated assertion but a system's. -/
theorem prove_verify_complete {ρ : Type} [CryptoRngCore ρ] (H : Xof) (params : Params)
    (hparams : params.validate = .ok ()) (publicInput : List U8) (ops : List Op)
    (hbits : 1 ≤ witnessBits ops) (hbuilt : builtDegree ops ≤ 16) (witness : List Bool)
    (hwit : witness.length = witnessBits ops) (rng : ρ) :
    (∀ proof, (prove H params publicInput (.ok ops) witness rng).1 = .ok proof →
      verify H params publicInput (.ok ops) proof = .ok ()) ∧
    (Satisfies (assignment witness) ops →
      ∃ proof, (prove H params publicInput (.ok ops) witness rng).1 = .ok proof) ∧
    ∀ op ∈ ops, ¬ op.Holds (assignment witness) → (∀ s, op ≠ .assertQuadSystem s) →
      (prove H params publicInput (.ok ops) witness rng).1 = Outcome.err .unsatisfiable :=
  prove_spec H (Params.validate_eq_ok.mp hparams) publicInput
    (fits_of_builtDegree (Nat.pos_iff_ne_zero.mp hbits) hbuilt) hwit rng

/-- One bit asserted zero, over the fast profile: the bit zero is proved and accepted, the bit one
    is reported. -/
theorem prove_verify_complete_bit :
    (∃ proof, (prove (fun _ _ => 0#8) params128Fast [] (.ok [.witnessBit, .assertZero (.bit 0)])
        [false] ()).1 = .ok proof ∧
      verify (fun _ _ => 0#8) params128Fast [] (.ok [.witnessBit, .assertZero (.bit 0)]) proof =
        .ok ()) ∧
    (prove (fun _ _ => 0#8) params128Fast [] (.ok [.witnessBit, .assertZero (.bit 0)])
      [true] ()).1 = Outcome.err .unsatisfiable := by
  have hvalidate := Params.validate_of_valid Params.shipped_valid.2.2
  constructor
  · obtain ⟨haccept, hprove, -⟩ := prove_verify_complete (fun _ _ => 0#8) params128Fast hvalidate []
      [.witnessBit, .assertZero (.bit 0)] (by decide) (by decide) [false] rfl ()
    obtain ⟨proof, hproof⟩ := hprove (by
      intro op hop
      simp only [List.mem_cons, List.not_mem_nil, or_false] at hop
      rcases hop with rfl | rfl
      · trivial
      · rfl)
    exact ⟨proof, hproof, haccept proof hproof⟩
  · refine (prove_verify_complete (fun _ _ => 0#8) params128Fast hvalidate []
      [.witnessBit, .assertZero (.bit 0)] (by decide) (by decide) [true] rfl ()).2.2
      (.assertZero (.bit 0)) (by simp) ?_ (by simp)
    show ¬ GF2p128.ofBool true = 0
    decide

end VoleAct.Voleith
