/-
  VoleAct.Voleith.Safety

  `verify` returns on every proof, and both sides reject the same circuits.

  The shape check bounds every index of the rest of `verify`, and the counting
  pass bounds every degree the backends meet.
-/
import VoleAct.Voleith.Completeness
import VoleAct.Voleith.Reconstruct

namespace VoleAct.Voleith

open VoleAct.BinaryFields VoleAct.VectorCommit VoleAct.Lib

/-! ## Every index of `verify` is in range -/

theorem sizeCircuit_safe (params : Params) (circuit : Circuit) :
    Outcome.Safe (sizeCircuit params circuit) fun sizing =>
      params.Valid ∧ ∃ ops, circuit = .ok ops ∧ Fits ops ∧ sizing = sizingOf ops := by
  refine .of_ne_panic ?_ fun sizing h => of_sizeCircuit h
  refine Outcome.Safe.ne_panic (P := fun _ => True) ?_
  rw [sizeCircuit, Params.validate]
  refine (Outcome.Safe.require _ _).bind fun _ _ => ?_
  cases circuit with
  | error e => exact .err e
  | ok ops =>
      rw [CountingBackend.build, Outcome.ok_bind]
      refine (Outcome.Safe.require _ _).bind fun _ _ => ?_
      exact (Outcome.Safe.require _ _).bind fun _ _ => .ok trivial

theorem wideHashRows_safe (key : WideHashKey) {input : List GF2p128} (h : 128 ≤ input.length) :
    Outcome.Safe (wideHashRows key input : Outcome VoleithError (List GF2p128))
      fun rows => rows.length = 128 := by
  rw [wideHashRows]
  exact (Outcome.Safe.assert (decide_eq_true h)).bind fun _ _ => .ok (by simp)

theorem checkRows_safe {lambda : Nat} (uTilde : GF2p128) {vTilde : List GF2p128} (delta : GF2p128)
    (keyTilde : List GF2p128) (h : vTilde.length = lambda) :
    Outcome.Safe (checkRows lambda uTilde vTilde delta keyTilde) fun _ => True := by
  refine .forM ?_
  rintro ⟨keyRow, row⟩ hmem
  have hget : (keyTilde.take lambda)[row]? = some keyRow := List.mk_mem_zipIdx_iff_getElem?.mp hmem
  have hrow : row < vTilde.length := by
    have hlt := (List.getElem?_eq_some_iff.mp hget).1
    rw [List.length_take] at hlt
    omega
  refine (Outcome.Safe.index hrow).bind fun v _ => ?_
  exact (Outcome.Safe.require _ _).mono fun _ _ => trivial

/-- Any keys are the keys of some VOLE, so the final check is a comparison of two values. -/
theorem verifyCircuit_safe (params : Params) {ops : List Op} {d : BitVector} {keys : List GF2p128}
    {delta : GF2p128} (chi : XofReader) (qs : List GF2p128) (hfits : Fits ops)
    (hd : witnessBits ops ≤ d.len) (hkeys : keys.length = voleLength params ops) :
    Outcome.Safe (verifyCircuit params (.ok ops) (sizingOf ops) d keys chi qs delta)
      fun _ => True := by
  have hare : KeysAre (voleLength params ops) (BitVector.zero 0) keys delta keys :=
    ⟨hkeys, fun t _ => by simp⟩
  rw [verifyCircuit_spec params chi qs hfits.asserted hd hare]
  exact (Outcome.Safe.require _ _).mono fun _ _ => trivial

theorem verify_safe (H : Xof) (params : Params) (publicInput : List U8) (circuit : Circuit)
    (proof : Proof) : Outcome.Safe (verify H params publicInput circuit proof) fun _ => True := by
  rw [verify]
  refine (sizeCircuit_safe params circuit).bind ?_
  rintro sizing ⟨hvalid, ops, rfl, hfits, rfl⟩
  refine (Outcome.Safe.require _ _).bind fun _ hshape => ?_
  simp only [shapeMatches, Bool.and_eq_true, beq_iff_eq] at hshape
  obtain ⟨⟨⟨⟨⟨⟨hd, -⟩, -⟩, -⟩, hrows⟩, -⟩, -⟩ := hshape
  refine ((reconstructKeys_safe H _ _ _ _ _ _ _).mapErr _).bind fun keys hkeys => ?_
  -- the masks alone fill the rows the hash needs
  have hlen : 128 ≤ keys.length := by
    have hle := le_voleLength hvalid ops
    rw [voleLength] at hle
    rw [hkeys]
    show 128 ≤ witnessBits ops + (sizingOf ops).maxDeg * params.lambda
    omega
  have hcheck (key : WideHashKey) (delta : GF2p128) :
      Outcome.Safe (checkConsistency params key proof.uTilde proof.vTilde delta keys)
        fun _ => True := by
    rw [checkConsistency]
    exact (wideHashRows_safe key hlen).bind fun rows _ => checkRows_safe _ _ _ hrows
  exact (hcheck _ _).bind fun _ _ => verifyCircuit_safe params _ _ hfits hd.ge hkeys

/-! ## The three backends agree on degrees and counts -/

theorem VerifierBackend.degree_expr (v : VerifierBackend) (e : Expr) :
    (v.expr e).degree = e.degree := by
  induction e with
  | wireExpr a => rfl
  | exprAdd a b iha ihb => simp only [expr, exprAdd, Expr.degree, iha, ihb]
  | exprMul a b iha ihb => simp only [expr, exprMul, Expr.degree, iha, ihb]

/-- While the counter stays within the bound, its degree of an expression is the degree of both
    other sides. -/
theorem degrees_agree (c : CountingBackend) (b : ProverBackend) (v : VerifierBackend) (e : Expr)
    (h : (c.expr e).2.maxBuiltDegree ≤ maxDegree) :
    ∃ poly, b.expr e = .ok poly ∧ poly.coeffs.length = (c.expr e).1 + 1 ∧
      (v.expr e).degree = (c.expr e).1 := by
  rw [CountingBackend.expr_eq] at h ⊢
  have hbuilt : e.builtDegree ≤ maxDegree := by
    simp only [maxDegree, usizeMax] at h ⊢
    omega
  -- within the bound the counter has not saturated
  have hdegree : min e.degree usizeMax = e.degree := by
    have hle := e.degree_le_builtDegree
    simp only [maxDegree, usizeMax] at hbuilt ⊢
    omega
  obtain ⟨poly, hpoly, hlen, -⟩ := b.expr_spec e hbuilt
  exact ⟨poly, hpoly, by rw [hlen, hdegree], by rw [v.degree_expr, hdegree]⟩

/-- What the counter holds after a program. -/
theorem counter_eq {ops : List Op} {counter : CountingBackend}
    (h : CountingBackend.default.build (.ok ops) = .ok counter) :
    counter.witnessBits = witnessBits ops ∧ counter.constraints = (constraints ops).length ∧
      counter.maxDegree = min (assertedDegree ops) usizeMax ∧
      counter.maxBuiltDegree = min (builtDegree ops) usizeMax := by
  rw [CountingBackend.build, CountingBackend.foldl_step] at h
  obtain rfl := Except.ok.inj h
  simp [CountingBackend.default]

/-- A program without witness bits or beyond a degree bound is rejected by the sizing pass. -/
theorem sizeCircuit_rejects (params : Params) {ops : List Op} {counter : CountingBackend}
    (hcounter : CountingBackend.default.build (.ok ops) = .ok counter)
    (h : counter.witnessBits = 0 ∨ maxDegree < counter.maxDegree ∨
      maxDegree < counter.maxBuiltDegree) :
    sizeCircuit params (.ok ops) = Outcome.err .invalidParameters := by
  rw [sizeCircuit, Params.validate]
  cases decide (1 ≤ params.tau ∧ 1 ≤ params.k ∧ params.k ≤ 24 ∧ params.tau ≤ 128 ∧
    params.lambda = 128) with
  | false => rfl
  | true =>
      rw [Outcome.require_true, Outcome.ok_bind, hcounter, Outcome.ok_bind]
      dsimp only
      by_cases hbits : counter.witnessBits = 0
      · have hzero : (counter.sizing.l != 0) = false := by simpa [CountingBackend.sizing] using hbits
        rw [hzero, Outcome.require_false, Outcome.err_bind]
      · have hnonzero : (counter.sizing.l != 0) = true := by
          simpa [CountingBackend.sizing] using hbits
        have hbound : ¬ (counter.sizing.maxDeg ≤ maxDegree ∧ counter.maxBuiltDegree ≤ maxDegree) := by
          simp only [CountingBackend.sizing]
          omega
        rw [hnonzero, Outcome.require_true, Outcome.ok_bind, decide_eq_false hbound,
          Outcome.require_false, Outcome.err_bind]

/-- The prover's run of a program within the built-degree bound uses the counted bits and records
    the counted constraints. -/
theorem prover_matches_counter {ops : List Op} {counter : CountingBackend}
    (hcounter : CountingBackend.default.build (.ok ops) = .ok counter)
    (hbuilt : counter.maxBuiltDegree ≤ maxDegree) {witness : List Bool} {u : BitVector}
    {tags : List GF2p128} (hwit : witness.length = counter.witnessBits)
    (hu : counter.witnessBits ≤ u.len) (htags : counter.witnessBits ≤ tags.length) :
    ∃ backend, (ProverBackend.new witness u tags).build (.ok ops) = .ok backend ∧
      backend.bitsUsed = counter.witnessBits ∧
      backend.constraints.length = counter.constraints := by
  obtain ⟨hbits, hconstraints, -, hdeg⟩ := counter_eq hcounter
  have hops : builtDegree ops ≤ maxDegree := by
    rw [hdeg] at hbuilt
    simp only [maxDegree, usizeMax] at hbuilt ⊢
    omega
  obtain ⟨backend, hrun, hspec⟩ := ProverBackend.run_spec ops (ProverBackend.new witness u tags)
    hops (by simp [ProverBackend.new, hwit, hbits]) (by simpa [ProverBackend.new, hwit])
    (by simpa [ProverBackend.new, hwit])
  obtain ⟨pcs, hpcs, hall⟩ := hspec.constraints
  refine ⟨backend, hrun, ?_, ?_⟩
  · rw [ProverBackend.bitsUsed, hspec.next, hbits]
    exact Nat.zero_add _
  · rw [hpcs, hconstraints, ← hall.length_eq]
    rfl

/-- The verifier's run of a program uses the counted bits and records the counted constraints. -/
theorem verifier_matches_counter {ops : List Op} {counter : CountingBackend}
    (hcounter : CountingBackend.default.build (.ok ops) = .ok counter)
    (hdeg : counter.maxDegree ≤ maxDegree) {keys : List GF2p128} (delta : GF2p128)
    (hkeys : keys.length = counter.witnessBits) :
    ∃ backend, (VerifierBackend.new keys delta).build (.ok ops) = .ok backend ∧
      backend.bitsUsed = counter.witnessBits ∧ backend.checks.length = counter.constraints := by
  obtain ⟨hbits, hconstraints, hasserted, -⟩ := counter_eq hcounter
  have hops : assertedDegree ops ≤ maxDegree := by
    rw [hasserted] at hdeg
    simp only [maxDegree, usizeMax] at hdeg ⊢
    omega
  -- the keys of the zero witness
  have hcorr : VerifierBackend.Correlated (fun _ => false) (fun t => keys.getD t 0)
      (VerifierBackend.new keys delta) := by
    refine ⟨fun t => ?_, rfl⟩
    by_cases ht : t < keys.length
    · simp [VerifierBackend.bitWire, VerifierBackend.new, ht]
    · simp [VerifierBackend.bitWire, VerifierBackend.new, ht]
  obtain ⟨backend, hrun, hspec⟩ := VerifierBackend.run_spec ops (VerifierBackend.new keys delta)
    hcorr (fun c hc => (degree_le_assertedDegree hc).trans hops)
    (by simp [VerifierBackend.new, hkeys, hbits])
  obtain ⟨checks, hchecks, hall⟩ := hspec.checks
  refine ⟨backend, hrun, ?_, ?_⟩
  · rw [VerifierBackend.bitsUsed, hspec.next, hbits]
    exact Nat.zero_add _
  · rw [hchecks, hconstraints, ← hall.length_eq]
    rfl

/-- Safety of `verify` and symmetry with `prove`.  `verify` returns on every proof.  The counter's
    degree of every expression is the prover's coefficient count minus one and the verifier's
    degree, as long as the counter stays within the bound, so the prover's capacity is never
    exceeded; beyond the bound, or without witness bits, both sides return `InvalidParameters`
    before anything else, drawing no randomness; and within it both backends use the counted bits
    and record the counted constraints. -/
theorem verify_total_and_symmetric {ρ : Type} [CryptoRngCore ρ] (H : Xof) :
    (∀ params publicInput circuit proof,
      verify H params publicInput circuit proof ≠ Outcome.panic) ∧
    (∀ (c : CountingBackend) (b : ProverBackend) (v : VerifierBackend) (e : Expr),
      (c.expr e).2.maxBuiltDegree ≤ maxDegree →
        ∃ poly, b.expr e = .ok poly ∧ poly.coeffs.length = (c.expr e).1 + 1 ∧
          (v.expr e).degree = (c.expr e).1) ∧
    ∀ ops counter, CountingBackend.default.build (.ok ops) = .ok counter →
      (counter.witnessBits = 0 ∨ maxDegree < counter.maxDegree ∨
          maxDegree < counter.maxBuiltDegree →
        ∀ params publicInput,
          (∀ proof, verify H params publicInput (.ok ops) proof =
            Outcome.err .invalidParameters) ∧
          ∀ witness (rng : ρ), prove H params publicInput (.ok ops) witness rng =
            (Outcome.err .invalidParameters, rng)) ∧
      (counter.maxBuiltDegree ≤ maxDegree →
        (∀ witness u tags, witness.length = counter.witnessBits → counter.witnessBits ≤ u.len →
          counter.witnessBits ≤ tags.length →
          ∃ backend, (ProverBackend.new witness u tags).build (.ok ops) = .ok backend ∧
            backend.bitsUsed = counter.witnessBits ∧
            backend.constraints.length = counter.constraints) ∧
        ∀ keys delta, keys.length = counter.witnessBits →
          ∃ backend, (VerifierBackend.new keys delta).build (.ok ops) = .ok backend ∧
            backend.bitsUsed = counter.witnessBits ∧
            backend.checks.length = counter.constraints) := by
  refine ⟨fun params publicInput circuit proof =>
      (verify_safe H params publicInput circuit proof).ne_panic, degrees_agree,
    fun ops counter hcounter => ⟨fun h params publicInput => ?_, fun hbuilt => ?_⟩⟩
  · have hsize := sizeCircuit_rejects params hcounter h
    refine ⟨fun proof => by rw [verify, hsize, Outcome.err_bind], fun witness rng => ?_⟩
    rw [prove, proveImpl, hsize, Outcome.err_bind]
    rfl
  · refine ⟨fun witness u tags hwit hu htags =>
      prover_matches_counter hcounter hbuilt hwit hu htags, fun keys delta hkeys =>
      verifier_matches_counter hcounter ?_ delta hkeys⟩
    -- an asserted expression is a built one
    obtain ⟨-, -, hasserted, hdeg⟩ := counter_eq hcounter
    have hle := assertedDegree_le_builtDegree ops
    rw [hdeg] at hbuilt
    rw [hasserted]
    simp only [maxDegree, usizeMax] at hbuilt ⊢
    omega

/-- A program that builds a product of degree 17 and discards it is rejected by both sides. -/
theorem verify_total_and_symmetric_discarded :
    let pow (n : Nat) : Expr := (fun e => .exprMul e (.wireExpr (.bit 0)))^[n] (.wireExpr (.bit 0))
    (∀ proof, verify (fun _ _ => 0#8) params128 [] (.ok [.witnessBit, .build (pow 16)]) proof =
      Outcome.err .invalidParameters) ∧
    ∀ witness, prove (fun _ _ => 0#8) params128 [] (.ok [.witnessBit, .build (pow 16)]) witness () =
      (Outcome.err .invalidParameters, ()) := by
  intro pow
  obtain ⟨hverify, hprove⟩ := ((@verify_total_and_symmetric Unit _ fun _ _ => 0#8).2.2
    [.witnessBit, .build (pow 16)] ⟨1, 0, 0, 17⟩ rfl).1 (.inr (.inr (by decide))) params128 []
  exact ⟨hverify, fun witness => hprove witness ()⟩

end VoleAct.Voleith
