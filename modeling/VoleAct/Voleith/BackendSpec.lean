/-
  VoleAct.Voleith.BackendSpec

  One specification per backend: what a run of a program leaves behind, in
  terms of the polynomials of its constraints.
-/
import VoleAct.Voleith.Semantics

namespace VoleAct.Voleith

open Polynomial VoleAct.BinaryFields VoleAct.Lib

/-! ## Folding -/

theorem lookup_foldTable (phi : GF2p128) (c : GF16) :
    lookup (foldTable phi) c = phi * embedGf16 c := by
  have hc : GF16.new (BitVec.ofNat 8 c.toU8.toNat) = c := by
    rw [BitVec.ofNat_toNat, BitVec.setWidth_eq, GF16.new_toU8]
  rw [lookup, foldTable, Vector.get_ofFn, hc]

theorem foldRest_eq (phis : List GF2p128) (coeffs : List GF16) (acc : GF2p128) :
    foldRest (phis.map foldTable) coeffs acc = acc + QuadSystem.foldedCoeff phis coeffs := by
  induction phis generalizing coeffs acc with
  | nil => simp [foldRest, QuadSystem.foldedCoeff]
  | cons phi phis ih =>
      cases coeffs with
      | nil => simp [foldRest, QuadSystem.foldedCoeff]
      | cons c coeffs =>
          rw [List.map_cons, foldRest, ih, lookup_foldTable]
          simp only [QuadSystem.foldedCoeff, List.zipWith_cons_cons, List.sum_cons, add_assoc]

theorem foldChunks_eq (phis : List GF2p128) (coeffs : List GF16) (a0 a1 a2 a3 : GF2p128) :
    foldChunks (phis.map foldTable) coeffs a0 a1 a2 a3 =
      (a0 + a1) + (a2 + a3) + QuadSystem.foldedCoeff phis coeffs := by
  have hrest : ∀ (phis : List GF2p128) (coeffs : List GF16) (a0 a1 a2 a3 : GF2p128),
      (foldRest (phis.map foldTable) coeffs a0 + a1) + (a2 + a3) =
        (a0 + a1) + (a2 + a3) + QuadSystem.foldedCoeff phis coeffs := by
    intro phis coeffs a0 a1 a2 a3
    rw [foldRest_eq]
    ring
  match phis, coeffs with
  | p0 :: p1 :: p2 :: p3 :: phis, c0 :: c1 :: c2 :: c3 :: coeffs =>
      simp only [List.map_cons, foldChunks]
      rw [foldChunks_eq phis coeffs]
      simp only [lookup_foldTable, QuadSystem.foldedCoeff, List.zipWith_cons_cons, List.sum_cons]
      ring
  | [], coeffs => exact hrest [] coeffs a0 a1 a2 a3
  | [p0], coeffs => exact hrest [p0] coeffs a0 a1 a2 a3
  | [p0, p1], coeffs => exact hrest [p0, p1] coeffs a0 a1 a2 a3
  | [p0, p1, p2], coeffs => exact hrest [p0, p1, p2] coeffs a0 a1 a2 a3
  | p0 :: p1 :: p2 :: p3 :: phis, [] =>
      exact hrest (p0 :: p1 :: p2 :: p3 :: phis) [] a0 a1 a2 a3
  | p0 :: p1 :: p2 :: p3 :: phis, [c0] =>
      exact hrest (p0 :: p1 :: p2 :: p3 :: phis) [c0] a0 a1 a2 a3
  | p0 :: p1 :: p2 :: p3 :: phis, [c0, c1] =>
      exact hrest (p0 :: p1 :: p2 :: p3 :: phis) [c0, c1] a0 a1 a2 a3
  | p0 :: p1 :: p2 :: p3 :: phis, [c0, c1, c2] =>
      exact hrest (p0 :: p1 :: p2 :: p3 :: phis) [c0, c1, c2] a0 a1 a2 a3

/-- The chunked fold is the definitional one. -/
theorem foldCoeff_eq (phis : List GF2p128) (coeffs : List GF16) :
    foldCoeff (phis.map foldTable) coeffs = QuadSystem.foldedCoeff phis coeffs := by
  rw [foldCoeff, foldChunks_eq]
  simp

/-! ## The counter -/

namespace CountingBackend

theorem min_add_min (a b m : Nat) : min (min a m + min b m) m = min (a + b) m := by omega

/-- The counter's degrees saturate at `usize::MAX`. -/
theorem expr_eq (c : CountingBackend) (e : Expr) :
    c.expr e = (min e.degree usizeMax,
      { c with maxBuiltDegree := max c.maxBuiltDegree (min e.builtDegree usizeMax) }) := by
  induction e generalizing c with
  | wireExpr w => simp [expr, Expr.degree, Expr.builtDegree, usizeMax]
  | exprAdd a b iha ihb =>
      simp only [expr, iha, ihb, Expr.degree, Expr.builtDegree, min_max_distrib_right, max_assoc]
  | exprMul a b iha ihb =>
      simp only [expr, exprMul, iha, ihb, Expr.degree, Expr.builtDegree, min_add_min,
        min_max_distrib_right, max_assoc]

theorem step_eq (c : CountingBackend) (op : Op) :
    step c op =
      { witnessBits := c.witnessBits + op.bits
        constraints := c.constraints + op.constraint?.toList.length
        maxDegree := max c.maxDegree
          (min ((op.constraint?.map Constraint.degree).getD 0) usizeMax)
        maxBuiltDegree := max c.maxBuiltDegree (min op.builtDegree usizeMax) } := by
  cases op with
  | witnessBit | assertZero a | assertMul x y z | assertQuadSystem s =>
      simp [step, record, Op.bits, Op.constraint?, Constraint.degree, Op.builtDegree, usizeMax]
  | build e => simp [step, expr_eq, Op.bits, Op.constraint?, Op.builtDegree]
  | assertExprZero e =>
      simp [step, record, expr_eq, Op.bits, Op.constraint?, Constraint.degree, Op.builtDegree]

/-- What a run leaves in the counter. -/
theorem foldl_step (ops : List Op) (c : CountingBackend) :
    ops.foldl step c =
      { witnessBits := c.witnessBits + Voleith.witnessBits ops
        constraints := c.constraints + (Voleith.constraints ops).length
        maxDegree := max c.maxDegree (min (assertedDegree ops) usizeMax)
        maxBuiltDegree := max c.maxBuiltDegree (min (Voleith.builtDegree ops) usizeMax) } := by
  induction ops generalizing c with
  | nil => simp
  | cons op ops ih =>
      rw [List.foldl_cons, ih, step_eq]
      simp only [witnessBits_cons, constraints_cons, assertedDegree_cons, builtDegree_cons,
        List.length_append, min_max_distrib_right, max_assoc, Nat.add_assoc]

end CountingBackend

/-- The circuits both sides accept: at least one witness bit and degrees within bounds. -/
structure Fits (ops : List Op) : Prop where
  bits : witnessBits ops ≠ 0
  asserted : assertedDegree ops ≤ maxDegree
  built : builtDegree ops ≤ maxDegree

/-- The dimensions of a program. -/
def sizingOf (ops : List Op) : Sizing :=
  ⟨witnessBits ops, max (assertedDegree ops) 2, (constraints ops).length⟩

/-- Below the degree bound the counter's saturation is invisible. -/
theorem sizing_foldl_step {ops : List Op} (h : assertedDegree ops ≤ maxDegree) :
    CountingBackend.sizing
      { witnessBits := CountingBackend.default.witnessBits + witnessBits ops
        constraints := CountingBackend.default.constraints + (constraints ops).length
        maxDegree := max CountingBackend.default.maxDegree (min (assertedDegree ops) usizeMax)
        maxBuiltDegree := max CountingBackend.default.maxBuiltDegree
          (min (builtDegree ops) usizeMax) } = sizingOf ops := by
  have hdeg : max (min (assertedDegree ops) usizeMax) 2 = max (assertedDegree ops) 2 := by
    simp only [usizeMax, maxDegree] at *
    omega
  simp only [CountingBackend.sizing, CountingBackend.default, Nat.zero_add, Nat.zero_max, hdeg,
    sizingOf]

theorem sizeCircuit_ok {params : Params} (hvalid : params.Valid) {ops : List Op} (h : Fits ops) :
    sizeCircuit params (.ok ops) = .ok (sizingOf ops) := by
  have hasserted := h.asserted
  have hbuilt := h.built
  have hdeg : max (min (assertedDegree ops) usizeMax) 2 = max (assertedDegree ops) 2 := by
    simp only [usizeMax, maxDegree] at *
    omega
  have hbound : max (assertedDegree ops) 2 ≤ maxDegree ∧
      min (builtDegree ops) usizeMax ≤ maxDegree := by
    simp only [usizeMax, maxDegree] at *
    omega
  have hbits : (witnessBits ops != 0) = true := by simpa using h.bits
  simp only [sizeCircuit, Params.validate_of_valid hvalid, CountingBackend.build,
    CountingBackend.sizing, CountingBackend.foldl_step, CountingBackend.default, Nat.zero_add,
    Nat.zero_max, hdeg, hbits,
    hbound, and_self, decide_true, Outcome.require_true, Outcome.ok_bind]
  rfl

/-- What a successful sizing pass says. -/
theorem of_sizeCircuit {params : Params} {circuit : Circuit} {sizing : Sizing}
    (h : sizeCircuit params circuit = .ok sizing) :
    params.Valid ∧ ∃ ops, circuit = .ok ops ∧ Fits ops ∧ sizing = sizingOf ops := by
  have hsized := h
  obtain ⟨_, hparams, h⟩ := Outcome.bind_eq_ok.mp h
  have hvalid := Params.validate_eq_ok.mp hparams
  cases circuit with
  | error e =>
      rw [CountingBackend.build, Outcome.err_bind] at h
      cases h
  | ok ops =>
      obtain ⟨counter, hcounter, h⟩ := Outcome.bind_eq_ok.mp h
      obtain ⟨_, hbits, h⟩ := Outcome.bind_eq_ok.mp h
      obtain ⟨_, hdeg, -⟩ := Outcome.bind_eq_ok.mp h
      rw [CountingBackend.build, CountingBackend.foldl_step] at hcounter
      obtain rfl := Except.ok.inj hcounter
      have hbits := Outcome.require_eq_ok.mp hbits
      have hdeg := of_decide_eq_true (Outcome.require_eq_ok.mp hdeg)
      simp only [CountingBackend.sizing, CountingBackend.default, Nat.zero_add, Nat.zero_max,
        bne_iff_ne] at hbits hdeg
      have hfits : Fits ops := by
        simp only [usizeMax, maxDegree] at hdeg
        exact ⟨hbits, by simp only [maxDegree]; omega, by simp only [maxDegree]; omega⟩
      refine ⟨hvalid, ops, rfl, hfits, ?_⟩
      exact (Except.ok.inj ((sizeCircuit_ok hvalid hfits).symm.trans hsized)).symm

/-! ## The prover -/

namespace ProverBackend

/-- The assignment a prover backend runs on. -/
def values (b : ProverBackend) : Nat → Bool := fun t => b.witness.getD t false

/-- The tags a prover backend runs on; only allocated bits have one. -/
def tagsOf (b : ProverBackend) : Nat → GF2p128 :=
  fun t => if t < b.witness.length then b.tags.getD t 0 else 0

theorem wire_eq (b : ProverBackend) (a : Wire) :
    b.wire a = ⟨a.value b.values, a.tag b.tagsOf⟩ := by
  induction a with
  | bit t =>
      rw [wire, bitWire, Wire.value, Wire.tag, tagsOf, values]
      by_cases h : t < b.witness.length
      · rw [if_pos h, if_pos h]
      · rw [if_neg h, if_neg h, List.getD_eq_getElem?_getD, List.getElem?_eq_none (by omega)]
        rfl
  | constant c => rfl
  | add x y ihx ihy => rw [wire, ihx, ihy]; rfl
  | scale c x ih => rw [wire, ih]; rfl

theorem toPoly_wireExpr (a : ProverWire) :
    toPoly (wireExpr a).coeffs = C a.tag + C a.value * X := by
  simp only [wireExpr, toPoly_cons, toPoly_nil, mul_zero, add_zero]
  ring

theorem toPoly_exprAdd (a b : PolyCoeffs) :
    (exprAdd a b).coeffs.length = max a.coeffs.length b.coeffs.length ∧
    toPoly (exprAdd a b).coeffs =
      X ^ (max a.coeffs.length b.coeffs.length - a.coeffs.length) * toPoly a.coeffs +
        X ^ (max a.coeffs.length b.coeffs.length - b.coeffs.length) * toPoly b.coeffs := by
  refine ⟨by simp [exprAdd], ?_⟩
  have hmax := Nat.le_max_left a.coeffs.length b.coeffs.length
  have hmax' := Nat.le_max_right a.coeffs.length b.coeffs.length
  rw [exprAdd, toPoly_addAt, toPoly_addAt, toPoly_replicate_zero, zero_add]
  · rw [List.length_replicate, Nat.sub_add_cancel hmax]
  · rw [addAt_length, List.length_replicate, Nat.sub_add_cancel hmax']

theorem exprMul_of_le (a b : PolyCoeffs)
    (h : a.coeffs.length + b.coeffs.length - 1 ≤ maxDegree + 1) :
    ∃ cs, exprMul a b = .ok cs ∧ cs.coeffs =
      mulAt (List.replicate (a.coeffs.length + b.coeffs.length - 1) 0) 0 a.coeffs b.coeffs := by
  rw [exprMul, dif_pos h]
  exact ⟨_, rfl, rfl⟩

/-- Within the built-degree bound the prover's expressions are the coefficient lists of their
    polynomials. -/
theorem expr_spec (b : ProverBackend) (e : Expr) (h : e.builtDegree ≤ maxDegree) :
    ∃ cs, b.expr e = .ok cs ∧ cs.coeffs.length = e.degree + 1 ∧
      toPoly cs.coeffs = e.poly b.values b.tagsOf := by
  induction e with
  | wireExpr w =>
      refine ⟨_, rfl, rfl, ?_⟩
      rw [toPoly_wireExpr, wire_eq]
      rfl
  | exprAdd x y ihx ihy =>
      simp only [Expr.builtDegree, Nat.max_le] at h
      obtain ⟨cx, hx, hlx, hpx⟩ := ihx h.1
      obtain ⟨cy, hy, hly, hpy⟩ := ihy h.2
      obtain ⟨hlen, hpoly⟩ := toPoly_exprAdd cx cy
      refine ⟨exprAdd cx cy, ?_, ?_, ?_⟩
      · simp only [expr, hx, hy, Outcome.ok_bind]
        rfl
      · rw [hlen, hlx, hly, Nat.add_max_add_right]
        rfl
      · rw [hpoly, hpx, hpy, hlx, hly, Nat.add_max_add_right, Nat.add_sub_add_right,
          Nat.add_sub_add_right]
        rfl
  | exprMul x y ihx ihy =>
      simp only [Expr.builtDegree, Nat.max_le] at h
      obtain ⟨cx, hx, hlx, hpx⟩ := ihx h.1.1
      obtain ⟨cy, hy, hly, hpy⟩ := ihy h.1.2
      -- the product fits the inline buffer, since its degree was bounded
      have hlen : cx.coeffs.length + cy.coeffs.length - 1 = x.degree + y.degree + 1 := by omega
      have hcap : cx.coeffs.length + cy.coeffs.length - 1 ≤ maxDegree + 1 := by
        have := h.2
        omega
      obtain ⟨cs, hcs, hcoeffs⟩ := exprMul_of_le cx cy hcap
      refine ⟨cs, ?_, ?_, ?_⟩
      · simp only [expr, hx, hy, Outcome.ok_bind, hcs]
      · rw [hcoeffs, mulAt_length, List.length_replicate, hlen]
        rfl
      · rw [hcoeffs, toPoly_mulAt (by rw [List.length_replicate]; omega), toPoly_replicate_zero, hpx,
          hpy, pow_zero, one_mul, zero_add]
        rfl

/-- Beyond the bound a product panics, whatever the assignment. -/
theorem expr_panic (b : ProverBackend) (e : Expr) (h : maxDegree < e.builtDegree) :
    b.expr e = Outcome.panic := by
  induction e with
  | wireExpr w => simp [Expr.builtDegree] at h
  | exprAdd x y ihx ihy =>
      simp only [Expr.builtDegree, lt_max_iff] at h
      rcases Nat.lt_or_ge maxDegree x.builtDegree with hx | hx
      · rw [expr, ihx hx, Outcome.panic_bind]
      · obtain ⟨cx, hcx, -⟩ := b.expr_spec x hx
        rw [expr, hcx, Outcome.ok_bind, ihy (h.resolve_left (Nat.not_lt.mpr hx)),
          Outcome.panic_bind]
  | exprMul x y ihx ihy =>
      simp only [Expr.builtDegree, lt_max_iff] at h
      rcases Nat.lt_or_ge maxDegree x.builtDegree with hx | hx
      · rw [expr, ihx hx, Outcome.panic_bind]
      · obtain ⟨cx, hcx, hlx, -⟩ := b.expr_spec x hx
        rw [expr, hcx, Outcome.ok_bind]
        rcases Nat.lt_or_ge maxDegree y.builtDegree with hy | hy
        · rw [ihy hy, Outcome.panic_bind]
        · obtain ⟨cy, hcy, hly, -⟩ := b.expr_spec y hy
          rw [hcy, Outcome.ok_bind, exprMul, dif_neg (by omega)]

end ProverBackend

/-- The stored form of a system. -/
def QuadSystem.stored (w : Nat → Bool) (v : Nat → GF2p128) (s : QuadSystem) : ProverQuadSystem where
  terms := s.terms.map fun t =>
    ⟨⟨t.a.value w, t.a.tag v⟩, ⟨t.b.value w, t.b.tag v⟩, t.coeffs⟩
  linear := s.linear.map fun l => ⟨l.value w, l.tag v⟩

/-- A prover constraint records a constraint of the program. -/
def ProverConstraint.Records (w : Nat → Bool) (v : Nat → GF2p128) :
    ProverConstraint → Constraint → Prop
  | simple a0 a1, .zero a => a0 = 0 ∧ a1 = a.tag v
  | simple a0 a1, .mul a b c =>
      a0 = a.tag v * b.tag v ∧ a1 = a.value w * b.tag v + b.value w * a.tag v + c.tag v
  | system sys, .system s => sys = s.stored w v
  | polynomial p, .expr e => p.coeffs.length = e.degree + 1 ∧ toPoly p.coeffs = e.poly w v
  | _, _ => False

/-- The error the prover checks when it records a constraint; systems are checked later. -/
def Constraint.immediateError (w : Nat → Bool) : Constraint → GF2p128
  | .system _ => 0
  | c => c.error w []

theorem GF2p128.add_eq_zero_iff {a b : GF2p128} : a + b = 0 ↔ a = b := CharTwo.add_eq_zero

namespace ProverBackend

/-- What one call does to a prover backend. -/
structure StepSpec (b : ProverBackend) (op : Op) (b' : ProverBackend) : Prop where
  witness : b'.witness = b.witness
  u : b'.u = b.u
  tags : b'.tags = b.tags
  next : b'.next = b.next + op.bits
  d : b'.d = b.d ++ (List.range' b.next op.bits).map fun t => b.u.bit t ^^ b.values t
  constraints : ∃ cs, b'.constraints = b.constraints ++ cs ∧
    List.Forall₂ (ProverConstraint.Records b.values b.tagsOf) cs op.constraint?.toList
  satisfied : b'.satisfied = true ↔
    b.satisfied = true ∧ ∀ c ∈ op.constraint?, c.immediateError b.values = 0

theorem getLast?_eq_some_zero_iff {cs : List GF2p128} {n : Nat} (h : cs.length = n + 1) :
    cs.getLast? = some 0 ↔ (toPoly cs).coeff n = 0 := by
  rw [List.getLast?_eq_getElem?, h, Nat.add_sub_cancel, coeff_toPoly, List.getD_eq_getElem?_getD,
    List.getElem?_eq_getElem (by omega)]
  simp

theorem step_spec (b : ProverBackend) (op : Op) (hbuilt : op.builtDegree ≤ maxDegree)
    (hbits : b.next + op.bits ≤ b.witness.length) (hu : b.witness.length ≤ b.u.len)
    (htags : b.witness.length ≤ b.tags.length) :
    ∃ b', b.step op = .ok b' ∧ StepSpec b op b' := by
  cases op with
  | witnessBit =>
      -- the three reads at the next coordinate are in range
      simp only [Op.bits] at hbits
      have ht : b.next < b.witness.length := by omega
      have hw : (Outcome.index b.witness b.next : Outcome VoleithError Bool) =
          .ok (b.values b.next) := by
        rw [Outcome.index_of_lt ht, values, List.getD_eq_getElem?_getD,
          List.getElem?_eq_getElem ht, Option.getD_some]
      have htag : (Outcome.index b.tags b.next : Outcome VoleithError GF2p128) =
          .ok (b.tags.get ⟨b.next, by omega⟩) := Outcome.index_of_lt (by omega)
      refine ⟨{ b with next := b.next + 1, d := b.d ++ [b.u.bit b.next ^^ b.values b.next] },
        ?_, rfl, rfl, rfl, rfl, rfl, ⟨[], by simp, .nil⟩, by simp [Op.constraint?]⟩
      simp only [step, witnessBit, if_neg (Nat.not_le.mpr ht), hw, htag,
        BitVector.get_of_lt (show b.next < b.u.len by omega), Outcome.ok_bind]
      rfl
  -- an assertion stores one constraint; its error shows in `satisfied` at once unless it is a system
  | assertZero a =>
      refine ⟨_, rfl, rfl, rfl, rfl, rfl, by simp [assertZero, Op.bits],
        ⟨[.simple 0 (b.wire a).tag], rfl, .cons ⟨rfl, by rw [wire_eq]⟩ .nil⟩, ?_⟩
      simp [assertZero, wire_eq, Op.constraint?, Constraint.immediateError, Constraint.error,
        and_comm]
  | assertMul x y z =>
      refine ⟨_, rfl, rfl, rfl, rfl, rfl, by simp [assertMul, Op.bits],
        ⟨[_], rfl, .cons ⟨by simp only [wire_eq], by simp only [wire_eq]⟩ .nil⟩, ?_⟩
      simp [assertMul, wire_eq, Op.constraint?, Constraint.immediateError, Constraint.error,
        GF2p128.add_eq_zero_iff, and_comm]
  | assertQuadSystem s =>
      refine ⟨_, rfl, rfl, rfl, rfl, rfl, by simp [assertQuadSystem, Op.bits],
        ⟨[_], rfl, .cons ?_ .nil⟩, ?_⟩
      · simp only [ProverConstraint.Records, QuadSystem.stored, wire_eq, funext (wire_eq b)]
      · simp [assertQuadSystem, Op.constraint?, Constraint.immediateError]
  | build e =>
      -- the expression is computed and dropped
      obtain ⟨cs, hcs, -⟩ := b.expr_spec e hbuilt
      refine ⟨b, ?_, rfl, rfl, rfl, rfl, by simp [Op.bits], ⟨[], by simp, .nil⟩,
        by simp [Op.constraint?]⟩
      simp only [step, hcs, Outcome.ok_bind]
      rfl
  | assertExprZero e =>
      obtain ⟨cs, hcs, hlen, hpoly⟩ := b.expr_spec e hbuilt
      refine ⟨b.assertExprZero cs, ?_, rfl, rfl, rfl, rfl, by simp [assertExprZero, Op.bits],
        ⟨[.polynomial cs], rfl, .cons ⟨hlen, hpoly⟩ .nil⟩, ?_⟩
      · simp only [step, hcs, Outcome.ok_bind]
        rfl
      · -- the leading coefficient is the value
        have hlast : cs.coeffs.getLast? = some 0 ↔ e.value b.values = 0 := by
          rw [getLast?_eq_some_zero_iff hlen, hpoly, e.coeff_degree]
        simp [assertExprZero, Op.constraint?, Constraint.immediateError, Constraint.error, hlast,
          and_comm]

/-- What a run of a program does to a prover backend. -/
structure RunSpec (b : ProverBackend) (ops : List Op) (b' : ProverBackend) : Prop where
  next : b'.next = b.next + witnessBits ops
  d : b'.d = b.d ++ (List.range' b.next (witnessBits ops)).map fun t => b.u.bit t ^^ b.values t
  constraints : ∃ cs, b'.constraints = b.constraints ++ cs ∧
    List.Forall₂ (ProverConstraint.Records b.values b.tagsOf) cs (Voleith.constraints ops)
  satisfied : b'.satisfied = true ↔
    b.satisfied = true ∧ ∀ c ∈ Voleith.constraints ops, c.immediateError b.values = 0

theorem values_congr {b b' : ProverBackend} (h : b'.witness = b.witness) : b'.values = b.values := by
  unfold values
  rw [h]

theorem tagsOf_congr {b b' : ProverBackend} (hw : b'.witness = b.witness)
    (ht : b'.tags = b.tags) : b'.tagsOf = b.tagsOf := by
  unfold tagsOf
  rw [hw, ht]

/-- A run within the built-degree bound never fails as long as there are witness bits. -/
theorem run_spec (ops : List Op) (b : ProverBackend) (hbuilt : Voleith.builtDegree ops ≤ maxDegree)
    (hbits : b.next + witnessBits ops ≤ b.witness.length) (hu : b.witness.length ≤ b.u.len)
    (htags : b.witness.length ≤ b.tags.length) :
    ∃ b', ops.foldlM step b = .ok b' ∧ RunSpec b ops b' := by
  induction ops generalizing b with
  | nil => exact ⟨b, rfl, by simp, by simp, ⟨[], by simp, .nil⟩, by simp⟩
  | cons op ops ih =>
      simp only [builtDegree_cons, Nat.max_le, witnessBits_cons] at hbuilt hbits
      obtain ⟨b₁, hstep, h₁⟩ := b.step_spec op hbuilt.1 (by omega) hu htags
      have hvalues := values_congr h₁.witness
      have htagsOf := tagsOf_congr h₁.witness h₁.tags
      obtain ⟨b₂, hrun, h₂⟩ := ih b₁ hbuilt.2 (by rw [h₁.next, h₁.witness]; omega)
        (by rw [h₁.witness, h₁.u]; exact hu) (by rw [h₁.witness, h₁.tags]; exact htags)
      obtain ⟨cs₁, hcs₁, hall₁⟩ := h₁.constraints
      obtain ⟨cs₂, hcs₂, hall₂⟩ := h₂.constraints
      rw [hvalues, htagsOf] at hall₂
      refine ⟨b₂, ?_, ?_, ?_, ⟨cs₁ ++ cs₂, ?_, ?_⟩, ?_⟩
      · rw [List.foldlM_cons, hstep]
        exact hrun
      · rw [h₂.next, h₁.next, witnessBits_cons, Nat.add_assoc]
      · rw [h₂.d, h₁.d, h₁.next, h₁.u, hvalues, witnessBits_cons, List.append_assoc, ← List.map_append,
          List.range'_append_1]
      · rw [hcs₂, hcs₁, List.append_assoc]
      · rw [constraints_cons]
        exact List.rel_append hall₁ hall₂
      · rw [h₂.satisfied, h₁.satisfied, hvalues, constraints_cons]
        simp only [List.forall_mem_append, Option.mem_toList, Option.mem_def, and_assoc]

/-- A run beyond the built-degree bound panics, whatever the assignment. -/
theorem run_panic (ops : List Op) (b : ProverBackend) (hbuilt : maxDegree < Voleith.builtDegree ops)
    (hbits : b.next + witnessBits ops ≤ b.witness.length) (hu : b.witness.length ≤ b.u.len)
    (htags : b.witness.length ≤ b.tags.length) : ops.foldlM step b = Outcome.panic := by
  induction ops generalizing b with
  | nil => simp at hbuilt
  | cons op ops ih =>
      simp only [builtDegree_cons, lt_max_iff, witnessBits_cons] at hbuilt hbits
      rw [List.foldlM_cons]
      rcases Nat.lt_or_ge maxDegree op.builtDegree with hop | hop
      · have hstep : b.step op = Outcome.panic := by
          cases op with
          | build e | assertExprZero e => rw [step, b.expr_panic e hop, Outcome.panic_bind]
          | witnessBit | assertZero a | assertMul x y z | assertQuadSystem s =>
              simp [Op.builtDegree] at hop
        rw [hstep, Outcome.panic_bind]
      · obtain ⟨b₁, hstep, h₁⟩ := b.step_spec op hop (by omega) hu htags
        rw [hstep, Outcome.ok_bind]
        exact ih b₁ (hbuilt.resolve_left (Nat.not_lt.mpr hop)) (by rw [h₁.next, h₁.witness]; omega)
          (by rw [h₁.witness, h₁.u]; exact hu) (by rw [h₁.witness, h₁.tags]; exact htags)

end ProverBackend

/-! ## What the prover's constraints contribute -/

/-- The coefficients a prover constraint contributes, without the leading one. -/
def ProverConstraint.low (phis : List GF2p128) : ProverConstraint → List GF2p128
  | simple a0 a1 => [a0, a1]
  | system sys => [(sys.fold phis).1, (sys.fold phis).2.1]
  | polynomial p => p.coeffs.dropLast

theorem foldl_add_eq_sum {α M : Type} [AddCommMonoid M] (f : α → M) (l : List α) (m : M) :
    l.foldl (fun acc x => acc + f x) m = m + (l.map f).sum := by
  induction l generalizing m with
  | nil => simp
  | cons x l ih => rw [List.foldl_cons, ih, List.map_cons, List.sum_cons, add_assoc]

/-- The loop over the terms. -/
theorem ProverQuadSystem.foldl_quadTerms (phis : List GF2p128) (ts : List ProverQuadTerm) :
    ∀ a0 a1 value : GF2p128, ts.foldl (fun (a0, a1, value) t =>
      let c := foldCoeff (phis.map foldTable) t.coeffs
      (a0 + c * (t.a.tag * t.b.tag), a1 + c * (t.a.value * t.b.tag + t.b.value * t.a.tag),
        value + c * (t.a.value * t.b.value))) (a0, a1, value) =
    (a0 + (ts.map fun t => QuadSystem.foldedCoeff phis t.coeffs * (t.a.tag * t.b.tag)).sum,
      a1 + (ts.map fun t => QuadSystem.foldedCoeff phis t.coeffs *
        (t.a.value * t.b.tag + t.b.value * t.a.tag)).sum,
      value + (ts.map fun t =>
        QuadSystem.foldedCoeff phis t.coeffs * (t.a.value * t.b.value)).sum) := by
  induction ts with
  | nil => simp
  | cons t ts ih =>
      intro a0 a1 value
      simp only [List.foldl_cons, foldCoeff_eq] at ih ⊢
      rw [ih]
      simp only [List.map_cons, List.sum_cons, add_assoc]

/-- The loop over the linear forms. -/
theorem ProverQuadSystem.foldl_linear (xs : List (GF2p128 × ProverWire)) : ∀ a1 value : GF2p128,
    xs.foldl (fun (a1, value) (phi, l) => (a1 + phi * l.tag, value + phi * l.value)) (a1, value) =
    (a1 + (xs.map fun x => x.1 * x.2.tag).sum, value + (xs.map fun x => x.1 * x.2.value).sum) := by
  induction xs with
  | nil => simp
  | cons x xs ih =>
      intro a1 value
      rw [List.foldl_cons, ih]
      simp only [List.map_cons, List.sum_cons, add_assoc]

theorem ProverQuadSystem.fold_eq (s : ProverQuadSystem) (phis : List GF2p128) :
    s.fold phis =
      ((s.terms.map fun t => QuadSystem.foldedCoeff phis t.coeffs * (t.a.tag * t.b.tag)).sum,
        (s.terms.map fun t => QuadSystem.foldedCoeff phis t.coeffs *
          (t.a.value * t.b.tag + t.b.value * t.a.tag)).sum +
          ((phis.zip s.linear).map fun x => x.1 * x.2.tag).sum,
        (s.terms.map fun t => QuadSystem.foldedCoeff phis t.coeffs * (t.a.value * t.b.value)).sum +
          ((phis.zip s.linear).map fun x => x.1 * x.2.value).sum) := by
  simp only [fold, foldl_quadTerms, foldl_linear, zero_add]

/-- The quadratic terms, folded into one polynomial of degree two. -/
theorem QuadSystem.sum_quadTerms (w : Nat → Bool) (v : Nat → GF2p128) (phis : List GF2p128)
    (ts : List QuadTerm) :
    (ts.map fun t => C (foldedCoeff phis t.coeffs) * (t.a.poly w v * t.b.poly w v)).sum =
      C (ts.map fun t => foldedCoeff phis t.coeffs * (t.a.tag v * t.b.tag v)).sum +
      C (ts.map fun t => foldedCoeff phis t.coeffs *
        (t.a.value w * t.b.tag v + t.b.value w * t.a.tag v)).sum * X +
      C (ts.map fun t => foldedCoeff phis t.coeffs * (t.a.value w * t.b.value w)).sum * X ^ 2 := by
  induction ts with
  | nil => simp
  | cons t ts ih =>
      simp only [List.map_cons, List.sum_cons]
      rw [ih]
      simp only [Wire.poly, C_add, C_mul]
      ring

/-- The linear forms, folded into one polynomial of degree one. -/
theorem QuadSystem.sum_linear (w : Nat → Bool) (v : Nat → GF2p128) (phis : List GF2p128)
    (ls : List Wire) :
    (List.zipWith (fun phi l => C phi * l.poly w v) phis ls).sum =
      C ((phis.zip ls).map fun x => x.1 * x.2.tag v).sum +
      C ((phis.zip ls).map fun x => x.1 * x.2.value w).sum * X := by
  induction phis generalizing ls with
  | nil => simp
  | cons phi phis ih =>
      cases ls with
      | nil => simp
      | cons l ls =>
          simp only [List.zipWith_cons_cons, List.zip_cons_cons, List.map_cons, List.sum_cons]
          rw [ih]
          simp only [Wire.poly, C_add, C_mul]
          ring

/-- The polynomial of a system by its three folded coefficients. -/
theorem QuadSystem.poly_eq (w : Nat → Bool) (v : Nat → GF2p128) (s : QuadSystem)
    (phis : List GF2p128) :
    s.poly w v phis = C ((s.stored w v).fold phis).1 + C ((s.stored w v).fold phis).2.1 * X +
      C ((s.stored w v).fold phis).2.2 * X ^ 2 := by
  rw [poly, sum_quadTerms, sum_linear, ProverQuadSystem.fold_eq]
  simp only [stored, List.map_map, List.zip_map_right, Function.comp_def, Prod.map_fst,
    Prod.map_snd, id_eq, C_add]
  ring

/-- What a recorded constraint contributes: its polynomial without the leading coefficient. -/
theorem ProverConstraint.Records.low_spec {w : Nat → Bool} {v : Nat → GF2p128}
    {pc : ProverConstraint} {c : Constraint} (h : pc.Records w v c) {phis : List GF2p128}
    (hphis : phis.length = c.numPhis) :
    (pc.low phis).length = c.degree ∧
      c.poly w v phis = toPoly (pc.low phis) + C (c.error w phis) * X ^ c.degree := by
  match pc, c with
  | .simple a0 a1, .zero a =>
      obtain ⟨rfl, rfl⟩ := h
      refine ⟨rfl, ?_⟩
      simp only [Constraint.poly, Wire.poly, low, toPoly_cons, toPoly_nil, Constraint.error,
        Constraint.degree, C_0]
      ring
  | .simple a0 a1, .mul x y z =>
      obtain ⟨rfl, rfl⟩ := h
      refine ⟨rfl, ?_⟩
      simp only [Constraint.poly, Wire.poly, low, toPoly_cons, toPoly_nil, Constraint.error,
        Constraint.degree, C_add, C_mul]
      ring
  | .system sys, .system s =>
      obtain rfl : sys = s.stored w v := h
      refine ⟨rfl, ?_⟩
      have herror : C (s.foldedValue w phis) = C ((s.stored w v).fold phis).2.2 := by
        have hcoeff := Constraint.coeff_degree w v (.system s) hphis
        simp only [Constraint.poly, Constraint.degree, Constraint.error, s.poly_eq] at hcoeff
        rw [← hcoeff]
        simp
      simp only [Constraint.poly, low, toPoly_cons, toPoly_nil, Constraint.error, Constraint.degree,
        s.poly_eq, herror]
      ring
  | .polynomial p, .expr e =>
      obtain ⟨hlen, hpoly⟩ := h
      refine ⟨by simp [low, hlen, Constraint.degree], ?_⟩
      have hne : p.coeffs ≠ [] := by
        intro hnil
        rw [hnil] at hlen
        cases hlen
      -- the prover drops the top coefficient, which is the value of the expression
      have hsplit : toPoly p.coeffs =
          toPoly p.coeffs.dropLast + C (p.coeffs.getLast hne) * X ^ e.degree := by
        conv_lhs => rw [← List.dropLast_append_getLast hne]
        rw [toPoly_concat, List.length_dropLast, hlen, Nat.add_sub_cancel]
      have hlast : p.coeffs.getLast hne = e.value w := by
        rw [← e.coeff_degree w v, ← hpoly, coeff_toPoly, List.getLast_eq_getElem,
          List.getD_eq_getElem?_getD]
        simp [hlen]
      simp only [Constraint.poly, Constraint.error, Constraint.degree, low]
      rw [← hpoly, hsplit, hlast]

/-! ## The verifier -/

theorem getElem?_powTable (delta : GF2p128) (n : Nat) (p : GF2p128) {i : Nat} (hi : i < n) :
    (powTable delta n p)[i]? = some (p * delta ^ i) := by
  induction n generalizing p i with
  | zero => omega
  | succ n ih =>
      cases i with
      | zero => simp [powTable]
      | succ i =>
          rw [powTable, List.getElem?_cons_succ, ih _ (by omega), pow_succ', mul_assoc]

namespace VerifierBackend

/-- The keys of a verifier backend are tags plus values times `Δ`. -/
structure Correlated (w : Nat → Bool) (v : Nat → GF2p128) (b : VerifierBackend) : Prop where
  bits : ∀ t, b.bitWire t = v t + GF2p128.ofBool (w t) * b.delta
  pows : b.deltaPows = powTable b.delta (maxDegree + 1) 1

variable {w : Nat → Bool} {v : Nat → GF2p128} {b : VerifierBackend}

/-- The key of a wire is its polynomial at `Δ`. -/
theorem Correlated.wire_eq (h : Correlated w v b) (a : Wire) :
    b.wire a = (a.poly w v).eval b.delta := by
  simp only [Wire.poly, eval_add, eval_mul, eval_C, eval_X]
  induction a with
  | bit t => exact h.bits t
  | constant c => simp [wire, Wire.tag, Wire.value]
  | add x y ihx ihy =>
      rw [wire, ihx, ihy, Wire.tag, Wire.value]
      ring
  | scale c x ih =>
      rw [wire, ih, Wire.tag, Wire.value]
      ring

theorem Correlated.deltaPow_eq (h : Correlated w v b) {exponent : Nat}
    (hle : exponent ≤ maxDegree) : b.deltaPow exponent = b.delta ^ exponent := by
  rw [deltaPow, h.pows, getElem?_powTable _ _ _ (Nat.lt_succ_of_le hle), Option.getD_some, one_mul]

/-- An expression of bounded degree evaluates its polynomial at `Δ`. -/
theorem Correlated.expr_eq (h : Correlated w v b) {e : Expr} (hdeg : e.degree ≤ maxDegree) :
    b.expr e = ⟨(e.poly w v).eval b.delta, e.degree⟩ := by
  induction e with
  | wireExpr a => rw [expr, h.wire_eq, Expr.poly, Expr.degree]
  | exprAdd x y ihx ihy =>
      simp only [Expr.degree] at hdeg
      rw [expr, ihx (by omega), ihy (by omega), exprAdd]
      simp only
      rw [h.deltaPow_eq (by omega), h.deltaPow_eq (by omega), Expr.poly, Expr.degree]
      simp only [eval_add, eval_mul, eval_pow, eval_X, mul_comm]
  | exprMul x y ihx ihy =>
      simp only [Expr.degree] at hdeg
      rw [expr, ihx (by omega), ihy (by omega), exprMul, Expr.poly, Expr.degree, eval_mul]

end VerifierBackend

/-- The verifier-side stored form of a system. -/
noncomputable def QuadSystem.storedKeys (w : Nat → Bool) (v : Nat → GF2p128) (delta : GF2p128)
    (s : QuadSystem) : VerifierQuadSystem where
  terms := s.terms.map fun t => ⟨(t.a.poly w v).eval delta, (t.b.poly w v).eval delta, t.coeffs⟩
  linear := s.linear.map fun l => (l.poly w v).eval delta

/-- A verifier constraint records a constraint of the program. -/
def VerifierConstraint.Records (w : Nat → Bool) (v : Nat → GF2p128) (delta : GF2p128) :
    VerifierConstraint → Constraint → Prop
  | simple value, .zero a => value = ((Constraint.zero a).poly w v []).eval delta
  | simple value, .mul a b c => value = ((Constraint.mul a b c).poly w v []).eval delta
  | system sys, .system s => sys = s.storedKeys w v delta
  | polynomial value degree, .expr e => value = (e.poly w v).eval delta ∧ degree = e.degree
  | _, _ => False

theorem eval_list_sum (l : List GF2p128[X]) (x : GF2p128) :
    l.sum.eval x = (l.map fun p => p.eval x).sum := by
  induction l with
  | nil => simp
  | cons p l ih => simp [ih]

/-- Folding the stored keys evaluates the folded system's polynomial at `Δ`. -/
theorem QuadSystem.fold_storedKeys (w : Nat → Bool) (v : Nat → GF2p128) (delta : GF2p128)
    (s : QuadSystem) (phis : List GF2p128) :
    (s.storedKeys w v delta).fold phis delta = (s.poly w v phis).eval delta := by
  have hlinear : ∀ (phis : List GF2p128) (ls : List Wire),
      ((phis.zip (ls.map fun l => (l.poly w v).eval delta)).map fun x => x.1 * x.2).sum =
        ((List.zipWith (fun phi l => C phi * l.poly w v) phis ls).map fun p => p.eval delta).sum := by
    intro phis
    induction phis with
    | nil => simp
    | cons phi phis ih =>
        intro ls
        cases ls with
        | nil => simp
        | cons l ls =>
            simp only [List.map_cons, List.zip_cons_cons, List.zipWith_cons_cons, List.sum_cons, ih]
            simp
  rw [VerifierQuadSystem.fold, QuadSystem.poly, eval_add, eval_mul, eval_X, eval_list_sum,
    eval_list_sum]
  simp only [foldl_add_eq_sum, zero_add, foldCoeff_eq, storedKeys, List.map_map, hlinear]
  congr 2
  apply List.map_congr_left
  intro t _
  simp

/-- Evaluating a recorded check draws its fold coefficients and evaluates the constraint's
    polynomial at `Δ`. -/
theorem VerifierConstraint.Records.eval_spec {w : Nat → Bool} {v : Nat → GF2p128} {delta : GF2p128}
    {vc : VerifierConstraint} {c : Constraint} (h : vc.Records w v delta c) (chi : XofReader) :
    constraintDegree vc = c.degree ∧
      verifierConstraintEvaluation vc chi delta =
        ((c.poly w v (nextElems c.numPhis chi).1).eval delta, (nextElems c.numPhis chi).2) := by
  match vc, c with
  | .simple value, .zero a =>
      obtain rfl : value = _ := h
      exact ⟨rfl, rfl⟩
  | .simple value, .mul x y z =>
      obtain rfl : value = _ := h
      exact ⟨rfl, rfl⟩
  | .system sys, .system s =>
      obtain rfl : sys = s.storedKeys w v delta := h
      refine ⟨rfl, ?_⟩
      have hnum : (s.storedKeys w v delta).numEquations = s.linear.length :=
        List.length_map _
      simp only [verifierConstraintEvaluation, hnum, Constraint.numPhis, Constraint.poly,
        s.fold_storedKeys w v delta]
  | .polynomial value degree, .expr e =>
      obtain ⟨rfl, rfl⟩ := h
      exact ⟨rfl, rfl⟩

namespace VerifierBackend

/-- What a run of a program does to a verifier backend. -/
structure RunSpec (w : Nat → Bool) (v : Nat → GF2p128) (b : VerifierBackend) (ops : List Op)
    (b' : VerifierBackend) : Prop where
  next : b'.next = b.next + witnessBits ops
  checks : ∃ cs, b'.checks = b.checks ++ cs ∧
    List.Forall₂ (VerifierConstraint.Records w v b.delta) cs (constraints ops)

theorem step_spec {w : Nat → Bool} {v : Nat → GF2p128} {b : VerifierBackend}
    (h : Correlated w v b) (op : Op) (hdeg : ∀ c ∈ op.constraint?, c.degree ≤ maxDegree)
    (hbits : b.next + op.bits ≤ b.keys.length) :
    ∃ b', b.step op = .ok b' ∧ b'.keys = b.keys ∧ b'.delta = b.delta ∧
      b'.deltaPows = b.deltaPows ∧ b'.next = b.next + op.bits ∧
      ∃ cs, b'.checks = b.checks ++ cs ∧
        List.Forall₂ (VerifierConstraint.Records w v b.delta) cs op.constraint?.toList := by
  cases op with
  | witnessBit =>
      simp only [Op.bits] at hbits
      refine ⟨{ b with next := b.next + 1 }, ?_, rfl, rfl, rfl, rfl, [], by simp, .nil⟩
      rw [step, witnessBit, if_neg (by omega)]
  | assertZero a =>
      refine ⟨_, rfl, rfl, rfl, rfl, rfl, [_], rfl, .cons ?_ .nil⟩
      simp [VerifierConstraint.Records, Constraint.poly, h.wire_eq]
  | assertMul x y z =>
      refine ⟨_, rfl, rfl, rfl, rfl, rfl, [_], rfl, .cons ?_ .nil⟩
      simp [VerifierConstraint.Records, Constraint.poly, h.wire_eq]
  | assertQuadSystem s =>
      refine ⟨_, rfl, rfl, rfl, rfl, rfl, [_], rfl, .cons ?_ .nil⟩
      simp only [VerifierConstraint.Records, QuadSystem.storedKeys, h.wire_eq, funext h.wire_eq]
  | build e => exact ⟨b, rfl, rfl, rfl, rfl, rfl, [], by simp, .nil⟩
  | assertExprZero e =>
      have he := h.expr_eq (hdeg (.expr e) rfl)
      refine ⟨_, rfl, rfl, rfl, rfl, rfl, [_], rfl, .cons ?_ .nil⟩
      simp only [VerifierConstraint.Records, he, and_self]

/-- A run over correlated keys records the program's constraints. -/
theorem run_spec {w : Nat → Bool} {v : Nat → GF2p128} (ops : List Op) (b : VerifierBackend)
    (h : Correlated w v b) (hdeg : ∀ c ∈ constraints ops, c.degree ≤ maxDegree)
    (hbits : b.next + witnessBits ops ≤ b.keys.length) :
    ∃ b', ops.foldlM step b = .ok b' ∧ RunSpec w v b ops b' := by
  induction ops generalizing b with
  | nil => exact ⟨b, rfl, by simp, [], by simp, .nil⟩
  | cons op ops ih =>
      simp only [witnessBits_cons, constraints_cons, List.forall_mem_append, Option.mem_toList]
        at hdeg hbits
      obtain ⟨b₁, hstep, hkeys, hdelta, hpows, hnext, cs₁, hcs₁, hall₁⟩ :=
        step_spec h op hdeg.1 (by omega)
      have hcorr : Correlated w v b₁ := by
        refine ⟨fun t => ?_, by rw [hpows, hdelta, h.pows]⟩
        have hbit : b₁.bitWire t = b.bitWire t := by simp only [bitWire, hkeys]
        rw [hbit, hdelta, h.bits]
      obtain ⟨b₂, hrun, hnext₂, cs₂, hcs₂, hall₂⟩ := ih b₁ hcorr hdeg.2
        (by rw [hnext, hkeys]; omega)
      rw [hdelta] at hall₂
      refine ⟨b₂, ?_, ?_, cs₁ ++ cs₂, ?_, ?_⟩
      · rw [List.foldlM_cons, hstep]
        exact hrun
      · rw [hnext₂, hnext, witnessBits_cons, Nat.add_assoc]
      · rw [hcs₂, hcs₁, List.append_assoc]
      · rw [constraints_cons]
        exact List.rel_append hall₁ hall₂

end VerifierBackend

end VoleAct.Voleith
