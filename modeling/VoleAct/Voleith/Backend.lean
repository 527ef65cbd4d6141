/-
  VoleAct.Voleith.Backend

  The three backends of `voleith/src/backend.rs`: the prover (values and tags),
  the verifier (keys) and the counter.

  Each backend interprets wires and expressions by its own operations and makes
  one step per call of the program.
-/
import VoleAct.BinaryFields.GF2p128Field
import VoleAct.Lib.CoeffList
import VoleAct.Voleith.Bits
import VoleAct.Voleith.Circuit

namespace VoleAct.Voleith

open VoleAct.BinaryFields VoleAct.Lib

/-- Maximum polynomial degree accepted by proving and verification (`MAX_DEGREE`). -/
def maxDegree : Nat := 16

/-! ## Folding quadratic systems -/

/-- `fold_table`: `nib ↦ φ·embed(nib)`. -/
def foldTable (phi : GF2p128) : Vector GF2p128 16 :=
  Vector.ofFn fun nib => phi * embedGf16 (GF16.new (BitVec.ofNat 8 nib))

/-- One table lookup. -/
def lookup (table : Vector GF2p128 16) (c : GF16) : GF2p128 := table.get ⟨c.toU8.toNat, c.canonical⟩

/-- The remainder loop of `fold_coeff`. -/
def foldRest : List (Vector GF2p128 16) → List GF16 → GF2p128 → GF2p128
  | table :: tables, c :: cs, acc => foldRest tables cs (acc + lookup table c)
  | _, _, acc => acc

/-- The loop of `fold_coeff` over chunks of four, with its four accumulators. -/
def foldChunks : List (Vector GF2p128 16) → List GF16 → (a0 a1 a2 a3 : GF2p128) → GF2p128
  | t0 :: t1 :: t2 :: t3 :: tables, c0 :: c1 :: c2 :: c3 :: cs, a0, a1, a2, a3 =>
      foldChunks tables cs (a0 + lookup t0 c0) (a1 + lookup t1 c1) (a2 + lookup t2 c2)
        (a3 + lookup t3 c3)
  | tables, cs, a0, a1, a2, a3 => (foldRest tables cs a0 + a1) + (a2 + a3)

/-- `fold_coeff`: `Σ_e φ_e·embed(coeffs[e])`, for as many tables as coefficients. -/
def foldCoeff (tables : List (Vector GF2p128 16)) (coeffs : List GF16) : GF2p128 :=
  foldChunks tables coeffs 0 0 0 0

/-! ## The prover -/

/-- `PolyCoeffs`: a coefficient list of at most `CAPACITY = MAX_DEGREE + 1` entries. -/
structure PolyCoeffs where
  coeffs : List GF2p128
  length_le : coeffs.length ≤ maxDegree + 1

/-- Prover wire: the actual value and its VOLE tag. -/
structure ProverWire where
  value : GF2p128
  tag : GF2p128

/-- One stored term of a prover-side system. -/
structure ProverQuadTerm where
  a : ProverWire
  b : ProverWire
  coeffs : List GF16

/-- Prover-side stored quadratic system. -/
structure ProverQuadSystem where
  terms : List ProverQuadTerm
  linear : List ProverWire

/-- A recorded prover-side constraint. -/
inductive ProverConstraint where
  | simple (a0 a1 : GF2p128)
  | system (sys : ProverQuadSystem)
  | polynomial (poly : PolyCoeffs)

namespace ProverQuadSystem

def numEquations (s : ProverQuadSystem) : Nat := s.linear.length

/-- Fold with one challenge coefficient per equation: `(A₀, A₁, value)`. -/
def fold (s : ProverQuadSystem) (phis : List GF2p128) : GF2p128 × GF2p128 × GF2p128 :=
  let tables := phis.map foldTable
  let (a0, a1, value) := s.terms.foldl
    (fun (a0, a1, value) t =>
      let c := foldCoeff tables t.coeffs
      (a0 + c * (t.a.tag * t.b.tag), a1 + c * (t.a.value * t.b.tag + t.b.value * t.a.tag),
        value + c * (t.a.value * t.b.value)))
    (0, 0, 0)
  let (a1, value) := (phis.zip s.linear).foldl
    (fun (a1, value) (phi, l) => (a1 + phi * l.tag, value + phi * l.value)) (a1, value)
  (a0, a1, value)

end ProverQuadSystem

/-- Prover backend. -/
structure ProverBackend where
  witness : List Bool
  u : BitVector
  tags : List GF2p128
  next : Nat
  d : List Bool
  constraints : List ProverConstraint
  satisfied : Bool

namespace ProverBackend

/-- `ProverBackend::new`. -/
def new (witness : List Bool) (u : BitVector) (tags : List GF2p128) : ProverBackend where
  witness := witness
  u := u
  tags := tags
  next := 0
  d := []
  constraints := []
  satisfied := true

def bitsUsed (b : ProverBackend) : Nat := b.next

/-- The wire the `t`-th `witness_bit` call returns. -/
def bitWire (b : ProverBackend) (t : Nat) : ProverWire :=
  if t < b.witness.length then ⟨GF2p128.ofBool (b.witness.getD t false), b.tags.getD t 0⟩
  else ⟨0, 0⟩

def constant (c : GF2p128) : ProverWire := ⟨c, 0⟩

def add (a b : ProverWire) : ProverWire := ⟨a.value + b.value, a.tag + b.tag⟩

def scale (c : GF2p128) (a : ProverWire) : ProverWire := ⟨c * a.value, c * a.tag⟩

/-- The wire a term denotes. -/
def wire (b : ProverBackend) : Wire → ProverWire
  | .bit t => b.bitWire t
  | .constant c => constant c
  | .add x y => add (b.wire x) (b.wire y)
  | .scale c x => scale c (b.wire x)

def wireExpr (a : ProverWire) : PolyCoeffs := ⟨[a.tag, a.value], by simp [maxDegree]⟩

/-- `expr_add`: align the leading coefficients. -/
def exprAdd (a b : PolyCoeffs) : PolyCoeffs :=
  let len := max a.coeffs.length b.coeffs.length
  ⟨addAt (addAt (List.replicate len 0) (len - a.coeffs.length) a.coeffs) (len - b.coeffs.length)
    b.coeffs, by
      have ha := a.length_le
      have hb := b.length_le
      simp only [addAt_length, List.length_replicate, len]
      omega⟩

/-- `expr_mul`; panics when the product exceeds the capacity. -/
def exprMul (a b : PolyCoeffs) : Outcome VoleithError PolyCoeffs :=
  let len := a.coeffs.length + b.coeffs.length - 1
  if h : len ≤ maxDegree + 1 then
    .ok ⟨mulAt (List.replicate len 0) 0 a.coeffs b.coeffs, by simpa using h⟩
  else Outcome.panic

/-- The expression a term denotes. -/
def expr (b : ProverBackend) : Expr → Outcome VoleithError PolyCoeffs
  | .wireExpr w => .ok (wireExpr (b.wire w))
  | .exprAdd x y => do
      let x ← b.expr x
      let y ← b.expr y
      return exprAdd x y
  | .exprMul x y => do
      let x ← b.expr x
      let y ← b.expr y
      exprMul x y

/-- `witness_bit`, up to the wire it returns (`bitWire`). -/
def witnessBit (b : ProverBackend) : Outcome VoleithError ProverBackend :=
  let t := b.next
  if b.witness.length ≤ t then Outcome.err .witnessMismatch
  else do
    -- each of the three reads is an index
    let w ← Outcome.index b.witness t
    let ut ← b.u.get t
    let _ ← Outcome.index b.tags t
    return { b with next := t + 1, d := b.d ++ [ut ^^ w] }

def assertZero (b : ProverBackend) (a : ProverWire) : ProverBackend :=
  { b with
    constraints := b.constraints ++ [.simple 0 a.tag]
    satisfied := if a.value ≠ 0 then false else b.satisfied }

def assertMul (b : ProverBackend) (x y z : ProverWire) : ProverBackend :=
  let a0 := x.tag * y.tag
  let a1 := x.value * y.tag + y.value * x.tag + z.tag
  { b with
    constraints := b.constraints ++ [.simple a0 a1]
    satisfied := if x.value * y.value ≠ z.value then false else b.satisfied }

def assertQuadSystem (b : ProverBackend) (terms : List ProverQuadTerm) (linear : List ProverWire) :
    ProverBackend :=
  -- whether it holds is found out when it is folded
  { b with constraints := b.constraints ++ [.system ⟨terms, linear⟩] }

def assertExprZero (b : ProverBackend) (e : PolyCoeffs) : ProverBackend :=
  { b with
    constraints := b.constraints ++ [.polynomial e]
    -- the last coefficient is the value of the expression
    satisfied := if e.coeffs.getLast? ≠ some 0 then false else b.satisfied }

/-- One call of the program. -/
def step (b : ProverBackend) : Op → Outcome VoleithError ProverBackend
  | .witnessBit => b.witnessBit
  | .assertZero a => .ok (b.assertZero (b.wire a))
  | .assertMul x y z => .ok (b.assertMul (b.wire x) (b.wire y) (b.wire z))
  | .assertQuadSystem s =>
      .ok (b.assertQuadSystem (s.terms.map fun t => ⟨b.wire t.a, b.wire t.b, t.coeffs⟩)
        (s.linear.map b.wire))
  -- an expression that is never asserted can exceed the capacity too
  | .build e => do
      let _ ← b.expr e
      return b
  | .assertExprZero e => do
      let e ← b.expr e
      return b.assertExprZero e

/-- `circuit.build(&mut backend)`. -/
def build (b : ProverBackend) : Circuit → Outcome VoleithError ProverBackend
  | .error e => Outcome.err e
  | .ok ops => ops.foldlM step b

end ProverBackend

/-! ## The verifier -/

/-- `n` successive powers, starting from `p`. -/
def powTable (delta : GF2p128) : (n : Nat) → (p : GF2p128) → List GF2p128
  | 0, _ => []
  | n + 1, p => p :: powTable delta n (p * delta)

/-- One stored term of a verifier-side system. -/
structure VerifierQuadTerm where
  a : GF2p128
  b : GF2p128
  coeffs : List GF16

/-- Verifier-side stored quadratic system (keys of every term). -/
structure VerifierQuadSystem where
  terms : List VerifierQuadTerm
  linear : List GF2p128

/-- A recorded verifier-side constraint. -/
inductive VerifierConstraint where
  | simple (value : GF2p128)
  | system (system : VerifierQuadSystem)
  | polynomial (value : GF2p128) (degree : Nat)

namespace VerifierQuadSystem

def numEquations (s : VerifierQuadSystem) : Nat := s.linear.length

/-- Fold into the check value `Σ_t c_t·k_a·k_b + Δ·Σ_e φ_e·k_lin`. -/
def fold (s : VerifierQuadSystem) (phis : List GF2p128) (delta : GF2p128) : GF2p128 :=
  let tables := phis.map foldTable
  let b := s.terms.foldl (fun b t => b + foldCoeff tables t.coeffs * (t.a * t.b)) 0
  let lin := (phis.zip s.linear).foldl (fun lin (phi, kl) => lin + phi * kl) 0
  b + delta * lin

end VerifierQuadSystem

/-- Verifier expression: its evaluation at `Δ` and its degree. -/
structure VerifierExpr where
  evaluation : GF2p128
  degree : Nat

/-- Verifier backend. -/
structure VerifierBackend where
  keys : List GF2p128
  delta : GF2p128
  deltaPows : List GF2p128
  next : Nat
  checks : List VerifierConstraint

namespace VerifierBackend

/-- `VerifierBackend::new`. -/
def new (keys : List GF2p128) (delta : GF2p128) : VerifierBackend where
  keys := keys
  delta := delta
  deltaPows := powTable delta (maxDegree + 1) 1
  next := 0
  checks := []

/-- `Δ^exponent`, by the table or else by `pow`. -/
def deltaPow (b : VerifierBackend) (exponent : Nat) : GF2p128 :=
  (b.deltaPows[exponent]?).getD (GF2p128.pow b.delta (BitVec.ofNat 128 exponent))

def bitsUsed (b : VerifierBackend) : Nat := b.next

/-- The wire the `t`-th `witness_bit` call returns. -/
def bitWire (b : VerifierBackend) (t : Nat) : GF2p128 :=
  if t < b.keys.length then b.keys.getD t 0 else 0

/-- The wire a term denotes. -/
def wire (b : VerifierBackend) : Wire → GF2p128
  | .bit t => b.bitWire t
  | .constant c => c * b.delta
  | .add x y => b.wire x + b.wire y
  | .scale c x => c * b.wire x

def exprAdd (v : VerifierBackend) (a b : VerifierExpr) : VerifierExpr :=
  let degree := max a.degree b.degree
  ⟨a.evaluation * v.deltaPow (degree - a.degree) + b.evaluation * v.deltaPow (degree - b.degree),
    degree⟩

def exprMul (a b : VerifierExpr) : VerifierExpr :=
  ⟨a.evaluation * b.evaluation, a.degree + b.degree⟩

/-- The expression a term denotes. -/
def expr (b : VerifierBackend) : Expr → VerifierExpr
  | .wireExpr w => ⟨b.wire w, 1⟩
  | .exprAdd x y => b.exprAdd (b.expr x) (b.expr y)
  | .exprMul x y => exprMul (b.expr x) (b.expr y)

/-- `witness_bit`, up to the wire it returns (`bitWire`). -/
def witnessBit (b : VerifierBackend) : Outcome VoleithError VerifierBackend :=
  if b.keys.length ≤ b.next then Outcome.err .witnessMismatch
  else .ok { b with next := b.next + 1 }

def push (b : VerifierBackend) (c : VerifierConstraint) : VerifierBackend :=
  { b with checks := b.checks ++ [c] }

/-- One call of the program. -/
def step (b : VerifierBackend) : Op → Outcome VoleithError VerifierBackend
  | .witnessBit => b.witnessBit
  | .assertZero a => .ok (b.push (.simple (b.delta * b.wire a)))
  | .assertMul x y z => .ok (b.push (.simple (b.wire x * b.wire y + b.delta * b.wire z)))
  | .assertQuadSystem s =>
      .ok (b.push (.system ⟨s.terms.map fun t => ⟨b.wire t.a, b.wire t.b, t.coeffs⟩,
        s.linear.map b.wire⟩))
  -- an evaluation and a degree have no capacity
  | .build _ => .ok b
  | .assertExprZero e => .ok (b.push (.polynomial (b.expr e).evaluation (b.expr e).degree))

/-- `circuit.build(&mut backend)`. -/
def build (b : VerifierBackend) : Circuit → Outcome VoleithError VerifierBackend
  | .error e => Outcome.err e
  | .ok ops => ops.foldlM step b

end VerifierBackend

/-! ## The counter -/

/-- Counting backend: sizes the circuit without any cryptography. -/
structure CountingBackend where
  witnessBits : Nat
  constraints : Nat
  maxDegree : Nat
  maxBuiltDegree : Nat

namespace CountingBackend

/-- `CountingBackend::default`. -/
def default : CountingBackend := ⟨0, 0, 0, 0⟩

/-- `expr_mul`: the degree saturates. -/
def exprMul (c : CountingBackend) (a b : Nat) : Nat × CountingBackend :=
  let degree := min (a + b) usizeMax
  (degree, { c with maxBuiltDegree := max c.maxBuiltDegree degree })

/-- The degree of the expression a term denotes, and the counter after building it. -/
def expr (c : CountingBackend) : Expr → Nat × CountingBackend
  | .wireExpr _ => (1, c)
  | .exprAdd x y =>
      let (x, c) := c.expr x
      let (y, c) := c.expr y
      (max x y, c)
  | .exprMul x y =>
      let (x, c) := c.expr x
      let (y, c) := c.expr y
      c.exprMul x y

/-- Record a constraint of a degree. -/
def record (c : CountingBackend) (degree : Nat) : CountingBackend :=
  { c with constraints := c.constraints + 1, maxDegree := max c.maxDegree degree }

/-- One call of the program. -/
def step (c : CountingBackend) : Op → CountingBackend
  | .witnessBit => { c with witnessBits := c.witnessBits + 1 }
  | .assertZero _ => c.record 2
  | .assertMul _ _ _ => c.record 2
  -- one constraint, however many equations
  | .assertQuadSystem _ => c.record 2
  | .build e => (c.expr e).2
  | .assertExprZero e =>
      let (degree, c) := c.expr e
      c.record degree

/-- `circuit.build(&mut counter)`. -/
def build (c : CountingBackend) : Circuit → Outcome VoleithError CountingBackend
  | .error e => Outcome.err e
  | .ok ops => .ok (ops.foldl step c)

end CountingBackend

end VoleAct.Voleith
