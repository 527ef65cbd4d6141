/-
  VoleAct.Voleith.Circuit

  Circuit programs over the `Backend` interface (`voleith/src/backend.rs`).

  A circuit is generic in the backend, so what it does is the sequence of
  interface calls it makes.  The calls that only combine wires and expressions
  are pure; a program keeps them as terms, and lists the calls that act on the
  backend: the witness bits, the assertions, and the expressions that are built
  (asserted or not).  `Wire.bit t` is the wire the `t`-th `witness_bit` call
  returns.
-/
import VoleAct.BinaryFields.Embed
import VoleAct.Voleith.Params

namespace VoleAct.Voleith

open VoleAct.BinaryFields

/-- A linearly-homomorphic commitment, as built from witness bits. -/
inductive Wire where
  | bit (t : Nat)
  | constant (c : GF2p128)
  | add (a b : Wire)
  | scale (c : GF2p128) (a : Wire)

/-- A bounded-degree polynomial expression in wires. -/
inductive Expr where
  | wireExpr (w : Wire)
  | exprAdd (a b : Expr)
  | exprMul (a b : Expr)

/-- One product term of a quadratic system: `embed(coeffs[e])·a·b` in equation `e`. -/
structure QuadTerm where
  a : Wire
  b : Wire
  coeffs : List GF16

/-- A quadratic system; every term has one coefficient per equation, so the backends'
    length assertion cannot fail. -/
structure QuadSystem where
  terms : List QuadTerm
  linear : List Wire
  length_coeffs : ∀ t ∈ terms, t.coeffs.length = linear.length

/-- One call on the backend. -/
inductive Op where
  | witnessBit
  | assertZero (a : Wire)
  | assertMul (a b c : Wire)
  | assertQuadSystem (system : QuadSystem)
  | build (e : Expr)
  | assertExprZero (e : Expr)

/-- What `Circuit::build` does with a backend: the calls it makes, or the error it returns. -/
abbrev Circuit := Except VoleithError (List Op)

/-! ## Plain value semantics -/

namespace Wire

/-- The value of a wire under an assignment of the witness bits. -/
def value (w : Nat → Bool) : Wire → GF2p128
  | bit t => GF2p128.ofBool (w t)
  | constant c => c
  | add a b => a.value w + b.value w
  | scale c a => c * a.value w

/-- The VOLE tag of a wire: constants have tag zero. -/
def tag (v : Nat → GF2p128) : Wire → GF2p128
  | bit t => v t
  | constant _ => 0
  | add a b => a.tag v + b.tag v
  | scale c a => c * a.tag v

end Wire

namespace Expr

/-- The value of an expression. -/
def value (w : Nat → Bool) : Expr → GF2p128
  | wireExpr a => a.value w
  | exprAdd a b => a.value w + b.value w
  | exprMul a b => a.value w * b.value w

/-- The degree of an expression. -/
def degree : Expr → Nat
  | wireExpr _ => 1
  | exprAdd a b => max a.degree b.degree
  | exprMul a b => a.degree + b.degree

/-- The largest degree of a product inside an expression. -/
def builtDegree : Expr → Nat
  | wireExpr _ => 0
  | exprAdd a b => max a.builtDegree b.builtDegree
  | exprMul a b => max (max a.builtDegree b.builtDegree) (a.degree + b.degree)

end Expr

namespace QuadSystem

/-- The value of equation `e`. -/
def equation (s : QuadSystem) (w : Nat → Bool) (e : Nat) : GF2p128 :=
  (s.terms.map fun t => embedGf16 (t.coeffs.getD e 0) * (t.a.value w * t.b.value w)).sum +
    (s.linear.getD e (Wire.constant 0)).value w

end QuadSystem

/-- An assignment satisfies a call when it makes what the call asserts true. -/
def Op.Holds (w : Nat → Bool) : Op → Prop
  | .witnessBit => True
  | .assertZero a => a.value w = 0
  | .assertMul a b c => a.value w * b.value w = c.value w
  | .assertQuadSystem s => ∀ e < s.linear.length, s.equation w e = 0
  | .build _ => True
  | .assertExprZero e => e.value w = 0

/-- Every assertion of a program holds. -/
def Satisfies (w : Nat → Bool) (ops : List Op) : Prop := ∀ op ∈ ops, op.Holds w

/-! ## What a program records -/

/-- A constraint: what an asserting call records. -/
inductive Constraint where
  | zero (a : Wire)
  | mul (a b c : Wire)
  | system (s : QuadSystem)
  | expr (e : Expr)

/-- The degree of a constraint; the degree-one check is homogenized to degree two. -/
def Constraint.degree : Constraint → Nat
  | expr e => e.degree
  | _ => 2

/-- The constraint a call records, if any. -/
def Op.constraint? : Op → Option Constraint
  | .assertZero a => some (.zero a)
  | .assertMul a b c => some (.mul a b c)
  | .assertQuadSystem s => some (.system s)
  | .assertExprZero e => some (.expr e)
  | .witnessBit | .build _ => none

/-- Number of witness bits a call allocates. -/
def Op.bits : Op → Nat
  | .witnessBit => 1
  | _ => 0

/-- The largest degree a call builds. -/
def Op.builtDegree : Op → Nat
  | .build e | .assertExprZero e => e.builtDegree
  | _ => 0

/-- The constraints of a program, in emission order. -/
def constraints (ops : List Op) : List Constraint := ops.filterMap Op.constraint?

/-- Number of witness bits a program allocates. -/
def witnessBits (ops : List Op) : Nat := (ops.map Op.bits).sum

/-- Largest asserted degree. -/
def assertedDegree (ops : List Op) : Nat := ((constraints ops).map Constraint.degree).foldr max 0

/-- Largest degree of any expression the program constructs. -/
def builtDegree (ops : List Op) : Nat := (ops.map Op.builtDegree).foldr max 0

@[simp] theorem witnessBits_nil : witnessBits [] = 0 := rfl

@[simp] theorem witnessBits_cons (op : Op) (ops : List Op) :
    witnessBits (op :: ops) = op.bits + witnessBits ops := List.sum_cons

@[simp] theorem constraints_nil : constraints [] = [] := rfl

@[simp] theorem constraints_cons (op : Op) (ops : List Op) :
    constraints (op :: ops) = op.constraint?.toList ++ constraints ops := by
  cases h : op.constraint? <;> simp [constraints, h]

@[simp] theorem builtDegree_nil : builtDegree [] = 0 := rfl

@[simp] theorem builtDegree_cons (op : Op) (ops : List Op) :
    builtDegree (op :: ops) = max op.builtDegree (builtDegree ops) := rfl

@[simp] theorem assertedDegree_nil : assertedDegree [] = 0 := rfl

@[simp] theorem assertedDegree_cons (op : Op) (ops : List Op) :
    assertedDegree (op :: ops) = max ((op.constraint?.map Constraint.degree).getD 0)
      (assertedDegree ops) := by
  cases h : op.constraint? <;> simp [assertedDegree, h]

theorem degree_le_assertedDegree {ops : List Op} {c : Constraint} (h : c ∈ constraints ops) :
    c.degree ≤ assertedDegree ops := by
  have hmem : ∀ {l : List Nat} {n : Nat}, n ∈ l → n ≤ l.foldr max 0 := by
    intro l n hn
    induction l with
    | nil => simp at hn
    | cons m l ih =>
        rcases List.mem_cons.mp hn with rfl | hn
        · exact Nat.le_max_left _ _
        · exact (ih hn).trans (Nat.le_max_right _ _)
  exact hmem (List.mem_map_of_mem h)

theorem Expr.degree_pos (e : Expr) : 1 ≤ e.degree := by
  induction e with
  | wireExpr w => exact Nat.le_refl 1
  | exprAdd a b iha ihb => exact Nat.le_trans iha (Nat.le_max_left _ _)
  | exprMul a b iha ihb => exact Nat.le_trans iha (Nat.le_add_right _ _)

end VoleAct.Voleith
