/-
  VoleAct.Act.Adder

  The carries are untrusted witness bits.  Whatever the other wires read, there is
  one assignment of the carries that the adder accepts, and only for a sum that
  does not wrap.
-/
import VoleAct.Act.CircuitSpec

namespace VoleAct.Act

open VoleAct.BinaryFields VoleAct.Lib VoleAct.Voleith VoleAct.Act.Keccak

variable {w : Nat → Bool}

/-! ## The calls of the adder -/

/-- The sum of bit `i` of the two summands, the carry into it and bit `i` of the sum. -/
def sumWire (a b sum carries : Vector Wire 64) (i : Fin 64) : Wire :=
  .add (.add (.add (a.get i) (b.get i)) (carryIn carries i)) (sum.get i)

/-- The calls of `assert_u64_sum`: one equation per bit, the folded carry system, and no final
    carry. -/
def u64SumOps (a b sum carries : Vector Wire 64) : List Op :=
  (List.finRange 64).map (fun i => .assertZero (sumWire a b sum carries i)) ++
    [.assertQuadSystem (carrySystem a b carries), .assertZero (carries.get 63)]

/-- A loop of calls appends them. -/
theorem run_forM_call {γ : Type} (op : γ → Op) (l : List γ) (ops : List Op) :
    (l.forM fun x => CircuitM.call (op x)).run ops = .ok ((), ops ++ l.map op) := by
  induction l generalizing ops with
  | nil =>
      rw [List.map_nil, List.append_nil]
      rfl
  | cons x l ih =>
      rw [List.forM_eq_forM, List.forM_cons, ← List.forM_eq_forM, StateT.run_bind, List.map_cons,
        ← List.singleton_append, ← List.append_assoc]
      exact ih (ops ++ [op x])

theorem run_assertU64Sum (a b sum carries : Vector Wire 64) (ops : List Op) :
    (assertU64Sum a b sum carries).run ops = .ok ((), ops ++ u64SumOps a b sum carries) := by
  have hloop := run_forM_call (fun i => .assertZero (sumWire a b sum carries i))
    (List.finRange 64) ops
  rw [assertU64Sum, StateT.run_bind]
  refine (congrArg (· >>= _) hloop).trans ?_
  rw [u64SumOps, ← List.append_assoc]
  show Except.ok ((), ((_ ++ [_]) ++ [_] : List Op)) = _
  rw [List.append_assoc, List.singleton_append]

/-- On wires that read integers and carries, the calls hold exactly when the sum is exact and the
    carries are its own. -/
theorem satisfies_u64SumOps {a b sum carries : Vector Wire 64} {x y s : U64} {cs : List Bool}
    (ha : Reads w a.toList (u64Bits x)) (hb : Reads w b.toList (u64Bits y))
    (hs : Reads w sum.toList (u64Bits s)) (hc : Reads w carries.toList cs) :
    Satisfies w (u64SumOps a b sum carries) ↔
      x.toNat + y.toNat = s.toNat ∧ cs = carryBits x y := by
  obtain ⟨new, hrun, -, -, hsat⟩ := emits_assertU64Sum ha hb hs hc 0
  -- what the adder emits is what it runs to
  have hnew := hrun [] rfl
  rw [run_assertU64Sum] at hnew
  have hops : u64SumOps a b sum carries = new := congrArg Prod.snd (Except.ok.inj hnew)
  rw [hops, hsat]

/-! ## Choosing the carries -/

/-- The assignment `w` with the 64 bits from `start` chosen anew. -/
def withCarries (w : Nat → Bool) (start : Nat) (cs : Vector Bool 64) (i : Nat) : Bool :=
  if h : start ≤ i ∧ i - start < 64 then cs.get ⟨i - start, h.2⟩ else w i

theorem segment_withCarries (w : Nat → Bool) (start : Nat) (cs : Vector Bool 64) :
    segment (withCarries w start cs) start 64 = cs.toList := by
  apply List.ext_getElem?
  intro i
  by_cases hi : i < 64
  · have hsub : start + i - start = i := Nat.add_sub_cancel_left start i
    rw [getElem?_segment _ _ hi, withCarries, dif_pos ⟨Nat.le_add_right _ _, by omega⟩]
    simp [hsub, hi, Vector.get_eq_getElem]
  · rw [List.getElem?_eq_none (by rw [segment_length]; omega),
      List.getElem?_eq_none (by rw [Vector.length_toList]; omega)]

/-- The carries of a sum, as the witness generator lists them. -/
def carryVector (x y : U64) : Vector Bool 64 := ⟨(carryBits x y).toArray, by simp⟩

/-- Exact 64-bit addition.  The summands and the sum are wires that read `x`, `y` and `s` whatever
    the 64 carry bits from `start` are.  Some choice of the carries satisfies every call of
    `assert_u64_sum` exactly when `x + y = s` without a wrap; that choice is the carries the witness
    generator computes, and no other. -/
theorem u64_adder_exact (w : Nat → Bool) (start : Nat) (a b sum : Vector Wire 64) (x y s : U64)
    (ha : ∀ cs, Reads (withCarries w start cs) a.toList (u64Bits x))
    (hb : ∀ cs, Reads (withCarries w start cs) b.toList (u64Bits y))
    (hs : ∀ cs, Reads (withCarries w start cs) sum.toList (u64Bits s)) :
    (∀ ops, (assertU64Sum a b sum (bitWires start 64)).run ops =
        .ok ((), ops ++ u64SumOps a b sum (bitWires start 64))) ∧
      ((∃ cs, Satisfies (withCarries w start cs) (u64SumOps a b sum (bitWires start 64))) ↔
        x.toNat + y.toNat = s.toNat) ∧
      ∀ cs, Satisfies (withCarries w start cs) (u64SumOps a b sum (bitWires start 64)) ↔
        x.toNat + y.toNat = s.toNat ∧ cs.toList = carryBits x y := by
  have hsat (cs : Vector Bool 64) :
      Satisfies (withCarries w start cs) (u64SumOps a b sum (bitWires start 64)) ↔
        x.toNat + y.toNat = s.toNat ∧ cs.toList = carryBits x y :=
    satisfies_u64SumOps (ha cs) (hb cs) (hs cs) (reads_bitWires (segment_withCarries w start cs))
  refine ⟨run_assertU64Sum a b sum (bitWires start 64), ?_, hsat⟩
  constructor
  · rintro ⟨cs, hcs⟩
    exact ((hsat cs).mp hcs).1
  · intro hsum
    exact ⟨carryVector x y, (hsat _).mpr ⟨hsum, rfl⟩⟩

/-- Three and five make eight on constant wires. -/
theorem u64_adder_exact_eight :
    ∃ cs, Satisfies (withCarries (fun _ => false) 0 cs)
      (u64SumOps (constantU64 3) (constantU64 5) (constantU64 8) (bitWires 0 64)) :=
  (u64_adder_exact (fun _ => false) 0 (constantU64 3) (constantU64 5) (constantU64 8) 3 5 8
    (fun _ => reads_constantU64 3) (fun _ => reads_constantU64 5)
    (fun _ => reads_constantU64 8)).2.1.mpr (by decide)

end VoleAct.Act
