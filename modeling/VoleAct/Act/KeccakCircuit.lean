/-
  VoleAct.Act.KeccakCircuit

  SHAKE256 of one block inside a circuit (`vole-act/src/circuit.rs`): four
  rounds are built as expressions over 1600 wires, then a checkpoint of fresh
  witness bits is constrained to their values.

  An expression state reads a bit state when each of its expressions has the
  value of the bit; one round of the circuit then reads `roundBits`, doubling the
  degree.
-/
import VoleAct.Act.Keccak
import VoleAct.Act.Credential
import VoleAct.Voleith.Builder

namespace VoleAct.Act

open VoleAct.BinaryFields VoleAct.Lib VoleAct.Voleith VoleAct.Act.Keccak

/-! ## The circuit -/

/-- Position of bit `z` of lane `(x, y)`. -/
def position (x y : Fin 5) (z : Fin 64) : Fin 1600 := ⟨bitIndex x y z, bitIndex_lt x y z⟩

/-- The lane and the depth of a position. -/
def coords (i : Fin 1600) : Fin 5 × Fin 5 × Fin 64 :=
  (⟨i / 64 % 5, by omega⟩, ⟨i / 64 / 5, by omega⟩, ⟨i % 64, by omega⟩)

/-- `initial_sponge_state`: the padded message; messages are shorter than the rate. -/
def initialSpongeState (msg : List Wire) : Vector Wire 1600 :=
  let zero := Wire.constant 0
  let one := Wire.constant 1
  let state := Vector.ofFn fun i => msg.getD i zero
  let msgByte := msg.length / 8
  let state := (List.range 8).foldl
    (fun state bit =>
      if (0x1F#8 >>> bit) &&& 1#8 = 1#8 then state.setIfInBounds (msgByte * 8 + bit) one else state)
    state
  state.set (rateBytes * 8 - 1) one

/-- `keccak_linear_expr`: theta. -/
def keccakLinearExpr (state : Vector Expr 1600) : Vector Expr 1600 :=
  let zero := Expr.wireExpr (.constant 0)
  let columns := Vector.ofFn fun x : Fin 5 => Vector.ofFn fun z : Fin 64 =>
    (List.finRange 5).foldl (fun parity y => Expr.exprAdd parity (state.get (position x y z))) zero
  Vector.ofFn fun i =>
    let (x, y, z) := coords i
    let d := Expr.exprAdd ((columns.get (x + 4)).get z) ((columns.get (x + 1)).get (z + 63))
    .exprAdd (state.get (position x y z)) d

/-- The loop `for y, for x, for z` of the index map. -/
def piRhoSources : List ((Fin 5 × Fin 5) × Fin 64) :=
  lanes.flatMap fun p => (List.finRange 64).map fun z => (p, z)

/-- `pi_rho_index`: the theta position whose bit lands at each position. -/
def piRhoIndex : Vector (Fin 1600) 1600 :=
  piRhoSources.foldl
    (fun index s =>
      index.set (position s.1.2 (2 * s.1.1 + 3 * s.1.2) s.2)
        (position s.1.1 s.1.2 (s.2 - RHO.get (lane s.1.1 s.1.2))))
    (Vector.replicate 1600 0)

/-- Bit `i` of a round: chi and iota, read through the index map. -/
def keccakBitExpr (theta : Vector Expr 1600) (pi : Vector (Fin 1600) 1600) (rc : U64)
    (i : Fin 1600) : CircuitM Expr := do
  let one := Expr.wireExpr (.constant 1)
  let (x, y, z) := coords i
  let p0 := theta.get (pi.get (position x y z))
  let p1 := theta.get (pi.get (position (x + 1) y z))
  let p2 := theta.get (pi.get (position (x + 2) y z))
  let product ← CircuitM.exprMul (.exprAdd one p1) p2
  let bit := Expr.exprAdd p0 product
  return if i.val / 64 = 0 ∧ rc.getLsbD z then .exprAdd bit one else bit

/-- `keccak_round_expr`. -/
def keccakRoundExpr (state : Vector Expr 1600) (rc : U64) : CircuitM (Vector Expr 1600) :=
  Vector.ofFnM (keccakBitExpr (keccakLinearExpr state) piRhoIndex rc)

/-- The loop `for (computed, committed)`. -/
def assertCheckpoint {n : Nat} (expression : Vector Expr n) (checkpoint : Vector Wire n) :
    CircuitM Unit :=
  (List.finRange n).forM fun i =>
    CircuitM.assertExprZero (.exprAdd (expression.get i) (.wireExpr (checkpoint.get i)))

/-- Four rounds and their checkpoint. -/
def shakeGroup (state : Vector Wire 1600) (group : Nat) : CircuitM (Vector Wire 1600) := do
  let checkpoint ← CircuitM.allocBits 1600
  let expression ← ((RC.drop (4 * group)).take 4).foldlM keccakRoundExpr (state.map .wireExpr)
  assertCheckpoint expression checkpoint
  return checkpoint

/-- `shake_degree16`. -/
def shakeDegree16 (msg : List Wire) : CircuitM (Vector Wire 1600) :=
  (List.range (RC.length / 4)).foldlM shakeGroup (initialSpongeState msg)

/-- `shake_hidden_output`: the first `outputBits` bits of the state. -/
def shakeHiddenOutput (msg : List Wire) (outputBits : Nat) (h : outputBits ≤ 1600) :
    CircuitM (Vector Wire outputBits) := do
  let state ← shakeDegree16 msg
  return Vector.ofFn fun i => state.get ⟨i, Nat.lt_of_lt_of_le i.isLt h⟩

/-- The loop `for (actual, expected) in ..zip(..)`: their differences are zero. -/
def assertEqual (actual expected : List Wire) : CircuitM Unit :=
  (actual.zip expected).forM fun p => CircuitM.assertZero (.add p.1 p.2)

/-- `shake_assert_output`. -/
def shakeAssertOutput (msg expected : List Wire) : CircuitM Unit := do
  let state ← shakeDegree16 msg
  assertEqual state.toList expected

/-! ## Positions -/

theorem position_coords (i : Fin 1600) :
    position (coords i).1 (coords i).2.1 (coords i).2.2 = i := by
  apply Fin.ext
  simp only [position, coords, bitIndex]
  omega

theorem coords_position (x y : Fin 5) (z : Fin 64) : coords (position x y z) = (x, y, z) := by
  have h := bitIndex_inj (congrArg Fin.val (position_coords (position x y z)))
  exact Prod.ext h.1 (Prod.ext h.2.1 h.2.2)

theorem position_div (x y : Fin 5) (z : Fin 64) : (position x y z).val / 64 = 0 ↔ x = 0 ∧ y = 0 := by
  simp only [position, bitIndex, Fin.ext_iff, Fin.val_zero]
  omega

theorem position_inj {x y x' y' : Fin 5} {z z' : Fin 64} (h : position x y z = position x' y' z') :
    x = x' ∧ y = y' ∧ z = z' := bitIndex_inj (congrArg Fin.val h)

/-- Where the bit at a position comes from. -/
theorem get_piRhoIndex (x y : Fin 5) (z : Fin 64) :
    piRhoIndex.get (position x y z) =
      position (x + 3 * y) x (z - RHO.get (lane (x + 3 * y) x)) := by
  let target (s : (Fin 5 × Fin 5) × Fin 64) : Fin 1600 :=
    position s.1.2 (2 * s.1.1 + 3 * s.1.2) s.2
  have hlane : ∀ x y x' y' : Fin 5, y = y' → 2 * x + 3 * y = 2 * x' + 3 * y' → x = x' := by decide
  have hinj : ∀ s ∈ piRhoSources, ∀ s' ∈ piRhoSources, target s = target s' → s = s' := by
    rintro ⟨⟨x, y⟩, z⟩ - ⟨⟨x', y'⟩, z'⟩ - h
    obtain ⟨hy, hx, rfl⟩ := position_inj h
    obtain rfl := hlane x y x' y' hy hx
    obtain rfl : y = y' := hy
    rfl
  have hmem : ((x + 3 * y, x), z) ∈ piRhoSources := by
    rw [piRhoSources, List.mem_flatMap]
    exact ⟨_, mem_lanes _, List.mem_map.mpr ⟨z, List.mem_finRange z, rfl⟩⟩
  have hsource : ∀ x y : Fin 5, 2 * (x + 3 * y) + 3 * x = y := by decide
  have hget := (get_foldl_set target
    (fun s => position s.1.1 s.1.2 (s.2 - RHO.get (lane s.1.1 s.1.2))) piRhoSources hinj
    (Vector.replicate 1600 0)).1 _ hmem
  simp only [target, hsource] at hget
  exact hget

/-! ## Expressions -/

/-- Values and degrees of an expression state that reads `b` at degree at most `d`. -/
structure ReadsState (w : Nat → Bool) (d : Nat) (state : Vector Expr 1600) (b : Bits) : Prop where
  value : ∀ x y z, (state.get (position x y z)).value w = GF2p128.ofBool (b x y z)
  degree : ∀ i, (state.get i).degree ≤ d
  built : ∀ i, (state.get i).builtDegree ≤ d

variable {w : Nat → Bool} {d : Nat} {b : Bits}

theorem get_ofFn_coords {α : Type} (f : Fin 5 × Fin 5 × Fin 64 → α) (x y : Fin 5) (z : Fin 64) :
    (Vector.ofFn fun i => f (coords i)).get (position x y z) = f (x, y, z) := by
  rw [Vector.get_ofFn, coords_position]

theorem readsState_linear (hd : 1 ≤ d) {state : Vector Expr 1600} (h : ReadsState w d state b) :
    ReadsState w d (keccakLinearExpr state) (thetaBits b) := by
  let column (x : Fin 5) (z : Fin 64) : Expr := (List.finRange 5).foldl
    (fun parity y => Expr.exprAdd parity (state.get (position x y z))) (.wireExpr (.constant 0))
  have hcolumn (x : Fin 5) (z : Fin 64) : (column x z).value w = GF2p128.ofBool (parity b x z) ∧
      (column x z).degree ≤ d ∧ (column x z).builtDegree ≤ d := by
    refine ⟨?_, ?_, ?_⟩
    · show 0 + (state.get (position x 0 z)).value w + (state.get (position x 1 z)).value w +
        (state.get (position x 2 z)).value w + (state.get (position x 3 z)).value w +
        (state.get (position x 4 z)).value w = _
      simp only [h.value, zero_add, GF2p128.ofBool_add_ofBool]
      rfl
    · have hdeg := h.degree
      show max (max (max (max (max 1 _) _) _) _) _ ≤ d
      simp only [Nat.max_le, hd, hdeg, and_self]
    · have hbuilt := h.built
      show max (max (max (max (max 0 _) _) _) _) _ ≤ d
      simp only [Nat.max_le, Nat.zero_le, hbuilt, and_self]
  -- the source writes the rotation by one as `z + 63`
  have hstep (z : Fin 64) : z + 63 = z - 1 := by
    have h63 : (63 : Fin 64).val = 63 := rfl
    have h1 : (1 : Fin 64).val = 1 := rfl
    apply Fin.ext
    rw [Fin.val_add, Fin.val_sub, h63, h1]
    omega
  let out (p : Fin 5 × Fin 5 × Fin 64) : Expr :=
    .exprAdd (state.get (position p.1 p.2.1 p.2.2))
      (.exprAdd (column (p.1 + 4) p.2.2) (column (p.1 + 1) (p.2.2 + 63)))
  have hout : keccakLinearExpr state = Vector.ofFn fun i => out (coords i) := by
    simp only [keccakLinearExpr, Vector.get_ofFn]
    rfl
  rw [hout]
  refine ⟨fun x y z => ?_, fun i => ?_, fun i => ?_⟩
  · rw [get_ofFn_coords]
    simp only [out, Expr.value, h.value, (hcolumn _ _).1, GF2p128.ofBool_add_ofBool, hstep, thetaBits]
  · rw [Vector.get_ofFn]
    simp only [out, Expr.degree, Nat.max_le]
    exact ⟨h.degree _, (hcolumn _ _).2.1, (hcolumn _ _).2.1⟩
  · rw [Vector.get_ofFn]
    simp only [out, Expr.builtDegree, Nat.max_le]
    exact ⟨h.built _, (hcolumn _ _).2.2, (hcolumn _ _).2.2⟩

/-- The expression of bit `(x, y, z)` of a round. -/
def roundBitExpr (theta : Vector Expr 1600) (rc : U64) (i : Fin 1600) : Expr :=
  let p (x y : Fin 5) (z : Fin 64) := theta.get (piRhoIndex.get (position x y z))
  let (x, y, z) := coords i
  let bit := Expr.exprAdd (p x y z)
    (.exprMul (.exprAdd (.wireExpr (.constant 1)) (p (x + 1) y z)) (p (x + 2) y z))
  if i.val / 64 = 0 ∧ rc.getLsbD z then .exprAdd bit (.wireExpr (.constant 1)) else bit

theorem emits_keccakBitExpr {theta : Vector Expr 1600} (h : ReadsState w d theta b) (hd : 1 ≤ d)
    (hmax : 2 * d ≤ maxDegree) (rc : U64) (start : Nat) (i : Fin 1600) :
    Emits w (keccakBitExpr theta piRhoIndex rc i) start (roundBitExpr theta rc i) 0 True := by
  have hbuilt : (Expr.exprMul (.exprAdd (.wireExpr (.constant 1))
      (theta.get (piRhoIndex.get (position ((coords i).1 + 1) (coords i).2.1 (coords i).2.2))))
      (theta.get (piRhoIndex.get (position ((coords i).1 + 2) (coords i).2.1 (coords i).2.2)))).builtDegree
        ≤ maxDegree := by
    have hdeg := h.degree
    have hbuilt := h.built
    simp only [Expr.builtDegree, Expr.degree, Nat.max_le]
    refine ⟨⟨⟨Nat.zero_le _, (hbuilt _).trans (by omega)⟩, (hbuilt _).trans (by omega)⟩, ?_⟩
    exact (Nat.add_le_add (Nat.max_le.mpr ⟨hd, hdeg _⟩) (hdeg _)).trans (by omega)
  exact (Emits.exprMul hbuilt).bind_pure (.pure _)

theorem readsState_round {theta : Vector Expr 1600} (h : ReadsState w d theta b) (hd : 1 ≤ d)
    (rc : U64) :
    ReadsState w (2 * d) (Vector.ofFn (roundBitExpr theta rc)) (chiBits (rhoPiBits b) rc) := by
  have hread (x y : Fin 5) (z : Fin 64) :
      (theta.get (piRhoIndex.get (position x y z))).value w = GF2p128.ofBool (rhoPiBits b x y z) := by
    rw [get_piRhoIndex, h.value]
    rfl
  have hdeg := h.degree
  have hbuilt := h.built
  -- value, degree and built degree; the round constant flips lane (0, 0) only
  refine ⟨fun x y z => ?_, fun i => ?_, fun i => ?_⟩
  · rw [Vector.get_ofFn, roundBitExpr, coords_position]
    simp only [position_div]
    by_cases hrc : (x = 0 ∧ y = 0) ∧ rc.getLsbD z = true
    · rw [if_pos hrc]
      simp only [Expr.value, Wire.value, hread, GF2p128.one_add_ofBool, GF2p128.ofBool_mul_ofBool,
        GF2p128.ofBool_add_ofBool, chiBits]
      rw [add_comm, GF2p128.one_add_ofBool, decide_eq_true hrc.1, hrc.2, Bool.true_and, Bool.xor_true]
    · have hfalse : (decide (x = 0 ∧ y = 0) && rc.getLsbD z) = false := by
        rw [Bool.and_eq_false_iff, decide_eq_false_iff_not, ← Bool.not_eq_true]
        exact not_and_or.mp hrc
      rw [if_neg hrc]
      simp only [Expr.value, Wire.value, hread, GF2p128.one_add_ofBool, GF2p128.ofBool_mul_ofBool,
        GF2p128.ofBool_add_ofBool, chiBits, hfalse, Bool.xor_false]
  · rw [Vector.get_ofFn, roundBitExpr]
    dsimp only
    split
    · simp only [Expr.degree, Nat.max_le]
      exact ⟨⟨(hdeg _).trans (by omega),
        (Nat.add_le_add (Nat.max_le.mpr ⟨hd, hdeg _⟩) (hdeg _)).trans (by omega)⟩, by omega⟩
    · simp only [Expr.degree, Nat.max_le]
      exact ⟨(hdeg _).trans (by omega),
        (Nat.add_le_add (Nat.max_le.mpr ⟨hd, hdeg _⟩) (hdeg _)).trans (by omega)⟩
  · rw [Vector.get_ofFn, roundBitExpr]
    dsimp only
    -- the product of two neighbours is the largest expression that is built
    have hproduct (i j : Fin 1600) : (Expr.exprMul (.exprAdd (.wireExpr (.constant 1)) (theta.get i))
        (theta.get j)).builtDegree ≤ 2 * d := by
      simp only [Expr.builtDegree, Expr.degree, Nat.max_le]
      refine ⟨⟨⟨Nat.zero_le _, (hbuilt _).trans (by omega)⟩, (hbuilt _).trans (by omega)⟩, ?_⟩
      exact (Nat.add_le_add (Nat.max_le.mpr ⟨hd, hdeg _⟩) (hdeg _)).trans (by omega)
    split
    · rw [Expr.builtDegree, Expr.builtDegree]
      exact Nat.max_le.mpr ⟨Nat.max_le.mpr ⟨(hbuilt _).trans (by omega), hproduct _ _⟩, Nat.zero_le _⟩
    · rw [Expr.builtDegree]
      exact Nat.max_le.mpr ⟨(hbuilt _).trans (by omega), hproduct _ _⟩

/-- One round of the circuit reads one round of the permutation. -/
theorem emits_keccakRoundExpr {state : Vector Expr 1600} (h : ReadsState w d state b) (hd : 1 ≤ d)
    (hmax : 2 * d ≤ maxDegree) (rc : U64) (start : Nat) :
    ∃ out, Emits w (keccakRoundExpr state rc) start out 0 True ∧
      ReadsState w (2 * d) out (roundBits b rc) := by
  have hlinear := readsState_linear hd h
  refine ⟨_, ?_, readsState_round hlinear hd rc⟩
  have hbits : Emits w (keccakRoundExpr state rc) start
      (Vector.ofFn (roundBitExpr (keccakLinearExpr state) rc)) (1600 * 0)
      (∀ _ : Fin 1600, True) :=
    Emits.ofFnM fun i => emits_keccakBitExpr hlinear hd hmax rc _ i
  rw [Nat.mul_zero] at hbits
  exact hbits.congr ⟨fun _ => trivial, fun _ _ => trivial⟩

/-- Rounds in sequence; each doubles the degree. -/
theorem emits_rounds (rcs : List U64) : ∀ {d : Nat} {state : Vector Expr 1600} {b : Bits},
    ReadsState w d state b → 1 ≤ d → 2 ^ rcs.length * d ≤ maxDegree → ∀ start,
    ∃ out, Emits w (rcs.foldlM keccakRoundExpr state) start out 0 True ∧
      ReadsState w (2 ^ rcs.length * d) out (rcs.foldl roundBits b) := by
  induction rcs with
  | nil =>
      intro d state b h _ _ start
      rw [List.length_nil, pow_zero, Nat.one_mul]
      exact ⟨state, .pure state, h⟩
  | cons rc rcs ih =>
      intro d state b h hd hmax start
      rw [List.length_cons, pow_succ, Nat.mul_assoc] at hmax ⊢
      have hone : 2 * d ≤ 2 ^ rcs.length * (2 * d) := Nat.le_mul_of_pos_left _ (by positivity)
      obtain ⟨mid, hmid, hread⟩ := emits_keccakRoundExpr h hd (hone.trans hmax) rc start
      obtain ⟨out, hout, hreads⟩ := ih hread (by omega) hmax start
      rw [List.foldlM_cons, List.foldl_cons]
      exact ⟨out, hmid.bind_pure hout, hreads⟩

/-! ## Groups of rounds -/

/-- The state an assignment gives to the 1600 bits from `start`. -/
def stateAt (w : Nat → Bool) (start : Nat) : State :=
  Vector.ofFn fun i => BitVec.ofFnLE fun z : Fin 64 => w (start + 64 * i + z)

theorem stateBit_stateAt (w : Nat → Bool) (start : Nat) {i : Nat} (hi : i < 1600) :
    stateBit (stateAt w start) i = w (start + i) := by
  have hlane : i / 64 < 25 := by omega
  have hz : i % 64 < 64 := Nat.mod_lt _ (by decide)
  have hpos : start + 64 * (i / 64) + i % 64 = start + i := by omega
  have hget : (stateAt w start).getD (i / 64) 0#64 =
      BitVec.ofFnLE fun z : Fin 64 => w (start + 64 * (i / 64) + z) := by
    rw [Vector.getD, Array.getD, dif_pos (by simpa using hlane)]
    simp [stateAt]
  rw [stateBit, hget, BitVec.getLsbD_ofFnLE, dif_pos hz, hpos]

/-- The wires of a state with the given bits. -/
def ReadsWires (w : Nat → Bool) (wires : Vector Wire 1600) (a : State) : Prop :=
  ∀ i, (wires.get i).value w = GF2p128.ofBool (stateBit a i)

theorem readsWires_bitWires (w : Nat → Bool) (start : Nat) :
    ReadsWires w (bitWires start 1600) (stateAt w start) := fun i => by
  rw [value_bitWires, stateBit_stateAt w start i.isLt]

/-- The 1600 bits from `start` are those of a state. -/
def BitsAt (w : Nat → Bool) (start : Nat) (a : State) : Prop := ∀ i < 1600, w (start + i) = stateBit a i

theorem bitsAt_iff {start : Nat} {a : State} : BitsAt w start a ↔ stateAt w start = a := by
  constructor
  · intro h
    exact ext_stateBit fun i hi => by rw [stateBit_stateAt w start hi, h i hi]
  · rintro rfl i hi
    exact (stateBit_stateAt w start hi).symm

theorem emits_assertCheckpoint {n : Nat} {expression : Vector Expr n} {checkpoint : Vector Wire n}
    (h : ∀ i, (expression.get i).builtDegree ≤ maxDegree) (start : Nat) :
    Emits w (assertCheckpoint expression checkpoint) start () 0
      (∀ i, (expression.get i).value w + (checkpoint.get i).value w = 0) := by
  refine (Emits.forM (List.finRange n) fun i _ => Emits.assertExprZero ?_).congr ?_
  · rw [Expr.builtDegree]
    exact Nat.max_le.mpr ⟨h i, Nat.zero_le _⟩
  · exact ⟨fun hall i => hall i (List.mem_finRange i), fun hall i _ => hall i⟩

/-- A group's checkpoint holds exactly when it is four rounds after the state it starts from. -/
theorem emits_shakeGroup {state : Vector Wire 1600} {a : State} (h : ReadsWires w state a)
    (group start : Nat) :
    Emits w (shakeGroup state group) start (bitWires start 1600) 1600
      (BitsAt w start (((RC.drop (4 * group)).take 4).foldl round a)) := by
  have hread : ReadsState w 1 (state.map .wireExpr) (bits a) := by
    have hget (i : Fin 1600) : (state.map Expr.wireExpr).get i = .wireExpr (state.get i) := by
      simp [Vector.get_eq_getElem]
    refine ⟨fun x y z => ?_, fun i => ?_, fun i => ?_⟩
    · rw [hget, Expr.value, h, ← stateBit_bitIndex]
      rfl
    · rw [hget, Expr.degree]
    · rw [hget, Expr.builtDegree]
      exact Nat.zero_le _
  have hlen : ((RC.drop (4 * group)).take 4).length ≤ 4 := List.length_take_le _ _
  have hmax : 2 ^ ((RC.drop (4 * group)).take 4).length * 1 ≤ maxDegree := by
    rw [Nat.mul_one]
    exact Nat.pow_le_pow_right (by decide) hlen
  obtain ⟨out, hout, hreads⟩ := emits_rounds _ hread le_rfl hmax (start + 1600)
  rw [← bits_foldl_round] at hreads
  have hassert : Emits w (assertCheckpoint out (bitWires start 1600)) (start + 1600) () 0
      (∀ i, (out.get i).value w + ((bitWires start 1600).get i).value w = 0) :=
    emits_assertCheckpoint (fun i => (hreads.built i).trans hmax) _
  have hreturn : Emits w (pure (bitWires start 1600)) (start + 1600) (bitWires start 1600) 0 True :=
    .pure _
  have hgroup : Emits w (shakeGroup state group) start (bitWires start 1600) (1600 + 0) _ :=
    (Emits.allocBits 1600).bind (hout.bind_pure (hassert.seq hreturn))
  refine Emits.congr hgroup ?_
  -- a difference of two bits is zero exactly when they agree
  rw [true_and, and_true]
  have hbit (i : Fin 1600) : (out.get i).value w + ((bitWires start 1600).get i).value w = 0 ↔
      w (start + i) = stateBit (((RC.drop (4 * group)).take 4).foldl round a) i := by
    have hvalue := hreads.value (coords i).1 (coords i).2.1 (coords i).2.2
    have hindex : bitIndex (coords i).1 (coords i).2.1 (coords i).2.2 = i :=
      congrArg Fin.val (position_coords i)
    rw [position_coords, ← stateBit_bitIndex, hindex] at hvalue
    rw [hvalue, value_bitWires, GF2p128.ofBool_add_ofBool, GF2p128.ofBool_eq_zero,
      bne_eq_false_iff_eq]
    exact eq_comm
  exact ⟨fun hall i hi => (hbit ⟨i, hi⟩).mp (hall ⟨i, hi⟩), fun hall i => (hbit i).mpr (hall i i.isLt)⟩

/-- All checkpoints hold exactly when they are the native ones. -/
theorem emits_groups {state : Vector Wire 1600} {msg : List U8}
    (h : ReadsWires w state (checkpoint msg 0)) (start : Nat) : ∀ n,
    ∃ out, Emits w ((List.range n).foldlM shakeGroup state) start out (n * 1600)
        (∀ g < n, BitsAt w (start + g * 1600) (checkpoint msg (g + 1))) ∧
      (n = 0 → out = state) ∧ ∀ m, n = m + 1 → out = bitWires (start + m * 1600) 1600
  | 0 => by
      refine ⟨state, ?_, fun _ => rfl, fun m hm => absurd hm (Nat.succ_ne_zero m).symm⟩
      rw [List.range_zero, List.foldlM_nil, Nat.zero_mul]
      exact (Emits.pure state).congr ⟨fun _ g hg => absurd hg (Nat.not_lt_zero g), fun _ => trivial⟩
  | n + 1 => by
      obtain ⟨mid, hmid, hzero, hsucc⟩ := emits_groups h start n
      rw [List.range_succ, List.foldlM_append, Nat.succ_mul]
      -- the wires the last group starts from read some state; it is the native one if all
      -- checkpoints before it are
      obtain ⟨a, hread, hnative⟩ : ∃ a, ReadsWires w mid a ∧
          ((∀ g < n, BitsAt w (start + g * 1600) (checkpoint msg (g + 1))) → a = checkpoint msg n) := by
        cases n with
        | zero =>
            rw [hzero rfl]
            exact ⟨_, h, fun _ => rfl⟩
        | succ m =>
            rw [hsucc m rfl]
            exact ⟨_, readsWires_bitWires w _, fun hall => bitsAt_iff.mp (hall m (Nat.lt_succ_self m))⟩
      have hgroup := emits_shakeGroup hread n (start + n * 1600)
      have hlast : Emits w ([n].foldlM shakeGroup mid) (start + n * 1600)
          (bitWires (start + n * 1600) 1600) 1600
          (BitsAt w (start + n * 1600) (((RC.drop (4 * n)).take 4).foldl round a)) := by
        rw [List.foldlM_cons]
        exact hgroup.bind_return id
      refine ⟨_, (hmid.bind hlast).congr ?_, fun hn => absurd hn (Nat.succ_ne_zero n), fun m hm => ?_⟩
      · constructor
        · rintro ⟨hall, hbits⟩ g hg
          rcases Nat.lt_succ_iff_lt_or_eq.mp hg with hlt | rfl
          · exact hall g hlt
          · rwa [hnative hall, ← checkpoint_succ] at hbits
        · intro hall
          have hbefore := fun g hg => hall g (Nat.lt_succ_of_lt hg)
          refine ⟨hbefore, ?_⟩
          rw [hnative hbefore, ← checkpoint_succ]
          exact hall n (Nat.lt_succ_self n)
      · rw [Nat.succ.inj hm]

/-! ## Messages -/

/-- The wires have the values of the bits. -/
def Reads (w : Nat → Bool) (wires : List Wire) (bits : List Bool) : Prop :=
  wires.map (Wire.value w) = bits.map GF2p128.ofBool

namespace Reads

variable {wires wires' : List Wire} {bs bs' : List Bool}

theorem length_eq (h : Reads w wires bs) : wires.length = bs.length := by
  have hlen := congrArg List.length h
  simpa using hlen

theorem append (h : Reads w wires bs) (h' : Reads w wires' bs') :
    Reads w (wires ++ wires') (bs ++ bs') := by
  rw [Reads, List.map_append, List.map_append, h, h']

theorem take (h : Reads w wires bs) (n : Nat) : Reads w (wires.take n) (bs.take n) := by
  rw [Reads, List.map_take, List.map_take, h]

theorem drop (h : Reads w wires bs) (n : Nat) : Reads w (wires.drop n) (bs.drop n) := by
  rw [Reads, List.map_drop, List.map_drop, h]

theorem getD (h : Reads w wires bs) (i : Nat) :
    (wires.getD i (.constant 0)).value w = GF2p128.ofBool (bs.getD i false) := by
  have hi := congrArg (fun l => l[i]?) h
  simp only [List.getElem?_map] at hi
  rw [List.getD_eq_getElem?_getD, List.getD_eq_getElem?_getD]
  cases hw : wires[i]? with
  | none =>
      rw [hw] at hi
      rw [Option.map_eq_none_iff.mp hi.symm]
      rfl
  | some a =>
      rw [hw] at hi
      obtain ⟨b, hb, hvalue⟩ := Option.map_eq_some_iff.mp hi.symm
      rw [hb]
      exact hvalue.symm

theorem of_get {n : Nat} {v : Vector Wire n} (hlen : bs.length = n)
    (h : ∀ i : Fin n, (v.get i).value w = GF2p128.ofBool (bs.getD i false)) : Reads w v.toList bs := by
  apply List.ext_getElem
  · simp [hlen]
  · intro i hi hi'
    have hn : i < n := by simpa using hi
    have hget := h ⟨i, hn⟩
    have hb : i < bs.length := by simpa using hi'
    rw [List.getD_eq_getElem?_getD, List.getElem?_eq_getElem hb] at hget
    simpa [Vector.get_eq_getElem] using hget

/-- The wires of a range of witness bits read that range of the assignment. -/
theorem bitWires (w : Nat → Bool) (start n : Nat) :
    Reads w (Voleith.bitWires start n).toList ((List.range n).map fun i => w (start + i)) := by
  refine of_get (by simp) fun i => ?_
  rw [value_bitWires]
  simp [List.getD_eq_getElem?_getD]

end Reads

/-- The padded message, wire by wire. -/
theorem get_initialSpongeState (msg : List Wire) (i : Fin 1600) :
    (initialSpongeState msg).get i =
      if i.val = 1087 then .constant 1
      else if msg.length / 8 * 8 ≤ i ∧ i < msg.length / 8 * 8 + 5 then .constant 1
      else msg.getD i (.constant 0) := by
  have hdomain : ∀ bit < 8, ((0x1F#8 >>> bit) &&& 1#8 = 1#8 ↔ bit < 5) := by decide
  -- the first `n` bits of the domain separator
  have hfold (n : Nat) (hn : n ≤ 8) (state : Vector Wire 1600) :
      ((List.range n).foldl (fun state bit =>
        if (0x1F#8 >>> bit) &&& 1#8 = 1#8 then
          state.setIfInBounds (msg.length / 8 * 8 + bit) (.constant 1) else state) state).get i =
        if msg.length / 8 * 8 ≤ i ∧ i < msg.length / 8 * 8 + min n 5 then .constant 1
        else state.get i := by
    induction n with
    | zero => rw [if_neg (by omega), List.range_zero, List.foldl_nil]
    | succ n ih =>
        rw [List.range_succ, List.foldl_append, List.foldl_cons, List.foldl_nil]
        simp only [hdomain n (by omega)]
        by_cases h5 : n < 5
        · rw [if_pos h5, Vector.get_eq_getElem, Vector.getElem_setIfInBounds]
          have hmin : min (n + 1) 5 = n + 1 := by omega
          have hmin' : min n 5 = n := by omega
          have ih := ih (by omega)
          rw [Vector.get_eq_getElem, hmin'] at ih
          rw [hmin, ih]
          by_cases hi : msg.length / 8 * 8 + n = i
          · rw [if_pos hi, if_pos (by omega)]
          · rw [if_neg hi]
            exact if_congr (by omega) rfl rfl
        · have hmin : min (n + 1) 5 = min n 5 := by omega
          rw [if_neg h5, hmin]
          exact ih (by omega)
  have hlast (state : Vector Wire 1600) (x : Wire) :
      (state.set (rateBytes * 8 - 1) x (by decide)).get i =
        if i.val = 1087 then x else state.get i := by
    rw [Vector.get_eq_getElem, Vector.getElem_set]
    exact if_congr (by unfold rateBytes; omega) rfl rfl
  rw [initialSpongeState, hlast, hfold 8 le_rfl, Vector.get_ofFn]
  rfl

/-- The wires of a padded message read the absorbed state. -/
theorem readsWires_initial {msg : List Wire} {m : List U8} (h : Reads w msg (bytesBits m))
    (hm : m.length < rateBytes) : ReadsWires w (initialSpongeState msg) (checkpoint m 0) := by
  intro i
  have hlen : msg.length = m.length * 8 := by rw [h.length_eq, bytesBits_length]
  have hdiv : msg.length / 8 = m.length := by omega
  have hvalue := h.getD i
  have hbit : (bytesBits m).getD i false = leBit m i := by
    rw [List.getD_eq_getElem?_getD]
    by_cases hi : i.val < m.length * 8
    · rw [getElem?_bytesBits hi, Option.getD_some]
    · rw [List.getElem?_eq_none (by rw [bytesBits_length]; omega), leBit_of_length_le (by omega)]
      rfl
  rw [get_initialSpongeState, checkpoint_zero, stateBit_absorbed m i.isLt hm, hdiv]
  unfold rateBytes at hm
  by_cases hlast : i.val = 1087
  · -- the last bit of the rate is past the message and its separator
    rw [if_pos hlast, leBit_of_length_le (by omega), decide_eq_false (by omega),
      decide_eq_true hlast]
    rfl
  · rw [if_neg hlast, decide_eq_false hlast, Bool.xor_false]
    by_cases hdomain : m.length * 8 ≤ i.val ∧ i.val < m.length * 8 + 5
    · rw [if_pos hdomain, leBit_of_length_le (by omega), decide_eq_true (by omega)]
      rfl
    · rw [if_neg hdomain, hvalue, hbit, decide_eq_false (by omega), Bool.xor_false]

/-! ## Hashing in the circuit -/

/-- The six checkpoints of the message, from `start`. -/
def Checkpoints (w : Nat → Bool) (start : Nat) (msg : List U8) : Prop :=
  ∀ g < 6, BitsAt w (start + g * 1600) (checkpoint msg (g + 1))

theorem emits_shakeDegree16 {msg : List Wire} {m : List U8} (h : Reads w msg (bytesBits m))
    (hm : m.length < rateBytes) (start : Nat) :
    Emits w (shakeDegree16 msg) start (bitWires (start + 8000) 1600) 9600 (Checkpoints w start m) := by
  obtain ⟨out, hemits, -, hout⟩ := emits_groups (readsWires_initial h hm) start 6
  rw [hout 5 rfl] at hemits
  exact hemits

theorem emits_shakeHiddenOutput {msg : List Wire} {m : List U8} (h : Reads w msg (bytesBits m))
    (hm : m.length < rateBytes) (start : Nat) {n : Nat} (hn : n ≤ 1600) :
    Emits w (shakeHiddenOutput msg n hn) start (bitWires (start + 8000) n) 9600
      (Checkpoints w start m) := by
  have hwires : bitWires (start + 8000) n =
      Vector.ofFn fun i : Fin n => (bitWires (start + 8000) 1600).get ⟨i, i.isLt.trans_le hn⟩ := by
    simp only [bitWires, Vector.get_ofFn]
  rw [hwires]
  exact (emits_shakeDegree16 h hm start).bind_return _

theorem emits_assertEqual {actual expected : List Wire} {as bs : List Bool}
    (ha : Reads w actual as) (hb : Reads w expected bs) (hlen : bs.length ≤ as.length)
    (start : Nat) :
    Emits w (assertEqual actual expected) start () 0 (as.take bs.length = bs) := by
  refine (Emits.forM (actual.zip expected) fun p _ => Emits.assertZero (.add p.1 p.2)).congr ?_
  induction expected generalizing actual as bs with
  | nil =>
      obtain rfl : bs = [] := List.eq_nil_of_length_eq_zero hb.length_eq.symm
      simp
  | cons b expected ih =>
      cases bs with
      | nil => exact absurd hb.length_eq (by simp)
      | cons y bs =>
          cases as with
          | nil => exact absurd hlen (by simp)
          | cons x as =>
              cases actual with
              | nil => exact absurd ha.length_eq (by simp)
              | cons a actual =>
                  obtain ⟨hx, hxs⟩ := List.cons_eq_cons.mp ha
                  obtain ⟨hy, hys⟩ := List.cons_eq_cons.mp hb
                  have hhead : (Wire.add a b).value w = 0 ↔ x = y := by
                    rw [Wire.value, hx, hy, GF2p128.ofBool_add_ofBool, GF2p128.ofBool_eq_zero,
                      bne_eq_false_iff_eq]
                  rw [List.zip_cons_cons, List.forall_mem_cons, hhead,
                    ih hxs hys (by simpa using hlen), List.length_cons, List.take_succ_cons,
                    List.cons.injEq]

theorem emits_shakeAssertOutput {msg expected : List Wire} {m : List U8} {bs : List Bool}
    (h : Reads w msg (bytesBits m)) (hm : m.length < rateBytes) (hexpected : Reads w expected bs)
    (hbs : bs.length ≤ 1600) (start : Nat) :
    Emits w (shakeAssertOutput msg expected) start () 9600
      (Checkpoints w start m ∧ stateBits (stateAt w (start + 8000)) 0 bs.length = bs) := by
  have hlen : bs.length ≤ ((List.range 1600).map fun i => w (start + 8000 + i)).length := by
    rw [List.length_map, List.length_range]
    exact hbs
  have hequal := emits_assertEqual (Reads.bitWires w (start + 8000) 1600) hexpected hlen
    (start + 9600)
  have hboth : Emits w (shakeAssertOutput msg expected) start () (9600 + 0) _ :=
    (emits_shakeDegree16 h hm start).bind hequal
  refine Emits.congr hboth (and_congr_right fun _ => ?_)
  rw [← List.map_take, List.take_range, Nat.min_eq_left hbs, stateBits]
  refine Eq.congr_left (List.map_congr_left fun i hi => ?_)
  have hi' : i < 1600 := (List.mem_range.mp hi).trans_le hbs
  rw [Nat.zero_add, stateBit_stateAt w _ hi']

end VoleAct.Act
