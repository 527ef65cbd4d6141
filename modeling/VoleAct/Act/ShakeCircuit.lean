/-
  VoleAct.Act.ShakeCircuit

  SHAKE256 in the circuit is SHAKE256: the checkpoints, the output bits and the
  degrees of everything the circuit builds on the way.
-/
import VoleAct.Act.CircuitSpec

namespace VoleAct.Voleith

open VoleAct.BinaryFields

/-! ## Degrees of expressions and of their parts -/

/-- An expression and everything it is built from. -/
def Expr.parts : Expr → List Expr
  | .wireExpr a => [.wireExpr a]
  | .exprAdd a b => .exprAdd a b :: (a.parts ++ b.parts)
  | .exprMul a b => .exprMul a b :: (a.parts ++ b.parts)

theorem Expr.degree_le_of_mem_parts {e part : Expr} (h : part ∈ e.parts) :
    part.degree ≤ e.degree := by
  induction e with
  | wireExpr a =>
      rw [List.mem_singleton.mp h]
  | exprAdd a b iha ihb =>
      rcases List.mem_cons.mp h with rfl | h
      · exact le_rfl
      · rcases List.mem_append.mp h with h | h
        · exact (iha h).trans (Nat.le_max_left _ _)
        · exact (ihb h).trans (Nat.le_max_right _ _)
  | exprMul a b iha ihb =>
      rcases List.mem_cons.mp h with rfl | h
      · exact le_rfl
      · rcases List.mem_append.mp h with h | h
        · exact (iha h).trans (Nat.le_add_right _ _)
        · exact (ihb h).trans (Nat.le_add_left _ _)

theorem Expr.builtDegree_le_degree (e : Expr) : e.builtDegree ≤ e.degree := by
  induction e with
  | wireExpr a => exact Nat.zero_le _
  | exprAdd a b iha ihb => exact max_le_max iha ihb
  | exprMul a b iha ihb =>
      rw [Expr.degree, Expr.builtDegree]
      omega

/-- The expression a call builds or asserts. -/
def Op.expr? : Op → Option Expr
  | .build e | .assertExprZero e => some e
  | _ => none

/-- Nothing a program builds or asserts exceeds the degree limit, nor does any part of it. -/
theorem degree_parts_le {ops : List Op} (h : builtDegree ops ≤ maxDegree) {op : Op} (hop : op ∈ ops)
    {e part : Expr} (he : op.expr? = some e) (hpart : part ∈ e.parts) :
    part.degree ≤ maxDegree := by
  have hmem : op.builtDegree ≤ builtDegree ops := by
    clear h
    induction ops with
    | nil => exact absurd hop List.not_mem_nil
    | cons first ops ih =>
        rw [builtDegree_cons]
        rcases List.mem_cons.mp hop with rfl | hop
        · exact Nat.le_max_left _ _
        · exact (ih hop).trans (Nat.le_max_right _ _)
  have hbuilt : op.builtDegree = e.builtDegree := by
    cases op with
    | build _ => rw [← Option.some.inj he]; rfl
    | assertExprZero _ => rw [← Option.some.inj he]; rfl
    | _ => exact nomatch he
  have hdegree := e.degree_le_builtDegree
  have hone : 1 ≤ maxDegree := by decide
  exact (Expr.degree_le_of_mem_parts hpart).trans (by omega)

/-- The calls of a vector built entry by entry. -/
theorem run_ofFnM {α : Type} {n : Nat} {f : Fin n → CircuitM α} {g : Fin n → α}
    {new : Fin n → List Op} (h : ∀ i ops, (f i).run ops = .ok (g i, ops ++ new i)) (ops : List Op) :
    (Vector.ofFnM f).run ops = .ok (Vector.ofFn g, ops ++ (List.finRange n).flatMap new) := by
  induction n generalizing ops with
  | zero =>
      rw [Vector.ofFnM_zero, show Vector.ofFn g = #v[] from Vector.ext (by omega), List.finRange_zero,
        List.flatMap_nil, List.append_nil]
      rfl
  | succ n ih =>
      have hlast := h (Fin.last n)
      rw [Vector.ofFnM_succ, Vector.ofFn_succ, StateT.run_bind, ih fun i => h i.castSucc,
        List.finRange_succ_last, List.flatMap_append, List.flatMap_map, ← List.append_assoc]
      simp only [List.flatMap_cons, List.flatMap_nil, List.append_nil]
      show StateT.run (do
        let a ← f (Fin.last n)
        pure ((Vector.ofFn fun i => g i.castSucc).push a)) _ = _
      rw [StateT.run_bind, hlast]
      rfl

end VoleAct.Voleith

namespace VoleAct.Act

open VoleAct.BinaryFields VoleAct.Lib VoleAct.Voleith VoleAct.Act.Keccak

/-! ## One round -/

/-- What one round returns and calls. -/
theorem run_keccakRoundExpr (state : Vector Expr 1600) (rc : U64) : ∃ new, ∀ ops,
    (keccakRoundExpr state rc).run ops =
      .ok (Vector.ofFn (roundBitExpr (keccakLinearExpr state) rc), ops ++ new) :=
  ⟨_, run_ofFnM fun _ _ => rfl⟩

/-- A round of the circuit reads the native round, and at most doubles the degree. -/
theorem keccakRoundExpr_native (w : Nat → Bool) (state : Vector Expr 1600) (a : State) (rc : U64)
    (h : ∀ i : Fin 1600, (state.get i).value w = GF2p128.ofBool (stateBit a i)) :
    ∃ out new, (∀ ops, (keccakRoundExpr state rc).run ops = .ok (out, ops ++ new)) ∧
      (∀ i : Fin 1600, (out.get i).value w = GF2p128.ofBool (stateBit (round a rc) i)) ∧
      ∀ D, (∀ i, (state.get i).degree ≤ D) → ∀ i, (out.get i).degree ≤ 2 * D := by
  obtain ⟨new, hrun⟩ := run_keccakRoundExpr state rc
  have hreads {D : Nat} (hD : ∀ i, (state.get i).degree ≤ D) :
      ReadsState w (2 * D) (Vector.ofFn (roundBitExpr (keccakLinearExpr state) rc))
        (roundBits (bits a) rc) := by
    have hone : 1 ≤ D := (Expr.degree_pos _).trans (hD 0)
    have hstate : ReadsState w D state (bits a) := by
      refine ⟨fun x y z => ?_, hD, fun i => (Expr.builtDegree_le_degree _).trans (hD i)⟩
      rw [h, ← stateBit_bitIndex]
      rfl
    exact readsState_round (readsState_linear hone hstate) hone rc
  refine ⟨_, new, hrun, fun i => ?_, fun D hD => (hreads hD).degree⟩
  -- the values do not depend on which bound the degrees have
  have hall : ∀ i, (state.get i).degree ≤ Finset.univ.sup fun i => (state.get i).degree :=
    fun i => Finset.le_sup (f := fun i => (state.get i).degree) (Finset.mem_univ i)
  have hvalue := (hreads hall).value (coords i).1 (coords i).2.1 (coords i).2.2
  have hindex : bitIndex (coords i).1 (coords i).2.1 (coords i).2.2 = i :=
    congrArg Fin.val (position_coords i)
  rw [position_coords, ← bits_round, ← stateBit_bitIndex, hindex] at hvalue
  exact hvalue

/-! ## The whole hash -/

/-- The first bits of a one-block hash are the first bits of its state. -/
theorem take_stateBits_absorb {m : List U8} (hm : m.length < rateBytes) {n : Nat} (hn : n ≤ 1088) :
    (stateBits (absorb m) 0 1600).take n = (bytesBits (shake256 m ((n + 7) / 8))).take n := by
  have hout : (n + 7) / 8 ≤ rateBytes := by unfold rateBytes; omega
  have hlen : (shake256 m ((n + 7) / 8)).length = (n + 7) / 8 := by
    rw [shake256_single hm hout, squeezeBlock, List.length_map, List.length_range]
  apply List.ext_getElem?
  intro t
  by_cases ht : t < n
  · rw [List.getElem?_take_of_lt ht, List.getElem?_take_of_lt ht, getElem?_bytesBits (by omega),
      leBit_shake256 hm hout (by omega), checkpoint_six, ← absorb_of_lt hm, stateBits,
      List.getElem?_map, List.getElem?_range (by omega), Option.map_some, Nat.zero_add]
  · rw [List.getElem?_eq_none (by simp; omega), List.getElem?_eq_none (by simp; omega)]

/-- SHAKE256 in the circuit.  On wires that read a message of fewer than 136 bytes the assertions of
    `shake_degree16` hold exactly when the 9600 bits it allocates are the checkpoints the witness
    generator appends; then the wires it returns read the state the native hash squeezes from, so
    the first of them its output.  Nothing it builds or asserts, nor any part of that, exceeds
    degree 16.  One round of the circuit is one native round on any state, and at most doubles the
    degree. -/
theorem shake_circuit_native :
    (∀ (w : Nat → Bool) (msg : List Wire) (m : List U8) (start : Nat), m.length < 136 →
      Reads w msg (bytesBits m) →
      ∃ out new, (∀ ops, witnessBits ops = start →
          (shakeDegree16 msg).run ops = .ok (out, ops ++ new)) ∧
        witnessBits new = 6 * 1600 ∧
        (Satisfies w new ↔
          (keccakCheckpoints m : Outcome VoleithError _) = .ok (segment w start (6 * 1600))) ∧
        (Satisfies w new → Reads w out.toList (stateBits (absorb m) 0 1600) ∧
          ∀ n ≤ 1088, Reads w (out.toList.take n)
            ((bytesBits (shake256 m ((n + 7) / 8))).take n)) ∧
        ∀ op ∈ new, ∀ e, op.expr? = some e → ∀ part ∈ e.parts, part.degree ≤ 16) ∧
    (∀ (w : Nat → Bool) (state : Vector Expr 1600) (a : State) (rc : U64),
      (∀ i : Fin 1600, (state.get i).value w = GF2p128.ofBool (stateBit a i)) →
      ∃ out new, (∀ ops, (keccakRoundExpr state rc).run ops = .ok (out, ops ++ new)) ∧
        (∀ i : Fin 1600, (out.get i).value w = GF2p128.ofBool (stateBit (round a rc) i)) ∧
        ∀ D, (∀ i, (state.get i).degree ≤ D) → ∀ i, (out.get i).degree ≤ 2 * D) := by
  refine ⟨fun w msg m start hm hmsg => ?_, keccakRoundExpr_native⟩
  obtain ⟨new, hrun, hbits, hdegree, hsat⟩ := emits_shakeDegree16 hmsg hm start
  -- the satisfying segment is the checkpoint list, and the output its last state
  refine ⟨_, new, hrun, hbits, ?_, fun hall => ?_, fun op hop e he part hpart =>
    degree_parts_le hdegree hop he hpart⟩
  · rw [hsat, checkpoints_iff, keccakCheckpoints_eq hm]
    exact ⟨fun h => h ▸ rfl, fun h => (Except.ok.inj h).symm⟩
  · -- the last checkpoint is the permuted state
    have hstate : stateAt w (start + 8000) = absorb m := by
      rw [(hsat.mp hall).stateAt_eq, checkpoint_six, absorb_of_lt hm]
    have hout : Reads w (bitWires (start + 8000) 1600).toList (stateBits (absorb m) 0 1600) := by
      rw [← hstate]
      refine Reads.of_get (stateBits_length _ _ _) fun i => ?_
      rw [readsWires_bitWires w (start + 8000) i, stateBits, List.getD_eq_getElem?_getD,
        List.getElem?_map, List.getElem?_range i.isLt, Option.map_some, Option.getD_some,
        Nat.zero_add]
    refine ⟨hout, fun n hn => ?_⟩
    rw [← take_stateBits_absorb hm hn]
    exact hout.take n

/-- The hash of three bytes on witness wires: with their checkpoints in the witness the circuit is
    satisfied, and its output wires carry the native digest. -/
theorem shake_circuit_native_abc :
    let m := ascii "abc"
    ∃ checkpoints out new, (keccakCheckpoints m : Outcome VoleithError _) = .ok checkpoints ∧
      (∀ ops, witnessBits ops = 24 →
        (shakeDegree16 (bitWires 0 24).toList).run ops = .ok (out, ops ++ new)) ∧
      Satisfies (assignment (bytesBits m ++ checkpoints)) new ∧
      Reads (assignment (bytesBits m ++ checkpoints)) (out.toList.take 256)
        (bytesBits (shake256 m 32)) := by
  intro m
  have hm : m.length < 136 := by decide
  have hbits : (bytesBits m).length = 24 := by
    rw [bytesBits_length]
    rfl
  have hcheckpoints : (checkpointBits m).length = 6 * 1600 := by simp
  let w := assignment (bytesBits m ++ checkpointBits m)
  have hw := segment_assignment (bytesBits m ++ checkpointBits m)
  rw [List.length_append, hbits, hcheckpoints] at hw
  obtain ⟨hmessage, hsegment⟩ := (segment_eq_append hbits).mp hw
  obtain ⟨out, new, hrun, -, hsat, hout, -⟩ :=
    shake_circuit_native.1 w (bitWires 0 24).toList m 24 hm (reads_bitWires hmessage)
  have hok : (keccakCheckpoints m : Outcome VoleithError _) = .ok (checkpointBits m) :=
    keccakCheckpoints_eq hm
  have hsatisfied : Satisfies w new := hsat.mpr (by rw [hok, ← hsegment, Nat.zero_add])
  have hdigest : Reads w (out.toList.take 256) ((bytesBits (shake256 m 32)).take 256) :=
    (hout hsatisfied).2 256 (by decide)
  have hlen : (bytesBits (shake256 m 32)).length = 256 := by
    rw [bytesBits_length, shake256_single hm (by decide), squeezeBlock, List.length_map,
      List.length_range]
  rw [List.take_of_length_le hlen.le] at hdigest
  exact ⟨checkpointBits m, out, new, hok, hrun, hsatisfied, hdigest⟩

end VoleAct.Act
