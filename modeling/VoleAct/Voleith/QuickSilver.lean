/-
  VoleAct.Voleith.QuickSilver

  The batched check as one polynomial identity in `Δ`.

  The challenge stream weights every constraint's polynomial, shifted to the
  common degree `d`; the sum is the batch polynomial, and its coefficient at `d`
  is the combined error of the assertions.  The prover publishes the masks plus
  the batch without that coefficient; the verifier evaluates the masks plus the
  whole batch at `Δ`.
-/
import VoleAct.Voleith.BackendSpec

namespace VoleAct.Voleith

open Polynomial VoleAct.BinaryFields VoleAct.Lib

/-! ## The batch polynomial -/

/-- A constraint with the fold coefficients and the weight drawn for it. -/
structure Draw where
  constraint : Constraint
  phis : List GF2p128
  x : GF2p128

/-- The draws for a list of constraints, in emission order. -/
def draws : List Constraint → XofReader → List Draw
  | [], _ => []
  | c :: cs, chi =>
      let (phis, chi) := nextElems c.numPhis chi
      let (x, chi) := nextElem chi
      ⟨c, phis, x⟩ :: draws cs chi

/-- The weighted, aligned sum of the constraints' polynomials. -/
noncomputable def batchPoly (w : Nat → Bool) (v : Nat → GF2p128) (d : Nat) (ds : List Draw) :
    GF2p128[X] :=
  (ds.map fun a => C a.x * (X ^ (d - a.constraint.degree) * a.constraint.poly w v a.phis)).sum

/-- The weighted sum of the assertions' errors. -/
def combinedError (w : Nat → Bool) (ds : List Draw) : GF2p128 :=
  (ds.map fun a => a.x * a.constraint.error w a.phis).sum

theorem nextElems_length (n : Nat) (chi : XofReader) : (nextElems n chi).1.length = n := by
  induction n generalizing chi with
  | zero => rfl
  | succ n ih => simp [nextElems, ih]

theorem length_phis_of_mem_draws {cs : List Constraint} {chi : XofReader} {a : Draw}
    (h : a ∈ draws cs chi) : a.phis.length = a.constraint.numPhis := by
  induction cs generalizing chi with
  | nil => simp [draws] at h
  | cons c cs ih =>
      rcases List.mem_cons.mp h with rfl | h
      · exact nextElems_length _ _
      · exact ih h

theorem constraint_of_mem_draws {cs : List Constraint} {chi : XofReader} {a : Draw}
    (h : a ∈ draws cs chi) : a.constraint ∈ cs := by
  induction cs generalizing chi with
  | nil => simp [draws] at h
  | cons c cs ih =>
      rcases List.mem_cons.mp h with rfl | h
      · exact List.mem_cons_self
      · exact List.mem_cons_of_mem _ (ih h)

theorem batchPoly_cons (w : Nat → Bool) (v : Nat → GF2p128) (d : Nat) (a : Draw) (ds : List Draw) :
    batchPoly w v d (a :: ds) =
      C a.x * (X ^ (d - a.constraint.degree) * a.constraint.poly w v a.phis) +
        batchPoly w v d ds := by
  rw [batchPoly, List.map_cons, List.sum_cons, batchPoly]

theorem combinedError_cons (w : Nat → Bool) (a : Draw) (ds : List Draw) :
    combinedError w (a :: ds) = a.x * a.constraint.error w a.phis + combinedError w ds := by
  rw [combinedError, List.map_cons, List.sum_cons, combinedError]

theorem natDegree_batchPoly_le (w : Nat → Bool) (v : Nat → GF2p128) {d : Nat} {ds : List Draw}
    (hdeg : ∀ a ∈ ds, a.constraint.degree ≤ d) : (batchPoly w v d ds).natDegree ≤ d := by
  apply natDegree_list_sum_le
  intro p hp
  obtain ⟨a, ha, rfl⟩ := List.mem_map.mp hp
  refine (natDegree_C_mul_le _ _).trans ?_
  refine (natDegree_mul_le_of_le (natDegree_X_pow_le _)
    (a.constraint.natDegree_poly_le w v a.phis)).trans ?_
  exact (Nat.sub_add_cancel (hdeg a ha)).le

/-- The coefficient of the batch at the common degree is the combined error. -/
theorem coeff_batchPoly (w : Nat → Bool) (v : Nat → GF2p128) {d : Nat} {ds : List Draw}
    (hdeg : ∀ a ∈ ds, a.constraint.degree ≤ d)
    (hphis : ∀ a ∈ ds, a.phis.length = a.constraint.numPhis) :
    (batchPoly w v d ds).coeff d = combinedError w ds := by
  rw [batchPoly, coeff_list_sum, List.map_map, combinedError]
  congr 1
  apply List.map_congr_left
  intro a ha
  rw [Function.comp_apply, coeff_C_mul, coeff_align (hdeg a ha),
    a.constraint.coeff_degree w v (hphis a ha)]

/-! ## The two constraint loops -/

/-- The verifier's loop adds the batch at `Δ`. -/
theorem verifierConstraints_spec (ε : Type) {w : Nat → Bool} {v : Nat → GF2p128} {delta : GF2p128}
    {d : Nat} {checks : List VerifierConstraint} {cs : List Constraint}
    (h : List.Forall₂ (VerifierConstraint.Records w v delta) checks cs)
    (hdeg : ∀ c ∈ cs, c.degree ≤ d) (chi : XofReader) (acc : GF2p128) :
    (verifierConstraints d (powTable delta (d + 1) 1) delta checks chi acc : Outcome ε GF2p128) =
      .ok (acc + (batchPoly w v d (draws cs chi)).eval delta) := by
  induction h generalizing chi acc with
  | nil => simp [verifierConstraints, draws, batchPoly]
  | @cons vc c checks cs hvc hrest ih =>
      obtain ⟨hdegree, heval⟩ := hvc.eval_spec chi
      have hle : c.degree ≤ d := hdeg c (by simp)
      have hpow : (Outcome.index (powTable delta (d + 1) 1) (d - c.degree) : Outcome ε GF2p128) =
          .ok (delta ^ (d - c.degree)) := by
        rw [Outcome.index, getElem?_powTable _ _ _ (by omega), Outcome.expect_some, one_mul]
      simp only [verifierConstraints, heval, hdegree, hle, decide_true, Outcome.assert_true,
        Outcome.ok_bind, hpow]
      rw [ih fun c' hc' => hdeg c' (by simp [hc'])]
      simp only [draws, batchPoly_cons, eval_add, eval_mul, eval_C, eval_pow, eval_X]
      congr 1
      ring

/-- The folded error of a stored system is the system's error. -/
theorem fold_stored_error (w : Nat → Bool) (v : Nat → GF2p128) (s : QuadSystem)
    {phis : List GF2p128} (h : phis.length = s.linear.length) :
    ((s.stored w v).fold phis).2.2 = (Constraint.system s).error w phis := by
  rw [← Constraint.coeff_degree w v (.system s) h]
  simp [Constraint.poly, Constraint.degree, s.poly_eq]

/-- Filling the buffer of a recorded constraint: it draws the fold coefficients, and all but the
    last entry are the low coefficients. -/
theorem fillCoefficients_spec {enforce : Bool} {w : Nat → Bool} {v : Nat → GF2p128}
    {pc : ProverConstraint} {c : Constraint} (h : pc.Records w v c) (chi : XofReader)
    (herror : ∀ s, c = .system s → enforce = true →
      c.error w (nextElems c.numPhis chi).1 = 0) :
    ∃ filled, fillCoefficients enforce pc chi = .ok (filled, (nextElems c.numPhis chi).2) ∧
      filled.dropLast = pc.low (nextElems c.numPhis chi).1 := by
  match pc, c with
  | .simple a0 a1, .zero a => exact ⟨[a0, a1, 0], rfl, rfl⟩
  | .simple a0 a1, .mul x y z => exact ⟨[a0, a1, 0], rfl, rfl⟩
  | .polynomial p, .expr e => exact ⟨p.coeffs, rfl, rfl⟩
  | .system sys, .system s =>
      obtain rfl : sys = s.stored w v := h
      have hnum : (s.stored w v).numEquations = s.linear.length := List.length_map _
      have hfold := fold_stored_error w v s (nextElems_length s.linear.length chi)
      refine ⟨[_, _, (Constraint.system s).error w (nextElems s.linear.length chi).1], ?_, rfl⟩
      · simp only [fillCoefficients, hnum, hfold]
        rw [if_neg]
        · rfl
        · simp only [Bool.and_eq_true, bne_iff_ne, not_and, not_not]
          exact fun henf => herror s rfl henf

/-- A prover constraint's step: it draws, and adds its shifted low coefficients. -/
theorem proverConstraint_spec {enforce : Bool} {w : Nat → Bool} {v : Nat → GF2p128}
    {pc : ProverConstraint} {c : Constraint} (h : pc.Records w v c) (chi : XofReader)
    {qs : List GF2p128} (hdeg : c.degree ≤ qs.length)
    (herror : ∀ s, c = .system s → enforce = true →
      c.error w (nextElems c.numPhis chi).1 = 0) :
    ∃ qs', proverConstraint enforce pc chi qs =
        .ok ((nextElem (nextElems c.numPhis chi).2).2, qs') ∧
      qs'.length = qs.length ∧
      toPoly qs' + C ((nextElem (nextElems c.numPhis chi).2).1 *
          c.error w (nextElems c.numPhis chi).1) * X ^ qs.length =
        toPoly qs + C (nextElem (nextElems c.numPhis chi).2).1 *
          (X ^ (qs.length - c.degree) * c.poly w v (nextElems c.numPhis chi).1) := by
  obtain ⟨hlen, hpoly⟩ := h.low_spec (nextElems_length c.numPhis chi)
  obtain ⟨filled, hfilled, hlow⟩ := fillCoefficients_spec h chi herror
  refine ⟨addAt qs (qs.length - c.degree) ((pc.low (nextElems c.numPhis chi).1).map
    ((nextElem (nextElems c.numPhis chi).2).1 * ·)), ?_, addAt_length _ _ _, ?_⟩
  · simp only [proverConstraint, hfilled, Outcome.ok_bind, alignAndAccumulate, hlow, hlen, hdeg,
      decide_true, Outcome.assert_true]
    rfl
  · rw [toPoly_addAt (by rw [List.length_map, hlen]; omega), toPoly_map_mul, hpoly, C_mul]
    have hX : (X : GF2p128[X]) ^ qs.length = X ^ (qs.length - c.degree) * X ^ c.degree := by
      rw [← pow_add, Nat.sub_add_cancel hdeg]
    rw [hX]
    ring

/-- The prover's loop adds the batch without its leading coefficient. -/
theorem proverConstraints_spec {enforce : Bool} {w : Nat → Bool} {v : Nat → GF2p128}
    {pcs : List ProverConstraint} {cs : List Constraint}
    (h : List.Forall₂ (ProverConstraint.Records w v) pcs cs) (chi : XofReader)
    {qs : List GF2p128} (hdeg : ∀ c ∈ cs, c.degree ≤ qs.length)
    (herror : ∀ a ∈ draws cs chi, ∀ s, a.constraint = .system s → enforce = true →
      a.constraint.error w a.phis = 0) :
    ∃ qs', proverConstraints enforce pcs chi qs = .ok qs' ∧ qs'.length = qs.length ∧
      toPoly qs' + C (combinedError w (draws cs chi)) * X ^ qs.length =
        toPoly qs + batchPoly w v qs.length (draws cs chi) := by
  induction h generalizing chi qs with
  | nil => exact ⟨qs, rfl, rfl, by simp [draws, combinedError, batchPoly]⟩
  | @cons pc c pcs cs hpc hrest ih =>
      obtain ⟨qs₁, hstep, hlen₁, hpoly₁⟩ := proverConstraint_spec hpc chi (hdeg c (by simp))
        (fun s hs henf => herror ⟨c, _, _⟩ List.mem_cons_self s hs henf)
      obtain ⟨qs₂, hloop, hlen₂, hpoly₂⟩ := @ih (nextElem (nextElems c.numPhis chi).2).2 qs₁
        (fun c' hc' => hlen₁ ▸ hdeg c' (by simp [hc']))
        (fun a ha => herror a (List.mem_cons_of_mem _ ha))
      refine ⟨qs₂, ?_, hlen₂.trans hlen₁, ?_⟩
      · rw [proverConstraints, hstep]
        exact hloop
      · rw [hlen₁] at hpoly₂
        simp only [draws, batchPoly_cons, combinedError_cons, C_add, add_mul]
        calc _ = toPoly qs₂ + C (combinedError w (draws cs
                  (nextElem (nextElems c.numPhis chi).2).2)) * X ^ qs.length +
                C ((nextElem (nextElems c.numPhis chi).2).1 *
                  c.error w (nextElems c.numPhis chi).1) * X ^ qs.length := by ring
          _ = _ := by rw [hpoly₂, add_right_comm, hpoly₁, add_assoc]

theorem fillCoefficients_enforced {w : Nat → Bool} {v : Nat → GF2p128} {pc : ProverConstraint}
    {c : Constraint} (h : pc.Records w v c) (chi : XofReader) {filled : List GF2p128}
    {chi' : XofReader} (hok : fillCoefficients true pc chi = .ok (filled, chi')) :
    chi' = (nextElems c.numPhis chi).2 ∧
      ∀ s, c = .system s → c.error w (nextElems c.numPhis chi).1 = 0 := by
  match pc, c with
  | .simple a0 a1, .zero a => cases hok; exact ⟨rfl, fun s hs => nomatch hs⟩
  | .simple a0 a1, .mul x y z => cases hok; exact ⟨rfl, fun s hs => nomatch hs⟩
  | .polynomial p, .expr e => cases hok; exact ⟨rfl, fun s hs => nomatch hs⟩
  | .system sys, .system s =>
      obtain rfl : sys = s.stored w v := h
      have hnum : (s.stored w v).numEquations = s.linear.length := List.length_map _
      have hfold := fold_stored_error w v s (nextElems_length s.linear.length chi)
      simp only [fillCoefficients, hnum, hfold] at hok
      split at hok
      · cases hok
      · next hzero =>
          cases hok
          have hzero' : (Constraint.system s).error w (nextElems s.linear.length chi).1 = 0 := by
            simpa using hzero
          exact ⟨rfl, fun _ _ => hzero'⟩

/-- A successful enforced loop found no folded system in error. -/
theorem proverConstraints_enforced {w : Nat → Bool} {v : Nat → GF2p128}
    {pcs : List ProverConstraint} {cs : List Constraint}
    (h : List.Forall₂ (ProverConstraint.Records w v) pcs cs) (chi : XofReader)
    {qs qs' : List GF2p128} (hok : proverConstraints true pcs chi qs = .ok qs') :
    ∀ a ∈ draws cs chi, ∀ s, a.constraint = .system s → a.constraint.error w a.phis = 0 := by
  induction h generalizing chi qs with
  | nil => simp [draws]
  | @cons pc c pcs cs hpc hrest ih =>
      obtain ⟨⟨chi₁, qs₁⟩, hstep, hok⟩ := Outcome.bind_eq_ok.mp hok
      obtain ⟨⟨filled, chi₂⟩, hfill, hstep⟩ := Outcome.bind_eq_ok.mp hstep
      obtain ⟨qs₂, -, hstep⟩ := Outcome.bind_eq_ok.mp hstep
      obtain ⟨rfl, rfl⟩ : (nextElem chi₂).2 = chi₁ ∧ qs₂ = qs₁ :=
        Prod.mk.inj (Except.ok.inj hstep)
      obtain ⟨rfl, herror⟩ := fillCoefficients_enforced hpc chi hfill
      intro a ha
      rcases List.mem_cons.mp ha with rfl | ha
      · exact herror
      · exact ih _ hok a ha

/-! ## Mask groups -/

/-- The basis element `X^b` of the field. -/
def xBit (b : Nat) : GF2p128 := ⟨1#128 <<< b⟩

/-- `Σ X^b·f(b)` over the coordinates of mask group `group`. -/
def maskSum (l lambda group : Nat) (f : Nat → GF2p128) : GF2p128 :=
  ∑ b ∈ Finset.range lambda, xBit b * f (l + group * lambda + b)

theorem maskSum_add (l lambda group : Nat) (f g : Nat → GF2p128) :
    maskSum l lambda group (fun t => f t + g t) =
      maskSum l lambda group f + maskSum l lambda group g := by
  simp only [maskSum, mul_add, Finset.sum_add_distrib]

theorem maskSum_mul (l lambda group : Nat) (f : Nat → GF2p128) (x : GF2p128) :
    maskSum l lambda group (fun t => f t * x) = maskSum l lambda group f * x := by
  simp only [maskSum, Finset.sum_mul, mul_assoc]

theorem maskSum_congr {l lambda group : Nat} {f g : Nat → GF2p128}
    (h : ∀ b < lambda, f (l + group * lambda + b) = g (l + group * lambda + b)) :
    maskSum l lambda group f = maskSum l lambda group g :=
  Finset.sum_congr rfl fun b hb => by rw [h b (Finset.mem_range.mp hb)]

/-- A bit at place `n` of an element. -/
theorem bit_xBit_mul_ofBool {n : Nat} (hn : n < 128) (b : Bool) (i : Nat) :
    (xBit n * GF2p128.ofBool b).bit i = (decide (i = n) && b) := by
  have hx : (xBit n).bit i = decide (i = n) := by
    rw [xBit, GF2p128.bit, ← BitVec.twoPow_eq, BitVec.getLsbD_twoPow]
    simp only [hn, decide_true, Bool.true_and, eq_comm]
  cases b with
  | false => simp
  | true => simp [hx]

/-- The value of a bit group is the element with those bits. -/
theorem maskSum_ofBool (l group : Nat) (f : Nat → Bool) :
    maskSum l 128 group (fun t => GF2p128.ofBool (f t)) =
      GF2p128.ofBits fun b => f (l + group * 128 + b) := by
  have hbits : ∀ n ≤ 128, ∀ i < 128,
      (∑ b ∈ Finset.range n, xBit b * GF2p128.ofBool (f (l + group * 128 + b))).bit i =
        (decide (i < n) && f (l + group * 128 + i)) := by
    intro n
    induction n with
    | zero => simp
    | succ n ih =>
        intro hn i hi
        rw [Finset.sum_range_succ, GF2p128.bit_add, ih (by omega) i hi,
          bit_xBit_mul_ofBool (by omega)]
        by_cases hin : i = n
        · subst hin
          simp
        · simp [hin, show i < n + 1 ↔ i < n by omega]
  apply GF2p128.ext_bit
  intro i hi
  rw [maskSum, hbits 128 (Nat.le_refl _) i hi, GF2p128.bit_ofBits _ hi, decide_eq_true hi,
    Bool.true_and]

/-- One step of the loop over a group adds its bit and its tag or key. -/
theorem qsMaskStep_spec (ε : Type) {l lambda group n : Nat} {u : Option BitVector}
    {elems : List GF2p128} (hu : ∀ v, u = some v → l + group * lambda + n < v.len)
    (helems : l + group * lambda + n < elems.length) (value tag : GF2p128) :
    (qsMaskStep l lambda u elems group (value, tag) n : Outcome ε _) =
      .ok (value + xBit n * GF2p128.ofBool
          (u.elim false fun v => v.bit (l + group * lambda + n)),
        tag + xBit n * elems.getD (l + group * lambda + n) 0) := by
  have hbit : (maskBit u (l + group * lambda + n) : Outcome ε Bool) =
      .ok (u.elim false fun v => v.bit (l + group * lambda + n)) := by
    cases u with
    | none => rfl
    | some v => exact BitVector.get_of_lt (hu v rfl)
  have hget : (Outcome.index elems (l + group * lambda + n) : Outcome ε GF2p128) =
      .ok (elems.getD (l + group * lambda + n) 0) := by
    rw [Outcome.index_of_lt helems, List.getD_eq_getElem?_getD, List.getElem?_eq_getElem helems,
      Option.getD_some]
  simp only [qsMaskStep, hbit, hget, Outcome.ok_bind]
  cases u.elim false fun v => v.bit (l + group * lambda + n) with
  | false =>
      simp only [Bool.false_eq_true, if_false, GF2p128.ofBool_false, mul_zero, add_zero]
      rfl
  | true =>
      simp only [if_true, GF2p128.ofBool_true, mul_one]
      rfl

/-- A group of masks within range: its value and its tag or key. -/
theorem qsMaskGroup_spec (ε : Type) {l lambda group : Nat} {u : Option BitVector}
    {elems : List GF2p128} (hu : ∀ v, u = some v → l + group * lambda + lambda ≤ v.len)
    (helems : l + group * lambda + lambda ≤ elems.length) :
    (qsMaskGroup l lambda u elems group : Outcome ε _) =
      .ok (maskSum l lambda group fun t => GF2p128.ofBool (u.elim false fun v => v.bit t),
        maskSum l lambda group fun t => elems.getD t 0) := by
  have hloop : ∀ n ≤ lambda,
      ((List.range n).foldlM (qsMaskStep l lambda u elems group) (0, 0) : Outcome ε _) =
        .ok (∑ b ∈ Finset.range n, xBit b *
            GF2p128.ofBool (u.elim false fun v => v.bit (l + group * lambda + b)),
          ∑ b ∈ Finset.range n, xBit b * elems.getD (l + group * lambda + b) 0) := by
    intro n
    induction n with
    | zero => intro _; rfl
    | succ n ih =>
        intro hn
        rw [List.range_succ, List.foldlM_append, ih (by omega), Outcome.ok_bind, List.foldlM_cons,
          qsMaskStep_spec ε (fun v hv => (by omega : _ < l + group * lambda + lambda).trans_le (hu v hv))
            (by omega), Finset.sum_range_succ, Finset.sum_range_succ]
        rfl
  exact hloop lambda (Nat.le_refl _)

theorem qsMaskGroups_spec (ε : Type) {l lambda groups : Nat} (u : Option BitVector)
    (elems : List GF2p128) (hu : ∀ v, u = some v → l + groups * lambda ≤ v.len)
    (helems : l + groups * lambda ≤ elems.length) :
    (qsMaskGroups l lambda groups u elems : Outcome ε _) =
      .ok ((List.range groups).map fun group =>
        (maskSum l lambda group fun t => GF2p128.ofBool (u.elim false fun v => v.bit t),
          maskSum l lambda group fun t => elems.getD t 0)) := by
  apply Outcome.mapM_ok
  intro group hgroup
  have hlt : group + 1 ≤ groups := List.mem_range.mp hgroup
  have hle : l + group * lambda + lambda ≤ l + groups * lambda := by
    calc l + group * lambda + lambda = l + (group + 1) * lambda := by rw [Nat.succ_mul]; omega
      _ ≤ l + groups * lambda := Nat.add_le_add_left (Nat.mul_le_mul_right _ hlt) _
  exact qsMaskGroup_spec ε (fun v hv => hle.trans (hu v hv)) (hle.trans helems)

/-- The polynomial of `n` mask groups: group `i` contributes `X^i·(tag + value·X)`. -/
noncomputable def maskPoly (n : Nat) (value tag : Nat → GF2p128) : GF2p128[X] :=
  ∑ i ∈ Finset.range n, X ^ i * (C (tag i) + C (value i) * X)

theorem natDegree_maskPoly_le (n : Nat) (value tag : Nat → GF2p128) :
    (maskPoly n value tag).natDegree ≤ n := by
  apply natDegree_sum_le_of_forall_le
  intro i hi
  refine (natDegree_mul_le_of_le (natDegree_X_pow_le i) (natDegree_tag_add_value_le _ _)).trans ?_
  exact Finset.mem_range.mp hi

theorem eval_maskPoly (n : Nat) (value tag : Nat → GF2p128) (x : GF2p128) :
    (maskPoly n value tag).eval x = ∑ i ∈ Finset.range n, (tag i + value i * x) * x ^ i := by
  rw [maskPoly, eval_finsetSum]
  apply Finset.sum_congr rfl
  intro i _
  simp only [eval_mul, eval_pow, eval_X, eval_add, eval_C]
  ring

/-- Above the constant one, coefficient `i + 1` holds the value of group `i` and the tag of the
    next group, if there is one. -/
theorem coeff_maskPoly (n : Nat) (value tag : Nat → GF2p128) {i : Nat} (hi : i < n) :
    (maskPoly n value tag).coeff (i + 1) = (if i + 1 < n then tag (i + 1) else 0) + value i := by
  have hterm : ∀ j, (X ^ j * (C (tag j) + C (value j) * X)).coeff (i + 1) =
      (if i + 1 = j then tag j else 0) + if i = j then value j else 0 := by
    intro j
    rw [mul_add, coeff_add, mul_comm (X ^ j), coeff_C_mul_X_pow, mul_left_comm, ← pow_succ,
      coeff_C_mul_X_pow]
    simp only [Nat.add_right_cancel_iff]
  rw [maskPoly, finsetSum_coeff, Finset.sum_congr rfl fun j _ => hterm j, Finset.sum_add_distrib,
    Finset.sum_ite_eq, Finset.sum_ite_eq]
  simp only [Finset.mem_range, hi, if_true]

theorem toPoly_maskCoefficients (index n : Nat) (value tag : Nat → GF2p128) (qs : List GF2p128)
    (h : index + n + 1 ≤ qs.length) :
    (maskCoefficients index ((List.range' index n).map fun i => (value i, tag i)) qs).length =
      qs.length ∧
    toPoly (maskCoefficients index ((List.range' index n).map fun i => (value i, tag i)) qs) =
      toPoly qs + ∑ i ∈ Finset.Ico index (index + n), X ^ i * (C (tag i) + C (value i) * X) := by
  induction n generalizing index qs with
  | zero => simp [maskCoefficients]
  | succ n ih =>
      obtain ⟨hlen, hpoly⟩ := ih (index + 1) (addAt qs index [tag index, value index])
        (by rw [addAt_length]; omega)
      have hcoeffs : ([tag index, value index] : List GF2p128).length = 2 := rfl
      rw [List.range'_succ, List.map_cons, maskCoefficients]
      refine ⟨by rw [hlen, addAt_length], ?_⟩
      rw [hpoly, toPoly_addAt (by rw [hcoeffs]; omega),
        Finset.sum_eq_sum_Ico_succ_bot (show index < index + (n + 1) by omega),
        show index + 1 + n = index + (n + 1) by omega]
      rw [toPoly_cons, toPoly_cons, toPoly_nil]
      ring

/-- The coefficient list the masks start from. -/
theorem maskCoefficients_spec (n : Nat) (value tag : Nat → GF2p128) :
    (maskCoefficients 0 ((List.range n).map fun i => (value i, tag i))
      (List.replicate (n + 1) 0)).length = n + 1 ∧
    toPoly (maskCoefficients 0 ((List.range n).map fun i => (value i, tag i))
      (List.replicate (n + 1) 0)) = maskPoly n value tag := by
  have h := toPoly_maskCoefficients 0 n value tag (List.replicate (n + 1) 0) (by simp)
  rw [← List.range_eq_range', toPoly_replicate_zero, List.length_replicate, zero_add, zero_add,
    ← Finset.range_eq_Ico] at h
  exact h

/-- The verifier's mask sum, for at least as many powers as groups. -/
theorem maskKeySum_spec (ε : Type) (delta : GF2p128) {n m : Nat} (key : Nat → GF2p128)
    (h : n ≤ m) :
    (maskKeySum (powTable delta m 1) ((List.range n).map fun i => (0, key i)) : Outcome ε GF2p128) =
      .ok (∑ i ∈ Finset.range n, key i * delta ^ i) := by
  induction n with
  | zero => rfl
  | succ n ih =>
      have hpow : (Outcome.index (powTable delta m 1) n : Outcome ε GF2p128) = .ok (delta ^ n) := by
        rw [Outcome.index, getElem?_powTable _ _ _ (by omega), Outcome.expect_some, one_mul]
      rw [List.range_succ, List.map_append, maskKeySum, List.zipIdx_append, List.foldlM_append,
        ← maskKeySum, ih (by omega), Outcome.ok_bind, Finset.sum_range_succ]
      simp only [List.map_cons, List.map_nil, List.zipIdx_cons, List.zipIdx_nil, List.length_map,
        List.length_range, List.foldlM_cons, List.foldlM_nil, zero_add, hpow, Outcome.ok_bind]
      rfl

/-! ## Both sides of the final equation -/

/-- The values of the mask groups of `u`. -/
def maskValue (l lambda : Nat) (u : BitVector) (group : Nat) : GF2p128 :=
  maskSum l lambda group fun t => GF2p128.ofBool (u.bit t)

/-- The tags, or keys, of the mask groups. -/
def maskTag (l lambda : Nat) (elems : List GF2p128) (group : Nat) : GF2p128 :=
  maskSum l lambda group fun t => elems.getD t 0

/-- The masks of a VOLE as a polynomial. -/
noncomputable def voleMask (l lambda n : Nat) (u : BitVector) (elems : List GF2p128) :
    GF2p128[X] :=
  maskPoly n (maskValue l lambda u) (maskTag l lambda elems)

/-- `Params::lambda` mask groups and the hash mask fill the vector behind the witness bits. -/
theorem maskRange_le {l d lambda : Nat} : l + (d - 1) * lambda ≤ l + d * lambda :=
  Nat.add_le_add_left (Nat.mul_le_mul_right _ (Nat.sub_le _ _)) _

/-- The prover's message: its coefficients denote the masks plus the batch, up to the combined
    error at the common degree. -/
theorem proverQuickSilver_spec (params : Params) (chi : XofReader) {sizing : Sizing} {u : BitVector}
    {tags : List GF2p128} {w : Nat → Bool} {v : Nat → GF2p128} {pcs : List ProverConstraint}
    {cs : List Constraint} {enforce : Bool} (hmax : 2 ≤ sizing.maxDeg)
    (hu : sizing.l + sizing.maxDeg * params.lambda ≤ u.len)
    (htags : sizing.l + sizing.maxDeg * params.lambda ≤ tags.length)
    (h : List.Forall₂ (ProverConstraint.Records w v) pcs cs)
    (hdeg : ∀ c ∈ cs, c.degree ≤ sizing.maxDeg)
    (herror : ∀ a ∈ draws cs chi, ∀ s, a.constraint = .system s → enforce = true →
      a.constraint.error w a.phis = 0) :
    ∃ qs, proverQuickSilver params sizing u tags pcs chi enforce = .ok qs ∧
      qs.length = sizing.maxDeg ∧
      toPoly qs + C (combinedError w (draws cs chi)) * X ^ sizing.maxDeg =
        voleMask sizing.l params.lambda (sizing.maxDeg - 1) u tags +
          batchPoly w v sizing.maxDeg (draws cs chi) := by
  have hmasks := qsMaskGroups_spec VoleithError (some u) tags
    (fun v' hv' => by cases hv'; exact maskRange_le.trans hu) (maskRange_le.trans htags)
  obtain ⟨hlen, hpoly⟩ := maskCoefficients_spec (sizing.maxDeg - 1)
    (maskValue sizing.l params.lambda u) (maskTag sizing.l params.lambda tags)
  rw [Nat.sub_add_cancel (by omega)] at hlen hpoly
  obtain ⟨qs, hqs, hqlen, hqpoly⟩ := proverConstraints_spec h chi
    (fun c hc => hlen.symm ▸ hdeg c hc) herror
  rw [hlen, hpoly] at hqpoly
  refine ⟨qs, ?_, hqlen.trans hlen, hqpoly⟩
  rw [proverQuickSilver, hmasks, Outcome.ok_bind]
  exact hqs

/-- The keys of a VOLE: tags plus bits times `Δ`. -/
def KeysAre (lHat : Nat) (u : BitVector) (tags : List GF2p128) (delta : GF2p128)
    (keys : List GF2p128) : Prop :=
  keys.length = lHat ∧
    ∀ t < lHat, keys.getD t 0 = tags.getD t 0 + GF2p128.ofBool (u.bit t) * delta

theorem maskTag_keys {l lambda groups lHat : Nat} {u : BitVector} {tags keys : List GF2p128}
    {delta : GF2p128} (h : KeysAre lHat u tags delta keys) (hle : l + groups * lambda ≤ lHat)
    {group : Nat} (hgroup : group < groups) :
    maskTag l lambda keys group = maskTag l lambda tags group + maskValue l lambda u group * delta := by
  rw [maskTag, maskTag, maskValue, ← maskSum_mul, ← maskSum_add]
  apply maskSum_congr
  intro b hb
  apply h.2
  calc l + group * lambda + b < l + group * lambda + lambda := Nat.add_lt_add_left hb _
    _ = l + (group + 1) * lambda := by rw [Nat.succ_mul, Nat.add_assoc]
    _ ≤ l + groups * lambda := Nat.add_le_add_left (Nat.mul_le_mul_right _ hgroup) _
    _ ≤ lHat := hle

/-- The witness bits a verifier's keys commit to. -/
def extractedWitness (l : Nat) (u d : BitVector) (t : Nat) : Bool :=
  decide (t < l) && (u.bit t ^^ d.bit t)

/-- The tags of the witness bits. -/
def witnessTags (l : Nat) (tags : List GF2p128) (t : Nat) : GF2p128 :=
  if t < l then tags.getD t 0 else 0

theorem witnessKeys_spec (ε : Type) {l lHat : Nat} {u d : BitVector} {tags keys : List GF2p128}
    {delta : GF2p128} (h : KeysAre lHat u tags delta keys) (hl : l ≤ lHat) (hd : l ≤ d.len) :
    ∃ wkeys, (witnessKeys l d delta keys : Outcome ε (List GF2p128)) = .ok wkeys ∧
      wkeys.length = l ∧
      ∀ t < l, wkeys.getD t 0 =
        tags.getD t 0 + GF2p128.ofBool (u.bit t ^^ d.bit t) * delta := by
  have hlen : (keys.take l).length = l := by
    rw [List.length_take, h.1, Nat.min_eq_left hl]
  obtain ⟨wkeys, hwkeys, hall⟩ := Outcome.mapM_exists (l := (keys.take l).zipIdx)
    (f := fun x => (do
      let bit ← d.get x.2
      return if bit then x.1 + delta else x.1 : Outcome ε GF2p128))
    (P := fun x y => y = x.1 + GF2p128.ofBool (d.bit x.2) * delta) (by
      rintro ⟨k, t⟩ hmem
      have hget : (keys.take l)[t]? = some k := List.mk_mem_zipIdx_iff_getElem?.mp hmem
      have ht : t < d.len := by
        have := (List.getElem?_eq_some_iff.mp hget).1
        omega
      refine ⟨_, by simp only [BitVector.get_of_lt ht, Outcome.ok_bind]; rfl, ?_⟩
      cases d.bit t <;> simp)
  refine ⟨wkeys, hwkeys, by rw [← hall.length_eq, List.length_zipIdx, hlen], fun t ht => ?_⟩
  have hget : (keys.take l).zipIdx[t]? = some (keys.getD t 0, t) := by
    rw [List.getElem?_zipIdx, List.getElem?_take, if_pos ht, List.getD_eq_getElem?_getD,
      List.getElem?_eq_getElem (by rw [h.1]; omega)]
    simp
  obtain ⟨y, hy, rfl⟩ := forall₂_getElem? hall hget
  rw [List.getD_eq_getElem?_getD, hy, Option.getD_some]
  simp only [h.2 t (by omega)]
  cases u.bit t <;> cases d.bit t <;> simp [CharTwo.add_self_eq_zero, add_assoc]

/-- The keys of the witness stage are correlated with the extracted witness. -/
theorem correlated_witnessKeys {l : Nat} {u d : BitVector} {tags wkeys : List GF2p128}
    {delta : GF2p128} (hlen : wkeys.length = l)
    (h : ∀ t < l, wkeys.getD t 0 =
      tags.getD t 0 + GF2p128.ofBool (u.bit t ^^ d.bit t) * delta) :
    VerifierBackend.Correlated (extractedWitness l u d) (witnessTags l tags)
      (VerifierBackend.new wkeys delta) where
  bits t := by
    simp only [VerifierBackend.bitWire, VerifierBackend.new, hlen, extractedWitness, witnessTags]
    by_cases ht : t < l
    · simp only [ht, if_true, decide_true, Bool.true_and, h t ht]
    · simp [ht]
  pows := rfl

/-- The verifier's final check compares the published polynomial with the masks plus the batch,
    at `Δ`. -/
theorem verifyCircuit_spec (params : Params) {ops : List Op} {d u : BitVector}
    {tags keys : List GF2p128} {delta : GF2p128} (chi : XofReader) (qs : List GF2p128)
    (hasserted : assertedDegree ops ≤ maxDegree) (hd : witnessBits ops ≤ d.len)
    (hkeys : KeysAre (witnessBits ops + (sizingOf ops).maxDeg * params.lambda) u tags delta keys) :
    verifyCircuit params (.ok ops) (sizingOf ops) d keys chi qs delta =
      Outcome.require
        ((voleMask (witnessBits ops) params.lambda ((sizingOf ops).maxDeg - 1) u tags +
          batchPoly (extractedWitness (witnessBits ops) u d) (witnessTags (witnessBits ops) tags)
            (sizingOf ops).maxDeg (draws (constraints ops) chi)).eval delta ==
          (toPoly qs).eval delta) .invalidProof := by
  obtain ⟨wkeys, hwkeys, hwlen, hwbits⟩ := witnessKeys_spec VoleithError hkeys
    (Nat.le_add_right _ _) hd
  obtain ⟨backend, hrun, hspec⟩ := VerifierBackend.run_spec ops (VerifierBackend.new wkeys delta)
    (correlated_witnessKeys hwlen hwbits)
    (fun c hc => (degree_le_assertedDegree hc).trans hasserted)
    (by simp only [VerifierBackend.new]; omega)
  obtain ⟨checks, hchecks, hall⟩ := hspec.checks
  rw [show (VerifierBackend.new wkeys delta).delta = delta from rfl] at hall
  have hnext : backend.bitsUsed = witnessBits ops := by
    rw [VerifierBackend.bitsUsed, hspec.next]
    exact Nat.zero_add _
  -- the verifier has keys only: its masks have no value part
  have hmasks := qsMaskGroups_spec VoleithError (l := witnessBits ops) none keys
    (fun v hv => nomatch hv)
    (hkeys.1 ▸ maskRange_le (l := witnessBits ops) (d := (sizingOf ops).maxDeg))
  have hmaskRow : ((List.range ((sizingOf ops).maxDeg - 1)).map fun group =>
      (maskSum (witnessBits ops) params.lambda group fun t =>
        GF2p128.ofBool ((none : Option BitVector).elim false fun v => v.bit t),
        maskSum (witnessBits ops) params.lambda group fun t => keys.getD t 0)) =
      (List.range ((sizingOf ops).maxDeg - 1)).map fun group =>
        (0, maskTag (witnessBits ops) params.lambda keys group) := by
    apply List.map_congr_left
    intro group _
    simp [maskSum, maskTag]
  have hsum := maskKeySum_spec VoleithError delta
    (n := (sizingOf ops).maxDeg - 1) (m := (sizingOf ops).maxDeg + 1)
    (maskTag (witnessBits ops) params.lambda keys) (by omega)
  -- on correlated keys the mask of the verifier is the mask polynomial of the prover at `Δ`
  have hmask : ∑ i ∈ Finset.range ((sizingOf ops).maxDeg - 1),
      maskTag (witnessBits ops) params.lambda keys i * delta ^ i =
        (voleMask (witnessBits ops) params.lambda ((sizingOf ops).maxDeg - 1) u tags).eval delta := by
    rw [voleMask, eval_maskPoly]
    apply Finset.sum_congr rfl
    intro i hi
    rw [maskTag_keys hkeys maskRange_le (Finset.mem_range.mp hi)]
  -- likewise the batch of the checks
  have hloop := verifierConstraints_spec VoleithError hall
    (d := (sizingOf ops).maxDeg)
    (fun c hc => (degree_le_assertedDegree hc).trans (Nat.le_max_left _ _)) chi
  have hbuild : (VerifierBackend.new wkeys delta).build (.ok ops) = .ok backend := hrun
  have hl : (sizingOf ops).l = witnessBits ops := rfl
  have hchecks' : backend.checks = checks := by rw [hchecks]; rfl
  simp only [verifyCircuit, verifierRun, hl, hwkeys, hbuild, Outcome.ok_bind, hnext,
    beq_self_eq_true, Outcome.require_true, hchecks']
  show checkQuickSilver params (sizingOf ops) keys checks chi qs delta = _
  simp only [checkQuickSilver, hl, hmasks, hmaskRow, Outcome.ok_bind, hsum, hmask, hloop,
    evaluatePolynomial, evalCoeffs_eq, eval_add]

/-! ## Special soundness -/

/-- The keys `K_t = V_t + u_t·Δ` of a VOLE of length `lHat`. -/
def voleKeys (lHat : Nat) (u : BitVector) (tags : List GF2p128) (delta : GF2p128) :
    List GF2p128 :=
  (List.range lHat).map fun t => tags.getD t 0 + GF2p128.ofBool (u.bit t) * delta

theorem keysAre_voleKeys (lHat : Nat) (u : BitVector) (tags : List GF2p128) (delta : GF2p128) :
    KeysAre lHat u tags delta (voleKeys lHat u tags delta) := by
  refine ⟨by simp [voleKeys], fun t ht => ?_⟩
  simp [voleKeys, List.getD_eq_getElem?_getD, ht]

/-- What the verifier's final equation tests at `Δ`: a polynomial of degree at most the common
    degree, whose coefficient there is the combined error. -/
theorem coeff_check (ops : List Op) (l lambda : Nat) (u d : BitVector) (tags : List GF2p128)
    (chi : XofReader) :
    (voleMask l lambda ((sizingOf ops).maxDeg - 1) u tags +
        batchPoly (extractedWitness l u d) (witnessTags l tags) (sizingOf ops).maxDeg
          (draws (constraints ops) chi)).natDegree ≤ (sizingOf ops).maxDeg ∧
    (voleMask l lambda ((sizingOf ops).maxDeg - 1) u tags +
        batchPoly (extractedWitness l u d) (witnessTags l tags) (sizingOf ops).maxDeg
          (draws (constraints ops) chi)).coeff (sizingOf ops).maxDeg =
      combinedError (extractedWitness l u d) (draws (constraints ops) chi) := by
  have hmax : 2 ≤ (sizingOf ops).maxDeg := Nat.le_max_right _ _
  have hdeg : ∀ a ∈ draws (constraints ops) chi, a.constraint.degree ≤ (sizingOf ops).maxDeg :=
    fun a ha => (degree_le_assertedDegree (constraint_of_mem_draws ha)).trans (Nat.le_max_left _ _)
  have hmask := natDegree_maskPoly_le ((sizingOf ops).maxDeg - 1) (maskValue l lambda u)
    (maskTag l lambda tags)
  constructor
  · exact natDegree_add_le_of_degree_le (hmask.trans (Nat.sub_le _ _))
      (natDegree_batchPoly_le _ _ hdeg)
  · rw [coeff_add, coeff_batchPoly _ _ hdeg fun a ha => length_phis_of_mem_draws ha, voleMask,
      coeff_eq_zero_of_natDegree_lt (by omega), zero_add]

/-- The final check passes when the published polynomial agrees with the masks plus the batch. -/
theorem passes_iff (params : Params) {ops : List Op} (hasserted : assertedDegree ops ≤ maxDegree)
    (u : BitVector) {d : BitVector} (tags : List GF2p128) (hd : d.len = witnessBits ops)
    (chi : XofReader) (qs : List GF2p128) (delta : GF2p128) :
    verifyCircuit params (.ok ops) (sizingOf ops) d
        (voleKeys (witnessBits ops + (sizingOf ops).maxDeg * params.lambda) u tags delta) chi qs
        delta = .ok () ↔
      (voleMask (witnessBits ops) params.lambda ((sizingOf ops).maxDeg - 1) u tags +
        batchPoly (extractedWitness (witnessBits ops) u d) (witnessTags (witnessBits ops) tags)
          (sizingOf ops).maxDeg (draws (constraints ops) chi)).eval delta =
        (toPoly qs).eval delta := by
  have hcheck := verifyCircuit_spec params chi qs hasserted hd.ge
    (keysAre_voleKeys (witnessBits ops + (sizingOf ops).maxDeg * params.lambda) u tags delta)
  rw [hcheck, Outcome.require_eq_ok, beq_iff_eq]

/-- Where the combined error is not zero, at most `d` values of `Δ` pass. -/
theorem card_passing_deltas_le (params : Params) {ops : List Op}
    (hasserted : assertedDegree ops ≤ maxDegree) (u : BitVector) {d : BitVector}
    (tags : List GF2p128) (hd : d.len = witnessBits ops) (chi : XofReader)
    (herror : combinedError (extractedWitness (witnessBits ops) u d)
      (draws (constraints ops) chi) ≠ 0)
    {qs : List GF2p128} (hqs : qs.length = (sizingOf ops).maxDeg) {deltas : Finset GF2p128}
    (h : ∀ delta ∈ deltas, verifyCircuit params (.ok ops) (sizingOf ops) d
      (voleKeys (witnessBits ops + (sizingOf ops).maxDeg * params.lambda) u tags delta) chi qs
      delta = .ok ()) : deltas.card ≤ (sizingOf ops).maxDeg := by
  obtain ⟨hnat, hcoeff⟩ := coeff_check ops (witnessBits ops) params.lambda u d tags chi
  exact card_agreeing_le hnat (hcoeff.symm ▸ herror) hqs
    fun delta hdelta => (passes_iff params hasserted u tags hd chi qs delta).mp (h delta hdelta)

/-- The dimensions a counting pass finds, when its degrees are admitted. -/
theorem sizing_of_build {ops : List Op} {counter : CountingBackend}
    (hcounter : CountingBackend.default.build (.ok ops) = .ok counter)
    (hdeg : counter.sizing.maxDeg ≤ maxDegree) :
    assertedDegree ops ≤ maxDegree ∧ counter.sizing = sizingOf ops := by
  rw [CountingBackend.build, CountingBackend.foldl_step] at hcounter
  obtain rfl := Except.ok.inj hcounter
  have hasserted : assertedDegree ops ≤ maxDegree := by
    simp only [CountingBackend.sizing, CountingBackend.default, Nat.zero_max, usizeMax,
      maxDegree] at hdeg ⊢
    omega
  exact ⟨hasserted, sizing_foldl_step hasserted⟩

/-- QuickSilver special soundness.  For keys of any VOLE and any corrections, the final check of a
    program passes for at most `d` values of `Δ` unless the weighted sum of the assertions' errors
    at the extracted witness is zero, in which case some published polynomial passes for all. -/
theorem quickSilver_special_soundness (params : Params) (ops : List Op)
    (counter : CountingBackend)
    (hcounter : CountingBackend.default.build (.ok ops) = .ok counter)
    (hdeg : counter.sizing.maxDeg ≤ maxDegree) (u d : BitVector) (tags : List GF2p128)
    (hd : d.len = counter.sizing.l) (chi : XofReader) :
    let lHat := counter.sizing.l + counter.sizing.maxDeg * params.lambda
    let passes (qs : List GF2p128) (delta : GF2p128) : Prop :=
      verifyCircuit params (.ok ops) counter.sizing d (voleKeys lHat u tags delta) chi qs delta =
        .ok ()
    let error := combinedError (extractedWitness counter.sizing.l u d) (draws (constraints ops) chi)
    (error ≠ 0 → ∀ qs, qs.length = counter.sizing.maxDeg → ∀ deltas : Finset GF2p128,
      (∀ delta ∈ deltas, passes qs delta) → deltas.card ≤ counter.sizing.maxDeg) ∧
    (error = 0 → ∃ qs, qs.length = counter.sizing.maxDeg ∧ ∀ delta, passes qs delta) := by
  -- the counter's dimensions are the program's
  obtain ⟨hasserted, hsizing⟩ := sizing_of_build hcounter hdeg
  rw [hsizing] at hd ⊢
  intro lHat passes error
  constructor
  · intro herror qs hqs deltas hall
    exact card_passing_deltas_le params hasserted u tags hd chi herror hqs hall
  · intro herror
    obtain ⟨hnat, hcoeff⟩ := coeff_check ops (witnessBits ops) params.lambda u d tags chi
    obtain ⟨qs, hqs, hpoly⟩ := exists_toPoly_eq hnat (hcoeff.trans herror)
    exact ⟨qs, hqs, fun delta =>
      (passes_iff params hasserted u tags hd chi qs delta).mpr (by rw [hpoly])⟩

/-- One bit asserted zero: with the bit zero some published polynomial passes for every `Δ`, with
    the bit one none passes for more than two. -/
theorem quickSilver_special_soundness_bit :
    (∃ qs, qs.length = 2 ∧ ∀ delta,
      verifyCircuit params128 (.ok [.witnessBit, .assertZero (.bit 0)]) ⟨1, 2, 1⟩ (BitVector.zero 1)
        (voleKeys 257 (BitVector.zero 257) [] delta) ⟨fun _ => 1#8, 0⟩ qs delta = .ok ()) ∧
    ∀ qs, qs.length = 2 → ∀ deltas : Finset GF2p128, (∀ delta ∈ deltas,
      verifyCircuit params128 (.ok [.witnessBit, .assertZero (.bit 0)]) ⟨1, 2, 1⟩
        (BitVector.ofFn 1 fun _ => true) (voleKeys 257 (BitVector.zero 257) [] delta)
        ⟨fun _ => 1#8, 0⟩ qs delta = .ok ()) → deltas.card ≤ 2 :=
  ⟨(quickSilver_special_soundness params128 [.witnessBit, .assertZero (.bit 0)] ⟨1, 1, 2, 0⟩ rfl
      (by decide) (BitVector.zero 257) (BitVector.zero 1) [] rfl ⟨fun _ => 1#8, 0⟩).2
        (by decide +kernel),
    (quickSilver_special_soundness params128 [.witnessBit, .assertZero (.bit 0)] ⟨1, 1, 2, 0⟩ rfl
      (by decide) (BitVector.zero 257) (BitVector.ofFn 1 fun _ => true) [] rfl
      ⟨fun _ => 1#8, 0⟩).1 (by decide +kernel)⟩

end VoleAct.Voleith
