/-
  VoleAct.Voleith.AssertionBound

  How often the QuickSilver equation passes for a witness that violates an
  assertion, when the challenge stream and `Δ` are uniform.

  The combined error is affine in the weight of the violated constraint, with the
  constraint's own error as slope.  The error of a quadratic system is itself
  random: it is affine in one fold coefficient, with the value of a violated
  equation as slope.  So the combined error vanishes on at most one stream in
  `|F|`, or two when only systems are violated, and where it does not vanish at
  most `d` values of `Δ` pass.
-/
import VoleAct.Lib.Counting
import VoleAct.Voleith.QuickSilver

namespace VoleAct.Voleith

open VoleAct.BinaryFields VoleAct.Lib Finset

/-! ## A stream of field elements -/

/-- The reader at element `n` of a stream of field elements. -/
def elemReader (f : Nat → GF2p128) (n : Nat) : XofReader where
  stream i := (f (i / 16)).toBytes.get ⟨i % 16, Nat.mod_lt i (by decide)⟩
  pos := 16 * n

theorem nextElem_elemReader (f : Nat → GF2p128) (n : Nat) :
    nextElem (elemReader f n) = (f n, elemReader f (n + 1)) := by
  have hblock : ((elemReader f n).read 16).1 = (f n).toBytes := by
    apply Vector.ext
    intro i hi
    have hd : (16 * n + i) / 16 = n := by omega
    have hm : (16 * n + i) % 16 = i := by omega
    simp only [XofReader.read, elemReader, Vector.getElem_ofFn, hd, hm]
    rfl
  show (GF2p128.fromBytes ((elemReader f n).read 16).1, ((elemReader f n).read 16).2) = _
  rw [hblock, GF2p128.fromBytes_toBytes]
  rfl

theorem nextElems_elemReader (f : Nat → GF2p128) (k n : Nat) :
    nextElems k (elemReader f n) = ((List.range k).map fun i => f (n + i), elemReader f (n + k)) := by
  induction k generalizing n with
  | zero => rfl
  | succ k ih =>
      simp only [nextElems, nextElem_elemReader, ih, List.range_succ_eq_map, List.map_cons,
        List.map_map]
      congr 1
      · congr 1
        apply List.map_congr_left
        intro i _
        rw [Function.comp_apply, Nat.succ_eq_add_one, Nat.add_assoc, Nat.add_comm 1]
      · rw [Nat.add_assoc, Nat.add_comm 1]

/-! ## The draws as functions of the stream -/

/-- The fold coefficients drawn for a constraint at element `n`. -/
def phisAt (f : Nat → GF2p128) (c : Constraint) (n : Nat) : List GF2p128 :=
  (List.range c.numPhis).map fun i => f (n + i)

/-- The number of elements a list of constraints draws. -/
def chiLength (cs : List Constraint) : Nat := (cs.map fun c => c.numPhis + 1).sum

/-- The draws for a list of constraints, from element `n` on. -/
def drawsFrom (f : Nat → GF2p128) : List Constraint → Nat → List Draw
  | [], _ => []
  | c :: cs, n => ⟨c, phisAt f c n, f (n + c.numPhis)⟩ :: drawsFrom f cs (n + (c.numPhis + 1))

theorem draws_elemReader (f : Nat → GF2p128) (cs : List Constraint) (n : Nat) :
    draws cs (elemReader f n) = drawsFrom f cs n := by
  induction cs generalizing n with
  | nil => rfl
  | cons c cs ih =>
      simp only [draws, nextElems_elemReader, nextElem_elemReader, ih, drawsFrom, phisAt]
      rfl

theorem drawsFrom_append (f : Nat → GF2p128) (cs ds : List Constraint) (n : Nat) :
    drawsFrom f (cs ++ ds) n = drawsFrom f cs n ++ drawsFrom f ds (n + chiLength cs) := by
  induction cs generalizing n with
  | nil => rfl
  | cons c cs ih =>
      rw [List.cons_append, drawsFrom, drawsFrom, ih, List.cons_append, chiLength, chiLength,
        List.map_cons, List.sum_cons, Nat.add_assoc]

/-- The draws only depend on the elements they read. -/
theorem drawsFrom_congr {f g : Nat → GF2p128} {cs : List Constraint} {n : Nat}
    (h : ∀ i, n ≤ i → i < n + chiLength cs → f i = g i) : drawsFrom f cs n = drawsFrom g cs n := by
  induction cs generalizing n with
  | nil => rfl
  | cons c cs ih =>
      rw [chiLength, List.map_cons, List.sum_cons, ← chiLength] at h
      have hphis : phisAt f c n = phisAt g c n := by
        apply List.map_congr_left
        intro i hi
        have hi' := List.mem_range.mp hi
        exact h (n + i) (by omega) (by omega)
      rw [drawsFrom, drawsFrom, hphis, h (n + c.numPhis) (by omega) (by omega),
        ih fun i hi hi' => h i (by omega) (by omega)]

theorem combinedError_append (w : Nat → Bool) (ds es : List Draw) :
    combinedError w (ds ++ es) = combinedError w ds + combinedError w es := by
  rw [combinedError, List.map_append, List.sum_append, combinedError, combinedError]

/-! ## The combined error in one element -/

section Violated

variable (w : Nat → Bool) (cs : List Constraint) (c : Constraint) (ds : List Constraint)

/-- The combined error on a stream. -/
def errorOn (f : Nat → GF2p128) : GF2p128 := combinedError w (drawsFrom f (cs ++ c :: ds) 0)

/-- The error of the constraint at position `cs.length` on a stream. -/
def ownError (f : Nat → GF2p128) : GF2p128 := c.error w (phisAt f c (chiLength cs))

/-- The combined error is affine in the weight of a constraint. -/
theorem errorOn_update_weight (f : Nat → GF2p128) :
    ∃ rest, ∀ y, errorOn w cs c ds (Function.update f (chiLength cs + c.numPhis) y) =
      y * ownError w cs c f + rest := by
  refine ⟨combinedError w (drawsFrom f cs 0) +
    combinedError w (drawsFrom f ds (chiLength cs + (c.numPhis + 1))), fun y => ?_⟩
  have hbefore : drawsFrom (Function.update f (chiLength cs + c.numPhis) y) cs 0 =
      drawsFrom f cs 0 := by
    apply drawsFrom_congr
    intro i _ hi
    exact Function.update_of_ne (by omega) _ _
  have hafter : drawsFrom (Function.update f (chiLength cs + c.numPhis) y) ds
      (chiLength cs + (c.numPhis + 1)) = drawsFrom f ds (chiLength cs + (c.numPhis + 1)) := by
    apply drawsFrom_congr
    intro i hi _
    exact Function.update_of_ne (by omega) _ _
  have hphis : phisAt (Function.update f (chiLength cs + c.numPhis) y) c (chiLength cs) =
      phisAt f c (chiLength cs) := by
    apply List.map_congr_left
    intro i hi
    have hi' := List.mem_range.mp hi
    exact Function.update_of_ne (by omega) _ _
  rw [errorOn, drawsFrom_append, drawsFrom, combinedError_append, combinedError_cons,
    Nat.zero_add, hbefore, hafter, hphis, Function.update_self, ownError]
  ring

/-- The weight of a constraint does not change its own error. -/
theorem ownError_update_weight (f : Nat → GF2p128) (y : GF2p128) :
    ownError w cs c (Function.update f (chiLength cs + c.numPhis) y) = ownError w cs c f := by
  have hphis : phisAt (Function.update f (chiLength cs + c.numPhis) y) c (chiLength cs) =
      phisAt f c (chiLength cs) := by
    apply List.map_congr_left
    intro i hi
    have hi' := List.mem_range.mp hi
    exact Function.update_of_ne (by omega) _ _
  rw [ownError, hphis, ownError]

/-- The error of a system is affine in each fold coefficient, the value of the equation as slope. -/
theorem ownError_update_phi (s : QuadSystem) {e : Nat} (he : e < s.linear.length)
    (f : Nat → GF2p128) :
    ∃ rest, ∀ y, ownError w cs (.system s) (Function.update f (chiLength cs + e) y) =
      y * s.equation w e + rest := by
  have hfold (g : Nat → GF2p128) : ownError w cs (.system s) g =
      ∑ i ∈ range s.linear.length, g (chiLength cs + i) * s.equation w i := by
    rw [ownError, Constraint.error, QuadSystem.foldedValue,
      sum_zipWith_range_getD _ 0 (by simp [phisAt, Constraint.numPhis]), List.length_range]
    apply sum_congr rfl
    intro i hi
    have hi' : i < s.linear.length := mem_range.mp hi
    simp [phisAt, Constraint.numPhis, List.getD_eq_getElem?_getD, hi']
  refine ⟨∑ i ∈ (range s.linear.length).erase e, f (chiLength cs + i) * s.equation w i,
    fun y => ?_⟩
  rw [hfold, ← add_sum_erase _ _ (mem_range.mpr he), Function.update_self]
  congr 1
  apply sum_congr rfl
  intro i hi
  rw [Function.update_of_ne]
  have hne := ne_of_mem_erase hi
  omega

end Violated

/-! ## Counting streams -/

section Streams

variable {n : Nat}

/-- A finite challenge stream, continued by zeros. -/
def streamOf (chi : Fin n → GF2p128) (i : Nat) : GF2p128 := if h : i < n then chi ⟨i, h⟩ else 0

theorem streamOf_update (chi : Fin n → GF2p128) {i : Nat} (hi : i < n) (y : GF2p128) :
    streamOf (Function.update chi ⟨i, hi⟩ y) = Function.update (streamOf chi) i y := by
  funext j
  by_cases hji : j = i
  · subst hji
    simp [streamOf, hi]
  · by_cases hj : j < n
    · simp [streamOf, hj, hji]
    · simp [streamOf, hj, hji]

/-- An affine function with nonzero slope has at most one zero. -/
theorem card_affine_zeros_le {f : GF2p128 → GF2p128} {a b : GF2p128} (ha : a ≠ 0)
    (hf : ∀ y, f y = y * a + b) : (univ.filter fun y => f y = 0).card ≤ 1 := by
  apply card_le_one.mpr
  intro y hy z hz
  simp only [mem_filter, mem_univ, true_and, hf] at hy hz
  exact mul_right_cancel₀ ha (add_right_cancel (hy.trans hz.symm))

variable {w : Nat → Bool} {cs : List Constraint} {c : Constraint} {ds : List Constraint}

theorem chiLength_split (cs : List Constraint) (c : Constraint) (ds : List Constraint) :
    chiLength (cs ++ c :: ds) = chiLength cs + (c.numPhis + 1) + chiLength ds := by
  simp [chiLength, Nat.add_assoc]

/-- The streams on which the constraint's own error is not zero but the combined error is. -/
theorem card_cancelling_le (hn : chiLength (cs ++ c :: ds) ≤ n) :
    (univ.filter fun chi : Fin n → GF2p128 => errorOn w cs c ds (streamOf chi) = 0 ∧
      ownError w cs c (streamOf chi) ≠ 0).card * Fintype.card GF2p128 ≤
        1 * Fintype.card (Fin n → GF2p128) := by
  rw [chiLength_split] at hn
  have hi : chiLength cs + c.numPhis < n := by omega
  refine card_mul_le_of_update ⟨_, hi⟩ _ fun chi => ?_
  simp only [streamOf_update, ownError_update_weight]
  obtain ⟨rest, hrest⟩ := errorOn_update_weight w cs c ds (streamOf chi)
  by_cases hown : ownError w cs c (streamOf chi) = 0
  · simp [hown]
  · simp only [hown, ne_eq, not_false_eq_true, and_true]
    exact card_affine_zeros_le hown hrest

/-- The streams on which a system with a violated equation folds to zero. -/
theorem card_folded_zero_le {s : QuadSystem} {e : Nat} (he : e < s.linear.length)
    (hviolated : s.equation w e ≠ 0) (hn : chiLength (cs ++ .system s :: ds) ≤ n) :
    (univ.filter fun chi : Fin n → GF2p128 =>
      ownError w cs (.system s) (streamOf chi) = 0).card * Fintype.card GF2p128 ≤
        1 * Fintype.card (Fin n → GF2p128) := by
  rw [chiLength_split, Constraint.numPhis] at hn
  have hi : chiLength cs + e < n := by omega
  refine card_mul_le_of_update ⟨_, hi⟩ _ fun chi => ?_
  simp only [streamOf_update]
  obtain ⟨rest, hrest⟩ := ownError_update_phi w cs s he (streamOf chi)
  exact card_affine_zeros_le hviolated hrest

/-- The streams on which the combined error is zero, for a violated constraint that is no system. -/
theorem card_error_zero_le (hown : ∀ phis, c.error w phis ≠ 0)
    (hn : chiLength (cs ++ c :: ds) ≤ n) :
    (univ.filter fun chi : Fin n → GF2p128 =>
      errorOn w cs c ds (streamOf chi) = 0).card * Fintype.card GF2p128 ≤
        1 * Fintype.card (Fin n → GF2p128) := by
  refine le_trans (Nat.mul_le_mul_right _ (card_le_card ?_)) (card_cancelling_le (w := w) hn)
  intro chi hchi
  simp only [mem_filter, mem_univ, true_and] at hchi ⊢
  exact ⟨hchi, hown _⟩

/-- The streams on which the combined error is zero, for a violated system. -/
theorem card_error_zero_system_le {s : QuadSystem} {e : Nat} (he : e < s.linear.length)
    (hviolated : s.equation w e ≠ 0) (hn : chiLength (cs ++ .system s :: ds) ≤ n) :
    (univ.filter fun chi : Fin n → GF2p128 =>
      errorOn w cs (.system s) ds (streamOf chi) = 0).card * Fintype.card GF2p128 ≤
        2 * Fintype.card (Fin n → GF2p128) := by
  have hcover : (univ.filter fun chi : Fin n → GF2p128 =>
      errorOn w cs (.system s) ds (streamOf chi) = 0) ⊆
        (univ.filter fun chi => ownError w cs (.system s) (streamOf chi) = 0) ∪
        (univ.filter fun chi => errorOn w cs (.system s) ds (streamOf chi) = 0 ∧
          ownError w cs (.system s) (streamOf chi) ≠ 0) := by
    intro chi hchi
    simp only [mem_union, mem_filter, mem_univ, true_and] at hchi ⊢
    by_cases hown : ownError w cs (.system s) (streamOf chi) = 0
    · exact .inl hown
    · exact .inr ⟨hchi, hown⟩
  have hcard := (card_le_card hcover).trans (card_union_le _ _)
  have hfold := card_folded_zero_le he hviolated hn
  have hcancel : (univ.filter fun chi : Fin n → GF2p128 =>
      errorOn w cs (.system s) ds (streamOf chi) = 0 ∧
        ownError w cs (.system s) (streamOf chi) ≠ 0).card * Fintype.card GF2p128 ≤
          1 * Fintype.card (Fin n → GF2p128) := card_cancelling_le hn
  calc _ ≤ _ := Nat.mul_le_mul_right _ hcard
    _ ≤ 2 * Fintype.card (Fin n → GF2p128) := by
      rw [add_mul]
      omega

end Streams

/-! ## The error bound -/

/-- The number of elements the check of a program draws. -/
abbrev chiCount (ops : List Op) : Nat := chiLength (constraints ops)

/-- The final check of a program passes on a stream and a challenge, for a prover that chooses its
    message after seeing the stream. -/
def Passes (params : Params) (ops : List Op) (sizing : Sizing) (u d : BitVector)
    (tags : List GF2p128) (strategy : (Fin (chiCount ops) → GF2p128) → List GF2p128)
    (p : (Fin (chiCount ops) → GF2p128) × GF2p128) : Prop :=
  verifyCircuit params (.ok ops) sizing d
    (voleKeys (sizing.l + sizing.maxDeg * params.lambda) u tags p.2)
    (elemReader (streamOf p.1) 0) (strategy p.1) p.2 = .ok ()

open Classical in
/-- The pairs that pass. -/
noncomputable def passing (params : Params) (ops : List Op) (sizing : Sizing) (u d : BitVector)
    (tags : List GF2p128) (strategy : (Fin (chiCount ops) → GF2p128) → List GF2p128) :
    Finset ((Fin (chiCount ops) → GF2p128) × GF2p128) :=
  univ.filter (Passes params ops sizing u d tags strategy)

/-- The fraction of streams and challenges that pass. -/
noncomputable def passingFraction (params : Params) (ops : List Op) (sizing : Sizing)
    (u d : BitVector) (tags : List GF2p128)
    (strategy : (Fin (chiCount ops) → GF2p128) → List GF2p128) : ℚ :=
  (passing params ops sizing u d tags strategy).card /
    Fintype.card ((Fin (chiCount ops) → GF2p128) × GF2p128)

/-- Row by row: at most `d` challenges pass on a stream without a combined error of zero. -/
theorem card_passing_le (params : Params) {ops : List Op} (hasserted : assertedDegree ops ≤ maxDegree)
    (u : BitVector) {d : BitVector} (tags : List GF2p128) (hd : d.len = witnessBits ops)
    {strategy : (Fin (chiCount ops) → GF2p128) → List GF2p128}
    (hstrategy : ∀ chi, (strategy chi).length = (sizingOf ops).maxDeg) {k : Nat}
    (herror : (univ.filter fun chi : Fin (chiCount ops) → GF2p128 =>
      combinedError (extractedWitness (witnessBits ops) u d)
        (drawsFrom (streamOf chi) (constraints ops) 0) = 0).card * Fintype.card GF2p128 ≤
          k * Fintype.card (Fin (chiCount ops) → GF2p128)) :
    (passing params ops (sizingOf ops) u d tags strategy).card ≤
      ((sizingOf ops).maxDeg + k) * Fintype.card (Fin (chiCount ops) → GF2p128) := by
  classical
  -- for one `chi`: every `delta` when the combined error vanishes, else as many as the degree
  have hrow (chi : Fin (chiCount ops) → GF2p128) :
      (univ.filter fun delta =>
        Passes params ops (sizingOf ops) u d tags strategy (chi, delta)).card ≤
        (sizingOf ops).maxDeg + if combinedError (extractedWitness (witnessBits ops) u d)
          (drawsFrom (streamOf chi) (constraints ops) 0) = 0 then Fintype.card GF2p128 else 0 := by
    split
    · exact (card_filter_le _ _).trans (Nat.le_add_left _ _)
    · next hne =>
        rw [← draws_elemReader] at hne
        refine card_passing_deltas_le params hasserted u tags hd _ hne (hstrategy chi) ?_
        intro delta hdelta
        exact (mem_filter.mp hdelta).2
  have hcard : (passing params ops (sizingOf ops) u d tags strategy).card =
      ∑ chi, (univ.filter fun delta =>
        Passes params ops (sizingOf ops) u d tags strategy (chi, delta)).card := by
    rw [passing]
    convert card_filter_prod _
  rw [hcard]
  refine (sum_le_sum fun chi _ => hrow chi).trans ?_
  rw [sum_add_distrib, sum_const, card_univ, smul_eq_mul, ← sum_filter, sum_const, smul_eq_mul,
    add_mul, Nat.mul_comm (Fintype.card _)]
  exact Nat.add_le_add_left herror _

/-- A bound on the number of passing pairs, as a fraction. -/
theorem passingFraction_le {params : Params} {ops : List Op} {sizing : Sizing} {u d : BitVector}
    {tags : List GF2p128} {strategy : (Fin (chiCount ops) → GF2p128) → List GF2p128} {k : Nat}
    (h : (passing params ops sizing u d tags strategy).card ≤
      k * Fintype.card (Fin (chiCount ops) → GF2p128)) :
    passingFraction params ops sizing u d tags strategy ≤ k / 2 ^ 128 := by
  have hpos : (0 : ℚ) < Fintype.card (Fin (chiCount ops) → GF2p128) := by
    exact_mod_cast Fintype.card_pos
  rw [passingFraction, Fintype.card_prod, GF2p128.card_eq, Nat.cast_mul,
    div_le_div_iff₀ (by positivity) (by positivity)]
  have hcast : ((passing params ops sizing u d tags strategy).card : ℚ) ≤
      k * Fintype.card (Fin (chiCount ops) → GF2p128) := by exact_mod_cast h
  calc _ ≤ (k : ℚ) * Fintype.card (Fin (chiCount ops) → GF2p128) * 2 ^ 128 :=
        mul_le_mul_of_nonneg_right hcast (by positivity)
    _ = k * (Fintype.card (Fin (chiCount ops) → GF2p128) * (2 ^ 128 : ℕ)) := by
        push_cast
        ring

/-- A violated assertion has an error that is never zero, or is a system with an equation that is
    not zero. -/
theorem violated_cases {w : Nat → Bool} {op : Op} (h : ¬ op.Holds w) :
    ∃ c, op.constraint? = some c ∧ ((∀ phis, c.error w phis ≠ 0) ∨
      ∃ s, op = .assertQuadSystem s ∧ c = .system s ∧
        ∃ e < s.linear.length, s.equation w e ≠ 0) := by
  cases op with
  | witnessBit | build e => exact absurd trivial h
  | assertZero a => exact ⟨_, rfl, .inl fun _ => h⟩
  | assertMul x y z => exact ⟨_, rfl, .inl fun _ herror => h (GF2p128.add_eq_zero_iff.mp herror)⟩
  | assertQuadSystem s =>
      refine ⟨_, rfl, .inr ⟨s, rfl, rfl, ?_⟩⟩
      by_contra hnone
      push Not at hnone
      exact h hnone
  | assertExprZero e => exact ⟨_, rfl, .inl fun _ => h⟩

/-- The assertion error of the batched check.  For a fixed VOLE and corrections whose extracted
    witness violates an assertion, and a prover that answers the challenge stream with any message,
    the final check of degree `d` passes on at most `(d + 2) / 2^128` of the streams and challenges;
    on at most `(d + 1) / 2^128` when the violated assertion is not a quadratic system. -/
theorem assertion_error_bound (params : Params) (ops : List Op) (counter : CountingBackend)
    (hcounter : CountingBackend.default.build (.ok ops) = .ok counter)
    (hdeg : counter.sizing.maxDeg ≤ maxDegree) (u d : BitVector) (tags : List GF2p128)
    (hd : d.len = counter.sizing.l)
    (strategy : (Fin (chiCount ops) → GF2p128) → List GF2p128)
    (hstrategy : ∀ chi, (strategy chi).length = counter.sizing.maxDeg) (op : Op) (hop : op ∈ ops)
    (hviolated : ¬ op.Holds (extractedWitness counter.sizing.l u d)) :
    passingFraction params ops counter.sizing u d tags strategy ≤
        (counter.sizing.maxDeg + 2 : ℕ) / 2 ^ 128 ∧
      ((∀ s, op ≠ .assertQuadSystem s) →
        passingFraction params ops counter.sizing u d tags strategy ≤
          (counter.sizing.maxDeg + 1 : ℕ) / 2 ^ 128) := by
  obtain ⟨hasserted, hsizing⟩ := sizing_of_build hcounter hdeg
  rw [hsizing] at hd hstrategy hviolated ⊢
  obtain ⟨c, hc, hcases⟩ := violated_cases hviolated
  obtain ⟨cs, ds, hsplit⟩ := List.append_of_mem (List.mem_filterMap.mpr ⟨op, hop, hc⟩)
  have hsplit' : constraints ops = cs ++ c :: ds := hsplit
  have hcount : chiLength (cs ++ c :: ds) ≤ chiCount ops := by rw [chiCount, hsplit']
  -- a bound `k` on the streams whose combined error vanishes gives the fraction `(d + k) / 2^128`
  have hbound {k : Nat} (hk : (univ.filter fun chi : Fin (chiCount ops) → GF2p128 =>
      errorOn (extractedWitness (witnessBits ops) u d) cs c ds (streamOf chi) = 0).card *
        Fintype.card GF2p128 ≤ k * Fintype.card (Fin (chiCount ops) → GF2p128)) :
      passingFraction params ops (sizingOf ops) u d tags strategy ≤
        ((sizingOf ops).maxDeg + k : ℕ) / 2 ^ 128 := by
    refine passingFraction_le (card_passing_le params hasserted u tags hd hstrategy ?_)
    rw [hsplit']
    exact hk
  have hmono : (((sizingOf ops).maxDeg + 1 : ℕ) : ℚ) / 2 ^ 128 ≤
      ((sizingOf ops).maxDeg + 2 : ℕ) / 2 ^ 128 := by
    gcongr
    omega
  rcases hcases with hown | ⟨s, rfl, rfl, e, he, hequation⟩
  · have hone := hbound (card_error_zero_le hown hcount)
    exact ⟨hone.trans hmono, fun _ => hone⟩
  · exact ⟨hbound (card_error_zero_system_le he hequation hcount),
      fun hsystem => absurd rfl (hsystem s)⟩

/-- The constant one asserted zero: at most `3 / 2^128` for a prover that publishes zeros. -/
theorem assertion_error_bound_constant :
    passingFraction params128 [.witnessBit, .assertZero (.constant 1)] ⟨1, 2, 1⟩
      (BitVector.zero 257) (BitVector.zero 1) [] (fun _ => [0, 0]) ≤ (2 + 1 : ℕ) / 2 ^ 128 :=
  (assertion_error_bound params128 [.witnessBit, .assertZero (.constant 1)] ⟨1, 1, 2, 0⟩ rfl
    (by decide) (BitVector.zero 257) (BitVector.zero 1) [] rfl (fun _ => [0, 0]) (fun _ => rfl)
    (.assertZero (.constant 1)) (by simp) one_ne_zero).2 (by simp)

/-! ## The fold of a system adds to the bound -/

/-- One equation, the constant one: never satisfied. -/
def falseSystem : QuadSystem where
  terms := []
  linear := [.constant 1]
  length_coeffs := by simp

/-- A witness bit and the unsatisfiable system. -/
def falseProgram : List Op := [.witnessBit, .assertQuadSystem falseSystem]

/-- Publish the product of the fold coefficient and the weight as the coefficient of `Δ`. -/
def productStrategy (chi : Fin (chiCount falseProgram) → GF2p128) : List GF2p128 :=
  [0, chi ⟨0, by decide⟩ * chi ⟨1, by decide⟩]

/-- The check compares `φ·x·Δ²` with `φ·x·Δ`. -/
theorem passes_falseProgram (chi : Fin (chiCount falseProgram) → GF2p128) (delta : GF2p128) :
    Passes params128 falseProgram ⟨1, 2, 1⟩ (BitVector.zero 257) (BitVector.zero 1) []
        productStrategy (chi, delta) ↔
      chi ⟨0, by decide⟩ * chi ⟨1, by decide⟩ * (delta * delta) =
        chi ⟨0, by decide⟩ * chi ⟨1, by decide⟩ * delta := by
  have hasserted : assertedDegree falseProgram ≤ maxDegree := by decide
  have hiff := passes_iff params128 hasserted (BitVector.zero 257) (d := BitVector.zero 1) [] rfl
    (elemReader (streamOf chi) 0) (productStrategy chi) delta
  have hmask : (voleMask (witnessBits falseProgram) params128.lambda
      ((sizingOf falseProgram).maxDeg - 1) (BitVector.zero 257) []).eval delta = 0 := by
    rw [voleMask, eval_maskPoly]
    apply sum_eq_zero
    intro i _
    simp [maskTag, maskValue, maskSum]
  -- the system draws one fold coefficient, then its weight
  have hfirst : streamOf chi 0 = chi ⟨0, by decide⟩ := dif_pos _
  have hsecond : streamOf chi 1 = chi ⟨1, by decide⟩ := dif_pos _
  have hdraws : draws (constraints falseProgram) (elemReader (streamOf chi) 0) =
      [⟨.system falseSystem, [chi ⟨0, by decide⟩], chi ⟨1, by decide⟩⟩] := by
    rw [draws_elemReader, ← hfirst, ← hsecond]
    rfl
  have hpoly (w : Nat → Bool) (v : Nat → GF2p128) (phi : GF2p128) :
      ((Constraint.system falseSystem).poly w v [phi]).eval delta = phi * (delta * delta) := by
    simp [Constraint.poly, QuadSystem.poly, falseSystem, Wire.poly, Wire.tag, Wire.value]
    ring
  have hqs : (toPoly (productStrategy chi)).eval delta =
      chi ⟨0, by decide⟩ * chi ⟨1, by decide⟩ * delta := by
    simp [productStrategy]
    ring
  have hdeg : (sizingOf falseProgram).maxDeg - (Constraint.system falseSystem).degree = 0 := rfl
  rw [Polynomial.eval_add, hmask, zero_add, hdraws, batchPoly_cons, hqs, hdeg, pow_zero, one_mul,
    Polynomial.eval_add, Polynomial.eval_mul, Polynomial.eval_C, hpoly, batchPoly, List.map_nil,
    List.sum_nil, Polynomial.eval_zero, add_zero, ← mul_assoc, mul_comm (chi _)] at hiff
  exact hiff

-- The field has `2 ^ 128` elements; below its size stays a variable `q`, which nothing evaluates.

theorem card_space {q : Nat} (hq : Fintype.card GF2p128 = q) :
    Fintype.card ((Fin (chiCount falseProgram) → GF2p128) × GF2p128) = q ^ 3 := by
  have hcount : chiCount falseProgram = 2 := rfl
  rw [Fintype.card_prod, Fintype.card_fun, Fintype.card_fin, hq, ← pow_succ, hcount]

/-- All but `(q - 1)² (q - 2)` of the `q³` pairs of stream and challenge pass. -/
theorem card_passing_falseProgram {q : Nat} (hq : Fintype.card GF2p128 = q) :
    q ^ 3 ≤ (passing params128 falseProgram ⟨1, 2, 1⟩ (BitVector.zero 257) (BitVector.zero 1) []
      productStrategy).card + (q - 1) * (q - 1) * (q - 2) := by
  classical
  have hinj : Function.Injective fun p : (Fin (chiCount falseProgram) → GF2p128) × GF2p128 =>
      ((p.1 ⟨0, by decide⟩, p.1 ⟨1, by decide⟩), p.2) := by
    rintro ⟨chi, delta⟩ ⟨chi', delta'⟩ h
    simp only [Prod.mk.injEq] at h
    obtain ⟨⟨h0, h1⟩, rfl⟩ := h
    have hchi : chi = chi' := by
      funext i
      have hi : i.val < 2 := i.isLt
      have hcases : i = ⟨0, by decide⟩ ∨ i = ⟨1, by decide⟩ := by
        simp only [Fin.ext_iff]
        omega
      rcases hcases with rfl | rfl
      · exact h0
      · exact h1
    rw [hchi]
  have hzero : (univ.erase (0 : GF2p128)).card = q - 1 := by
    rw [card_erase_of_mem (mem_univ _), card_univ, hq]
  have hone : ((univ.erase (0 : GF2p128)).erase 1).card = q - 2 := by
    rw [card_erase_of_mem (by simp), hzero, Nat.sub_sub]
  -- a failing pair has a nonzero stream and a challenge other than zero and one
  have hcount := card_le_filter_add (Passes params128 falseProgram ⟨1, 2, 1⟩ (BitVector.zero 257)
    (BitVector.zero 1) [] productStrategy) hinj
    (s := ((univ.erase 0) ×ˢ (univ.erase 0)) ×ˢ ((univ.erase 0).erase 1)) (by
      rintro ⟨chi, delta⟩ hne
      rw [passes_falseProgram] at hne
      simp only [mem_product, mem_erase, mem_univ, and_true, ne_eq]
      refine ⟨⟨?_, ?_⟩, ?_, ?_⟩
      · intro h
        simp [h] at hne
      · intro h
        simp [h] at hne
      · intro h
        simp [h] at hne
      · intro h
        simp [h] at hne)
  rw [card_space hq, card_product, card_product, hzero, hone] at hcount
  rw [passing]
  convert hcount

/-- The error bound without the fold fails: a program whose only assertion is a violated system of
    degree two passes on more than `3 / 2^128` of the streams and challenges. -/
theorem assertion_error_above_root_bound :
    CountingBackend.default.build (.ok falseProgram) = .ok ⟨1, 1, 2, 0⟩ ∧
    CountingBackend.sizing ⟨1, 1, 2, 0⟩ = ⟨1, 2, 1⟩ ∧
    (∀ chi, (productStrategy chi).length = 2) ∧
    (∃ op ∈ falseProgram,
      ¬ op.Holds (extractedWitness 1 (BitVector.zero 257) (BitVector.zero 1))) ∧
    ¬ passingFraction params128 falseProgram ⟨1, 2, 1⟩ (BitVector.zero 257) (BitVector.zero 1) []
      productStrategy ≤ (2 + 1 : ℕ) / 2 ^ 128 := by
  refine ⟨rfl, rfl, fun _ => rfl, ⟨_, List.mem_cons_of_mem _ List.mem_cons_self, ?_⟩, ?_⟩
  · intro h
    have hzero := h 0 (by decide)
    simp [QuadSystem.equation, falseSystem, Wire.value] at hzero
  -- count with the field size abstract: more than `3q²` of the `q³` draws pass
  · obtain ⟨q, hcardq⟩ : ∃ q, Fintype.card GF2p128 = q := ⟨_, rfl⟩
    have hcard := card_passing_falseProgram hcardq
    have hlarge : 6 ≤ q := by
      rw [← hcardq, GF2p128.card_eq]
      norm_num
    have hq : (q : ℚ) = 2 ^ 128 := by
      rw [← hcardq, GF2p128.card_eq]
      norm_num
    rw [passingFraction, card_space hcardq, ← hq]
    generalize (passing params128 falseProgram ⟨1, 2, 1⟩ (BitVector.zero 257) (BitVector.zero 1) []
      productStrategy).card = n at hcard ⊢
    clear hq hcardq
    obtain ⟨r, rfl⟩ := Nat.exists_eq_add_of_le hlarge
    have hn : 3 * (6 + r) ^ 2 < n := by
      have h1 : 6 + r - 1 = r + 5 := by omega
      have h2 : 6 + r - 2 = r + 4 := by omega
      rw [h1, h2] at hcard
      nlinarith
    have hn' : (3 * (6 + r : ℚ) ^ 2) < n := by exact_mod_cast hn
    have hpos : (0 : ℚ) < 6 + r := by positivity
    norm_num
    rw [div_lt_div_iff₀ (by positivity) (by positivity)]
    calc (3 * (6 + r) ^ 3 : ℚ) = 3 * (6 + r) ^ 2 * (6 + r) := by ring
      _ < n * (6 + r) := mul_lt_mul_of_pos_right hn' hpos

end VoleAct.Voleith
