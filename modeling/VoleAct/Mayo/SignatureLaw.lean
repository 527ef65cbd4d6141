/-
  VoleAct.Mayo.SignatureLaw

  How often preimage sampling returns each preimage.

  A preimage is its vinegar part and its oil variables: the vinegar part decides
  whether the linear system has full rank, and then the solver returns the oil
  variables for `16^M` of its random vectors.  So every preimage with a regular
  vinegar part is returned by as many runs as any other.
-/
import VoleAct.Lib.Rejection
import VoleAct.Mayo.Attempts
import VoleAct.Mayo.Preimage

namespace VoleAct.Mayo

open VoleAct.BinaryFields VoleAct.Lib Mat Matrix

variable {P : MayoParams}

/-! ## Preimages as vinegar and oil -/

/-- The vinegar values of a preimage: `v_i = s_i - O x_i`. -/
def vinegarOf (sk : SecretKey P) (s : Vector GF16 P.KN) : Vector (Vector GF16 P.V) P.K :=
  Vector.ofFn fun i => addVec (splitV (block s i)) (sk.o.mulVec (splitO (block s i)))

/-- The oil variables of a preimage. -/
def oilOf (s : Vector GF16 P.KN) : Vector GF16 (P.K * P.O) :=
  Vector.ofFn fun p => (splitO (block s p.divNat)).get p.modNat

/-- The blocks determine the vector. -/
theorem eq_of_split_block {s s' : Vector GF16 P.KN}
    (h : ∀ i, split (block s i) = split (block s' i)) : s = s' := by
  refine Vector.ext fun p hp => ?_
  let i : Fin P.K := (⟨p, hp⟩ : Fin (P.K * P.N)).divNat
  let r : Fin P.N := (⟨p, hp⟩ : Fin (P.K * P.N)).modNat
  have hpos : (⟨i * P.N + r, block_lt i r⟩ : Fin P.KN) = ⟨p, hp⟩ := by
    have heq : finProdFinEquiv (i, r) = (⟨p, hp⟩ : Fin (P.K * P.N)) :=
      finProdFinEquiv.apply_symm_apply _
    rw [← heq]
    apply Fin.ext
    rw [finProdFinEquiv_apply_val]
    exact (Nat.add_comm _ _).trans (congrArg (r.val + ·) (Nat.mul_comm _ _))
  have hget (s : Vector GF16 P.KN) : (block s i).get r = s[p] := by
    rw [block, Vector.get_ofFn, hpos]
    rfl
  rw [← hget s, ← hget s']
  obtain ⟨hv, ho⟩ := Prod.mk.inj (h i)
  by_cases hr : r < P.V
  · have hentry := congrFun hv ⟨r, hr⟩
    rwa [get_splitV _ _ r.isLt, get_splitV _ _ r.isLt] at hentry
  · have hlast : P.V + (r - P.V) < P.N := by have := r.isLt; omega
    have hentry := congrFun ho ⟨r - P.V, by have := P.v_add_o; omega⟩
    rw [get_splitO _ _ hlast, get_splitO _ _ hlast] at hentry
    have hpos' : (⟨P.V + (r.val - P.V), hlast⟩ : Fin P.N) = r := Fin.ext (by simp only; omega)
    rwa [hpos'] at hentry

theorem oilBlock_oilOf (s : Vector GF16 P.KN) (i : Fin P.K) :
    oilBlock (oilOf s) i = splitO (block s i) := by
  refine Vector.ext fun c hc => ?_
  have hget := get_oilBlock (oilOf s) i ⟨c, hc⟩
  have hsymm : finProdFinEquiv.symm (finProdFinEquiv (i, (⟨c, hc⟩ : Fin P.O))) = (i, ⟨c, hc⟩) :=
    Equiv.symm_apply_apply _ _
  have hdiv : (finProdFinEquiv (i, (⟨c, hc⟩ : Fin P.O))).divNat = i := congrArg Prod.fst hsymm
  have hmod : (finProdFinEquiv (i, (⟨c, hc⟩ : Fin P.O))).modNat = ⟨c, hc⟩ :=
    congrArg Prod.snd hsymm
  rw [oilOf, Vector.get_ofFn, hdiv, hmod] at hget
  exact hget

/-- A preimage is assembled from its two parts. -/
theorem assemble_vinegarOf (sk : SecretKey P) (s : Vector GF16 P.KN) :
    assemble sk (vinegarOf sk s) (oilOf s) = s := by
  refine eq_of_split_block fun i => ?_
  have hvinegar : ((vinegarOf sk s).get i).get =
      (split (block s i)).1 + sk.o.toMatrix *ᵥ (split (block s i)).2 := by
    rw [vinegarOf, Vector.get_ofFn, get_addVec]
    exact congrArg _ (funext (get_mulVec _ _))
  rw [split_block_assemble, oilBlock_oilOf, oilEmbed_apply, hvinegar]
  refine Prod.ext ?_ ?_
  · funext c
    simp only [Prod.fst_add, Pi.add_apply]
    rw [add_assoc]
    exact (congrArg _ (CharTwo.add_self_eq_zero _)).trans (add_zero _)
  · exact zero_add _

theorem splitO_block_assemble (sk : SecretKey P) (vinegar : Vector (Vector GF16 P.V) P.K)
    (x : Vector GF16 (P.K * P.O)) (i : Fin P.K) :
    splitO (block (assemble sk vinegar x) i) = oilBlock x i := by
  have h := congrArg Prod.snd (split_block_assemble sk vinegar x i)
  refine Vector.ext fun c hc => ?_
  have hentry := congrFun h ⟨c, hc⟩
  rw [Prod.snd_add, zero_add] at hentry
  exact hentry

theorem oilOf_assemble (sk : SecretKey P) (vinegar : Vector (Vector GF16 P.V) P.K)
    (x : Vector GF16 (P.K * P.O)) : oilOf (assemble sk vinegar x) = x := by
  refine Vector.ext fun p hp => ?_
  have hentry : (oilOf (assemble sk vinegar x)).get ⟨p, hp⟩ = x.get ⟨p, hp⟩ := by
    rw [oilOf, Vector.get_ofFn, splitO_block_assemble, get_oilBlock]
    exact congrArg x.get (finProdFinEquiv.apply_symm_apply _)
  exact hentry

theorem vinegarOf_assemble (sk : SecretKey P) (vinegar : Vector (Vector GF16 P.V) P.K)
    (x : Vector GF16 (P.K * P.O)) : vinegarOf sk (assemble sk vinegar x) = vinegar := by
  refine Vector.ext fun i hi => ?_
  have hblock := congrArg Prod.fst (split_block_assemble sk vinegar x ⟨i, hi⟩)
  have hrow : ((vinegarOf sk (assemble sk vinegar x)).get ⟨i, hi⟩).get =
      (vinegar.get ⟨i, hi⟩).get := by
    rw [vinegarOf, Vector.get_ofFn, get_addVec, splitO_block_assemble]
    refine (congrArg (· + _) hblock).trans ?_
    funext c
    simp only [Prod.fst_add, Pi.add_apply, oilEmbed_apply, get_mulVec]
    rw [add_assoc, CharTwo.add_self_eq_zero, add_zero]
  exact Vector.ext fun c hc => congrFun hrow ⟨c, hc⟩

/-! ## The draws that give a preimage -/

/-- The matrix of the linear system, which no target enters. -/
def systemMatrix (sk : SecretKey P) (vinegar : Vector (Vector GF16 P.V) P.K) :
    Matrix (Fin P.M) (Fin (P.K * P.O)) GF16 :=
  (linearSystem sk (Vector.replicate P.M 0) vinegar).1.toMatrix

theorem linearSystem_toMatrix (sk : SecretKey P) (t : Vector GF16 P.M)
    (vinegar : Vector (Vector GF16 P.V) P.K) :
    (linearSystem sk t vinegar).1.toMatrix = systemMatrix sk vinegar := by
  rw [systemMatrix, linearSystem_fst sk t (Vector.replicate P.M 0)]

/-- The oil variables solve the system of a target exactly when the whole is a preimage of it. -/
theorem systemMatrix_mulVec_iff (sk : SecretKey P) (t : Vector GF16 P.M)
    (vinegar : Vector (Vector GF16 P.V) P.K) (x : Vector GF16 (P.K * P.O)) :
    systemMatrix sk vinegar *ᵥ x.get = (linearSystem sk t vinegar).2.get ↔
      evalBlocks sk.publicKey (assemble sk vinegar x) = t := by
  constructor
  · intro h
    rw [← linearSystem_toMatrix sk t] at h
    exact evalBlocks_assemble sk t vinegar x h
  · -- the target whose right-hand side is the image of the oil variables is the value
    obtain ⟨w, hw⟩ : ∃ w, ∀ t, (linearSystem sk t vinegar).2.get = t.get + w :=
      ⟨_, fun t => (linearSystem_spec sk t vinegar x).2⟩
    let value : Vector GF16 P.M := Vector.ofFn (systemMatrix sk vinegar *ᵥ x.get + w)
    have hvalue : (linearSystem sk value vinegar).2.get = systemMatrix sk vinegar *ᵥ x.get := by
      rw [hw, get_ofFn_eq]
      funext a
      simp only [Pi.add_apply]
      rw [add_assoc, CharTwo.add_self_eq_zero, add_zero]
    have heval := evalBlocks_assemble sk value vinegar x
      ((linearSystem_toMatrix sk value vinegar).symm ▸ hvalue.symm)
    intro h
    rw [← h, heval, hvalue]

theorem answer_eq_some_iff {sk : SecretKey P} {t : Vector GF16 P.M} {d : Draws P}
    {s : Vector GF16 P.KN} : answer sk t d = some s ↔ d.1 = vinegarOf sk s ∧
      sampleSolution (linearSystem sk t (vinegarOf sk s)).1 (linearSystem sk t (vinegarOf sk s)).2
        d.2 = some (oilOf s) := by
  rw [answer, Option.map_eq_some_iff]
  constructor
  · rintro ⟨x, hx, rfl⟩
    rw [vinegarOf_assemble, oilOf_assemble]
    exact ⟨rfl, hx⟩
  · rintro ⟨hvinegar, hx⟩
    refine ⟨oilOf s, ?_, ?_⟩
    · rw [hvinegar]
      exact hx
    · rw [hvinegar, assemble_vinegarOf]

/-- The linear system at the vinegar values of a preimage has full rank. -/
def Regular (sk : SecretKey P) (s : Vector GF16 P.KN) : Prop :=
  (systemMatrix sk (vinegarOf sk s)).rank = P.M

theorem m_lt (P : MayoParams) : P.M < 2 ^ 63 := Nat.lt_of_le_of_lt P.m_le (by decide)

/-- The draws that give a preimage are the random vectors that give its oil variables. -/
theorem card_answer_eq_card (sk : SecretKey P) (t : Vector GF16 P.M) (s : Vector GF16 P.KN) :
    Nat.card {d : Draws P // answer sk t d = some s} =
      Nat.card {r : Vector GF16 (P.K * P.O) // sampleSolution (linearSystem sk t (vinegarOf sk s)).1
        (linearSystem sk t (vinegarOf sk s)).2 r = some (oilOf s)} := by
  refine Nat.card_congr ⟨fun d => ⟨d.1.2, (answer_eq_some_iff.mp d.2).2⟩,
    fun r => ⟨(vinegarOf sk s, r.1), answer_eq_some_iff.mpr ⟨rfl, r.2⟩⟩, ?_, fun r => rfl⟩
  rintro ⟨⟨vinegar, r⟩, hd⟩
  exact Subtype.ext (Prod.ext (answer_eq_some_iff.mp hd).1.symm rfl)

/-- A regular preimage comes from `16^M` draws. -/
theorem card_answer_eq {sk : SecretKey P} {t : Vector GF16 P.M} {s : Vector GF16 P.KN}
    (heval : evalBlocks sk.publicKey s = t) (hregular : Regular sk s) :
    Nat.card {d : Draws P // answer sk t d = some s} = 16 ^ P.M := by
  have hsolves := systemMatrix_mulVec_iff sk t (vinegarOf sk s) (oilOf s)
  rw [assemble_vinegarOf] at hsolves
  rw [card_answer_eq_card]
  refine card_sampleSolution_eq (m_lt P) ?_ ?_
  · rw [linearSystem_toMatrix]
    exact hregular
  · rw [linearSystem_toMatrix]
    exact hsolves.mpr heval

/-- Nothing else comes from any draw. -/
theorem of_answer_eq_some {sk : SecretKey P} {t : Vector GF16 P.M} {d : Draws P}
    {s : Vector GF16 P.KN} (h : answer sk t d = some s) :
    evalBlocks sk.publicKey s = t ∧ Regular sk s := by
  have hsolves := systemMatrix_mulVec_iff sk t (vinegarOf sk s) (oilOf s)
  rw [assemble_vinegarOf] at hsolves
  obtain ⟨-, hr⟩ := answer_eq_some_iff.mp h
  have hrank := (sampleSolution_isSome_iff (m_lt P) _ _ d.2).mp (Option.isSome_of_mem hr)
  have hsolution := sampleSolution_spec (m_lt P) hr
  rw [linearSystem_toMatrix] at hrank hsolution
  exact ⟨hsolves.mp hsolution, hrank⟩

/-- An attempt fails on its vinegar values, whatever the target. -/
theorem answer_eq_none_iff {sk : SecretKey P} {t : Vector GF16 P.M} {d : Draws P} :
    answer sk t d = none ↔ (systemMatrix sk d.1).rank ≠ P.M := by
  rw [← linearSystem_toMatrix sk t, Ne, ← sampleSolution_isSome_iff (m_lt P) _
    (linearSystem sk t d.1).2 d.2, answer, Option.map_eq_none_iff, ← Option.not_isSome_iff_eq_none]

/-! ## The loop -/

theorem finite_vector {α : Type} [Finite α] (n : Nat) : Finite (Vector α n) :=
  Finite.of_injective Vector.get fun _ _ h => Vector.ext fun i hi => congrFun h ⟨i, hi⟩

theorem finite_draws (P : MayoParams) : Finite (Draws P) := by
  have := finite_vector (α := GF16) P.V
  have := finite_vector (α := Vector GF16 P.V) P.K
  have := finite_vector (α := GF16) (P.K * P.O)
  infer_instance

/-- The draws of `n` attempts. -/
def drawMany {ρ : Type} [CryptoRngCore ρ] (P : MayoParams) : (n : Nat) → ρ → List (Draws P)
  | 0, _ => []
  | n + 1, rng => (draw P rng).1 :: drawMany P n (draw P rng).2

/-- What `spre` returns for the first answer of its attempts. -/
def returned (o : Option (Vector GF16 P.KN)) : Except MayoError (List GF16) :=
  match o with
  | some s => .ok s.toList
  | none => .error .preimageSamplingFailed

/-- The loop returns the first answer to its draws. -/
theorem spreLoop_eq {ρ : Type} [CryptoRngCore ρ] (sk : SecretKey P) (t : Vector GF16 P.M) (n : Nat)
    (rng : ρ) :
    (spreLoop sk t n rng).1 = returned ((drawMany P n rng).findSome? (answer sk t)) := by
  induction n generalizing rng with
  | zero => rfl
  | succ n ih =>
      rw [spreLoop, spreAttempt_eq, drawMany, List.findSome?_cons]
      cases answer sk t (draw P rng).1 with
      | some s => rfl
      | none => exact ih _

/-- The law of preimage sampling.  `spre` returns the first answer to the draws of its 256 attempts.
    Of the runs of any number of independent draws, every preimage of the target whose linear system
    has full rank is returned by equally many, as many for every target; nothing else is returned by
    any; and as many runs fail for every target. -/
theorem signature_law (sk : SecretKey P) (t : Vector GF16 P.M) :
    let irregular := Nat.card {d : Draws P // (systemMatrix sk d.1).rank ≠ P.M}
    (∀ {ρ : Type} [CryptoRngCore ρ] (rng : ρ), (spre sk t.toList rng).1 =
      returned ((drawMany P 256 rng).findSome? (answer sk t))) ∧
    (∀ (n : Nat) (s : Vector GF16 P.KN), eval sk.publicKey s.toList = .ok t.toList → Regular sk s →
      Nat.card {draws : Fin n → Draws P // (List.ofFn draws).findSome? (answer sk t) = some s} =
        16 ^ P.M * runsAround irregular (Nat.card (Draws P)) n) ∧
    (∀ (n : Nat) (draws : Fin n → Draws P) (s : Vector GF16 P.KN),
      (List.ofFn draws).findSome? (answer sk t) = some s →
        eval sk.publicKey s.toList = .ok t.toList ∧ Regular sk s) ∧
    ∀ n : Nat, Nat.card {draws : Fin n → Draws P //
      (List.ofFn draws).findSome? (answer sk t) = none} = irregular ^ n := by
  intro irregular
  have hirregular : Nat.card {d : Draws P // answer sk t d = none} = irregular :=
    Nat.card_congr (Equiv.subtypeEquivRight fun d => answer_eq_none_iff)
  have hfinite := finite_draws P
  refine ⟨fun rng => ?_, fun n s heval hregular => ?_, fun n draws s h => ?_, fun n => ?_⟩
  · rw [spre, dif_pos t.length_toList, ← spreLoop_eq]
    rfl
  · rw [eval_toList] at heval
    have hvalue := Vector.toList_inj.mp (Except.ok.inj heval)
    rw [card_findSome?_eq_some, hirregular, card_answer_eq hvalue hregular]
  · obtain ⟨d, -, hd⟩ := List.exists_of_findSome?_eq_some h
    obtain ⟨heval, hregular⟩ := of_answer_eq_some hd
    rw [eval_toList, heval]
    exact ⟨rfl, hregular⟩
  · rw [card_findSome?_eq_none, hirregular]

end VoleAct.Mayo
