/-
  VoleAct.Act.MayoTerms

  The whipped quadratic system as circuit terms (`mayo_terms_and_hash`,
  `vole-act/src/circuit.rs`).

  The positions on and above the diagonal are visited row by row; a position
  appends its `M` coefficients to the arena and keeps them only when one is
  nonzero.  So the table lists the kept positions, and the coefficients of the
  `i`-th start at `i * M`.
-/
import VoleAct.Sha3
import VoleAct.Mayo.WhippedForms
import VoleAct.Voleith.Builder

namespace VoleAct.Act

open VoleAct.BinaryFields VoleAct.Lib VoleAct.Mayo VoleAct.Voleith

/-- One quadratic term `s_r * s_c`. -/
structure MayoTerm where
  r : Nat
  c : Nat
  /-- Offset of the term's `m` per-equation coefficients inside the shared arena. -/
  offset : Nat
  deriving DecidableEq

/-- The shared coefficient arena and the terms that index it. -/
structure MayoTermTable where
  terms : List MayoTerm
  coeffs : List GF16

variable {P : MayoParams}

/-- The coefficients of one position in every equation. -/
def coeffGroup (forms : Vector (Mat P.KN P.KN) P.M) (p : Fin P.KN × Fin P.KN) : List GF16 :=
  forms.toList.map fun form => form.get p.1 p.2

/-- Append the coefficients of one position; truncate again when all are zero. -/
def addPosition (forms : Vector (Mat P.KN P.KN) P.M) (table : MayoTermTable)
    (p : Fin P.KN × Fin P.KN) : MayoTermTable :=
  let offset := table.coeffs.length
  let flat := table.coeffs ++ coeffGroup forms p
  if (flat.drop offset).any (· ≠ 0) then ⟨table.terms ++ [⟨p.1, p.2, offset⟩], flat⟩
  else ⟨table.terms, flat.take offset⟩

/-- What the public-key hash absorbs. -/
def mayoKeyBytes (forms : Vector (Mat P.KN P.KN) P.M) : List U8 :=
  ascii "VOLE-ACT/mayo-public-key/v1" ++ le64 P.N ++ le64 P.M ++ le64 P.O ++ le64 P.K ++
    forms.toList.flatMap fun form => Mat.bytes form.data

/-- `mayo_terms_and_hash`. -/
def mayoTermsAndHash (H : Xof) (pk : PublicKey P) : MayoTermTable × Bytes 32 :=
  let forms := whippedForms pk
  ((Mat.upperPositions P.KN).foldl (addPosition forms) ⟨[], []⟩, H.digest 32 (mayoKeyBytes forms))

/-! ## The table in closed form -/

/-- The positions with a nonzero coefficient, in order. -/
def keptPositions (forms : Vector (Mat P.KN P.KN) P.M) (l : List (Fin P.KN × Fin P.KN)) :
    List (Fin P.KN × Fin P.KN) :=
  l.filter fun p => (coeffGroup forms p).any (· ≠ 0)

/-- The `i`-th kept position as a term. -/
def termOf (P : MayoParams) (p : (Fin P.KN × Fin P.KN) × Nat) : MayoTerm :=
  ⟨p.1.1, p.1.2, p.2 * P.M⟩

@[simp] theorem coeffGroup_length (forms : Vector (Mat P.KN P.KN) P.M) (p : Fin P.KN × Fin P.KN) :
    (coeffGroup forms p).length = P.M := by
  simp [coeffGroup]

theorem coeffGroup_getD (forms : Vector (Mat P.KN P.KN) P.M) (p : Fin P.KN × Fin P.KN)
    (e : Fin P.M) : (coeffGroup forms p)[e.val]? = some ((forms.get e).get p.1 p.2) := by
  simp [coeffGroup, Vector.get_eq_getElem]

theorem flatMap_coeffGroup_length (forms : Vector (Mat P.KN P.KN) P.M)
    (l : List (Fin P.KN × Fin P.KN)) : (l.flatMap (coeffGroup forms)).length = l.length * P.M := by
  induction l with
  | nil => simp
  | cons p l ih => rw [List.flatMap_cons, List.length_append, ih, coeffGroup_length, List.length_cons,
      Nat.succ_mul, Nat.add_comm]

theorem keptPositions_cons (forms : Vector (Mat P.KN P.KN) P.M) (p : Fin P.KN × Fin P.KN)
    (l : List (Fin P.KN × Fin P.KN)) :
    keptPositions forms (p :: l) =
      if (coeffGroup forms p).any (· ≠ 0) then p :: keptPositions forms l
      else keptPositions forms l := List.filter_cons

/-- The loop over positions, from a table whose arena holds one group for each term. -/
theorem foldl_addPosition (forms : Vector (Mat P.KN P.KN) P.M) (l : List (Fin P.KN × Fin P.KN))
    (table : MayoTermTable) (hlen : table.coeffs.length = table.terms.length * P.M) :
    l.foldl (addPosition forms) table =
      ⟨table.terms ++ ((keptPositions forms l).zipIdx table.terms.length).map (termOf P),
        table.coeffs ++ (keptPositions forms l).flatMap (coeffGroup forms)⟩ := by
  induction l generalizing table with
  | nil => simp [keptPositions]
  | cons p l ih =>
      have hdrop : (table.coeffs ++ coeffGroup forms p).drop table.coeffs.length =
          coeffGroup forms p := List.drop_left
      rw [List.foldl_cons, addPosition, hdrop]
      by_cases hp : (coeffGroup forms p).any (· ≠ 0) = true
      · have hnext : (table.coeffs ++ coeffGroup forms p).length =
            (table.terms ++ [MayoTerm.mk p.1 p.2 table.coeffs.length]).length * P.M := by
          simp [hlen, Nat.succ_mul]
        rw [if_pos hp, ih _ hnext, keptPositions_cons, if_pos hp, List.zipIdx_cons, List.map_cons,
          List.flatMap_cons,
          List.append_assoc, List.append_assoc, List.length_append]
        rw [termOf, ← hlen]
        rfl
      · have htake : (table.coeffs ++ coeffGroup forms p).take table.coeffs.length = table.coeffs :=
          List.take_left
        rw [if_neg hp, htake, keptPositions_cons, if_neg hp]
        exact ih table hlen

/-- The kept positions of a key. -/
def keyPositions (pk : PublicKey P) : List (Fin P.KN × Fin P.KN) :=
  keptPositions (whippedForms pk) (Mat.upperPositions P.KN)

theorem mayoTermsAndHash_eq (H : Xof) (pk : PublicKey P) :
    (mayoTermsAndHash H pk).1 =
      ⟨(keyPositions pk).zipIdx.map (termOf P),
        (keyPositions pk).flatMap (coeffGroup (whippedForms pk))⟩ := by
  rw [mayoTermsAndHash]
  dsimp only
  rw [foldl_addPosition _ _ _ (by simp)]
  rfl

/-! ## Positions and offsets -/

theorem upperPositions_eq (n : Nat) : Mat.upperPositions n = Mat.positions n n true := by
  rw [Mat.upperPositions, Mat.positions]
  refine List.flatMap_congr fun r _ => ?_
  refine congrArg _ (List.filter_congr fun c _ => ?_)
  rw [Bool.not_true, Bool.false_or]
  exact decide_eq_decide.mpr Fin.le_def

theorem mem_upperPositions {n : Nat} {p : Fin n × Fin n} : p ∈ Mat.upperPositions n ↔ p.1 ≤ p.2 := by
  rw [upperPositions_eq, Mat.mem_positions, Fin.le_def]
  exact ⟨fun h => h rfl, fun h _ => h⟩

theorem upperPositions_nodup (n : Nat) : (Mat.upperPositions n).Nodup :=
  upperPositions_eq n ▸ Mat.positions_nodup n n true

/-- A sum over the positions on and above the diagonal. -/
theorem sum_upperPositions {n : Nat} (f : Fin n × Fin n → GF16) :
    ((Mat.upperPositions n).map f).sum = ∑ r, ∑ c, if r ≤ c then f (r, c) else 0 := by
  have hfinset : ((Mat.upperPositions n).map f).sum = ∑ p ∈ (Mat.upperPositions n).toFinset, f p :=
    (List.sum_toFinset f (upperPositions_nodup n)).symm
  have hset : (Mat.upperPositions n).toFinset = Finset.univ.filter fun p => p.1 ≤ p.2 := by
    ext p
    simp [mem_upperPositions]
  rw [hfinset, hset, Finset.sum_filter, Fintype.sum_prod_type]

/-! ## What the circuit relies on -/

/-- Every term addresses the signature and the arena. -/
structure MayoTermTable.Fits (P : MayoParams) (table : MayoTermTable) : Prop where
  r_lt : ∀ t ∈ table.terms, t.r < P.KN
  c_lt : ∀ t ∈ table.terms, t.c < P.KN
  offset_le : ∀ t ∈ table.terms, t.offset + P.M ≤ table.coeffs.length
  coeffs_le : table.coeffs.length ≤ usizeMax

theorem keyPositions_length_le (pk : PublicKey P) : (keyPositions pk).length ≤ P.KN * P.KN := by
  have hnodup : (keyPositions pk).Nodup := (upperPositions_nodup P.KN).filter _
  have hcard := hnodup.length_le_card
  rwa [Fintype.card_prod, Fintype.card_fin] at hcard

/-- The arena of the largest parameter set is far below the address space. -/
theorem arena_length_le (pk : PublicKey P) : (keyPositions pk).length * P.M ≤ usizeMax := by
  have hpositions : (keyPositions pk).length ≤ 2048 * 2048 :=
    (keyPositions_length_le pk).trans (Nat.mul_le_mul P.kn_le P.kn_le)
  have hbytes := Nat.mul_le_mul hpositions P.m_le
  unfold usizeMax
  omega

/-- A term of the table is a kept position with its index. -/
theorem mem_terms {H : Xof} {pk : PublicKey P} {t : MayoTerm}
    (ht : t ∈ (mayoTermsAndHash H pk).1.terms) :
    ∃ p i, (keyPositions pk)[i]? = some p ∧ t = termOf P (p, i) := by
  rw [mayoTermsAndHash_eq] at ht
  obtain ⟨⟨p, i⟩, hmem, rfl⟩ := List.mem_map.mp ht
  exact ⟨p, i, List.mem_zipIdx_iff_getElem?.mp hmem, rfl⟩

theorem mayoTerms_le {H : Xof} {pk : PublicKey P} {t : MayoTerm}
    (ht : t ∈ (mayoTermsAndHash H pk).1.terms) : t.r ≤ t.c ∧ t.c < P.KN := by
  obtain ⟨p, i, hp, rfl⟩ := mem_terms ht
  have hupper : p ∈ Mat.upperPositions P.KN := List.mem_of_mem_filter (List.mem_of_getElem? hp)
  exact ⟨mem_upperPositions.mp hupper, p.2.isLt⟩

theorem mayoTerms_fits (H : Xof) (pk : PublicKey P) : (mayoTermsAndHash H pk).1.Fits P where
  r_lt _ ht := (mayoTerms_le ht).1.trans_lt (mayoTerms_le ht).2
  c_lt _ ht := (mayoTerms_le ht).2
  offset_le t ht := by
    obtain ⟨p, i, hp, rfl⟩ := mem_terms ht
    obtain ⟨hi, -⟩ := List.getElem?_eq_some_iff.mp hp
    have hgroups := Nat.mul_le_mul_right P.M hi
    rw [Nat.succ_mul] at hgroups
    rw [mayoTermsAndHash_eq, flatMap_coeffGroup_length]
    exact hgroups
  coeffs_le := by
    rw [mayoTermsAndHash_eq, flatMap_coeffGroup_length]
    exact arena_length_le pk

/-- No pair of positions has two terms. -/
theorem mayoTerms_nodup (H : Xof) (pk : PublicKey P) :
    ((mayoTermsAndHash H pk).1.terms.map fun t => (t.r, t.c)).Nodup := by
  have hpairs : ((mayoTermsAndHash H pk).1.terms.map fun t => (t.r, t.c)) =
      (keyPositions pk).map fun p => (p.1.val, p.2.val) := by
    rw [mayoTermsAndHash_eq, List.map_map]
    conv_rhs => rw [← List.zipIdx_map_fst 0 (keyPositions pk), List.map_map]
    rfl
  rw [hpairs]
  refine ((upperPositions_nodup P.KN).filter _).map ?_
  rintro ⟨r, c⟩ ⟨r', c'⟩ h
  rw [Prod.mk.injEq] at h ⊢
  exact ⟨Fin.ext h.1, Fin.ext h.2⟩

/-- Equation `e` of the terms is form `e`. -/
theorem sum_mayoTerms (H : Xof) (pk : PublicKey P) (e : Fin P.M) (f : Nat → Nat → GF16) :
    ((mayoTermsAndHash H pk).1.terms.map fun t =>
        (mayoTermsAndHash H pk).1.coeffs.getD (t.offset + e) 0 * f t.r t.c).sum =
      ∑ r : Fin P.KN, ∑ c : Fin P.KN, ((whippedForms pk).get e).get r c * f r c := by
  let g (p : Fin P.KN × Fin P.KN) : GF16 := ((whippedForms pk).get e).get p.1 p.2 * f p.1 p.2
  -- a term's coefficients are those of its position
  have hterms : ((mayoTermsAndHash H pk).1.terms.map fun t =>
      (mayoTermsAndHash H pk).1.coeffs.getD (t.offset + e) 0 * f t.r t.c) =
        (keyPositions pk).map g := by
    conv_rhs => rw [← List.zipIdx_map_fst 0 (keyPositions pk), List.map_map]
    rw [mayoTermsAndHash_eq, List.map_map]
    refine List.map_congr_left fun ⟨p, i⟩ hmem => ?_
    have hp : (keyPositions pk)[i]? = some p := List.mem_zipIdx_iff_getElem?.mp hmem
    have hgroups : ∀ group ∈ (keyPositions pk).map (coeffGroup (whippedForms pk)),
        group.length = P.M := by
      intro group hgroup
      obtain ⟨p, -, rfl⟩ := List.mem_map.mp hgroup
      exact coeffGroup_length _ p
    have hcoeff : ((keyPositions pk).flatMap (coeffGroup (whippedForms pk)))[i * P.M + e.val]? =
        some (((whippedForms pk).get e).get p.1 p.2) := by
      rw [List.flatMap_def, getElem?_flatten_of_length hgroups e.isLt, List.getElem?_map, hp]
      exact coeffGroup_getD _ p e
    simp only [Function.comp_apply, termOf, List.getD_eq_getElem?_getD, hcoeff, Option.getD_some, g]
  -- a dropped position has no coefficient in any equation
  have hdropped (l : List (Fin P.KN × Fin P.KN)) :
      ((keptPositions (whippedForms pk) l).map g).sum = (l.map g).sum := by
    induction l with
    | nil => rfl
    | cons p l ih =>
        by_cases hp : (coeffGroup (whippedForms pk) p).any (· ≠ 0) = true
        · rw [keptPositions_cons, if_pos hp, List.map_cons, List.sum_cons, List.map_cons,
            List.sum_cons, ih]
        · have hzero : ((whippedForms pk).get e).get p.1 p.2 = 0 := by
            by_contra hne
            refine hp (List.any_eq_true.mpr ⟨_, List.mem_of_getElem? (coeffGroup_getD _ p e), ?_⟩)
            exact decide_eq_true hne
          rw [keptPositions_cons, if_neg hp, ih, List.map_cons, List.sum_cons]
          simp only [g, hzero, zero_mul, zero_add]
  rw [hterms, keyPositions, hdropped, sum_upperPositions]
  refine Finset.sum_congr rfl fun r _ => Finset.sum_congr rfl fun c _ => ?_
  by_cases hrc : r ≤ c
  · rw [if_pos hrc]
  · rw [if_neg hrc, whippedForms_below pk e (lt_of_not_ge hrc), zero_mul]

/-- The table computes the public map. -/
theorem sum_mayoTerms_eval (H : Xof) (pk : PublicKey P) (s : Vector GF16 P.KN) (e : Fin P.M) :
    ((mayoTermsAndHash H pk).1.terms.map fun t =>
        (mayoTermsAndHash H pk).1.coeffs.getD (t.offset + e) 0 *
          (s.toList.getD t.r 0 * s.toList.getD t.c 0)).sum = (evalBlocks pk s).get e := by
  have hget (r : Fin P.KN) : s.toList.getD r 0 = s.get r := by
    simp [List.getD_eq_getElem?_getD, Vector.get_eq_getElem]
  rw [sum_mayoTerms H pk e fun r c => s.toList.getD r 0 * s.toList.getD c 0,
    ← quadForm_whippedForms, quadForm_apply]
  simp only [dotProduct, Matrix.mulVec, Finset.mul_sum, Mat.toMatrix_apply, hget]
  exact Finset.sum_congr rfl fun r _ => Finset.sum_congr rfl fun c _ => by ring

/-! ## The quadratic system -/

/-- `lift_gf16`: a wire for the nibble of four bit wires. -/
def liftGf16 (bits : Vector Wire 4) : Wire :=
  (List.finRange 4).foldl
    (fun acc i => acc.add (.scale (embedGf16 (GF16.new (1#8 <<< i.val))) (bits.get i))) (.constant 0)

/-- `lift_nibbles`. -/
def liftNibbles {n : Nat} (bits : Vector Wire (4 * n)) : Vector Wire n :=
  Vector.ofFn fun i => liftGf16 (Vector.ofFn fun j => bits.get ⟨4 * i + j, by omega⟩)

theorem value_liftGf16 {w : Nat → Bool} {bits : Vector Wire 4} {a : GF16}
    (h : ∀ i : Fin 4, (bits.get i).value w = GF2p128.ofBool (a.bit i)) :
    (liftGf16 bits).value w = embedGf16 a := by
  have hstep (i : Fin 4) : embedGf16 (GF16.new (1#8 <<< i.val)) * (bits.get i).value w =
      if a.bit i then beta ^ i.val else 0 := by
    rw [h i, show GF16.new (1#8 <<< i.val) = GF16.xPow i from rfl, embedGf16_xPow]
    cases a.bit i <;> simp [GF2p128.ofBool]
  rw [embedGf16_eq, Finset.sum_range, Fin.sum_univ_def, ← List.map_congr_left fun i _ => hstep i]
  exact (foldl_add (Wire.value w) _ _ (fun acc i => rfl) _ _).trans (zero_add _)

theorem value_liftNibbles {w : Nat → Bool} {n : Nat} {bits : Vector Wire (4 * n)}
    {values : Vector GF16 n}
    (h : ∀ (i : Fin n) (j : Fin 4), (bits.get ⟨4 * i + j, by omega⟩).value w =
      GF2p128.ofBool ((values.get i).bit j)) (i : Fin n) :
    ((liftNibbles bits).get i).value w = embedGf16 (values.get i) := by
  rw [liftNibbles, Vector.get_ofFn]
  exact value_liftGf16 fun j => by rw [Vector.get_ofFn, h]

theorem MayoTermTable.Fits.isSome {table : MayoTermTable} (h : table.Fits P) {t : MayoTerm}
    (ht : t ∈ table.terms) : (SharedCoeffs.new table.coeffs t.offset P.M).isSome = true := by
  have hle := h.offset_le t ht
  rw [SharedCoeffs.new, if_pos ⟨hle.trans h.coeffs_le, hle⟩]
  rfl

/-- One term of the circuit; the view of the arena exists because the table fits. -/
def mayoQuadTerm {table : MayoTermTable} (h : table.Fits P) (signature : Vector Wire P.KN)
    (t : { t // t ∈ table.terms }) : QuadTerm where
  a := signature.get ⟨t.1.r, h.r_lt t.1 t.2⟩
  b := signature.get ⟨t.1.c, h.c_lt t.1 t.2⟩
  coeffs := ((SharedCoeffs.new table.coeffs t.1.offset P.M).get (h.isSome t.2)).asSlice

theorem mayoQuadTerm_coeffs {table : MayoTermTable} (h : table.Fits P)
    (signature : Vector Wire P.KN) (t : { t // t ∈ table.terms }) :
    (mayoQuadTerm h signature t).coeffs = (table.coeffs.drop t.1.offset).take P.M := by
  have hle := h.offset_le t.1 t.2
  simp only [mayoQuadTerm, SharedCoeffs.new, hle, hle.trans h.coeffs_le, and_self, if_true,
    Option.get_some, SharedCoeffs.asSlice]

/-- The deferred system `P*(signature) = signed_target`. -/
def mayoSystem {table : MayoTermTable} (h : table.Fits P) (signature : Vector Wire P.KN)
    (signedTarget : Vector Wire P.M) : QuadSystem where
  terms := table.terms.attach.map (mayoQuadTerm h signature)
  linear := signedTarget.toList
  length_coeffs := by
    intro t ht
    obtain ⟨t', -, rfl⟩ := List.mem_map.mp ht
    have hle := h.offset_le t'.1 t'.2
    rw [mayoQuadTerm_coeffs, List.length_take, List.length_drop, Vector.length_toList]
    omega

/-- The system holds exactly when the lifted signature is a preimage of the lifted target. -/
theorem holds_mayoSystem {H : Xof} {pk : PublicKey P} {table : MayoTermTable} (h : table.Fits P)
    (htable : table = (mayoTermsAndHash H pk).1) {w : Nat → Bool} {signature : Vector Wire P.KN}
    {signedTarget : Vector Wire P.M} {s : Vector GF16 P.KN} {t : Vector GF16 P.M}
    (hs : ∀ i, (signature.get i).value w = embedGf16 (s.get i))
    (ht : ∀ e, (signedTarget.get e).value w = embedGf16 (t.get e)) :
    (Op.assertQuadSystem (mayoSystem h signature signedTarget)).Holds w ↔ evalBlocks pk s = t := by
  subst htable
  -- a term of the system is the embedded term of the table
  have hterm (e : Fin P.M) (x : { x // x ∈ (mayoTermsAndHash H pk).1.terms }) :
      embedGf16 ((mayoQuadTerm (mayoTerms_fits H pk) signature x).coeffs.getD e 0) *
          ((mayoQuadTerm (mayoTerms_fits H pk) signature x).a.value w *
            (mayoQuadTerm (mayoTerms_fits H pk) signature x).b.value w) =
        embedHom ((mayoTermsAndHash H pk).1.coeffs.getD (x.1.offset + e) 0 *
          (s.toList.getD x.1.r 0 * s.toList.getD x.1.c 0)) := by
    have hget {r : Nat} (hr : r < P.KN) : s.toList.getD r 0 = s.get ⟨r, hr⟩ := by
      simp [List.getD_eq_getElem?_getD, Vector.get_eq_getElem, hr]
    rw [mayoQuadTerm_coeffs, map_mul, map_mul, hget ((mayoTerms_fits H pk).r_lt x.1 x.2),
      hget ((mayoTerms_fits H pk).c_lt x.1 x.2), mayoQuadTerm, hs, hs,
      List.getD_eq_getElem?_getD, List.getElem?_take_of_lt e.isLt, List.getElem?_drop,
      ← List.getD_eq_getElem?_getD]
    rfl
  -- so an equation is the embedded coordinate of the public map plus the target
  have hequation (e : Fin P.M) :
      (mayoSystem (mayoTerms_fits H pk) signature signedTarget).equation w e =
        embedHom ((evalBlocks pk s).get e + t.get e) := by
    have hlinear : (signedTarget.toList.getD e.val (Wire.constant 0)).value w =
        embedHom (t.get e) := by
      have hwire : signedTarget.toList.getD e.val (Wire.constant 0) = signedTarget.get e := by
        simp [List.getD_eq_getElem?_getD, Vector.get_eq_getElem]
      rw [hwire, ht]
      rfl
    rw [QuadSystem.equation, mayoSystem, List.map_map]
    simp only [Function.comp_def, hterm e, hlinear]
    rw [map_add, ← sum_mayoTerms_eval H pk s e, map_list_sum, List.map_map]
    exact congrArg (·.sum + _) (List.attach_map_val
      (f := fun t : MayoTerm => embedHom ((mayoTermsAndHash H pk).1.coeffs.getD (t.offset + e) 0 *
        (s.toList.getD t.r 0 * s.toList.getD t.c 0))))
  -- and in characteristic two it vanishes exactly when the two agree
  have hzero (e : Fin P.M) :
      (mayoSystem (mayoTerms_fits H pk) signature signedTarget).equation w e = 0 ↔
        (evalBlocks pk s).get e = t.get e := by
    rw [hequation, map_eq_zero, CharTwo.add_eq_zero]
  have hlength : (mayoSystem (mayoTerms_fits H pk) signature signedTarget).linear.length = P.M :=
    Vector.length_toList
  constructor
  · intro h
    apply Vector.ext
    intro e he
    exact (hzero ⟨e, he⟩).mp (h e (hlength.symm ▸ he))
  · rintro rfl e he
    exact (hzero ⟨e, hlength ▸ he⟩).mpr rfl

/-! ## The table and the public map -/

/-- The nibbles an assignment gives to the bits from position `start`. -/
def nibblesAt (w : Nat → Bool) (start n : Nat) : Vector GF16 n :=
  Vector.ofFn fun i => GF16.ofBits fun j => w (start + 4 * i + j)

theorem value_liftNibbles_bitWires (w : Nat → Bool) (start : Nat) {n : Nat} (i : Fin n) :
    ((liftNibbles (bitWires start (4 * n))).get i).value w =
      embedGf16 ((nibblesAt w start n).get i) := by
  refine value_liftNibbles (fun i j => ?_) i
  rw [bitWires, nibblesAt, Vector.get_ofFn, Vector.get_ofFn, GF16.bit_ofBits _ j.isLt, Wire.value,
    Nat.add_assoc]

/-- The forms and the term table of a key compute its public map; the views of the arena exist, and
    the circuit's system on lifted nibbles holds exactly when the map has that value there. -/
theorem mayo_terms_compute_eval (H : Xof) (P : MayoParams) (pk : PublicKey P) :
    let table := (mayoTermsAndHash H pk).1
    (∀ a p q, q < p → ((whippedForms pk).get a).get p q = 0) ∧
    (∀ s : Vector GF16 P.KN, ∃ y : Vector GF16 P.M, eval pk s.toList = .ok y.toList ∧
      (∀ a, ∑ p, ∑ q, s.get p * (((whippedForms pk).get a).get p q * s.get q) = y.get a) ∧
      ∀ e : Fin P.M, (table.terms.map fun t => table.coeffs.getD (t.offset + e) 0 *
        (s.toList.getD t.r 0 * s.toList.getD t.c 0)).sum = y.get e) ∧
    (∀ t ∈ table.terms, t.r ≤ t.c ∧ t.c < P.KN ∧ t.offset + P.M ≤ table.coeffs.length) ∧
    (table.terms.map fun t => (t.r, t.c)).Nodup ∧
    (∀ t ∈ table.terms, (SharedCoeffs.new table.coeffs t.offset P.M).isSome) ∧
    ∀ (w : Nat → Bool) (start start' : Nat),
      (Op.assertQuadSystem (mayoSystem (mayoTerms_fits H pk)
          (liftNibbles (bitWires start (4 * P.KN)))
          (liftNibbles (bitWires start' (4 * P.M))))).Holds w ↔
        eval pk (nibblesAt w start P.KN).toList = .ok (nibblesAt w start' P.M).toList := by
  dsimp only
  refine ⟨fun a p q h => whippedForms_below pk a h, fun s => ?_, fun t ht => ?_,
    mayoTerms_nodup H pk, fun t ht => (mayoTerms_fits H pk).isSome ht, fun w start start' => ?_⟩
  · refine ⟨evalBlocks pk s, eval_toList pk s, fun a => ?_, sum_mayoTerms_eval H pk s⟩
    rw [← quadForm_whippedForms, quadForm_apply]
    simp only [dotProduct, Matrix.mulVec, Finset.mul_sum, Mat.toMatrix_apply]
  · have hle := mayoTerms_le ht
    exact ⟨hle.1, hle.2, (mayoTerms_fits H pk).offset_le t ht⟩
  · rw [holds_mayoSystem _ rfl (value_liftNibbles_bitWires w start)
      (value_liftNibbles_bitWires w start'), eval_toList, Except.ok.injEq, Vector.toList_inj]

end VoleAct.Act
