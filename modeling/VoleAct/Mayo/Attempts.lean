/-
  VoleAct.Mayo.Attempts

  The attempts of preimage sampling and the randomness they draw.

  The matrix of the linear system depends on the key and the vinegar values alone and
  the target enters the right-hand side only, so the solver succeeds at the same
  attempt for every target.
-/
import VoleAct.Mayo.SampleLaw
import VoleAct.Mayo.Scheme

namespace VoleAct.Mayo

open VoleAct.BinaryFields VoleAct.Lib Mat

variable {P : MayoParams} {ρ : Type} [CryptoRngCore ρ]

/-- The randomness of one attempt: the vinegar values and the random vector of the solver. -/
abbrev Draws (P : MayoParams) := Vector (Vector GF16 P.V) P.K × Vector GF16 (P.K * P.O)

def draw (P : MayoParams) (rng : ρ) : Draws P × ρ :=
  let (vinegar, rng) := randomRows P.V P.K rng
  let (r, rng) := randomVec (P.K * P.O) rng
  ((vinegar, r), rng)

/-- What an attempt returns, from its randomness. -/
def answer (sk : SecretKey P) (t : Vector GF16 P.M) (d : Draws P) : Option (Vector GF16 P.KN) :=
  (sampleSolution (linearSystem sk t d.1).1 (linearSystem sk t d.1).2 d.2).map (assemble sk d.1)

theorem spreAttempt_eq (sk : SecretKey P) (t : Vector GF16 P.M) (rng : ρ) :
    spreAttempt sk t rng = (answer sk t (draw P rng).1, (draw P rng).2) := rfl

theorem linearSystem_fst (sk : SecretKey P) (t t' : Vector GF16 P.M)
    (vinegar : Vector (Vector GF16 P.V) P.K) :
    (linearSystem sk t vinegar).1 = (linearSystem sk t' vinegar).1 := by
  unfold linearSystem
  refine List.foldl_rel
    (r := fun (s s' : Mat P.M (P.K * P.O) × Vector GF16 P.M) => s.1 = s'.1) rfl ?_
  rintro ⟨⟨i, j⟩, ell⟩ - ⟨a, y⟩ ⟨a', y'⟩ heq
  dsimp only at heq ⊢
  rw [heq]

theorem answer_isSome (sk : SecretKey P) (t t' : Vector GF16 P.M) (d : Draws P) :
    (answer sk t d).isSome = (answer sk t' d).isSome := by
  have hm : P.M < 2 ^ 63 := Nat.lt_of_le_of_lt P.m_le (by decide)
  rw [answer, answer, Option.isSome_map, Option.isSome_map, Bool.eq_iff_iff,
    sampleSolution_isSome_iff hm, sampleSolution_isSome_iff hm, linearSystem_fst sk t t']

/-- The loop of `spre` with a log of the attempts it makes. -/
def spreLoopLog (sk : SecretKey P) (t : Vector GF16 P.M) :
    (attempts : Nat) → ρ → (Except MayoError (List GF16) × ρ) × List (Draws P)
  | 0, rng => ((.error .preimageSamplingFailed, rng), [])
  | attempts + 1, rng =>
      let (d, rng) := draw P rng
      match answer sk t d with
      | some s => ((.ok s.toList, rng), [d])
      | none =>
          let (out, log) := spreLoopLog sk t attempts rng
          (out, d :: log)

theorem spreLoopLog_fst (sk : SecretKey P) (t : Vector GF16 P.M) (attempts : Nat) (rng : ρ) :
    (spreLoopLog sk t attempts rng).1 = spreLoop sk t attempts rng := by
  induction attempts generalizing rng with
  | zero => rfl
  | succ attempts ih =>
      rw [spreLoopLog, spreLoop, spreAttempt_eq]
      dsimp only
      cases answer sk t (draw P rng).1 with
      | some s => rfl
      | none => exact ih _

/-- The randomness of the attempts of `spre`, in order. -/
def spreLog (sk : SecretKey P) (t : List GF16) (rng : ρ) : List (Draws P) :=
  if h : t.length = P.M then (spreLoopLog sk ⟨t.toArray, h⟩ 256 rng).2 else []

/-- The logged loop is `spre`, and its log is that of `spre`. -/
theorem spreLoopLog_eq (sk : SecretKey P) (t : Vector GF16 P.M) (rng : ρ) :
    spreLoopLog sk t 256 rng = (spre sk t.toList rng, spreLog sk t.toList rng) := by
  have hlen : t.toList.length = P.M := t.length_toList
  have ht : (⟨t.toList.toArray, hlen⟩ : Vector GF16 P.M) = t := rfl
  rw [spre, spreLog, dif_pos hlen, dif_pos hlen, ht, ← spreLoopLog_fst]

/-- Two results of preimage sampling after the same attempts: two preimages with the vinegar values
    of the last attempt, or two failures. -/
def SameOutcome (sk : SecretKey P) (log : List (Draws P)) (out out' : Except MayoError (List GF16)) :
    Prop :=
  (∃ (d : Draws P) (x x' : Vector GF16 (P.K * P.O)), log.getLast? = some d ∧
    out = .ok (assemble sk d.1 x).toList ∧ out' = .ok (assemble sk d.1 x').toList) ∨
  (out = .error .preimageSamplingFailed ∧ out' = .error .preimageSamplingFailed)

/-- Two runs of the loop with different targets make the same attempts. -/
theorem spreLoopLog_target (sk : SecretKey P) (t t' : Vector GF16 P.M) (attempts : Nat) (rng : ρ) :
    (spreLoopLog sk t attempts rng).2 = (spreLoopLog sk t' attempts rng).2 ∧
    (spreLoopLog sk t attempts rng).1.2 = (spreLoopLog sk t' attempts rng).1.2 ∧
    SameOutcome sk (spreLoopLog sk t attempts rng).2 (spreLoopLog sk t attempts rng).1.1
      (spreLoopLog sk t' attempts rng).1.1 := by
  induction attempts generalizing rng with
  | zero => exact ⟨rfl, rfl, .inr ⟨rfl, rfl⟩⟩
  | succ attempts ih =>
      have hsame := answer_isSome sk t t' (draw P rng).1
      simp only [spreLoopLog]
      rcases h : answer sk t (draw P rng).1 with _ | s <;>
        rcases h' : answer sk t' (draw P rng).1 with _ | s'
      · obtain ⟨hlog, hrng, hout⟩ := ih (draw P rng).2
        refine ⟨by rw [hlog], hrng, hout.imp ?_ id⟩
        rintro ⟨d, x, x', hlast, hx, hx'⟩
        refine ⟨d, x, x', ?_, hx, hx'⟩
        rw [List.getLast?_cons, hlast]
        rfl
      · rw [h, h'] at hsame
        exact absurd hsame Bool.false_ne_true
      · rw [h, h'] at hsame
        exact absurd hsame.symm Bool.false_ne_true
      · -- both answers are assembled from the vinegar values of this attempt
        obtain ⟨x, -, rfl⟩ := Option.map_eq_some_iff.mp h
        obtain ⟨x', -, rfl⟩ := Option.map_eq_some_iff.mp h'
        -- reduced first, so that the two preimages are never compared
        dsimp only
        exact ⟨rfl, rfl, .inl ⟨_, x, x', rfl, rfl, rfl⟩⟩

theorem spre_target (sk : SecretKey P) {t t' : List GF16} (ht : t.length = P.M)
    (ht' : t'.length = P.M) (rng : ρ) :
    spreLog sk t rng = spreLog sk t' rng ∧ (spre sk t rng).2 = (spre sk t' rng).2 ∧
      SameOutcome sk (spreLog sk t rng) (spre sk t rng).1 (spre sk t' rng).1 := by
  rw [spreLog, spreLog, dif_pos ht, dif_pos ht', spre, spre, dif_pos ht, dif_pos ht',
    ← spreLoopLog_fst, ← spreLoopLog_fst]
  exact spreLoopLog_target sk _ _ 256 rng

end VoleAct.Mayo
