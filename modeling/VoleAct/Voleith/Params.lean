/-
  VoleAct.Voleith.Params

  Errors and parameters of the proof system.
-/
import VoleAct.Basics

namespace VoleAct.Voleith

/-- Errors from proving or verifying. -/
inductive VoleithError where
  | unsatisfiable
  | invalidProof
  | witnessMismatch
  | invalidParameters
  deriving DecidableEq, Repr

/-- VOLE-in-the-head parameters: `tau` trees of depth `k`. -/
structure Params where
  tau : Nat
  k : Nat
  deriving DecidableEq, Repr

/-- `PARAMS_128`. -/
def params128 : Params := ⟨16, 8⟩

/-- `PARAMS_128_BALANCED`. -/
def params128Balanced : Params := ⟨32, 4⟩

/-- `PARAMS_128_FAST`. -/
def params128Fast : Params := ⟨64, 2⟩

namespace Params

/-- The security parameter in bits; the multiplication saturates. -/
def lambda (params : Params) : Nat := min (params.tau * params.k) usizeMax

/-- Leaves per tree, or zero when `k` is not representable as a shift. -/
def leaves (params : Params) : Nat := if 64 ≤ params.k then 0 else 1 <<< params.k

/-- `validate`: only λ = 128 with chunks of at most 24 bits. -/
def validate (params : Params) : Outcome VoleithError Unit :=
  Outcome.require
    (decide (1 ≤ params.tau ∧ 1 ≤ params.k ∧ params.k ≤ 24 ∧ params.tau ≤ 128 ∧
      params.lambda = 128))
    .invalidParameters

/-- What `validate` accepts. -/
structure Valid (params : Params) : Prop where
  tau_pos : 1 ≤ params.tau
  k_pos : 1 ≤ params.k
  k_le : params.k ≤ 24
  tau_mul_k : params.tau * params.k = 128

theorem validate_eq_ok {params : Params} : params.validate = .ok () ↔ params.Valid := by
  rw [validate, Outcome.require_eq_ok, decide_eq_true_iff]
  simp only [lambda, usizeMax]
  constructor
  · rintro ⟨htau, hk, hk', -, hlam⟩
    exact ⟨htau, hk, hk', by omega⟩
  · rintro ⟨htau, hk, hk', hmul⟩
    refine ⟨htau, hk, hk', ?_, by omega⟩
    calc params.tau = params.tau * 1 := (Nat.mul_one _).symm
      _ ≤ params.tau * params.k := Nat.mul_le_mul_left _ hk
      _ = 128 := hmul

theorem validate_of_valid {params : Params} (h : params.Valid) : params.validate = .ok () :=
  validate_eq_ok.mpr h

theorem Valid.lambda_eq {params : Params} (h : params.Valid) : params.lambda = 128 := by
  rw [lambda, h.tau_mul_k]
  rfl

theorem Valid.leaves_eq {params : Params} (h : params.Valid) : params.leaves = 2 ^ params.k := by
  have hk := h.k_le
  rw [leaves, if_neg (by omega), Nat.one_shiftLeft]

/-- The three shipped profiles are valid. -/
theorem shipped_valid : params128.Valid ∧ params128Balanced.Valid ∧ params128Fast.Valid :=
  ⟨⟨by decide, by decide, by decide, by decide⟩, ⟨by decide, by decide, by decide, by decide⟩,
    ⟨by decide, by decide, by decide, by decide⟩⟩

end Params

end VoleAct.Voleith
