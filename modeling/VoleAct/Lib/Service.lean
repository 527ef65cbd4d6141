/-
  VoleAct.Lib.Service

  Services: a state that answers one input after the other.

  Two services with states in a relation that every input keeps, and under which they
  give one answer, give the same answers to every list of inputs.
-/
import Mathlib.Data.List.Basic

namespace VoleAct.Lib

namespace Service

variable {σ τ ι ω : Type}

/-- The answers to the inputs in order, and the state after them. -/
def run (step : σ → ι → ω × σ) (s : σ) : List ι → List ω × σ
  | [] => ([], s)
  | i :: inputs =>
      let (answer, s) := step s i
      let (answers, s) := run step s inputs
      (answer :: answers, s)

variable {step : σ → ι → ω × σ} {step' : τ → ι → ω × τ}

/-- A run goes on from the state that its first part leaves. -/
theorem run_append (s : σ) (inputs inputs' : List ι) :
    run step s (inputs ++ inputs') =
      ((run step s inputs).1 ++ (run step (run step s inputs).2 inputs').1,
        (run step (run step s inputs).2 inputs').2) := by
  induction inputs generalizing s with
  | nil => rfl
  | cons i inputs ih =>
      simp only [List.cons_append, run]
      rw [ih]

/-- One answer for each input. -/
theorem run_length (s : σ) (inputs : List ι) : (run step s inputs).1.length = inputs.length := by
  induction inputs generalizing s with
  | nil => rfl
  | cons i inputs ih => exact congrArg Nat.succ (ih _)

/-- The answer to one of the inputs is given in the state that those before it leave. -/
theorem run_getElem? (s : σ) (before : List ι) (i : ι) (after : List ι) :
    (run step s (before ++ i :: after)).1[before.length]? =
      some (step (run step s before).2 i).1 := by
  rw [run_append]
  show (_ ++ _ :: _)[before.length]? = _
  rw [List.getElem?_append_right (Nat.le_of_eq (run_length s before)), run_length, Nat.sub_self]
  rfl

/-- What every input keeps, every run keeps. -/
theorem run_invariant {I : σ → Prop} (hstep : ∀ s i, I s → I (step s i).2) {s : σ} (hs : I s)
    (inputs : List ι) : I (run step s inputs).2 := by
  induction inputs generalizing s with
  | nil => exact hs
  | cons i inputs ih => exact ih (hstep s i hs)

/-- What every answer has of its input. -/
theorem run_forall₂ {Q : ι → ω → Prop} (hstep : ∀ s i, Q i (step s i).1) (s : σ)
    (inputs : List ι) : List.Forall₂ Q inputs (run step s inputs).1 := by
  induction inputs generalizing s with
  | nil => exact .nil
  | cons i inputs ih => exact .cons (hstep s i) (ih _)

/-- The inputs to which a run gives answers of one sort. -/
def kept (step : σ → ι → ω × σ) (keep : ω → Bool) (s : σ) : List ι → List ι
  | [] => []
  | i :: inputs =>
      let rest := kept step keep (step s i).2 inputs
      if keep (step s i).1 then i :: rest else rest

/-- Inputs whose answers leave the state can be left out: the others are answered as before, and the
    state after them is the same. -/
theorem run_kept {keep : ω → Bool} (hinert : ∀ s i, keep (step s i).1 = false → (step s i).2 = s)
    (s : σ) (inputs : List ι) :
    run step s (kept step keep s inputs) =
      ((run step s inputs).1.filter keep, (run step s inputs).2) := by
  induction inputs generalizing s with
  | nil => rfl
  | cons i inputs ih =>
      rw [kept]
      cases hkeep : keep (step s i).1 with
      | true =>
          rw [if_pos rfl]
          simp only [run, List.filter_cons_of_pos hkeep, ih]
      | false =>
          -- the state is as it was before the input
          have hrest := ih (step s i).2
          rw [if_neg Bool.false_ne_true]
          simp only [run, List.filter_cons, hkeep, Bool.false_eq_true, if_false]
          rwa [hinert s i hkeep] at hrest ⊢

/-- Simulation: related states give one answer and stay related. -/
theorem run_simulates {R : σ → τ → Prop}
    (hstep : ∀ s t i, R s t → (step s i).1 = (step' t i).1 ∧ R (step s i).2 (step' t i).2) {s : σ}
    {t : τ} (hR : R s t) (inputs : List ι) :
    (run step s inputs).1 = (run step' t inputs).1 ∧
      R (run step s inputs).2 (run step' t inputs).2 := by
  induction inputs generalizing s t with
  | nil => exact ⟨rfl, hR⟩
  | cons i inputs ih =>
      obtain ⟨hanswer, hR'⟩ := hstep s t i hR
      obtain ⟨hanswers, hR''⟩ := ih hR'
      refine ⟨?_, hR''⟩
      simp only [run]
      rw [hanswer, hanswers]

end Service

end VoleAct.Lib
