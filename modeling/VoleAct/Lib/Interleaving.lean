/-
  VoleAct.Lib.Interleaving

  Processes that take turns on one shared store, in any order.

  The rule for interleavings is rely–guarantee reasoning: every step moves the
  store along one preorder, each process keeps an invariant of its own under its
  own steps, and that invariant survives every move of the store along the order.
-/
import Mathlib.Logic.Function.Basic
import Mathlib.Order.Defs.PartialOrder

namespace VoleAct.Lib

/-- Processes over a shared store: where each starts, and what its next step does to its own phase
    and to the store, given a choice `χ` from outside. -/
structure Processes (ι σ χ : Type) where
  Phase : ι → Type
  start (i : ι) : Phase i
  advance (i : ι) (phase : Phase i) (store : σ) (choice : χ) : Phase i × σ

namespace Processes

variable {ι σ χ : Type}

/-- The store and the phase of every process. -/
structure State (M : Processes ι σ χ) where
  store : σ
  phase (i : ι) : M.Phase i

variable (M : Processes ι σ χ)

/-- Every process at its start. -/
def initial (store : σ) : M.State := ⟨store, M.start⟩

variable [DecidableEq ι] {M}

/-- Process `i` takes its next step. -/
def State.step (s : M.State) (i : ι) (choice : χ) : M.State where
  store := (M.advance i (s.phase i) s.store choice).2
  phase := Function.update s.phase i (M.advance i (s.phase i) s.store choice).1

/-- The processes take their steps in the order of a schedule. -/
def State.run (s : M.State) (schedule : List (ι × χ)) : M.State :=
  schedule.foldl (fun s turn => s.step turn.1 turn.2) s

namespace State

@[simp] theorem run_nil (s : M.State) : s.run [] = s := rfl

@[simp] theorem run_cons (s : M.State) (turn : ι × χ) (schedule : List (ι × χ)) :
    s.run (turn :: schedule) = (s.step turn.1 turn.2).run schedule := rfl

theorem run_append (s : M.State) (schedule more : List (ι × χ)) :
    s.run (schedule ++ more) = (s.run schedule).run more := List.foldl_append

theorem run_concat (s : M.State) (schedule : List (ι × χ)) (i : ι) (choice : χ) :
    s.run (schedule ++ [(i, choice)]) = (s.run schedule).step i choice := by
  rw [run_append, run_cons, run_nil]

theorem step_store (s : M.State) (i : ι) (choice : χ) :
    (s.step i choice).store = (M.advance i (s.phase i) s.store choice).2 := rfl

theorem step_phase_self (s : M.State) (i : ι) (choice : χ) :
    (s.step i choice).phase i = (M.advance i (s.phase i) s.store choice).1 :=
  Function.update_self i _ _

theorem step_phase_of_ne (s : M.State) {i j : ι} (h : j ≠ i) (choice : χ) :
    (s.step i choice).phase j = s.phase j := Function.update_of_ne h _ _

/-- A process that takes no turn stays at its phase. -/
theorem run_phase_of_forall_ne (s : M.State) {schedule : List (ι × χ)} {i : ι}
    (h : ∀ turn ∈ schedule, turn.1 ≠ i) : (s.run schedule).phase i = s.phase i := by
  induction schedule generalizing s with
  | nil => rfl
  | cons turn schedule ih =>
      rw [run_cons, ih _ fun turn' hturn' => h turn' (List.mem_cons_of_mem _ hturn'),
        step_phase_of_ne s (h turn List.mem_cons_self).symm]

/-- Steps of different processes that leave the store as it is are independent of each other. -/
theorem run_block (s : M.State) {processes : List ι} (hnodup : processes.Nodup) (choice : χ)
    (next : ∀ i, M.Phase i)
    (h : ∀ i ∈ processes, M.advance i (s.phase i) s.store choice = (next i, s.store)) :
    (s.run (processes.map (·, choice))).store = s.store ∧
      (∀ i ∈ processes, (s.run (processes.map (·, choice))).phase i = next i) ∧
      ∀ i ∉ processes, (s.run (processes.map (·, choice))).phase i = s.phase i := by
  induction processes generalizing s with
  | nil => exact ⟨rfl, fun _ hi => (nomatch hi), fun _ _ => rfl⟩
  | cons i processes ih =>
      obtain ⟨hi, hnodup⟩ := List.nodup_cons.mp hnodup
      have hstep := h i List.mem_cons_self
      have hstore : (s.step i choice).store = s.store := congrArg Prod.snd hstep
      have hne {j : ι} (hj : j ∈ processes) : j ≠ i := fun heq => hi (heq ▸ hj)
      obtain ⟨hrest, hnext, hother⟩ := ih (s.step i choice) hnodup fun j hj => by
        rw [step_phase_of_ne s (hne hj), hstore]
        exact h j (List.mem_cons_of_mem _ hj)
      refine ⟨hrest.trans hstore, fun j hj => ?_, fun j hj => ?_⟩
      · rcases List.mem_cons.mp hj with rfl | hj
        · exact (hother j hi).trans ((step_phase_self s j choice).trans (congrArg Prod.fst hstep))
        · exact hnext j hj
      · exact (hother j fun hmem => hj (List.mem_cons_of_mem _ hmem)).trans
          (step_phase_of_ne s (fun heq => hj (List.mem_cons.mpr (.inl heq))) choice)

/-! ## Rely–guarantee -/

/-- What a run keeps: every step moves the store along `R`, and the invariant `I` of a process is
    kept by its own steps and by every move along `R`. -/
structure Keeps (M : Processes ι σ χ) (R : σ → σ → Prop) (I : ∀ i, M.Phase i → σ → Prop) :
    Prop where
  refl : ∀ store, R store store
  trans : ∀ {a b c}, R a b → R b c → R a c
  guarantee : ∀ i phase store choice, I i phase store → R store (M.advance i phase store choice).2
  stable : ∀ i phase {store store'}, R store store' → I i phase store → I i phase store'
  advance : ∀ i phase store choice, I i phase store →
    I i (M.advance i phase store choice).1 (M.advance i phase store choice).2

variable {R : σ → σ → Prop} {I : ∀ i, M.Phase i → σ → Prop}

theorem Keeps.step (h : Keeps M R I) {s : M.State} (hs : ∀ i, I i (s.phase i) s.store) (i : ι)
    (choice : χ) : ∀ j, I j ((s.step i choice).phase j) (s.step i choice).store := by
  intro j
  by_cases hj : j = i
  · subst hj
    rw [step_phase_self]
    exact h.advance j _ _ choice (hs j)
  · -- another process only sees the store move
    rw [step_phase_of_ne s hj]
    exact h.stable j _ (h.guarantee i _ _ choice (hs i)) (hs j)

/-- Every process keeps its invariant, however the steps of the others fall between its own. -/
theorem Keeps.run (h : Keeps M R I) {s : M.State} (hs : ∀ i, I i (s.phase i) s.store)
    (schedule : List (ι × χ)) :
    ∀ i, I i ((s.run schedule).phase i) (s.run schedule).store := by
  induction schedule generalizing s with
  | nil => exact hs
  | cons turn schedule ih => exact ih (h.step hs turn.1 turn.2)

/-- A run moves the store along the order. -/
theorem Keeps.run_store (h : Keeps M R I) {s : M.State} (hs : ∀ i, I i (s.phase i) s.store)
    (schedule : List (ι × χ)) : R s.store (s.run schedule).store := by
  induction schedule generalizing s with
  | nil => exact h.refl s.store
  | cons turn schedule ih =>
      exact h.trans (h.guarantee turn.1 _ _ turn.2 (hs turn.1)) (ih (h.step hs turn.1 turn.2))

/-! ## Phases that are final, and progress towards them -/

/-- A process whose steps at a phase change nothing stays there. -/
theorem run_phase_of_final {i : ι} {phase : M.Phase i}
    (hfinal : ∀ store choice, (M.advance i phase store choice).1 = phase) {s : M.State}
    (hs : s.phase i = phase) (schedule : List (ι × χ)) : (s.run schedule).phase i = phase := by
  induction schedule generalizing s with
  | nil => exact hs
  | cons turn schedule ih =>
      apply ih
      by_cases hi : i = turn.1
      · subst hi
        rw [step_phase_self, hs, hfinal]
      · rw [step_phase_of_ne s hi, hs]

/-- A measure that every step of a process brings down reaches zero with enough turns, whatever the
    other processes do. -/
theorem run_measure {i : ι} (left : M.Phase i → Nat)
    (hleft : ∀ phase store choice, left (M.advance i phase store choice).1 ≤ left phase - 1)
    (s : M.State) (schedule : List (ι × χ)) :
    left ((s.run schedule).phase i) ≤
      left (s.phase i) - schedule.countP (fun turn => decide (turn.1 = i)) := by
  induction schedule generalizing s with
  | nil => exact Nat.le_refl _
  | cons turn schedule ih =>
      have hrest := ih (s.step turn.1 turn.2)
      rw [run_cons]
      by_cases hi : turn.1 = i
      · subst hi
        rw [step_phase_self] at hrest
        have hstep := hleft (s.phase turn.1) s.store turn.2
        rw [List.countP_cons_of_pos (by simp)]
        omega
      · rw [step_phase_of_ne s (Ne.symm hi)] at hrest
        rw [List.countP_cons_of_neg (by simpa using hi)]
        exact hrest

end State

end Processes

end VoleAct.Lib
