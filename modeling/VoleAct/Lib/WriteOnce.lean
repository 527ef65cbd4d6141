/-
  VoleAct.Lib.WriteOnce

  Write-once maps: a key keeps the first value written under it.  A map is its
  lookup function; every write extends it, so whatever interleaving of writers
  produced a later map, it agrees with the earlier one wherever that is defined.
-/
import Mathlib.Data.Option.Basic
import Mathlib.Logic.Function.Basic

namespace VoleAct.Lib

namespace WriteOnce

variable {κ ν : Type}

/-- `m'` has every value `m` has. -/
def Extends (m m' : κ → Option ν) : Prop := ∀ k v, m k = some v → m' k = some v

theorem Extends.refl (m : κ → Option ν) : Extends m m := fun _ _ h => h

theorem Extends.trans {m m' m'' : κ → Option ν} (h : Extends m m') (h' : Extends m' m'') :
    Extends m m'' := fun k v hv => h' k v (h k v hv)

variable [DecidableEq κ]

/-- Write `v` under `k` unless there is a value already; return the value the key has then. -/
def insertIfAbsent (m : κ → Option ν) (k : κ) (v : ν) : ν × (κ → Option ν) :=
  match m k with
  | some w => (w, m)
  | none => (v, Function.update m k (some v))

/-- Other keys are unchanged. -/
theorem insertIfAbsent_get_of_ne (m : κ → Option ν) {k k' : κ} (v : ν) (h : k' ≠ k) :
    (insertIfAbsent m k v).2 k' = m k' := by
  rw [insertIfAbsent]
  split
  · rfl
  · exact Function.update_of_ne h (some v) m

theorem insertIfAbsent_of_some {m : κ → Option ν} {k : κ} {w : ν} (h : m k = some w) (v : ν) :
    insertIfAbsent m k v = (w, m) := by
  rw [insertIfAbsent, h]

theorem insertIfAbsent_of_none {m : κ → Option ν} {k : κ} (h : m k = none) (v : ν) :
    insertIfAbsent m k v = (v, Function.update m k (some v)) := by
  rw [insertIfAbsent, h]

theorem extends_insertIfAbsent (m : κ → Option ν) (k : κ) (v : ν) :
    Extends m (insertIfAbsent m k v).2 := by
  intro k' w h
  by_cases hk : k' = k
  · subst hk
    rw [insertIfAbsent_of_some h]
    exact h
  · rw [insertIfAbsent_get_of_ne m v hk]
    exact h

/-- After a write the key has the value that was returned. -/
theorem insertIfAbsent_self (m : κ → Option ν) (k : κ) (v : ν) :
    (insertIfAbsent m k v).2 k = some (insertIfAbsent m k v).1 := by
  cases h : m k with
  | some w =>
      rw [insertIfAbsent_of_some h]
      exact h
  | none =>
      rw [insertIfAbsent_of_none h]
      exact Function.update_self k (some v) m

end WriteOnce

end VoleAct.Lib
