/-
  VoleAct.Basics

  Machine words, byte arrays and the result of a call.

  Fixed-width integers are `BitVec`s, fixed-size byte arrays are `Vector`s and
  `usize` is `Nat`.  A call of the program returns a value, returns an error or
  panics; the last two are the two constructors of `Fault`, so that "never
  panics" is a statement about the result of a model function.
-/
import Mathlib

namespace VoleAct

abbrev U8 := BitVec 8
abbrev U32 := BitVec 32
abbrev U64 := BitVec 64
abbrev U128 := BitVec 128

/-- A fixed-size byte array `[u8; n]`. -/
abbrev Bytes (n : Nat) := Vector U8 n

/-- `usize::MAX` on the 64-bit targets the program supports. -/
def usizeMax : Nat := 2 ^ 64 - 1

/-! ## The result of a call -/

/-- How a call ends when it does not return a value. -/
inductive Fault (ε : Type) where
  | err (e : ε)
  | panic
  deriving DecidableEq, Repr

/-- The result of a call that returns `Result<α, ε>` and may panic. -/
abbrev Outcome (ε α : Type) := Except (Fault ε) α

namespace Outcome

variable {ε ε' α β : Type}

/-- `return Err(e)`. -/
def err (e : ε) : Outcome ε α := .error (.err e)

/-- A failed `assert!`, `expect`, index or slice. -/
def panic : Outcome ε α := .error .panic

/-- `.expect(..)` and slice indexing: the value, or a panic. -/
def expect : Option α → Outcome ε α
  | some a => .ok a
  | none => panic

/-- `.ok_or(e)?`. -/
def okOr (e : ε) : Option α → Outcome ε α
  | some a => .ok a
  | none => err e

/-- `.map_err(f)?` on the result of a call that does not panic. -/
def ofResult (f : ε' → ε) : Except ε' α → Outcome ε α
  | .ok a => .ok a
  | .error e => err (f e)

/-- `if !cond { return Err(e) }`. -/
def require (cond : Bool) (e : ε) : Outcome ε Unit :=
  if cond then .ok () else err e

/-- `assert!(cond)`. -/
def assert (cond : Bool) : Outcome ε Unit :=
  if cond then .ok () else panic

/-- `xs[i]`; panics out of range. -/
def index {α : Type} (xs : List α) (i : Nat) : Outcome ε α := expect xs[i]?

/-- `xs[i] = x`; panics out of range. -/
def setAt {α : Type} (xs : List α) (i : Nat) (x : α) : Outcome ε (List α) :=
  if i < xs.length then .ok (xs.set i x) else panic

/-- `.map_err(f)`; a panic is not an error and passes through. -/
def mapErr (f : ε → ε') : Outcome ε α → Outcome ε' α
  | .ok a => .ok a
  | .error (.err e) => .error (.err (f e))
  | .error .panic => .error .panic

@[simp] theorem expect_some (a : α) : (expect (some a) : Outcome ε α) = .ok a := rfl

@[simp] theorem okOr_some (e : ε) (a : α) : okOr e (some a) = .ok a := rfl

@[simp] theorem require_true (e : ε) : require true e = .ok () := rfl

@[simp] theorem require_false (e : ε) : require false e = err e := rfl

@[simp] theorem assert_true : (assert true : Outcome ε Unit) = .ok () := rfl

@[simp] theorem mapErr_ok (f : ε → ε') (a : α) : mapErr f (.ok a) = .ok a := rfl

theorem index_of_lt {α : Type} {xs : List α} {i : Nat} (h : i < xs.length) :
    (index xs i : Outcome ε α) = .ok xs[i] := by
  rw [index, List.getElem?_eq_getElem h, expect_some]

theorem setAt_of_lt {α : Type} {xs : List α} {i : Nat} (x : α) (h : i < xs.length) :
    (setAt xs i x : Outcome ε (List α)) = .ok (xs.set i x) := if_pos h

theorem mapErr_eq_ok {f : ε → ε'} {x : Outcome ε α} {a : α} :
    mapErr f x = .ok a ↔ x = .ok a := by
  match x with
  | .ok b => simp [mapErr]
  | .error (.err e) => simp [mapErr]
  | .error .panic => simp [mapErr]

theorem ofResult_eq_ok {f : ε' → ε} {x : Except ε' α} {a : α} :
    ofResult f x = .ok a ↔ x = .ok a := by
  cases x <;> simp [ofResult, err]

theorem okOr_eq_ok {e : ε} {x : Option α} {a : α} : okOr e x = .ok a ↔ x = some a := by
  cases x <;> simp [okOr, err]

theorem require_eq_ok {c : Bool} {e : ε} {u : Unit} : require c e = .ok u ↔ c = true := by
  cases c <;> simp [require, err]

/-- A successful sequence splits into its two successful halves. -/
theorem bind_eq_ok {x : Outcome ε α} {f : α → Outcome ε β} {b : β} :
    x >>= f = .ok b ↔ ∃ a, x = .ok a ∧ f a = .ok b := by
  match x with
  | .ok a => simp [bind, Except.bind]
  | .error e => simp [bind, Except.bind]

@[simp] theorem ok_bind (a : α) (f : α → Outcome ε β) :
    (Except.ok a : Outcome ε α) >>= f = f a := rfl

@[simp] theorem err_bind (e : ε) (f : α → Outcome ε β) : (err e : Outcome ε α) >>= f = err e := rfl

@[simp] theorem panic_bind (f : α → Outcome ε β) : (panic : Outcome ε α) >>= f = panic := rfl

/-- A `map` whose every step succeeds, collected. -/
theorem mapM_ok {γ : Type} {l : List γ} {f : γ → Outcome ε β} {g : γ → β}
    (h : ∀ x ∈ l, f x = .ok (g x)) : l.mapM f = .ok (l.map g) := by
  induction l with
  | nil => rfl
  | cons x xs ih =>
      rw [List.mapM_cons, h x (by simp), ih fun y hy => h y (by simp [hy])]
      rfl

/-- What a successful collected `map` says about its elements. -/
theorem mapM_eq_ok {γ : Type} {l : List γ} {f : γ → Outcome ε β} {ys : List β}
    (h : l.mapM f = .ok ys) : List.Forall₂ (fun x y => f x = .ok y) l ys := by
  induction l generalizing ys with
  | nil =>
      obtain rfl : [] = ys := by simpa [pure, Except.pure] using h
      exact .nil
  | cons x xs ih =>
      rw [List.mapM_cons] at h
      obtain ⟨y, hy, h⟩ := bind_eq_ok.mp h
      obtain ⟨zs, hzs, h⟩ := bind_eq_ok.mp h
      obtain rfl : y :: zs = ys := by simpa [pure, Except.pure] using h
      exact .cons hy (ih hzs)

/-- A `map` whose every step succeeds with a result related to its element. -/
theorem mapM_exists {γ : Type} {l : List γ} {f : γ → Outcome ε β} {P : γ → β → Prop}
    (h : ∀ x ∈ l, ∃ y, f x = .ok y ∧ P x y) : ∃ ys, l.mapM f = .ok ys ∧ List.Forall₂ P l ys := by
  induction l with
  | nil => exact ⟨[], rfl, .nil⟩
  | cons x xs ih =>
      obtain ⟨y, hy, hP⟩ := h x (by simp)
      obtain ⟨ys, hys, hall⟩ := ih fun z hz => h z (by simp [hz])
      refine ⟨y :: ys, ?_, .cons hP hall⟩
      rw [List.mapM_cons, hy, hys]
      rfl

/-- A loop of checks succeeds when each check does. -/
theorem forM_eq_ok {γ : Type} {l : List γ} {f : γ → Outcome ε Unit} :
    l.forM f = .ok () ↔ ∀ x ∈ l, f x = .ok () := by
  induction l with
  | nil => simp [pure, Except.pure]
  | cons x xs ih =>
      show (f x >>= fun _ => xs.forM f) = .ok () ↔ _
      rw [bind_eq_ok, List.forall_mem_cons, ← ih]
      exact ⟨fun ⟨_, hx, hxs⟩ => ⟨hx, hxs⟩, fun ⟨hx, hxs⟩ => ⟨(), hx, hxs⟩⟩

/-! ### Calls that never panic -/

/-- The call returns an error, or a value with the property; it does not panic. -/
def Safe (x : Outcome ε α) (P : α → Prop) : Prop := (∃ e, x = err e) ∨ ∃ a, x = .ok a ∧ P a

namespace Safe

variable {x : Outcome ε α} {P Q : α → Prop}

theorem ok {a : α} (h : P a) : Safe (.ok a : Outcome ε α) P := .inr ⟨a, rfl, h⟩

theorem err (e : ε) : Safe (Outcome.err e : Outcome ε α) P := .inl ⟨e, rfl⟩

theorem mono (h : Safe x P) (hPQ : ∀ a, P a → Q a) : Safe x Q :=
  h.imp_right fun ⟨a, ha, hP⟩ => ⟨a, ha, hPQ a hP⟩

theorem bind {f : α → Outcome ε β} {R : β → Prop} (hx : Safe x P) (hf : ∀ a, P a → Safe (f a) R) :
    Safe (x >>= f) R := by
  rcases hx with ⟨e, rfl⟩ | ⟨a, rfl, hP⟩
  · exact .inl ⟨e, rfl⟩
  · exact hf a hP

theorem require (c : Bool) (e : ε) : Safe (Outcome.require c e) fun _ => c = true := by
  cases c
  · exact .err e
  · exact .ok rfl

theorem ofResult {ε' : Type} (f : ε' → ε) (x : Except ε' α) :
    Safe (Outcome.ofResult f x) fun a => x = .ok a := by
  cases x with
  | ok a => exact .ok rfl
  | error e => exact .err (f e)

theorem okOr (e : ε) (x : Option α) : Safe (Outcome.okOr e x) fun a => x = some a := by
  cases x with
  | some a => exact .ok rfl
  | none => exact .err e

theorem assert {c : Bool} (h : c = true) : Safe (Outcome.assert c : Outcome ε Unit) fun _ => True := by
  rw [h]
  exact .ok trivial

theorem index {xs : List α} {i : Nat} (h : i < xs.length) :
    Safe (Outcome.index xs i : Outcome ε α) fun a => xs[i]? = some a := by
  rw [index_of_lt h]
  exact .ok (List.getElem?_eq_getElem h)

theorem mapErr {ε' : Type} (f : ε → ε') (h : Safe x P) : Safe (x.mapErr f) P := by
  rcases h with ⟨e, rfl⟩ | ⟨a, rfl, hP⟩
  · exact .err (f e)
  · exact .ok hP

theorem mapM {γ : Type} {l : List γ} {f : γ → Outcome ε β} {R : γ → β → Prop}
    (h : ∀ x ∈ l, Safe (f x) (R x)) : Safe (l.mapM f) fun ys => List.Forall₂ R l ys := by
  induction l with
  | nil => exact .ok .nil
  | cons x xs ih =>
      rw [List.mapM_cons]
      refine (h x List.mem_cons_self).bind fun y hy => ?_
      refine (ih fun z hz => h z (List.mem_cons_of_mem _ hz)).bind fun ys hys => ?_
      exact .ok (.cons hy hys)

theorem forM {γ : Type} {l : List γ} {f : γ → Outcome ε Unit}
    (h : ∀ x ∈ l, Safe (f x) fun _ => True) : Safe (l.forM f) fun _ => True := by
  induction l with
  | nil => exact .ok trivial
  | cons x xs ih =>
      exact (h x List.mem_cons_self).bind fun _ _ => ih fun z hz => h z (List.mem_cons_of_mem _ hz)

theorem of_ne_panic (hx : x ≠ panic) (hP : ∀ a, x = .ok a → P a) : Safe x P := by
  match x, hx, hP with
  | .ok a, _, hP => exact .ok (hP a rfl)
  | .error (.err e), _, _ => exact .err e
  | .error .panic, hx, _ => exact absurd rfl hx

theorem of_eq_ok (h : Safe x P) {a : α} (ha : x = .ok a) : P a := by
  rcases h with ⟨e, he⟩ | ⟨b, hb, hP⟩
  · rw [he] at ha
    exact absurd ha (by simp [Outcome.err])
  · rw [hb] at ha
    exact Except.ok.inj ha ▸ hP

theorem ne_panic (h : Safe x P) : x ≠ panic := by
  rcases h with ⟨e, rfl⟩ | ⟨a, rfl, -⟩ <;> simp [Outcome.err, panic]

/-- What a call that does not panic returns, it returns. -/
theorem eq_ok (h : Safe x P) : Safe x fun a => x = .ok a := .of_ne_panic h.ne_panic fun _ ha => ha

end Safe

end Outcome

/-- What related lists say at an index. -/
theorem forall₂_getElem? {α β : Type} {P : α → β → Prop} {xs : List α} {ys : List β}
    (h : List.Forall₂ P xs ys) {i : Nat} {x : α} (hx : xs[i]? = some x) :
    ∃ y, ys[i]? = some y ∧ P x y := by
  obtain ⟨hi, rfl⟩ := List.getElem?_eq_some_iff.mp hx
  have hi' : i < ys.length := h.length_eq ▸ hi
  exact ⟨ys[i], List.getElem?_eq_getElem hi', h.get hi hi'⟩

end VoleAct
