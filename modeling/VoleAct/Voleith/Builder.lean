/-
  VoleAct.Voleith.Builder

  Writing circuits as programs over the `Backend` interface, and what a program
  emits.

  `Emits w m start a bits P` says that `m`, run after `start` witness bits, returns
  `a`, allocates `bits` more, and that its assertions hold under the assignment
  `w` exactly when `P` does.  One rule per interface call and per way of
  sequencing.  `Ensures Pre m Post` is the weaker statement about the calls alone:
  what `m` leaves behind unless it fails.
-/
import VoleAct.Voleith.Backend

namespace VoleAct.Voleith

open VoleAct.BinaryFields

/-- A circuit under construction: the calls made so far. -/
abbrev CircuitM := StateT (List Op) (Except VoleithError)

/-- A view of `len` coefficients of a shared buffer (`voleith/src/backend.rs`). -/
structure SharedCoeffs where
  buf : List GF16
  start : Nat
  len : Nat

namespace SharedCoeffs

/-- View `buf[start..start + len]`; `none` when out of bounds. -/
def new (buf : List GF16) (start len : Nat) : Option SharedCoeffs :=
  if start + len ≤ usizeMax ∧ start + len ≤ buf.length then some ⟨buf, start, len⟩ else none

/-- A whole-buffer view of an owned coefficient vector. -/
def fromVec (coeffs : List GF16) : SharedCoeffs := ⟨coeffs, 0, coeffs.length⟩

/-- The coefficients. -/
def asSlice (c : SharedCoeffs) : List GF16 := (c.buf.drop c.start).take c.len

end SharedCoeffs

namespace CircuitM

/-- Append one call. -/
def call (op : Op) : CircuitM Unit := modify (· ++ [op])

/-- Allocate the next witness bit. -/
def witnessBit : CircuitM Wire := do
  let ops ← get
  call .witnessBit
  return .bit (witnessBits ops)

/-- Constrain `a = 0`. -/
def assertZero (a : Wire) : CircuitM Unit := call (.assertZero a)

/-- Constrain a quadratic system. -/
def assertQuadSystem (system : QuadSystem) : CircuitM Unit := call (.assertQuadSystem system)

/-- Multiply two expressions. -/
def exprMul (a b : Expr) : CircuitM Expr := do
  call (.build (.exprMul a b))
  return .exprMul a b

/-- Constrain `e = 0`. -/
def assertExprZero (e : Expr) : CircuitM Unit := call (.assertExprZero e)

/-- `alloc_bits`. -/
def allocBits (count : Nat) : CircuitM (Vector Wire count) := Vector.ofFnM fun _ => witnessBit

/-- The program a builder makes on a fresh backend. -/
def circuit (m : CircuitM Unit) : Circuit := do
  let ((), ops) ← m.run []
  return ops

end CircuitM

/-- The wires of the `n` witness bits from `start`. -/
def bitWires (start n : Nat) : Vector Wire n := Vector.ofFn fun i => .bit (start + i)

@[simp] theorem value_bitWires (w : Nat → Bool) (start : Nat) {n : Nat} (i : Fin n) :
    ((bitWires start n).get i).value w = GF2p128.ofBool (w (start + i)) := by
  rw [bitWires, Vector.get_ofFn, Wire.value]

theorem witnessBits_append (ops ops' : List Op) :
    witnessBits (ops ++ ops') = witnessBits ops + witnessBits ops' := by
  simp [witnessBits]

theorem builtDegree_append (ops ops' : List Op) :
    builtDegree (ops ++ ops') = max (builtDegree ops) (builtDegree ops') := by
  induction ops with
  | nil => simp
  | cons op ops ih => rw [List.cons_append, builtDegree_cons, builtDegree_cons, ih, Nat.max_assoc]

theorem assertedDegree_append (ops ops' : List Op) :
    assertedDegree (ops ++ ops') = max (assertedDegree ops) (assertedDegree ops') := by
  induction ops with
  | nil => simp
  | cons op ops ih =>
      rw [List.cons_append, assertedDegree_cons, assertedDegree_cons, ih, Nat.max_assoc]

theorem satisfies_append (w : Nat → Bool) (ops ops' : List Op) :
    Satisfies w (ops ++ ops') ↔ Satisfies w ops ∧ Satisfies w ops' := by
  simp only [Satisfies, List.mem_append]
  exact ⟨fun h => ⟨fun op hop => h op (.inl hop), fun op hop => h op (.inr hop)⟩,
    fun ⟨h, h'⟩ op hop => hop.elim (h op) (h' op)⟩

theorem satisfies_singleton (w : Nat → Bool) (op : Op) : Satisfies w [op] ↔ op.Holds w := by
  simp [Satisfies]

/-! ## What a builder emits -/

/-- Run after `start` witness bits, `m` returns `a` and allocates `bits`; it builds no expression
    above the degree limit, and its assertions hold exactly when `P` does. -/
def Emits (w : Nat → Bool) {α : Type} (m : CircuitM α) (start : Nat) (a : α) (bits : Nat)
    (P : Prop) : Prop :=
  ∃ new, (∀ ops, witnessBits ops = start → m.run ops = .ok (a, ops ++ new)) ∧
    witnessBits new = bits ∧ builtDegree new ≤ maxDegree ∧ (Satisfies w new ↔ P)

namespace Emits

variable {w : Nat → Bool} {α β : Type} {start : Nat}

theorem congr {m : CircuitM α} {a : α} {bits : Nat} {P Q : Prop}
    (h : Emits w m start a bits P) (hPQ : P ↔ Q) : Emits w m start a bits Q := by
  obtain ⟨new, hrun, hbits, hdeg, hsat⟩ := h
  exact ⟨new, hrun, hbits, hdeg, hsat.trans hPQ⟩

theorem pure (a : α) : Emits w (pure a) start a 0 True := by
  refine ⟨[], fun ops _ => ?_, rfl, Nat.zero_le _, by simp [Satisfies]⟩
  rw [List.append_nil]
  rfl

theorem bind {m : CircuitM α} {f : α → CircuitM β} {a : α} {b : β} {bits bits' : Nat} {P Q : Prop}
    (hm : Emits w m start a bits P) (hf : Emits w (f a) (start + bits) b bits' Q) :
    Emits w (m >>= f) start b (bits + bits') (P ∧ Q) := by
  obtain ⟨new, hrun, hbits, hdeg, hsat⟩ := hm
  obtain ⟨new', hrun', hbits', hdeg', hsat'⟩ := hf
  refine ⟨new ++ new', fun ops hops => ?_, ?_, ?_, ?_⟩
  · have hnext : witnessBits (ops ++ new) = start + bits := by
      rw [witnessBits_append, hops, hbits]
    rw [StateT.run_bind, hrun ops hops, ← List.append_assoc]
    exact hrun' _ hnext
  · rw [witnessBits_append, hbits, hbits']
  · rw [builtDegree_append]
    exact Nat.max_le.mpr ⟨hdeg, hdeg'⟩
  · rw [satisfies_append, hsat, hsat']

/-- A step that allocates nothing and asserts nothing. -/
theorem bind_pure {m : CircuitM α} {f : α → CircuitM β} {a : α} {b : β} {bits : Nat} {Q : Prop}
    (hm : Emits w m start a 0 True) (hf : Emits w (f a) start b bits Q) :
    Emits w (m >>= f) start b bits Q := by
  have h : Emits w (m >>= f) start b (0 + bits) (True ∧ Q) := hm.bind hf
  rw [Nat.zero_add] at h
  exact h.congr (iff_of_eq (true_and Q))

/-- A step whose result is only repackaged. -/
theorem bind_return {m : CircuitM α} {a : α} {bits : Nat} {P : Prop} (g : α → β)
    (hm : Emits w m start a bits P) :
    Emits w (m >>= fun a => Pure.pure (g a)) start (g a) bits P := by
  have h : Emits w (m >>= fun a => Pure.pure (g a)) start (g a) (bits + 0) (P ∧ True) :=
    hm.bind (pure (g a))
  exact h.congr (iff_of_eq (and_true P))

/-- A step that only asserts. -/
theorem seq {m : CircuitM Unit} {f : Unit → CircuitM β} {b : β} {bits : Nat} {P Q : Prop}
    (hm : Emits w m start () 0 P) (hf : Emits w (f ()) start b bits Q) :
    Emits w (m >>= f) start b bits (P ∧ Q) := by
  have h : Emits w (m >>= f) start b (0 + bits) (P ∧ Q) := hm.bind hf
  rwa [Nat.zero_add] at h

theorem call (op : Op) (h : op.builtDegree ≤ maxDegree) :
    Emits w (CircuitM.call op) start () op.bits (op.Holds w) := by
  refine ⟨[op], fun ops _ => rfl, by simp, ?_, satisfies_singleton w op⟩
  rw [builtDegree_cons, builtDegree_nil]
  exact Nat.max_le.mpr ⟨h, Nat.zero_le _⟩

/-- An assertion made under a condition, before the rest of the program. -/
theorem ite_seq {c : Prop} [Decidable c] {m : CircuitM Unit} {rest : CircuitM β} {b : β}
    {bits : Nat} {P Q : Prop} (hm : Emits w m start () 0 P) (hrest : Emits w rest start b bits Q) :
    Emits w (do
      if c then
        m
      rest) start b bits ((c → P) ∧ Q) := by
  by_cases hc : c
  · rw [if_pos hc]
    have h : Emits w (m >>= fun _ => rest) start b bits (P ∧ Q) := hm.seq hrest
    exact h.congr (and_congr_left fun _ => ⟨fun hp _ => hp, fun hp => hp hc⟩)
  · rw [if_neg hc]
    have h : Emits w (Pure.pure () >>= fun _ => rest) start b bits Q := bind_pure (pure ()) hrest
    exact h.congr ⟨fun hq => ⟨fun hpos => absurd hpos hc, hq⟩, fun hq => hq.2⟩

theorem witnessBit : Emits w CircuitM.witnessBit start (.bit start) 1 True := by
  refine ⟨[.witnessBit], fun ops hops => ?_, rfl, Nat.zero_le _, ?_⟩
  · rw [← hops]
    rfl
  · rw [satisfies_singleton]
    exact Iff.rfl

theorem assertZero (a : Wire) : Emits w (CircuitM.assertZero a) start () 0 (a.value w = 0) :=
  call (.assertZero a) (Nat.zero_le _)

theorem assertQuadSystem (s : QuadSystem) :
    Emits w (CircuitM.assertQuadSystem s) start () 0 (∀ e < s.linear.length, s.equation w e = 0) :=
  call (.assertQuadSystem s) (Nat.zero_le _)

theorem assertExprZero {e : Expr} (h : e.builtDegree ≤ maxDegree) :
    Emits w (CircuitM.assertExprZero e) start () 0 (e.value w = 0) :=
  call (.assertExprZero e) h

theorem exprMul {a b : Expr} (h : (Expr.exprMul a b).builtDegree ≤ maxDegree) :
    Emits w (CircuitM.exprMul a b) start (.exprMul a b) 0 True :=
  (call (.build (.exprMul a b)) h).bind_pure (pure _)

/-- A vector built entry by entry, each entry allocating the same number of bits. -/
theorem ofFnM {n : Nat} {f : Fin n → CircuitM α} {g : Fin n → α} {bits : Nat} {P : Fin n → Prop}
    (h : ∀ i : Fin n, Emits w (f i) (start + i * bits) (g i) bits (P i)) :
    Emits w (Vector.ofFnM f) start (Vector.ofFn g) (n * bits) (∀ i, P i) := by
  induction n with
  | zero =>
      rw [Vector.ofFnM_zero, Nat.zero_mul, show Vector.ofFn g = #v[] from Vector.ext (by omega)]
      exact (pure #v[]).congr ⟨fun _ i => i.elim0, fun _ => trivial⟩
  | succ n ih =>
      rw [Vector.ofFnM_succ, Vector.ofFn_succ, Nat.succ_mul]
      have hlast := h (Fin.last n)
      rw [Fin.val_last] at hlast
      let v := Vector.ofFn fun i : Fin n => g i.castSucc
      have hpush : Emits w (f (Fin.last n) >>= fun a => Pure.pure (v.push a)) (start + n * bits)
          (v.push (g (Fin.last n))) bits (P (Fin.last n)) :=
        hlast.bind_return v.push
      exact ((ih fun i => h i.castSucc).bind hpush).congr Fin.forall_fin_succ'.symm

/-- A loop that only asserts. -/
theorem forM {γ : Type} {f : γ → CircuitM Unit} {P : γ → Prop} (l : List γ)
    (h : ∀ x ∈ l, Emits w (f x) start () 0 (P x)) :
    Emits w (l.forM f) start () 0 (∀ x ∈ l, P x) := by
  induction l with
  | nil => exact (pure ()).congr ⟨fun _ x hx => absurd hx List.not_mem_nil, fun _ => trivial⟩
  | cons x l ih =>
      rw [List.forM_eq_forM, List.forM_cons, ← List.forM_eq_forM]
      refine ((h x List.mem_cons_self).seq
        (ih fun y hy => h y (List.mem_cons_of_mem _ hy))).congr ?_
      rw [List.forall_mem_cons]

theorem allocBits (count : Nat) :
    Emits w (CircuitM.allocBits count) start (bitWires start count) count True := by
  have hbit (i : Fin count) :
      Emits w CircuitM.witnessBit (start + i * 1) (.bit (start + i)) 1 True := by
    rw [Nat.mul_one]
    exact witnessBit
  have h : Emits w (CircuitM.allocBits count) start (bitWires start count) (count * 1)
      (∀ _ : Fin count, True) := ofFnM hbit
  rw [Nat.mul_one] at h
  exact h.congr ⟨fun _ => trivial, fun _ _ => trivial⟩

/-- A step that allocates wires. -/
theorem allocBits_bind {n : Nat} {f : Vector Wire n → CircuitM β} {b : β} {bits : Nat} {Q : Prop}
    (h : Emits w (f (bitWires start n)) (start + n) b bits Q) :
    Emits w (CircuitM.allocBits n >>= f) start b (n + bits) Q :=
  ((allocBits n).bind h).congr (iff_of_eq (true_and Q))

/-- The program a builder makes. -/
theorem circuit {m : CircuitM Unit} {bits : Nat} {P : Prop} (h : Emits w m 0 () bits P) :
    ∃ ops, m.circuit = .ok ops ∧ witnessBits ops = bits ∧ builtDegree ops ≤ maxDegree ∧
      (Satisfies w ops ↔ P) := by
  obtain ⟨new, hrun, hbits, hdeg, hsat⟩ := h
  refine ⟨new, ?_, hbits, hdeg, hsat⟩
  rw [CircuitM.circuit, hrun [] rfl]
  rfl

/-- The program a builder makes, and when an assignment satisfies it. -/
theorem circuit_forall {m : CircuitM Unit} {bits : Nat} {P : (Nat → Bool) → Prop}
    (h : ∀ w, Emits w m 0 () bits (P w)) :
    ∃ ops, m.circuit = .ok ops ∧ witnessBits ops = bits ∧ builtDegree ops ≤ maxDegree ∧
      ∀ w, Satisfies w ops ↔ P w := by
  obtain ⟨ops, hops, hbits, hdeg, -⟩ := (h fun _ => false).circuit
  refine ⟨ops, hops, hbits, hdeg, fun w => ?_⟩
  -- the program does not depend on the assignment
  obtain ⟨ops', hops', -, -, hsat⟩ := (h w).circuit
  rw [hops] at hops'
  exact Except.ok.inj hops' ▸ hsat

end Emits

/-! ## What a builder leaves behind -/

namespace CircuitM

variable {α β γ : Type}

/-- On calls that meet `Pre`, `m` fails, or returns a value and calls that meet `Post`. -/
def Ensures (Pre : List Op → Prop) (m : CircuitM α) (Post : α → List Op → Prop) : Prop :=
  ∀ ops, Pre ops → ∀ a ops', m.run ops = .ok (a, ops') → Post a ops'

namespace Ensures

variable {Pre : List Op → Prop} {Mid : α → List Op → Prop} {Post : β → List Op → Prop}

theorem of_run {m : CircuitM α} {a : α} {new : List Op}
    (h : ∀ ops, m.run ops = .ok (a, ops ++ new)) (hpost : ∀ ops, Pre ops → Mid a (ops ++ new)) :
    Ensures Pre m Mid := by
  intro ops hpre a' ops' hrun
  obtain ⟨rfl, rfl⟩ := Prod.mk.inj (Except.ok.inj ((h ops).symm.trans hrun))
  exact hpost ops hpre

theorem bind {m : CircuitM α} {f : α → CircuitM β} (hm : Ensures Pre m Mid)
    (hf : ∀ a, Ensures (Mid a) (f a) Post) : Ensures Pre (m >>= f) Post := by
  intro ops hpre b ops' hrun
  rw [StateT.run_bind] at hrun
  cases hmid : m.run ops with
  | error e =>
      rw [hmid] at hrun
      cases hrun
  | ok r =>
      rw [hmid] at hrun
      exact hf r.1 r.2 (hm ops hpre r.1 r.2 hmid) b ops' hrun

/-- What the rest of a program ensures on any calls, the whole program ensures. -/
theorem bind_last {m : CircuitM α} {f : α → CircuitM β}
    (hf : ∀ a, Ensures (fun _ => True) (f a) Post) : Ensures Pre (m >>= f) Post := by
  have hm : Ensures Pre m fun _ _ => True := fun _ _ _ _ _ => trivial
  exact hm.bind hf

theorem pure {a : α} (h : ∀ ops, Pre ops → Mid a ops) : Ensures Pre (pure a) Mid :=
  fun ops hpre a' ops' hrun => by
    obtain ⟨rfl, rfl⟩ := Prod.mk.inj (Except.ok.inj hrun)
    exact h ops hpre

theorem call {op : Op} {Q : List Op → Prop} (h : ∀ ops, Pre ops → Q (ops ++ [op])) :
    Ensures Pre (CircuitM.call op) fun _ => Q :=
  of_run (fun _ => rfl) h

/-- A loop keeps what each iteration keeps. -/
theorem forM {Inv : List Op → Prop} {f : γ → CircuitM Unit} {l : List γ}
    (h : ∀ x ∈ l, Ensures Inv (f x) fun _ => Inv) : Ensures Inv (l.forM f) fun _ => Inv := by
  induction l with
  | nil => exact pure fun _ hinv => hinv
  | cons x l ih =>
      rw [List.forM_eq_forM, List.forM_cons, ← List.forM_eq_forM]
      exact (h x List.mem_cons_self).bind fun _ => ih fun y hy => h y (List.mem_cons_of_mem _ hy)

/-- A loop that runs at least once ensures what each iteration ensures on any calls. -/
theorem forM_of_ne_nil {Q : List Op → Prop} {f : γ → CircuitM Unit} {l : List γ} (hl : l ≠ [])
    (h : ∀ x ∈ l, Ensures (fun _ => True) (f x) fun _ => Q) :
    Ensures Pre (l.forM f) fun _ => Q := by
  cases l with
  | nil => exact absurd rfl hl
  | cons x l =>
      rw [List.forM_eq_forM, List.forM_cons, ← List.forM_eq_forM]
      have hfirst : Ensures Pre (f x) fun _ => Q := fun ops _ => h x List.mem_cons_self ops trivial
      exact hfirst.bind fun _ => forM fun y hy ops _ => h y (List.mem_cons_of_mem _ hy) ops trivial

/-- The program a builder makes. -/
theorem circuit {m : CircuitM Unit} {Q : List Op → Prop} (h : Ensures (fun _ => True) m fun _ => Q)
    {ops : List Op} (hops : m.circuit = .ok ops) : Q ops := by
  rw [CircuitM.circuit] at hops
  cases hrun : m.run [] with
  | error e =>
      rw [hrun] at hops
      cases hops
  | ok r =>
      rw [hrun] at hops
      obtain rfl := Except.ok.inj hops
      exact h [] trivial r.1 r.2 hrun

end Ensures

end CircuitM

end VoleAct.Voleith
