/-
  VoleAct.Lib.Codec

  Decoders of byte strings and the two laws of a canonical codec.

  A decoder consumes a prefix of its input.  What it logs on the way (here: the
  memory it reserves) is kept whether or not it succeeds in the end.  `Reads`
  says that a decoder takes an encoding off the front of any input, `Exact` that
  whatever it accepts was such an encoding; a codec with both laws is a
  bijection between values and accepted inputs.
-/
import VoleAct.Lib.LeBytes

namespace VoleAct.Lib

/-- A successful sequence of fallible steps. -/
theorem except_bind_eq_ok {ε α β : Type} {x : Except ε α} {f : α → Except ε β} {b : β} :
    x >>= f = .ok b ↔ ∃ a, x = .ok a ∧ f a = .ok b := by
  cases x with
  | ok a => exact ⟨fun h => ⟨a, rfl, h⟩, fun ⟨_, h, hf⟩ => Except.ok.inj h ▸ hf⟩
  | error e => exact ⟨fun h => (nomatch h), fun ⟨_, h, _⟩ => (nomatch h)⟩

/-- A decoder over tokens `τ`, with log entries `ω` and errors `ε`. -/
def Decoder (ω τ ε α : Type) := List τ → List ω × Except ε (α × List τ)

namespace Decoder

variable {ω τ ε α β : Type}

/-- The value and the unread rest. -/
def run (d : Decoder ω τ ε α) (input : List τ) : Except ε (α × List τ) := (d input).2

/-- What was logged before the decoder returned or failed. -/
def log (d : Decoder ω τ ε α) (input : List τ) : List ω := (d input).1

instance : Monad (Decoder ω τ ε) where
  pure a := fun input => ([], .ok (a, input))
  bind d f := fun input =>
    match d.run input with
    | .error e => (d.log input, .error e)
    | .ok (a, rest) => (d.log input ++ (f a).log rest, (f a).run rest)

def fail (e : ε) : Decoder ω τ ε α := fun _ => ([], .error e)

def tell (w : ω) : Decoder ω τ ε Unit := fun input => ([w], .ok ((), input))

/-- The number of tokens still unread. -/
def remaining : Decoder ω τ ε Nat := fun input => ([], .ok (input.length, input))

/-- The next `n` tokens, or the error when there are fewer. -/
def take (e : ε) (n : Nat) : Decoder ω τ ε (List τ) := fun input =>
  ([], if n ≤ input.length then .ok (input.take n, input.drop n) else .error e)

/-- Fail unless the whole input was read. -/
def finish [DecidableEq τ] (e : ε) : Decoder ω τ ε Unit := fun input =>
  ([], if input = [] then .ok ((), input) else .error e)

/-- `Ok(..)?` and `Err(..)?`. -/
def lift : Except ε α → Decoder ω τ ε α
  | .ok a => fun input => ([], .ok (a, input))
  | .error e => fail e

/-- `if !cond { return Err(e) }`. -/
def require (cond : Bool) (e : ε) : Decoder ω τ ε Unit :=
  lift (if cond then .ok () else .error e)

/-- The same decoder `n` times. -/
def readMany (d : Decoder ω τ ε α) : (n : Nat) → Decoder ω τ ε (List α)
  | 0 => pure []
  | n + 1 => do
      let x ← d
      let xs ← readMany d n
      return x :: xs

/-- The same decoder for every entry of a vector. -/
def readVector (d : Decoder ω τ ε α) : (n : Nat) → Decoder ω τ ε (Vector α n)
  | 0 => pure #v[]
  | n + 1 => do
      let xs ← readVector d n
      let x ← d
      return xs.push x

/-! ## Running a decoder -/

@[simp] theorem run_pure (a : α) (input : List τ) :
    (pure a : Decoder ω τ ε α).run input = .ok (a, input) := rfl

@[simp] theorem run_tell (w : ω) (input : List τ) :
    (tell w : Decoder ω τ ε Unit).run input = .ok ((), input) := rfl

@[simp] theorem run_remaining (input : List τ) :
    (remaining : Decoder ω τ ε Nat).run input = .ok (input.length, input) := rfl

@[simp] theorem run_fail (e : ε) (input : List τ) :
    (fail e : Decoder ω τ ε α).run input = .error e := rfl

theorem run_bind {d : Decoder ω τ ε α} {f : α → Decoder ω τ ε β} {input rest : List τ} {a : α}
    (h : d.run input = .ok (a, rest)) : (d >>= f).run input = (f a).run rest := by
  show (match d.run input with
    | .error e => (d.log input, Except.error e)
    | .ok (a, rest) => (d.log input ++ (f a).log rest, (f a).run rest)).2 = _
  rw [h]

theorem run_bind_eq_ok {d : Decoder ω τ ε α} {f : α → Decoder ω τ ε β} {input rest : List τ}
    {b : β} : (d >>= f).run input = .ok (b, rest) ↔
      ∃ a mid, d.run input = .ok (a, mid) ∧ (f a).run mid = .ok (b, rest) := by
  cases h : d.run input with
  | ok r =>
      obtain ⟨a, mid⟩ := r
      rw [run_bind h]
      constructor
      · exact fun hf => ⟨a, mid, rfl, hf⟩
      · rintro ⟨a', mid', hmid, hf⟩
        obtain ⟨rfl, rfl⟩ := Prod.mk.inj (Except.ok.inj hmid)
        exact hf
  | error e =>
      have herr : (d >>= f).run input = .error e := by
        show (match d.run input with
          | .error e => (d.log input, Except.error e)
          | .ok (a, rest) => (d.log input ++ (f a).log rest, (f a).run rest)).2 = _
        rw [h]
      rw [herr]
      simp

theorem run_take_eq_ok {e : ε} {n : Nat} {input rest bs : List τ} :
    (take e n : Decoder ω τ ε _).run input = .ok (bs, rest) ↔
      bs.length = n ∧ input = bs ++ rest := by
  show (if n ≤ input.length then Except.ok (input.take n, input.drop n) else .error e) = _ ↔ _
  constructor
  · intro h
    split at h
    · next hn =>
        obtain ⟨rfl, rfl⟩ := Prod.mk.inj (Except.ok.inj h)
        exact ⟨List.length_take_of_le hn, (List.take_append_drop n input).symm⟩
    · cases h
  · rintro ⟨rfl, rfl⟩
    simp

theorem run_finish_eq_ok [DecidableEq τ] {e : ε} {input rest : List τ} :
    (finish e : Decoder ω τ ε Unit).run input = .ok ((), rest) ↔ input = [] ∧ rest = [] := by
  show (if input = [] then Except.ok ((), input) else .error e) = _ ↔ _
  constructor
  · intro h
    split at h
    · next hi =>
        obtain ⟨-, rfl⟩ := Prod.mk.inj (Except.ok.inj h)
        exact ⟨hi, hi⟩
    · cases h
  · rintro ⟨rfl, rfl⟩
    rfl

theorem run_lift_eq_ok {x : Except ε α} {input rest : List τ} {a : α} :
    (lift x : Decoder ω τ ε α).run input = .ok (a, rest) ↔ x = .ok a ∧ rest = input := by
  cases x with
  | ok b =>
      show Except.ok (b, input) = _ ↔ _
      simp [eq_comm]
  | error e =>
      show Except.error e = _ ↔ _
      simp

theorem run_require_eq_ok {cond : Bool} {e : ε} {input rest : List τ} {u : Unit} :
    (require cond e : Decoder ω τ ε Unit).run input = .ok (u, rest) ↔
      cond = true ∧ rest = input := by
  rw [require, run_lift_eq_ok]
  cases cond <;> simp

theorem run_require {cond : Bool} (h : cond = true) (e : ε) (input : List τ) :
    (require cond e : Decoder ω τ ε Unit).run input = .ok ((), input) :=
  run_require_eq_ok.mpr ⟨h, rfl⟩

/-! ## Reading back what was written -/

/-- The decoder takes `bs` off the front of any input and returns `a`. -/
def Reads (d : Decoder ω τ ε α) (bs : List τ) (a : α) : Prop :=
  ∀ rest, d.run (bs ++ rest) = .ok (a, rest)

namespace Reads

theorem pure (a : α) : Reads (Pure.pure a : Decoder ω τ ε α) [] a := fun _ => rfl

theorem bind {d : Decoder ω τ ε α} {f : α → Decoder ω τ ε β} {bs cs : List τ} {a : α} {b : β}
    (hd : Reads d bs a) (hf : Reads (f a) cs b) : Reads (d >>= f) (bs ++ cs) b := by
  intro rest
  rw [List.append_assoc, run_bind (hd (cs ++ rest)), hf rest]

/-- A field followed by steps that read nothing. -/
theorem bind_nil {d : Decoder ω τ ε α} {f : α → Decoder ω τ ε β} {bs : List τ} {a : α} {b : β}
    (hd : Reads d bs a) (hf : Reads (f a) [] b) : Reads (d >>= f) bs b := by
  simpa using hd.bind hf

theorem require {cond : Bool} (e : ε) (h : cond = true) :
    Reads (Decoder.require cond e : Decoder ω τ ε Unit) [] () :=
  fun _ => run_require_eq_ok.mpr ⟨h, rfl⟩

theorem readMany {d : Decoder ω τ ε α} {enc : α → List τ} (xs : List α)
    (h : ∀ x ∈ xs, Reads d (enc x) x) : Reads (d.readMany xs.length) (xs.flatMap enc) xs := by
  induction xs with
  | nil => exact Reads.pure []
  | cons x xs ih =>
      rw [List.flatMap_cons]
      refine (h x List.mem_cons_self).bind ?_
      exact (ih fun y hy => h y (List.mem_cons_of_mem _ hy)).bind_nil (Reads.pure _)

theorem readVector {d : Decoder ω τ ε α} {enc : α → List τ} {Q : α → Prop}
    (hd : ∀ x, Q x → Reads d (enc x) x) : ∀ {n : Nat} (v : Vector α n), (∀ x ∈ v.toList, Q x) →
      Reads (d.readVector n) (v.toList.flatMap enc) v
  | 0, v, _ => by
      obtain rfl : v = #v[] := Vector.eq_empty
      exact Reads.pure _
  | n + 1, v, h => by
      -- the last element is read last
      have hsplit : v.toList = v.pop.toList ++ [v.back] := by
        rw [← Vector.toList_push, Vector.push_pop_back]
      rw [hsplit] at h
      have hpop := readVector hd v.pop fun x hx => h x (List.mem_append_left _ hx)
      have hback := hd v.back (h _ (List.mem_append_right _ List.mem_cons_self))
      rw [hsplit, List.flatMap_append, List.flatMap_singleton]
      refine hpop.bind (hback.bind_nil ?_)
      rw [Vector.push_pop_back]
      exact Reads.pure v

end Reads

/-! ## Accepting nothing else -/

/-- What the decoder accepts is the encoding of the value it returns, a value with property `Q`,
    followed by the unread rest. -/
def Exact (d : Decoder ω τ ε α) (enc : α → List τ) (Q : α → Prop) : Prop :=
  ∀ ⦃input a rest⦄, d.run input = .ok (a, rest) → input = enc a ++ rest ∧ Q a

namespace Exact

theorem readMany {d : Decoder ω τ ε α} {enc : α → List τ} {Q : α → Prop} (h : Exact d enc Q)
    (n : Nat) : Exact (d.readMany n) (fun xs => xs.flatMap enc)
      (fun xs => xs.length = n ∧ ∀ x ∈ xs, Q x) := by
  induction n with
  | zero =>
      intro input xs rest hrun
      obtain ⟨rfl, rfl⟩ := Prod.mk.inj (Except.ok.inj hrun)
      exact ⟨rfl, rfl, by simp⟩
  | succ n ih =>
      intro input xs rest hrun
      obtain ⟨x, mid, hx, hrun⟩ := run_bind_eq_ok.mp hrun
      obtain ⟨ys, mid', hys, hrun⟩ := run_bind_eq_ok.mp hrun
      obtain ⟨rfl, rfl⟩ := Prod.mk.inj (Except.ok.inj hrun)
      obtain ⟨rfl, hQ⟩ := h hx
      obtain ⟨rfl, hlen, hall⟩ := ih hys
      refine ⟨by simp, by rw [List.length_cons, hlen], ?_⟩
      intro y hy
      rcases List.mem_cons.mp hy with rfl | hy
      · exact hQ
      · exact hall y hy

theorem readVector {d : Decoder ω τ ε α} {enc : α → List τ} {Q : α → Prop} (h : Exact d enc Q)
    (n : Nat) : Exact (d.readVector n) (fun v => v.toList.flatMap enc)
      (fun v => ∀ x ∈ v.toList, Q x) := by
  induction n with
  | zero =>
      intro input v rest hrun
      obtain ⟨rfl, rfl⟩ := Prod.mk.inj (Except.ok.inj hrun)
      exact ⟨rfl, by simp⟩
  | succ n ih =>
      intro input v rest hrun
      obtain ⟨xs, mid, hxs, hrun⟩ := run_bind_eq_ok.mp hrun
      obtain ⟨x, mid', hx, hrun⟩ := run_bind_eq_ok.mp hrun
      obtain ⟨rfl, rfl⟩ := Prod.mk.inj (Except.ok.inj hrun)
      obtain ⟨rfl, hall⟩ := ih hxs
      obtain ⟨rfl, hQ⟩ := h hx
      dsimp only at hall ⊢
      rw [Vector.toList_push, List.flatMap_append, List.flatMap_singleton, List.append_assoc]
      refine ⟨rfl, fun y hy => ?_⟩
      rcases List.mem_append.mp hy with hy | hy
      · exact hall y hy
      · exact List.mem_singleton.mp hy ▸ hQ

end Exact

/-! ## The log -/

/-- Every log entry has the property, on success and on failure. -/
def Logs (d : Decoder ω τ ε α) (P : ω → Prop) : Prop := ∀ input, ∀ w ∈ d.log input, P w

namespace Logs

variable {P : ω → Prop}

theorem of_nil {d : Decoder ω τ ε α} (h : ∀ input, d.log input = []) : Logs d P := by
  intro input w hw
  rw [h] at hw
  exact absurd hw (by simp)

theorem pure (a : α) : Logs (Pure.pure a : Decoder ω τ ε α) P := of_nil fun _ => rfl

theorem fail (e : ε) : Logs (Decoder.fail e : Decoder ω τ ε α) P := of_nil fun _ => rfl

theorem remaining : Logs (Decoder.remaining : Decoder ω τ ε Nat) P := of_nil fun _ => rfl

theorem take (e : ε) (n : Nat) : Logs (Decoder.take e n : Decoder ω τ ε (List τ)) P :=
  of_nil fun _ => rfl

theorem finish [DecidableEq τ] (e : ε) : Logs (Decoder.finish e : Decoder ω τ ε Unit) P :=
  of_nil fun _ => rfl

theorem lift (x : Except ε α) : Logs (Decoder.lift x : Decoder ω τ ε α) P := by
  cases x
  · exact fail _
  · exact of_nil fun _ => rfl

theorem require (cond : Bool) (e : ε) : Logs (Decoder.require cond e : Decoder ω τ ε Unit) P :=
  lift _

/-- The second half runs on what the first half left unread. -/
theorem bind' {d : Decoder ω τ ε α} {f : α → Decoder ω τ ε β} (hd : Logs d P)
    (hf : ∀ input a rest, d.run input = .ok (a, rest) → ∀ w ∈ (f a).log rest, P w) :
    Logs (d >>= f) P := by
  intro input w hw
  replace hw : w ∈ (match d.run input with
    | .error e => (d.log input, Except.error e)
    | .ok (a, rest) => (d.log input ++ (f a).log rest, (f a).run rest)).1 := hw
  split at hw
  · exact hd input w hw
  · next a rest hrun =>
      rcases List.mem_append.mp hw with hw | hw
      · exact hd input w hw
      · exact hf input a rest hrun w hw

theorem bind {d : Decoder ω τ ε α} {f : α → Decoder ω τ ε β} (hd : Logs d P)
    (hf : ∀ a, Logs (f a) P) : Logs (d >>= f) P :=
  hd.bind' fun _ a rest _ => hf a rest

theorem readMany {d : Decoder ω τ ε α} (hd : Logs d P) (n : Nat) : Logs (d.readMany n) P := by
  induction n with
  | zero => exact pure []
  | succ n ih => exact hd.bind fun x => ih.bind fun xs => pure _

end Logs

end Decoder

/-! ## Fields -/

section Fields

variable {ω ε : Type}

/-- The next `n` tokens as a fixed-size array. -/
def Decoder.array {τ : Type} (e : ε) (n : Nat) : Decoder ω τ ε (Vector τ n) := do
  let bytes ← Decoder.take e n
  if h : bytes.length = n then pure ⟨bytes.toArray, by simpa using h⟩ else Decoder.fail e

/-- An unsigned little-endian integer of `k` bytes. -/
def Decoder.uint (e : ε) (k : Nat) : Decoder ω (BitVec 8) ε Nat := do
  let bytes ← Decoder.array e k
  return ofLeBytes bytes.toList

namespace Decoder

theorem run_array_eq_ok {τ : Type} {e : ε} {n : Nat} {input rest : List τ} {v : Vector τ n} :
    (array e n : Decoder ω τ ε _).run input = .ok (v, rest) ↔ input = v.toList ++ rest := by
  rw [array, run_bind_eq_ok]
  constructor
  · rintro ⟨bytes, mid, htake, hrun⟩
    obtain ⟨hlen, rfl⟩ := run_take_eq_ok.mp htake
    rw [dif_pos hlen] at hrun
    obtain ⟨rfl, rfl⟩ := Prod.mk.inj (Except.ok.inj hrun)
    rfl
  · rintro rfl
    refine ⟨v.toList, rest, run_take_eq_ok.mpr ⟨by simp, rfl⟩, ?_⟩
    rw [dif_pos (by simp)]
    rfl

theorem Reads.array {τ : Type} (e : ε) {n : Nat} (v : Vector τ n) :
    Reads (Decoder.array e n : Decoder ω τ ε _) v.toList v := fun _ => run_array_eq_ok.mpr rfl

theorem Exact.array {τ : Type} (e : ε) (n : Nat) :
    Exact (Decoder.array e n : Decoder ω τ ε _) Vector.toList fun _ => True :=
  fun _ _ _ h => ⟨run_array_eq_ok.mp h, trivial⟩

theorem Logs.array {τ : Type} {P : ω → Prop} (e : ε) (n : Nat) :
    Logs (Decoder.array e n : Decoder ω τ ε _) P := by
  refine (Logs.take e n).bind fun bytes => ?_
  split
  · exact Logs.pure _
  · exact Logs.fail e

theorem Reads.uint (e : ε) (k : Nat) {n : Nat} (h : n < 256 ^ k) :
    Reads (Decoder.uint e k : Decoder ω _ ε _) (leBytes k n) n := by
  intro rest
  let bytes : Vector (BitVec 8) k := ⟨(leBytes k n).toArray, by simp⟩
  have hread : (Decoder.array e k : Decoder ω _ ε _).run (leBytes k n ++ rest) = .ok (bytes, rest) :=
    Reads.array e bytes rest
  rw [Decoder.uint, run_bind hread]
  show Except.ok (ofLeBytes (leBytes k n), rest) = _
  rw [ofLeBytes_leBytes h]

theorem Exact.uint (e : ε) (k : Nat) :
    Exact (Decoder.uint e k : Decoder ω _ ε _) (leBytes k) fun n => n < 256 ^ k := by
  intro input n rest h
  obtain ⟨bytes, mid, hbytes, hrun⟩ := run_bind_eq_ok.mp h
  obtain ⟨rfl, rfl⟩ := Prod.mk.inj (Except.ok.inj hrun)
  obtain ⟨rfl, -⟩ := Exact.array e k hbytes
  have hlen : bytes.toList.length = k := by simp
  constructor
  · rw [← leBytes_ofLeBytes bytes.toList, hlen, ofLeBytes_leBytes]
    simpa [hlen] using ofLeBytes_lt bytes.toList
  · simpa [hlen] using ofLeBytes_lt bytes.toList

theorem run_uint_eq_ok {e : ε} {k n : Nat} {input rest : List (BitVec 8)} :
    (Decoder.uint e k : Decoder ω _ ε _).run input = .ok (n, rest) ↔
      n < 256 ^ k ∧ input = leBytes k n ++ rest := by
  constructor
  · intro h
    exact (Exact.uint e k h).symm
  · rintro ⟨hlt, rfl⟩
    exact Reads.uint e k hlt rest

theorem Logs.uint {P : ω → Prop} (e : ε) (k : Nat) :
    Logs (Decoder.uint e k : Decoder ω _ ε _) P :=
  (Logs.array e k).bind fun _ => Logs.pure _

end Decoder

end Fields

/-! ## Unique decoding without a decoder -/

section UniquePrefix

variable {τ α : Type}

/-- An encoding that starts a string determines the value and the rest of the string. -/
def UniquePrefix (enc : α → List τ) (Q : α → Prop) : Prop :=
  ∀ ⦃a b r r'⦄, Q a → Q b → enc a ++ r = enc b ++ r' → a = b ∧ r = r'

namespace UniquePrefix

theorem of_length {enc : α → List τ} {Q : α → Prop}
    (hlen : ∀ a b, Q a → Q b → (enc a).length = (enc b).length)
    (hinj : ∀ a b, Q a → Q b → enc a = enc b → a = b) : UniquePrefix enc Q := by
  intro a b r r' ha hb h
  obtain ⟨henc, hrest⟩ := List.append_inj h (hlen a b ha hb)
  exact ⟨hinj a b ha hb henc, hrest⟩

theorem toList {n : Nat} : UniquePrefix (Vector.toList : Vector τ n → List τ) fun _ => True :=
  of_length (fun _ _ _ _ => by simp) fun _ _ _ _ h => Vector.toList_inj.mp h

theorem leBytes (k : Nat) : UniquePrefix (leBytes k) fun n => n < 256 ^ k :=
  of_length (fun _ _ _ _ => by simp) fun _ _ ha hb h => leBytes_inj ha hb h

/-- Two lists of one length, item by item. -/
theorem flatMap {enc : α → List τ} {Q : α → Prop} (henc : UniquePrefix enc Q) :
    ∀ {xs ys : List α} {r r' : List τ}, xs.length = ys.length → (∀ x ∈ xs, Q x) →
      (∀ y ∈ ys, Q y) → xs.flatMap enc ++ r = ys.flatMap enc ++ r' → xs = ys ∧ r = r' := by
  intro xs
  induction xs with
  | nil =>
      intro ys r r' hlen _ _ h
      obtain rfl := List.eq_nil_of_length_eq_zero hlen.symm
      exact ⟨rfl, h⟩
  | cons x xs ih =>
      intro ys r r' hlen hxs hys h
      obtain ⟨y, ys, rfl⟩ := List.exists_cons_of_length_eq_add_one hlen.symm
      rw [List.flatMap_cons, List.flatMap_cons, List.append_assoc, List.append_assoc] at h
      obtain ⟨rfl, hrest⟩ := henc (hxs x List.mem_cons_self) (hys y List.mem_cons_self) h
      obtain ⟨rfl, rfl⟩ := ih (Nat.succ.inj hlen) (fun z hz => hxs z (List.mem_cons_of_mem _ hz))
        (fun z hz => hys z (List.mem_cons_of_mem _ hz)) hrest
      exact ⟨rfl, rfl⟩

/-- A count in front of the items. -/
theorem counted {enc : α → List (BitVec 8)} {Q : α → Prop} (henc : UniquePrefix enc Q) (k : Nat) :
    UniquePrefix (fun xs : List α => Lib.leBytes k xs.length ++ xs.flatMap enc)
      fun xs => xs.length < 256 ^ k ∧ ∀ x ∈ xs, Q x := by
  rintro xs ys r r' ⟨hxs, hx⟩ ⟨hys, hy⟩ h
  rw [List.append_assoc, List.append_assoc] at h
  obtain ⟨hlen, h⟩ := leBytes k hxs hys h
  exact henc.flatMap hlen hx hy h

end UniquePrefix

end UniquePrefix

end VoleAct.Lib
