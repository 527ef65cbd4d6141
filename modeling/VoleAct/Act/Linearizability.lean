/-
  VoleAct.Act.Linearizability

  The calls of racing replicas as calls of one issuer, one after the other.

  A call that fails after it has read the store is placed where it read it: by the
  time it fails, another call may have written the record it did not find.
-/
import VoleAct.Act.Replicas
import VoleAct.Lib.Linearization

namespace VoleAct.Act

open VoleAct.BinaryFields VoleAct.Lib VoleAct.Lib.Processes VoleAct.Mayo VoleAct.Voleith

variable {H : Xof} {P : MayoParams} {ρ ι : Type} [CryptoRngCore ρ]

namespace SpendCall

/-- A call as one call of an issuer with the store. -/
def settle (c : SpendCall H P) (rng : ρ) (store : MemoryNullifierStore P) :
    Outcome Error (TypedSpendResponse P c.kind c.settlement) × MemoryNullifierStore P :=
  let out := Issuer.settle ⟨c.issuer, store⟩ c.request c.returnAmount rng
  (out.1, out.2.1.spent)

def Phase.answer {c : SpendCall H P} :
    c.Phase → Option (Outcome Error (TypedSpendResponse P c.kind c.settlement))
  | .answered result => some result
  | _ => none

variable (c : SpendCall H P) {store : MemoryNullifierStore P} {digest : Bytes 32} {rng : ρ}

/-! ## A whole call, by what its steps find -/

theorem settle_of_receive_error {f : Fault Error} (h : c.issuer.receive c.request = .error f) :
    c.settle rng store = (.error f, store) := by
  simp only [settle, Issuer.settle, h]

theorem settle_of_some {stored : RetryRecord P} (h : c.issuer.receive c.request = .ok digest)
    (hlookup : store.lookup c.request.nullifier = some stored) :
    c.settle rng store = (stored.respond c.kind c.settlement digest, store) := by
  let issuer : Issuer H P (MemoryNullifierStore P) := ⟨c.issuer, store⟩
  have hreceive : issuer.receive c.request = .ok digest := h
  have hstored : issuer.spent.lookup c.request.nullifier = some stored := hlookup
  have hsettle := Issuer.settle_of_some hreceive hstored c.returnAmount rng
  rw [settle, hsettle]

theorem settle_of_propose_error {f : Fault Error} (h : c.issuer.receive c.request = .ok digest)
    (hlookup : store.lookup c.request.nullifier = none)
    (hpropose : (c.issuer.propose c.request digest c.returnAmount rng).1 = .error f) :
    c.settle rng store = (.error f, store) := by
  have hout : c.issuer.propose c.request digest c.returnAmount rng =
      (.error f, (c.issuer.propose c.request digest c.returnAmount rng).2) :=
    Prod.ext hpropose rfl
  rw [settle, Issuer.settle, h]
  dsimp only
  rw [MemoryNullifierStore.get_eq, hlookup]
  dsimp only
  rw [hout]

theorem settle_of_propose {candidate : RetryRecord P}
    (h : c.issuer.receive c.request = .ok digest)
    (hpropose : (c.issuer.propose c.request digest c.returnAmount rng).1 = .ok candidate) :
    c.settle rng store =
      match NullifierStore.insertIfAbsent store c.request.nullifier candidate with
      | (.error e, store) => (Outcome.err e, store)
      | (.ok stored, store) => (stored.respond c.kind c.settlement digest, store) := by
  cases hlookup : store.lookup c.request.nullifier with
  | some stored =>
      rw [c.settle_of_some h hlookup, MemoryNullifierStore.insertIfAbsent_of_some hlookup]
  | none =>
      have hout : c.issuer.propose c.request digest c.returnAmount rng =
          (.ok candidate, (c.issuer.propose c.request digest c.returnAmount rng).2) :=
        Prod.ext hpropose rfl
      rw [settle, Issuer.settle, h]
      dsimp only
      rw [MemoryNullifierStore.get_eq, hlookup]
      dsimp only
      rw [hout]
      dsimp only
      rw [MemoryNullifierStore.insertIfAbsent_of_none hlookup]

/-- The write of a call gives what the whole call would give at the store it meets. -/
theorem advance_eq_settle {candidate : RetryRecord P} (h : c.issuer.receive c.request = .ok digest)
    (hpropose : (c.issuer.propose c.request digest c.returnAmount rng).1 = .ok candidate)
    (store : MemoryNullifierStore P) (rng' : ρ) :
    c.advance (.proposed digest candidate) store rng' =
      (.answered (c.settle rng store).1, (c.settle rng store).2) := by
  rw [c.settle_of_propose h hpropose]
  simp only [advance]
  rcases NullifierStore.insertIfAbsent store c.request.nullifier candidate with
    ⟨e | stored, store'⟩
  · rfl
  · rfl

/-! ## Where a call takes effect -/

/-- What a call at a phase has seen of a store, with the randomness it has drawn. -/
def Seen (phase : c.Phase) (drawn : List ρ) (past : MemoryNullifierStore P) : Prop :=
  match phase with
  | .started => True
  | .absent digest => c.issuer.receive c.request = .ok digest ∧
      past.lookup c.request.nullifier = none
  | .proposed digest candidate => c.issuer.receive c.request = .ok digest ∧ ∃ rng ∈ drawn,
      (c.issuer.propose c.request digest c.returnAmount rng).1 = .ok candidate
  | .answered _ => True

variable {c}

/-- One step of a call: it runs on, it takes effect at the store it meets, or it fails as it would
    have at the store it read. -/
theorem Seen.effect {phase : c.Phase} {drawn : List ρ} {past : MemoryNullifierStore P}
    (h : c.Seen phase drawn past) (hnone : phase.answer = none) (store : MemoryNullifierStore P)
    (rng : ρ) :
    ((c.advance phase store rng).1.answer = none ∧ (c.advance phase store rng).2 = store ∧
      (c.Seen (c.advance phase store rng).1 (drawn ++ [rng]) past ∨
        c.Seen (c.advance phase store rng).1 (drawn ++ [rng]) store)) ∨
    (∃ r ∈ drawn ++ [rng], (c.advance phase store rng).1.answer = some (c.settle r store).1 ∧
      (c.advance phase store rng).2 = (c.settle r store).2) ∨
    ∃ r ∈ drawn ++ [rng], (c.advance phase store rng).1.answer = some (c.settle r past).1 ∧
      (c.settle r past).2 = past ∧ (c.advance phase store rng).2 = store := by
  have hrng : rng ∈ drawn ++ [rng] := List.mem_append_right _ List.mem_cons_self
  cases phase with
  | answered result => exact nomatch hnone
  | started =>
      simp only [advance]
      cases hreceive : c.issuer.receive c.request with
      | error f =>
          refine .inr (.inl ⟨rng, hrng, ?_⟩)
          rw [c.settle_of_receive_error hreceive]
          exact ⟨rfl, rfl⟩
      | ok digest =>
          dsimp only
          rw [MemoryNullifierStore.get_eq]
          cases hlookup : store.lookup c.request.nullifier with
          | some stored =>
              refine .inr (.inl ⟨rng, hrng, ?_⟩)
              rw [c.settle_of_some hreceive hlookup]
              exact ⟨rfl, rfl⟩
          | none => exact .inl ⟨rfl, rfl, .inr ⟨hreceive, hlookup⟩⟩
  | absent digest =>
      obtain ⟨hreceive, hlookup⟩ := h
      simp only [advance]
      rcases hpropose : c.issuer.propose c.request digest c.returnAmount rng with
        ⟨f | candidate, rng'⟩
      · -- the record it did not find may be there by now
        refine .inr (.inr ⟨rng, hrng, ?_⟩)
        rw [c.settle_of_propose_error hreceive hlookup (congrArg Prod.fst hpropose)]
        exact ⟨rfl, rfl, rfl⟩
      · exact .inl ⟨rfl, rfl, .inl ⟨hreceive, rng, hrng, congrArg Prod.fst hpropose⟩⟩
  | proposed digest candidate =>
      obtain ⟨hreceive, r, hr, hpropose⟩ := h
      refine .inr (.inl ⟨r, List.mem_append_left _ hr, ?_⟩)
      rw [c.advance_eq_settle hreceive hpropose]
      exact ⟨rfl, rfl⟩

end SpendCall

/-- The calls of the replicas, each as one call of its issuer. -/
def sequentialCalls (ρ : Type) [CryptoRngCore ρ] (calls : ι → SpendCall H P) :
    Sequential (memoryReplicas ρ calls) where
  Result i := Outcome Error (TypedSpendResponse P (calls i).kind (calls i).settlement)
  answer _ phase := SpendCall.Phase.answer phase
  apply i rng store := (calls i).settle rng store

/-- A call takes effect at its read when the store answers it or refuses it, at its write, and back
    at its read when it fails between the two. -/
def replicaEffects (calls : ι → SpendCall H P) : (sequentialCalls ρ calls).Effects where
  seen i phase drawn past := (calls i).Seen phase drawn past
  start _ _ := ⟨rfl, trivial⟩
  final i phase store rng h := by
    cases phase with
    | answered result => rfl
    | started => exact nomatch h
    | absent digest => exact nomatch h
    | proposed digest candidate => exact nomatch h
  step _ _ _ _ store rng hnone hseen := hseen.effect hnone store rng

/-- Racing replicas are linearizable.  However the reads, proposals and writes of any number of
    calls interleave on a shared store, there is an order of the calls that have been answered, each
    once and with randomness of its own, in which whole calls of the issuer, one after the other
    from the same store, return the same results and leave the same store; and no call comes in it
    before one that was answered before it began. -/
theorem replicas_linearizable [DecidableEq ι] (calls : ι → SpendCall H P)
    (store : MemoryNullifierStore P) (schedule : List (ι × ρ)) :
    ∃ order, (sequentialCalls ρ calls).Linearizes store schedule order :=
  (replicaEffects calls).exists_linearizes store schedule

end VoleAct.Act
