/-
  VoleAct.Act.Replicas

  Any number of issuer replicas over one nullifier store.

  A call reads the store once and may write it once, with the verification and the
  signature in between (`protocol/issuer.rs`), so calls race.  What a call has learnt
  stays true while others move, because a record is never overwritten; a nullifier
  therefore has one winner, whatever the schedule.
-/
import VoleAct.Act.IssuerKey
import VoleAct.Act.Settlement
import VoleAct.Lib.Interleaving

namespace VoleAct.Act

open VoleAct.BinaryFields VoleAct.Lib VoleAct.Mayo VoleAct.Voleith

variable {H : Xof} {P : MayoParams} {K : CredentialKind} {S : SettlementMode} {ρ σ ι : Type}

/-! ## The steps of a call -/

/-- One call of one replica; an ordinary spend supplies no return amount. -/
structure SpendCall (H : Xof) (P : MayoParams) where
  issuer : IssuerKey H P
  kind : CredentialKind
  settlement : SettlementMode
  request : TypedSpendRequest P kind settlement
  returnAmount : U64
  fixed : settlement = .fixedSpend → returnAmount = 0

namespace SpendCall

/-- Where a call is between its steps. -/
inductive Phase (c : SpendCall H P) where
  | started
  | absent (digest : Bytes 32)
  | proposed (digest : Bytes 32) (candidate : RetryRecord P)
  | answered (result : Outcome Error (TypedSpendResponse P c.kind c.settlement))

/-- The next step of a call: up to its read of the store, up to its write, or the write. -/
def advance [NullifierStore P σ] [CryptoRngCore ρ] (c : SpendCall H P) (phase : c.Phase)
    (store : σ) (rng : ρ) : c.Phase × σ :=
  match phase with
  | .started =>
      match c.issuer.receive c.request with
      | .error e => (.answered (.error e), store)
      | .ok digest =>
          match NullifierStore.get store c.request.nullifier with
          | .error e => (.answered (Outcome.err e), store)
          | .ok (some stored) => (.answered (stored.respond c.kind c.settlement digest), store)
          | .ok none => (.absent digest, store)
  | .absent digest =>
      match c.issuer.propose c.request digest c.returnAmount rng with
      | (.error e, _) => (.answered (.error e), store)
      | (.ok candidate, _) => (.proposed digest candidate, store)
  | .proposed digest candidate =>
      match NullifierStore.insertIfAbsent store c.request.nullifier candidate with
      | (.error e, store) => (.answered (Outcome.err e), store)
      | (.ok stored, store) => (.answered (stored.respond c.kind c.settlement digest), store)
  | .answered result => (.answered result, store)

/-- The steps a call still has to take, at most. -/
def Phase.left {c : SpendCall H P} : c.Phase → Nat
  | .started => 3
  | .absent _ => 2
  | .proposed _ _ => 1
  | .answered _ => 0

theorem left_advance [NullifierStore P σ] [CryptoRngCore ρ] (c : SpendCall H P) (phase : c.Phase)
    (store : σ) (rng : ρ) : (c.advance phase store rng).1.left ≤ phase.left - 1 := by
  cases phase with
  | started =>
      simp only [advance]
      split
      · exact Nat.zero_le _
      · split <;> simp [Phase.left]
  | absent digest =>
      simp only [advance]
      split <;> simp [Phase.left]
  | proposed digest candidate =>
      simp only [advance]
      split <;> simp [Phase.left]
  | answered result => exact Nat.le_refl _

theorem Phase.eq_answered {c : SpendCall H P} {phase : c.Phase} (h : phase.left = 0) :
    ∃ result, phase = .answered result := by
  cases phase with
  | answered result => exact ⟨result, rfl⟩
  | started => exact absurd h (by simp [left])
  | absent digest => exact absurd h (by simp [left])
  | proposed digest candidate => exact absurd h (by simp [left])

end SpendCall

/-- The replicas: each call takes its steps on the shared store, with randomness of its own. -/
def replicas (ρ σ : Type) [NullifierStore P σ] [CryptoRngCore ρ] (calls : ι → SpendCall H P) :
    Processes ι σ ρ where
  Phase i := (calls i).Phase
  start _ := .started
  advance i := (calls i).advance

/-- Undisturbed, the three steps of a call are the call of the issuer. -/
theorem replicas_run_alone [DecidableEq ι] [NullifierStore P σ] [CryptoRngCore ρ]
    (calls : ι → SpendCall H P) (i : ι) (store : σ) (rng : ρ) :
    let issuer : Issuer H P σ := { (calls i).issuer with spent := store }
    let out := issuer.settle (calls i).request (calls i).returnAmount rng
    let s := ((replicas ρ σ calls).initial store).run [(i, rng), (i, rng), (i, rng)]
    s.phase i = .answered out.1 ∧ s.store = out.2.1.spent := by
  intro issuer out s
  -- the steps of one process compose
  have hs : (s.phase i, s.store) =
      (let next := fun out : (calls i).Phase × σ => (calls i).advance out.1 out.2 rng
       next (next (next (.started, store)))) := by
    simp only [s, Processes.State.run_cons, Processes.State.run_nil,
      Processes.State.step_phase_self, Processes.State.step_store]
    rfl
  suffices h : (s.phase i, s.store) = (.answered out.1, out.2.1.spent) from
    ⟨congrArg Prod.fst h, congrArg Prod.snd h⟩
  rw [hs]
  simp only [out, Issuer.settle, SpendCall.advance]
  rw [show issuer.toIssuerKey = (calls i).issuer from rfl,
    show issuer.spent = store from rfl]
  cases (calls i).issuer.receive (calls i).request with
  | error e => rfl
  | ok digest =>
      dsimp only
      cases NullifierStore.get (P := P) store (calls i).request.nullifier with
      | error e => rfl
      | ok found =>
          cases found with
          | some stored => rfl
          | none =>
              dsimp only
              rcases (calls i).issuer.propose (calls i).request digest (calls i).returnAmount rng with
                ⟨e | candidate, rng'⟩
              · rfl
              · dsimp only
                rcases NullifierStore.insertIfAbsent store (calls i).request.nullifier candidate with
                  ⟨e | stored, store'⟩ <;> rfl

/-! ## What a call knows -/

/-- No record is lost or changed. -/
def MemoryNullifierStore.Grows (store store' : MemoryNullifierStore P) : Prop :=
  WriteOnce.Extends store.lookup store'.lookup

theorem MemoryNullifierStore.grows_insert {store : MemoryNullifierStore P} {nullifier : Bytes 32}
    (h : store.lookup nullifier = none) (candidate : RetryRecord P) :
    store.Grows ⟨store.records.insert nullifier candidate⟩ := by
  obtain ⟨store', heq, hlookup⟩ := insertIfAbsent_lookup store nullifier candidate
  rw [insertIfAbsent_of_none h] at heq
  rw [Grows, (Prod.mk.inj heq).2, hlookup]
  exact WriteOnce.extends_insertIfAbsent _ _ _

namespace IssuerKey

/-- A request that can be written is received without a panic. -/
theorem receive_safe (issuer : IssuerKey H P) {request : TypedSpendRequest P K S}
    (h : Wire.Encodable request.proof) : Outcome.Safe (issuer.receive request) fun _ => True := by
  obtain ⟨digest, hdigest⟩ := exists_spendRequestDigest H issuer.publicKey.context h
  refine (Outcome.Safe.require _ _).bind fun _ _ => ?_
  rw [hdigest]
  exact .ok trivial

theorem check_safe (issuer : IssuerKey H P) (request : TypedSpendRequest P K S)
    (returnAmount : U64) : Outcome.Safe (issuer.check request returnAmount) fun _ => True :=
  (Outcome.Safe.require _ _).bind fun _ _ => (verify_safe H _ _ _ _).mapErr _

end IssuerKey

theorem RetryRecord.respond_safe (stored : RetryRecord P) (digest : Bytes 32) :
    Outcome.Safe (stored.respond K S digest) fun _ => True :=
  (Outcome.Safe.require _ _).bind fun _ _ => (Outcome.Safe.require _ _).bind fun _ _ => .ok trivial

namespace SpendCall

variable (c : SpendCall H P)

/-- What an answer means: a response repeats the record of the nullifier, and a request that can be
    written fails with an error of the protocol. -/
structure Answers (store : MemoryNullifierStore P)
    (result : Outcome Error (TypedSpendResponse P c.kind c.settlement)) : Prop where
  stored : ∀ response, result = .ok response → ∃ digest stored,
    c.issuer.receive c.request = .ok digest ∧
      store.lookup c.request.nullifier = some stored ∧
      stored.respond c.kind c.settlement digest = .ok response
  no_panic : Wire.Encodable c.request.proof → result ≠ Outcome.panic

/-- What a call has learnt at a phase. -/
def Knows (phase : c.Phase) (store : MemoryNullifierStore P) : Prop :=
  match phase with
  | .started => True
  | .absent digest => c.issuer.receive c.request = .ok digest
  | .proposed digest candidate => c.issuer.receive c.request = .ok digest ∧
      candidate.response.returnAmount = c.returnAmount ∧
      c.issuer.Proposal c.request digest candidate
  | .answered result => c.Answers store result

variable {c}

/-- It survives every move of the store. -/
theorem Knows.stable {phase : c.Phase} {store store' : MemoryNullifierStore P}
    (hgrows : store.Grows store') (h : c.Knows phase store) : c.Knows phase store' := by
  cases phase with
  | started => trivial
  | absent digest => exact h
  | proposed digest candidate => exact h
  | answered result =>
      have hanswers : c.Answers store result := h
      refine ⟨fun response hresponse => ?_, hanswers.no_panic⟩
      obtain ⟨digest, stored, hreceive, hlookup, hrespond⟩ := hanswers.stored response hresponse
      exact ⟨digest, stored, hreceive, hgrows _ _ hlookup, hrespond⟩

theorem Answers.of_error {store : MemoryNullifierStore P} {f : Fault Error}
    (h : Wire.Encodable c.request.proof → f ≠ .panic) : c.Answers store (.error f) where
  stored _ hresponse := nomatch hresponse
  no_panic hencodable hpanic := h hencodable (Except.error.inj hpanic)

theorem Answers.of_stored {store : MemoryNullifierStore P} {digest : Bytes 32}
    {stored : RetryRecord P} (hreceive : c.issuer.receive c.request = .ok digest)
    (hlookup : store.lookup c.request.nullifier = some stored) :
    c.Answers store (stored.respond c.kind c.settlement digest) where
  stored _ hrespond := ⟨digest, stored, hreceive, hlookup, hrespond⟩
  no_panic _ := (stored.respond_safe digest).ne_panic

/-- The record a call wrote: the one it proposed and answered from. -/
structure Wrote (c : SpendCall H P) (stored : RetryRecord P) (phase : c.Phase) : Prop where
  answered : ∃ response, phase = .answered (.ok response)
  returnAmount_eq : stored.response.returnAmount = c.returnAmount
  proposal : ∃ digest, c.issuer.receive c.request = .ok digest ∧
    c.issuer.Proposal c.request digest stored

variable [CryptoRngCore ρ]

variable (c) in
/-- One step: the call keeps what it knows, and the store is as it was, or has one record more,
    which the call wrote. -/
structure Advances (store : MemoryNullifierStore P) (out : c.Phase × MemoryNullifierStore P) :
    Prop where
  knows : c.Knows out.1 out.2
  written : out.2 = store ∨ ∃ stored, store.lookup c.request.nullifier = none ∧
    out.2 = ⟨store.records.insert c.request.nullifier stored⟩ ∧ c.Wrote stored out.1

theorem advance_started (store : MemoryNullifierStore P) (rng : ρ) :
    c.Advances store (c.advance .started store rng) := by
  simp only [advance]
  cases hreceive : c.issuer.receive c.request with
  | error f =>
      refine ⟨Answers.of_error fun hencodable hpanic => ?_, .inl rfl⟩
      rw [hpanic] at hreceive
      exact (c.issuer.receive_safe hencodable).ne_panic hreceive
  | ok digest =>
      dsimp only
      rw [MemoryNullifierStore.get_eq]
      cases hlookup : store.lookup c.request.nullifier with
      | some stored => exact ⟨Answers.of_stored hreceive hlookup, .inl rfl⟩
      | none => exact ⟨hreceive, .inl rfl⟩

theorem advance_absent {digest : Bytes 32} {store : MemoryNullifierStore P}
    (h : c.Knows (.absent digest) store) (rng : ρ) :
    c.Advances store (c.advance (.absent digest) store rng) := by
  have hreceive : c.issuer.receive c.request = .ok digest := h
  simp only [advance]
  rcases c.issuer.propose_cases c.fixed c.request digest rng with
    ⟨f, hcheck, hpropose⟩ | ⟨-, rng', hpropose⟩ | ⟨candidate, rng', hpropose, hamount, hproposal⟩
  · rw [hpropose]
    refine ⟨Answers.of_error fun _ hpanic => ?_, .inl rfl⟩
    rw [hpanic] at hcheck
    exact (c.issuer.check_safe c.request c.returnAmount).ne_panic hcheck
  · rw [hpropose]
    exact ⟨Answers.of_error fun _ hpanic => (nomatch hpanic), .inl rfl⟩
  · rw [hpropose]
    exact ⟨⟨hreceive, hamount, hproposal⟩, .inl rfl⟩

theorem advance_proposed {digest : Bytes 32} {candidate : RetryRecord P}
    {store : MemoryNullifierStore P} (h : c.Knows (.proposed digest candidate) store) (rng : ρ) :
    c.Advances store
      (c.advance (.proposed digest candidate) store rng) := by
  obtain ⟨hreceive, hamount, hproposal⟩ := h
  simp only [advance]
  cases hlookup : store.lookup c.request.nullifier with
  | some stored =>
      -- another call was first: its record answers
      rw [MemoryNullifierStore.insertIfAbsent_of_some hlookup]
      exact ⟨Answers.of_stored hreceive hlookup, .inl rfl⟩
  | none =>
      rw [MemoryNullifierStore.insertIfAbsent_of_none hlookup]
      have hinserted : MemoryNullifierStore.lookup
          ⟨store.records.insert c.request.nullifier candidate⟩ c.request.nullifier =
          some candidate := by
        rw [MemoryNullifierStore.lookup_insert, if_pos rfl]
      refine ⟨Answers.of_stored hreceive hinserted, .inr ⟨candidate, hlookup, rfl, ?_⟩⟩
      exact ⟨⟨_, congrArg Phase.answered hproposal.respond_eq⟩, hamount, digest, hreceive,
        hproposal⟩

theorem advances {phase : c.Phase} {store : MemoryNullifierStore P} (h : c.Knows phase store)
    (rng : ρ) : c.Advances store (c.advance phase store rng) := by
  cases phase with
  | started => exact advance_started store rng
  | absent digest => exact advance_absent h rng
  | proposed digest candidate => exact advance_proposed h rng
  | answered result => exact ⟨h, .inl rfl⟩

end SpendCall

/-! ## The turns of a call that succeeds -/

namespace SpendCall

variable {c : SpendCall H P} [CryptoRngCore ρ] {digest : Bytes 32} {store : MemoryNullifierStore P}

theorem advance_started_of_none (hreceive : c.issuer.receive c.request = .ok digest)
    (hlookup : store.lookup c.request.nullifier = none) (rng : ρ) :
    c.advance .started store rng = (.absent digest, store) := by
  rw [advance, hreceive]
  dsimp only
  rw [MemoryNullifierStore.get_eq, hlookup]

theorem advance_started_of_some {stored : RetryRecord P}
    {result : Outcome Error (TypedSpendResponse P c.kind c.settlement)}
    (hreceive : c.issuer.receive c.request = .ok digest)
    (hlookup : store.lookup c.request.nullifier = some stored)
    (hrespond : stored.respond c.kind c.settlement digest = result) (rng : ρ) :
    c.advance .started store rng = (.answered result, store) := by
  rw [advance, hreceive]
  dsimp only
  rw [MemoryNullifierStore.get_eq, hlookup, ← hrespond]

theorem advance_absent_of_propose {candidate : RetryRecord P} {rng rng' : ρ}
    (h : c.issuer.propose c.request digest c.returnAmount rng = (.ok candidate, rng')) :
    c.advance (.absent digest) store rng = (.proposed digest candidate, store) := by
  rw [advance, h]

theorem advance_proposed_of_none {candidate : RetryRecord P}
    {result : Outcome Error (TypedSpendResponse P c.kind c.settlement)}
    (hlookup : store.lookup c.request.nullifier = none)
    (hrespond : candidate.respond c.kind c.settlement digest = result) (rng : ρ) :
    c.advance (.proposed digest candidate) store rng =
      (.answered result, ⟨store.records.insert c.request.nullifier candidate⟩) := by
  rw [advance, MemoryNullifierStore.insertIfAbsent_of_none hlookup, ← hrespond]

theorem advance_proposed_of_some {candidate stored : RetryRecord P}
    {result : Outcome Error (TypedSpendResponse P c.kind c.settlement)}
    (hlookup : store.lookup c.request.nullifier = some stored)
    (hrespond : stored.respond c.kind c.settlement digest = result) (rng : ρ) :
    c.advance (.proposed digest candidate) store rng = (.answered result, store) := by
  rw [advance, MemoryNullifierStore.insertIfAbsent_of_some hlookup, ← hrespond]

end SpendCall

/-! ## Requests with one digest -/

/-- What the digest of an encoded request hashes. -/
def digestInput (context : Bytes 32) (bytes : List U8) : List U8 :=
  ascii "VOLE-ACT/spend-request-digest/v5" ++ context.toList ++ framed bytes

theorem digestInput_inj {context context' : Bytes 32} {bytes bytes' : List U8}
    (h : digestInput context bytes = digestInput context' bytes') :
    context = context' ∧ bytes = bytes' := by
  simp only [digestInput, List.append_assoc] at h
  obtain ⟨hcontext, hframed⟩ := UniquePrefix.toList trivial trivial (List.append_cancel_left h)
  exact ⟨hcontext, (List.append_inj hframed (by simp [le64])).2⟩

/-- The digest has no collision among the contexts and encoded requests of these calls. -/
def DigestsCollisionFree (calls : ι → SpendCall H P) : Prop :=
  ∀ i j bytes bytes', ((calls i).request.toBytes : Outcome Error _) = .ok bytes →
    ((calls j).request.toBytes : Outcome Error _) = .ok bytes' →
    H.digest 32 (digestInput (calls i).issuer.publicKey.context bytes) =
      H.digest 32 (digestInput (calls j).issuer.publicKey.context bytes') →
    digestInput (calls i).issuer.publicKey.context bytes =
      digestInput (calls j).issuer.publicKey.context bytes'

/-- A request of one kind and settlement among all. -/
abbrev AnyRequest (P : MayoParams) :=
  Σ (K : CredentialKind) (S : SettlementMode), TypedSpendRequest P K S

/-- The request of a call. -/
def SpendCall.anyRequest (c : SpendCall H P) : AnyRequest P := ⟨c.kind, c.settlement, c.request⟩

theorem IssuerKey.receive_eq_ok {issuer : IssuerKey H P} {request : TypedSpendRequest P K S}
    {digest : Bytes 32} : issuer.receive request = .ok digest ↔
      request.freshCommitment.length = P.M ∧ ∃ bytes,
        (request.toBytes : Outcome Error _) = .ok bytes ∧
          digest = H.digest 32 (digestInput issuer.publicKey.context bytes) := by
  simp only [receive, validateRequestDimensions, Outcome.bind_eq_ok, Outcome.require_eq_ok,
    beq_iff_eq, spendRequestDigest_eq_ok, exists_const]
  rfl

/-- Requests received with one digest, without a collision, are one request. -/
theorem IssuerKey.eq_of_receive {K' : CredentialKind} {S' : SettlementMode}
    {issuer issuer' : IssuerKey H P} {request : TypedSpendRequest P K S}
    {request' : TypedSpendRequest P K' S'} {digest : Bytes 32}
    (h : issuer.receive request = .ok digest) (h' : issuer'.receive request' = .ok digest)
    (hfree : ∀ bytes bytes', (request.toBytes : Outcome Error _) = .ok bytes →
      (request'.toBytes : Outcome Error _) = .ok bytes' →
      H.digest 32 (digestInput issuer.publicKey.context bytes) =
        H.digest 32 (digestInput issuer'.publicKey.context bytes') →
      digestInput issuer.publicKey.context bytes = digestInput issuer'.publicKey.context bytes') :
    (∃ bytes, (request.toBytes : Outcome Error _) = .ok bytes ∧
      (request'.toBytes : Outcome Error _) = .ok bytes) ∧
    (⟨K, S, request⟩ : AnyRequest P) = ⟨K', S', request'⟩ := by
  obtain ⟨hlen, bytes, hbytes, hdigest⟩ := receive_eq_ok.mp h
  obtain ⟨hlen', bytes', hbytes', hdigest'⟩ := receive_eq_ok.mp h'
  have hinput := hfree bytes bytes' hbytes hbytes' (hdigest.symm.trans hdigest')
  obtain ⟨-, rfl⟩ := digestInput_inj hinput
  exact ⟨⟨bytes, hbytes, hbytes'⟩,
    TypedSpendRequest.toBytes_inj (hlen.trans hlen'.symm) hbytes hbytes'⟩

/-- Calls received with one digest carry one request. -/
theorem DigestsCollisionFree.same_request {calls : ι → SpendCall H P}
    (h : DigestsCollisionFree calls) {i j : ι} {digest : Bytes 32}
    (hi : (calls i).issuer.receive (calls i).request = .ok digest)
    (hj : (calls j).issuer.receive (calls j).request = .ok digest) :
    (∃ bytes, ((calls i).request.toBytes : Outcome Error _) = .ok bytes ∧
      ((calls j).request.toBytes : Outcome Error _) = .ok bytes) ∧
    (calls i).anyRequest = (calls j).anyRequest := IssuerKey.eq_of_receive hi hj (h i j)

/-! ## Runs -/

section Runs

variable [CryptoRngCore ρ] (calls : ι → SpendCall H P)

/-- The replicas over the store in memory. -/
abbrev memoryReplicas (ρ : Type) [CryptoRngCore ρ] (calls : ι → SpendCall H P) :=
  replicas ρ (MemoryNullifierStore P) calls

theorem replicas_keep : Processes.State.Keeps (memoryReplicas ρ calls)
    MemoryNullifierStore.Grows fun i phase store => (calls i).Knows phase store where
  refl store := WriteOnce.Extends.refl _
  trans h h' := WriteOnce.Extends.trans h h'
  guarantee i phase store rng h := by
    rcases (SpendCall.advances (c := calls i) h rng).written with heq | ⟨stored, hnone, heq, -⟩
    · show store.Grows ((calls i).advance phase store rng).2
      rw [heq]
      exact WriteOnce.Extends.refl _
    · show store.Grows ((calls i).advance phase store rng).2
      rw [heq]
      exact MemoryNullifierStore.grows_insert hnone stored
  stable _ _ _ _ hgrows h := SpendCall.Knows.stable hgrows h
  advance i phase store rng h := (SpendCall.advances (c := calls i) h rng).knows

variable [DecidableEq ι]

/-- The state of a run of the replicas. -/
def replicaRun (store : MemoryNullifierStore P) (schedule : List (ι × ρ)) :
    (memoryReplicas ρ calls).State := ((memoryReplicas ρ calls).initial store).run schedule

variable {calls} (store : MemoryNullifierStore P) (schedule : List (ι × ρ))

variable (calls) in
theorem replicaRun_knows (i : ι) : (calls i).Knows ((replicaRun calls store schedule).phase i)
    (replicaRun calls store schedule).store :=
  (replicas_keep calls).run (s := (memoryReplicas ρ calls).initial store) (fun _ => trivial)
    schedule i

theorem replicaRun_append (more : List (ι × ρ)) : replicaRun calls store (schedule ++ more) =
    (replicaRun calls store schedule).run more := Processes.State.run_append _ _ _

/-- A record stays for the rest of the run. -/
theorem replicaRun_grows (more : List (ι × ρ)) : (replicaRun calls store schedule).store.Grows
    (replicaRun calls store (schedule ++ more)).store := by
  rw [replicaRun_append]
  exact (replicas_keep calls).run_store (replicaRun_knows calls store schedule) more

/-- An answer is final. -/
theorem replicaRun_answered {i : ι}
    {result : Outcome Error (TypedSpendResponse P (calls i).kind (calls i).settlement)}
    (h : (replicaRun calls store schedule).phase i = .answered result) (more : List (ι × ρ)) :
    (replicaRun calls store (schedule ++ more)).phase i = .answered result := by
  rw [replicaRun_append]
  exact Processes.State.run_phase_of_final (M := memoryReplicas ρ calls) (fun _ _ => rfl) h more

/-- One turn at the end of a run. -/
theorem replicaRun_concat (i : ι) (rng : ρ) :
    replicaRun calls store (schedule ++ [(i, rng)]) =
      (replicaRun calls store schedule).step i rng := Processes.State.run_concat _ _ _ _

theorem replicaRun_advances (i : ι) (rng : ρ) : (calls i).Advances
    (replicaRun calls store schedule).store
    ((replicaRun calls store (schedule ++ [(i, rng)])).phase i,
      (replicaRun calls store (schedule ++ [(i, rng)])).store) := by
  rw [replicaRun_concat, Processes.State.step_phase_self]
  exact SpendCall.advances (replicaRun_knows calls store schedule i) rng

/-- A call that fails has written nothing at any of its steps. -/
theorem replicaRun_store_of_error {i : ι} {f : Fault Error} (rng : ρ) (more : List (ι × ρ))
    (h : (replicaRun calls store (schedule ++ (i, rng) :: more)).phase i = .answered (.error f)) :
    (replicaRun calls store (schedule ++ [(i, rng)])).store =
      (replicaRun calls store schedule).store := by
  rcases (replicaRun_advances store schedule i rng).written with heq | ⟨stored, -, -, hwrote⟩
  · exact heq
  · obtain ⟨response, hanswered⟩ := hwrote.answered
    have hfinal := replicaRun_answered store (schedule ++ [(i, rng)]) hanswered more
    rw [List.append_assoc, List.singleton_append] at hfinal
    exact nomatch SpendCall.Phase.answered.inj (hfinal.symm.trans h)

/-- Every record was there from the start, or was written by a call that answered from it. -/
theorem replicaRun_written {nullifier : Bytes 32} {stored : RetryRecord P}
    (h : (replicaRun calls store schedule).store.lookup nullifier = some stored) :
    store.lookup nullifier = some stored ∨ ∃ i, (calls i).request.nullifier = nullifier ∧
      (calls i).Wrote stored ((replicaRun calls store schedule).phase i) := by
  induction schedule using List.reverseRecOn with
  | nil => exact .inl h
  | append_singleton schedule turn ih =>
      obtain ⟨i, rng⟩ := turn
      have hkeep {j : ι} (hwrote : (calls j).Wrote stored
          ((replicaRun calls store schedule).phase j)) :
          (calls j).Wrote stored
            ((replicaRun calls store (schedule ++ [(i, rng)])).phase j) := by
        obtain ⟨response, hanswered⟩ := hwrote.answered
        exact ⟨⟨response, replicaRun_answered store schedule hanswered _⟩,
          hwrote.returnAmount_eq, hwrote.proposal⟩
      have hold (hlookup : (replicaRun calls store schedule).store.lookup nullifier = some stored) :
          store.lookup nullifier = some stored ∨ ∃ j, (calls j).request.nullifier = nullifier ∧
            (calls j).Wrote stored
              ((replicaRun calls store (schedule ++ [(i, rng)])).phase j) :=
        (ih hlookup).imp_right fun ⟨j, hj, hwrote⟩ => ⟨j, hj, hkeep hwrote⟩
      rcases (replicaRun_advances store schedule i rng).written with
        heq | ⟨stored', -, heq, hwrote⟩
      · dsimp only at heq
        rw [heq] at h
        exact hold h
      · -- the turn wrote a record, this one or another
        dsimp only at heq
        rw [heq, MemoryNullifierStore.lookup_insert] at h
        split at h
        · next hnullifier =>
            obtain rfl := Option.some.inj h
            exact .inr ⟨i, hnullifier, hwrote⟩
        · exact hold h

/-- Every response repeats the record of its nullifier. -/
theorem replicaRun_response {i : ι}
    {response : TypedSpendResponse P (calls i).kind (calls i).settlement}
    (h : (replicaRun calls store schedule).phase i = .answered (.ok response)) :
    ∃ digest stored, (calls i).issuer.receive (calls i).request = .ok digest ∧
      (replicaRun calls store schedule).store.lookup (calls i).request.nullifier = some stored ∧
      stored.requestDigest = digest ∧
      response = { signature := stored.response.signature,
                   returnAmount := stored.response.returnAmount,
                   salt := stored.response.salt } := by
  have hknows := replicaRun_knows calls store schedule i
  rw [h] at hknows
  have hanswers : (calls i).Answers _ (.ok response) := hknows
  obtain ⟨digest, stored, hreceive, hlookup, hrespond⟩ := hanswers.stored response rfl
  obtain ⟨⟨hdigest, -⟩, hresponse⟩ := RetryRecord.respond_eq_ok.mp hrespond
  exact ⟨digest, stored, hreceive, hlookup, hdigest, hresponse⟩

/-- Calls of one nullifier that all propose a record before any writes one: the first to write wins,
    and its record answers them all. -/
theorem replicaRun_race {first : ι} {others : List ι} (hnodup : (first :: others).Nodup)
    {nullifier : Bytes 32} {digest : ι → Bytes 32} {candidate : ι → RetryRecord P} {rng : ρ}
    (hnullifier : ∀ i ∈ first :: others, (calls i).request.nullifier = nullifier)
    (hreceive : ∀ i ∈ first :: others, (calls i).issuer.receive (calls i).request = .ok (digest i))
    (hpropose : ∀ i ∈ first :: others, ∃ rng', (calls i).issuer.propose (calls i).request (digest i)
      (calls i).returnAmount rng = (.ok (candidate i), rng'))
    (hnone : store.lookup nullifier = none) :
    let turns := (first :: others).map (·, rng)
    let s := replicaRun calls store (turns ++ turns ++ turns)
    s.store = ⟨store.records.insert nullifier (candidate first)⟩ ∧
      ∀ i ∈ first :: others, s.phase i =
        .answered ((candidate first).respond (calls i).kind (calls i).settlement (digest i)) := by
  intro turns s
  let M := memoryReplicas ρ calls
  -- every call reads
  have hread := Processes.State.run_block (M.initial store) hnodup rng
    (fun i => .absent (digest i)) fun i hi =>
      SpendCall.advance_started_of_none (hreceive i hi) ((hnullifier i hi).symm ▸ hnone) rng
  set s₁ := (M.initial store).run turns with hs₁
  obtain ⟨hstore₁, hphase₁, -⟩ := hread
  -- every call proposes
  have hproposed := Processes.State.run_block s₁ hnodup rng
    (fun i => .proposed (digest i) (candidate i)) fun i hi => by
      obtain ⟨rng', hi'⟩ := hpropose i hi
      rw [hphase₁ i hi]
      exact SpendCall.advance_absent_of_propose hi'
  set s₂ := s₁.run turns with hs₂
  obtain ⟨hstore₂, hphase₂, -⟩ := hproposed
  -- the first call writes, and the others read what it wrote
  have hstep : M.advance first (s₂.phase first) s₂.store rng =
      (.answered ((candidate first).respond (calls first).kind (calls first).settlement
        (digest first)), ⟨store.records.insert nullifier (candidate first)⟩) := by
    rw [hphase₂ first List.mem_cons_self, hstore₂, hstore₁]
    have hfirst := hnullifier first List.mem_cons_self
    refine (SpendCall.advance_proposed_of_none (hfirst.symm ▸ hnone) rfl rng).trans ?_
    rw [hfirst]
    rfl
  set s₃ := s₂.step first rng with hs₃
  have hstore₃ : s₃.store = ⟨store.records.insert nullifier (candidate first)⟩ :=
    congrArg Prod.snd hstep
  obtain ⟨hfirst, hnodup'⟩ := List.nodup_cons.mp hnodup
  have hanswered := Processes.State.run_block s₃ hnodup' rng
    (fun i => .answered
      ((candidate first).respond (calls i).kind (calls i).settlement (digest i)))
    fun i hi => by
      have hne : i ≠ first := fun heq => hfirst (heq ▸ hi)
      rw [hs₃, Processes.State.step_phase_of_ne _ hne, ← hs₃,
        hphase₂ i (List.mem_cons_of_mem _ hi), hstore₃]
      refine SpendCall.advance_proposed_of_some ?_ rfl rng
      rw [hnullifier i (List.mem_cons_of_mem _ hi), MemoryNullifierStore.lookup_insert, if_pos rfl]
  obtain ⟨hstore, hphase, hother⟩ := hanswered
  have hs : s = s₃.run (others.map (·, rng)) := by
    simp only [s, replicaRun, Processes.State.run_append]
    rfl
  rw [hs]
  refine ⟨hstore.trans hstore₃, fun i hi => ?_⟩
  rcases List.mem_cons.mp hi with rfl | hi
  · rw [hother i hfirst, hs₃, Processes.State.step_phase_self]
    exact congrArg Prod.fst hstep
  · exact hphase i hi

/-- One durable winner.  The turns of a call that is left alone are the call of the issuer.  However
    the calls of any number of replicas interleave their reads and writes of a shared store, with
    requests of every kind and settlement: a record is never lost or changed; all responses for one
    nullifier repeat its record and answer one encoded request; every other answer is an error, and
    its call has written nothing; every new record was signed for, and answered to, the call that
    wrote it; and a call is answered after three turns, whatever the others do. -/
theorem single_durable_winner (hdigests : DigestsCollisionFree calls)
    (store : MemoryNullifierStore P) (schedule : List (ι × ρ)) :
    (∀ i (rng : ρ), let issuer : Issuer H P _ := { (calls i).issuer with spent := store }
      let out := issuer.settle (calls i).request (calls i).returnAmount rng
      let s := replicaRun calls store [(i, rng), (i, rng), (i, rng)]
      s.phase i = .answered out.1 ∧ s.store = out.2.1.spent) ∧
    (∀ (more : List (ι × ρ)) nullifier stored,
      (replicaRun calls store schedule).store.lookup nullifier = some stored →
        (replicaRun calls store (schedule ++ more)).store.lookup nullifier = some stored) ∧
    (∀ i response, (replicaRun calls store schedule).phase i = .answered (.ok response) →
      (∃ stored,
        (replicaRun calls store schedule).store.lookup (calls i).request.nullifier = some stored ∧
        response.signature = stored.response.signature ∧ response.salt = stored.response.salt ∧
        response.returnAmount = stored.response.returnAmount) ∧
      ∀ j response', (calls j).request.nullifier = (calls i).request.nullifier →
        (replicaRun calls store schedule).phase j = .answered (.ok response') →
        (response'.signature = response.signature ∧ response'.salt = response.salt ∧
          response'.returnAmount = response.returnAmount) ∧
        (∃ bytes, ((calls i).request.toBytes : Outcome Error _) = .ok bytes ∧
          ((calls j).request.toBytes : Outcome Error _) = .ok bytes) ∧
        (calls i).anyRequest = (calls j).anyRequest) ∧
    (∀ i f, (replicaRun calls store schedule).phase i = .answered (.error f) →
      (Wire.Encodable (calls i).request.proof → ∃ e, f = .err e) ∧
      ∀ before rng after, schedule = before ++ (i, rng) :: after →
        (replicaRun calls store (before ++ [(i, rng)])).store =
          (replicaRun calls store before).store) ∧
    (∀ nullifier stored,
      (replicaRun calls store schedule).store.lookup nullifier = some stored →
      store.lookup nullifier = some stored ∨ ∃ i, (calls i).request.nullifier = nullifier ∧
        (calls i).Wrote stored ((replicaRun calls store schedule).phase i)) ∧
    ∀ i, 3 ≤ schedule.countP (fun turn => decide (turn.1 = i)) →
      ∃ result, (replicaRun calls store schedule).phase i = .answered result := by
  refine ⟨fun i rng => replicas_run_alone calls i store rng,
    fun more nullifier stored h => replicaRun_grows store schedule more nullifier stored h,
    ?_, ?_, fun nullifier stored h => replicaRun_written store schedule h, ?_⟩
  -- answers with one nullifier read one record, and equal digests mean one request
  · intro i response h
    obtain ⟨digest, stored, hreceive, hlookup, rfl, rfl⟩ := replicaRun_response store schedule h
    refine ⟨⟨stored, hlookup, rfl, rfl, rfl⟩, ?_⟩
    intro j response' hnullifier h'
    obtain ⟨digest', stored', hreceive', hlookup', rfl, rfl⟩ :=
      replicaRun_response store schedule h'
    rw [hnullifier] at hlookup'
    obtain rfl := Option.some.inj (hlookup.symm.trans hlookup')
    exact ⟨⟨rfl, rfl, rfl⟩, hdigests.same_request hreceive hreceive'⟩
  -- an error is an error of the code, and its steps left the store as it was
  · intro i f h
    have hknows := replicaRun_knows calls store schedule i
    rw [h] at hknows
    have hanswers : (calls i).Answers _ (.error f) := hknows
    refine ⟨fun hencodable => ?_, ?_⟩
    · cases f with
      | err e => exact ⟨e, rfl⟩
      | panic => exact absurd rfl (hanswers.no_panic hencodable)
    · rintro before rng after rfl
      exact replicaRun_store_of_error store before rng after h
  -- each turn takes a call one step nearer to its answer
  · intro i hturns
    have hleft := Processes.State.run_measure (M := memoryReplicas ρ calls) (i := i)
      SpendCall.Phase.left (fun phase store rng => (calls i).left_advance phase store rng)
      ((memoryReplicas ρ calls).initial store) schedule
    refine SpendCall.Phase.eq_answered (Nat.eq_zero_of_le_zero (hleft.trans ?_))
    exact (Nat.sub_eq_zero_of_le hturns).le

end Runs

/-- Calls that race requests over one issuer, each with a return of its own. -/
def racingCalls (issuer : IssuerKey H P) (request : ι → DeferredReturnSpendRequest P K)
    (returnAmount : ι → U64) (i : ι) : SpendCall H P where
  issuer := issuer
  kind := K
  settlement := .deferredReturnSpend
  request := request i
  returnAmount := returnAmount i
  fixed := (absurd · SettlementMode.deferredReturnSpend_ne_fixedSpend)

/-- Prepared requests are received, and each call proposes a record with its return. -/
theorem racingCalls_propose [CryptoRngCore ρ] {issuer : IssuerKey H P} {token : Token P K}
    {spend returnAmount : ι → U64} {pending : ι → TypedPendingSpend P K .deferredReturnSpend}
    {request : ι → DeferredReturnSpendRequest P K} {rng : ρ}
    (h : ∀ i, Prepared issuer.publicKey token (spend i) (pending i) (request i))
    (hle : ∀ i, (returnAmount i).toNat ≤ (spend i).toNat)
    (hsamples : ∀ i, issuer.Samples (request i).freshCommitment (returnAmount i) rng) (i : ι) :
    let call := racingCalls issuer request returnAmount i
    (call.request.nullifier = token.nullifier ∧
      call.issuer.receive call.request = .ok (pending i).requestDigest) ∧
    ∃ candidate, (∃ rng', call.issuer.propose call.request (pending i).requestDigest
        call.returnAmount rng = (.ok candidate, rng')) ∧
      candidate.response.returnAmount = call.returnAmount ∧
      call.issuer.Proposal call.request (pending i).requestDigest candidate := by
  obtain ⟨candidate, rng', hcandidate, hamount, hproposal, -⟩ := (h i).exists_proposal
    (absurd · SettlementMode.deferredReturnSpend_ne_fixedSpend) (hle i) (hsamples i)
  exact ⟨⟨(h i).nullifier_eq, (h i).receive_eq⟩, candidate, ⟨rng', hcandidate⟩, hamount, hproposal⟩

/-- A hash that repeats its input from the amount of a framed request on. -/
def amountXof : Xof := fun input i => input.getD (81 + i) 0#8

/-- The amount is the first of what it gives. -/
theorem amountXof_digest {pre rest : List U8} (hpre : pre.length = 81) (amount : U64) :
    (amountXof.digest 32 (pre ++ (le64 amount.toNat ++ rest))).toList.take 8 = le64 amount.toNat := by
  have hlen : (le64 amount.toNat).length = 8 := leBytes_length 8 _
  refine List.ext_getElem ?_ fun i hi hi' => ?_
  · simp [hlen]
  · have hread : (pre ++ (le64 amount.toNat ++ rest)).getD (81 + i) 0#8 = (le64 amount.toNat)[i] := by
      rw [← hpre, List.getD_append_right _ _ _ _ (Nat.le_add_right _ _), Nat.add_sub_cancel_left,
        List.getD_append _ _ _ _ hi', List.getD_eq_getElem _ _ hi']
    rw [← hread]
    simp [Xof.digest, Xof.reader, XofReader.read, amountXof]

/-- It gives requests of different amounts different digests. -/
theorem spend_eq_of_amountXof {context : Bytes 32} {request request' : TypedSpendRequest P K S}
    {bytes bytes' : List U8} (h : (request.toBytes : Outcome Error _) = .ok bytes)
    (h' : (request'.toBytes : Outcome Error _) = .ok bytes')
    (hdigest : amountXof.digest 32 (digestInput context bytes) =
      amountXof.digest 32 (digestInput context bytes')) : request.spend = request'.spend := by
  have hamount {request : TypedSpendRequest P K S} {bytes : List U8}
      (h : (request.toBytes : Outcome Error _) = .ok bytes) :
      (amountXof.digest 32 (digestInput context bytes)).toList.take 8 =
        le64 request.spend.toNat := by
    obtain ⟨-, rfl⟩ := TypedSpendRequest.toBytes_eq_ok.mp h
    rw [digestInput, framed, ← List.append_assoc, ← List.append_assoc]
    refine amountXof_digest ?_ request.spend
    simp [Wire.header_length, le64]
    rfl
  have hspend := (hamount h).symm.trans
    ((congrArg (fun d => d.toList.take 8) hdigest).trans (hamount h'))
  exact (le64_unique trivial trivial (congrArg (· ++ []) hspend)).1

/-- So requests that race under it do not collide when their amounts tell them apart. -/
theorem racingCalls_collisionFree {issuer : IssuerKey amountXof P}
    {request : ι → DeferredReturnSpendRequest P K} {returnAmount : ι → U64}
    (h : ∀ i j, (request i).spend = (request j).spend → request i = request j) :
    DigestsCollisionFree (racingCalls issuer request returnAmount) := by
  intro i j bytes bytes' hi hj hdigest
  have hrequest : request i = request j := h i j (spend_eq_of_amountXof hi hj hdigest)
  have hbytes : (request i).toBytes = .ok bytes' := (congrArg _ hrequest).trans hj
  rw [Except.ok.inj (hi.symm.trans hbytes)]
  rfl

/-- Three calls race over one token: two of them with one request of five credits, to return nothing
    and to return two, and the third with a request of three.  All read and propose before any
    writes, and the second writes first. -/
theorem single_durable_winner_race :
    ∃ request request' : DeferredReturnSpendRequest tinyParams .direct,
      let calls := racingCalls (tinyIssuer amountXof) ![request, request, request'] ![0, 2, 0]
      let s := replicaRun calls ⟨∅⟩ ([1, 0, 2, 1, 0, 2, 1, 0, 2].map (·, RepeatRng.mk 7#32))
      (request.spend = 5 ∧ request'.spend = 3 ∧ request'.nullifier = request.nullifier) ∧
      (∃ response response', s.phase 0 = .answered (.ok response) ∧
        s.phase 1 = .answered (.ok response') ∧ response.signature = response'.signature ∧
        response.returnAmount = 2 ∧ response'.returnAmount = 2) ∧
      s.phase 2 = .answered (Outcome.err .nullifierAlreadySpent) ∧
      ∃ stored, s.store.lookup request.nullifier = some stored ∧
        stored.response.returnAmount = 2 ∧ (calls 1).Wrote stored (s.phase 1) := by
  obtain ⟨_, _, _, _, token, -, -, -, hauth, -, htoken⟩ := tinyIssuer_token amountXof
  have hle (spend : U64) (h : spend.toNat ≤ 5) :
      spend.toNat ≤ token.baseBalance.toNat + token.topup.toNat := by
    rw [htoken]
    exact h
  let issuer := tinyIssuer amountXof
  let rng := RepeatRng.mk 7#32
  obtain ⟨pending, request, -, hrequest⟩ := Token.prepareTypedSpend_spec .deferredReturnSpend
    hauth (hle 5 (by decide)) rng
  obtain ⟨pending', request', -, hrequest'⟩ := Token.prepareTypedSpend_spec .deferredReturnSpend
    hauth (hle 3 (by decide)) rng
  refine ⟨request, request', ?_⟩
  intro calls s
  have hprepared (i : Fin 3) : Prepared issuer.publicKey token (![5, 5, 3] i)
      (![pending, pending, pending'] i) (![request, request, request'] i) := by
    fin_cases i
    · exact hrequest
    · exact hrequest
    · exact hrequest'
  -- requests of one amount are one request
  have hspend : request.spend ≠ request'.spend := by
    rw [hrequest.spend_eq, hrequest'.spend_eq]
    decide
  have hdigests : DigestsCollisionFree calls := by
    refine racingCalls_collisionFree fun i j heq => ?_
    fin_cases i <;> fin_cases j <;>
      first | rfl | exact absurd heq hspend | exact absurd heq.symm hspend
  -- every call proposes a record of its own
  have hpropose := racingCalls_propose hprepared (by decide : ∀ i : Fin 3,
    (![0, 2, 0] i : U64).toNat ≤ (![5, 5, 3] i : U64).toNat) fun _ => tinyIssuer_samples _ _ _
  choose hreceived candidate hcandidate hamount hproposal using hpropose
  obtain ⟨hstore, hphase⟩ := replicaRun_race ⟨∅⟩ (show ([1, 0, 2] : List (Fin 3)).Nodup by decide)
    (fun i _ => (hreceived i).1) (fun i _ => (hreceived i).2) (fun i _ => hcandidate i)
    (MemoryNullifierStore.lookup_default _)
  have hok : (candidate 1).respond .direct .deferredReturnSpend pending.requestDigest = _ :=
    (hproposal 1).respond_eq
  have h0 : s.phase 0 = _ := (hphase 0 (by decide)).trans (congrArg SpendCall.Phase.answered hok)
  have h1 : s.phase 1 = _ := (hphase 1 (by decide)).trans (congrArg SpendCall.Phase.answered hok)
  have h2 : s.phase 2 = .answered (Outcome.err .nullifierAlreadySpent) := by
    have hne : (candidate 1).requestDigest ≠ (![pending, pending, pending'] 2).requestDigest := by
      rw [(hproposal 1).digest_eq]
      intro heq
      obtain ⟨-, hsame⟩ := hdigests.same_request (hreceived 1).2 (heq ▸ (hreceived 2).2)
      exact hspend (congrArg (fun q : AnyRequest tinyParams => q.2.2.spend) hsame)
    refine (hphase 2 (by decide)).trans (congrArg SpendCall.Phase.answered ?_)
    rw [RetryRecord.respond, beq_eq_false_iff_ne.mpr hne]
    rfl
  have hstored : s.store.lookup request.nullifier = some (candidate 1) := by
    rw [show s.store = _ from hstore, MemoryNullifierStore.lookup_insert,
      if_pos hrequest.nullifier_eq.symm]
  obtain ⟨-, -, hresponses, -, hwritten, -⟩ := single_durable_winner hdigests ⟨∅⟩
    ([1, 0, 2, 1, 0, 2, 1, 0, 2].map (·, RepeatRng.mk 7#32))
  obtain ⟨hsignature, -, hreturn⟩ := ((hresponses 0 _ h0).2 1 _ rfl h1).1
  refine ⟨⟨hrequest.spend_eq, hrequest'.spend_eq,
      hrequest'.nullifier_eq.trans hrequest.nullifier_eq.symm⟩,
    ⟨_, _, h0, h1, hsignature.symm, hreturn.symm.trans (hamount 1), hamount 1⟩, h2, _, hstored,
    hamount 1, ?_⟩
  · -- the record is of the call with its return
    rcases hwritten _ _ hstored with hold | ⟨i, -, hwrote⟩
    · cases (MemoryNullifierStore.lookup_default _).symm.trans hold
    · have hreturn : (calls i).returnAmount = 2 := hwrote.returnAmount_eq.symm.trans (hamount 1)
      fin_cases i
      · exact absurd hreturn (show (0 : U64) ≠ 2 by decide)
      · exact hwrote
      · exact absurd hreturn (show (0 : U64) ≠ 2 by decide)

end VoleAct.Act
