/-
  VoleAct.Act.Durability

  Replicas over a durable store, through crashes.

  The contract of `NullifierStore` is one linearizable write that is durable when it
  returns.  A call can still fail after its write was made, and a replica can be lost
  between any two steps, before its answer is delivered; the client then asks again.
  A first write is a spend of the ledger whether or not anyone learns of it.
-/
import VoleAct.Act.ReplicaLedger

namespace VoleAct.Act

open VoleAct.BinaryFields VoleAct.Lib VoleAct.Mayo VoleAct.Voleith

variable {H : Xof} {P : MayoParams} {ρ σ ι : Type} [CryptoRngCore ρ] [NullifierStore P σ]
  [DecidableEq ι]

/-- A lawful store whose failed writes were made or were not. -/
structure NullifierStore.Durable (P : MayoParams) (σ : Type) [NullifierStore P σ]
    extends NullifierStore.Lawful P σ where
  insert_failed : ∀ {store store' : σ} {nullifier : Bytes 32} {candidate : RetryRecord P}
    {e : Error}, NullifierStore.insertIfAbsent store nullifier candidate = (.error e, store') →
      lookup store' = lookup store ∨
        lookup store' = (WriteOnce.insertIfAbsent (lookup store) nullifier candidate).2

/-- A write leaves the map as it was, or adds the first record of its nullifier. -/
theorem NullifierStore.Durable.insert_cases (D : NullifierStore.Durable P σ) (store : σ)
    (nullifier : Bytes 32) (candidate : RetryRecord P) :
    let store' := (NullifierStore.insertIfAbsent store nullifier candidate).2
    D.lookup store' = D.lookup store ∨ (D.lookup store nullifier = none ∧
      D.lookup store' = Function.update (D.lookup store) nullifier (some candidate)) := by
  intro store'
  have hmade (h : D.lookup store' =
      (WriteOnce.insertIfAbsent (D.lookup store) nullifier candidate).2) :
      D.lookup store' = D.lookup store ∨ (D.lookup store nullifier = none ∧
        D.lookup store' = Function.update (D.lookup store) nullifier (some candidate)) := by
    cases hlookup : D.lookup store nullifier with
    | some stored =>
        rw [WriteOnce.insertIfAbsent_of_some hlookup] at h
        exact .inl h
    | none =>
        rw [WriteOnce.insertIfAbsent_of_none hlookup] at h
        exact .inr ⟨rfl, h⟩
  cases hinsert : NullifierStore.insertIfAbsent store nullifier candidate with
  | mk result after =>
      have hafter : store' = after := congrArg Prod.snd hinsert
      cases result with
      | ok stored => exact hmade (hafter ▸ (congrArg Prod.snd (D.insert_ok hinsert)).symm)
      | error e =>
          rcases D.insert_failed hinsert with h | h
          · exact .inl (hafter ▸ h)
          · exact hmade (hafter ▸ h)

/-- The reference store never fails. -/
def MemoryNullifierStore.durable (P : MayoParams) :
    NullifierStore.Durable P (MemoryNullifierStore P) :=
  { MemoryNullifierStore.lawful P with
    insert_failed := fun {store _ nullifier candidate _} h => by
      obtain ⟨after, heq, -⟩ :=
        MemoryNullifierStore.insertIfAbsent_lookup store nullifier candidate
      cases (Prod.mk.inj (heq.symm.trans h)).1 }

/-! ## One turn -/

namespace SpendCall

/-- A response repeats the record of its nullifier. -/
def Recorded (c : SpendCall H P) (map : Bytes 32 → Option (RetryRecord P))
    (response : TypedSpendResponse P c.kind c.settlement) : Prop :=
  ∃ digest stored, c.issuer.receive c.request = .ok digest ∧
    map c.request.nullifier = some stored ∧
    stored.respond c.kind c.settlement digest = .ok response

theorem Recorded.mono {c : SpendCall H P} {map map' : Bytes 32 → Option (RetryRecord P)}
    {response : TypedSpendResponse P c.kind c.settlement} (h : c.Recorded map response)
    (hextends : WriteOnce.Extends map map') : c.Recorded map' response := by
  obtain ⟨digest, stored, hreceive, hlookup, hrespond⟩ := h
  exact ⟨digest, stored, hreceive, hextends _ _ hlookup, hrespond⟩

/-- What a turn does to the map: nothing, or the first write of a proposal. -/
theorem advance_map (D : NullifierStore.Durable P σ) (c : SpendCall H P) (phase : c.Phase)
    (store : σ) (rng : ρ) :
    D.lookup (c.advance phase store rng).2 = D.lookup store ∨
      ∃ digest candidate, phase = .proposed digest candidate ∧
        D.lookup store c.request.nullifier = none ∧
        D.lookup (c.advance phase store rng).2 =
          Function.update (D.lookup store) c.request.nullifier (some candidate) := by
  cases phase with
  | proposed digest candidate =>
      have hstore : (c.advance (.proposed digest candidate) store rng).2 =
          (NullifierStore.insertIfAbsent store c.request.nullifier candidate).2 := by
        simp only [advance]
        rcases NullifierStore.insertIfAbsent store c.request.nullifier candidate with
          ⟨e | stored, store'⟩ <;> rfl
      rw [hstore]
      obtain hsame | ⟨hnone, hmap⟩ := D.insert_cases store c.request.nullifier candidate
      · exact .inl hsame
      · exact .inr ⟨digest, candidate, rfl, hnone, hmap⟩
  | started => exact .inl (congrArg D.lookup (c.advance_store (by simp) store rng))
  | absent digest => exact .inl (congrArg D.lookup (c.advance_store (by simp) store rng))
  | answered result => exact .inl (congrArg D.lookup (c.advance_store (by simp) store rng))

/-- A new response repeats a record that is in the map by then. -/
theorem advance_recorded (D : NullifierStore.Durable P σ) {c : SpendCall H P} {phase : c.Phase}
    (hcarries : c.Carries ρ phase) (store : σ) (rng : ρ)
    {response : TypedSpendResponse P c.kind c.settlement}
    (hnew : phase ≠ .answered (.ok response))
    (h : (c.advance phase store rng).1 = .answered (.ok response)) :
    c.Recorded (D.lookup (c.advance phase store rng).2) response := by
  cases phase with
  | started =>
      simp only [advance] at h ⊢
      cases hreceive : c.issuer.receive c.request with
      | error f =>
          rw [hreceive] at h
          cases h
      | ok digest =>
          rw [hreceive] at h
          dsimp only at h ⊢
          cases hget : NullifierStore.get (P := P) store c.request.nullifier with
          | error e =>
              rw [hget] at h
              cases h
          | ok found =>
              rw [hget] at h
              cases found with
              | none => cases h
              | some stored =>
                  exact ⟨digest, stored, hreceive, D.get_ok hget, Phase.answered.inj h⟩
  | absent digest =>
      simp only [advance] at h
      split at h <;> cases h
  | proposed digest candidate =>
      obtain ⟨hreceive, -⟩ := hcarries
      simp only [advance] at h ⊢
      cases hinsert : NullifierStore.insertIfAbsent store c.request.nullifier candidate with
      | mk result after =>
          rw [hinsert] at h
          cases result with
          | error e => cases h
          | ok stored =>
              have hok := D.insert_ok hinsert
              refine ⟨digest, stored, hreceive, ?_, Phase.answered.inj h⟩
              have hself := WriteOnce.insertIfAbsent_self (D.lookup store) c.request.nullifier
                candidate
              rwa [hok] at hself
  | answered result => exact absurd h hnew

end SpendCall

/-! ## Deployments -/

/-- The store, how far each call has come, the responses that clients have received, and the ledger
    of what has happened. -/
structure Deployment (σ : Type) (calls : ι → SpendCall H P) where
  store : σ
  phase (i : ι) : (calls i).Phase
  delivered : Set (Σ i, TypedSpendResponse P (calls i).kind (calls i).settlement)
  ledger : Ledger P

namespace Deployment

variable {calls : ι → SpendCall H P}

/-- Before the first call, over a store without records. -/
def initial (calls : ι → SpendCall H P) (store : σ) : Deployment σ calls :=
  ⟨store, fun _ => .started, ∅, .initial⟩

/-- What the next turn of a call returns. -/
def turn (s : Deployment σ calls) (i : ι) (rng : ρ) : (calls i).Phase × σ :=
  (calls i).advance (s.phase i) s.store rng

variable (ρ) (D : NullifierStore.Durable P σ) (issuer : IssuerKey H P)

/-- One step of a deployment, in any state.  A write that takes effect after its replica was lost is
    a turn of a call whose answer is never delivered. -/
inductive Step : Deployment σ calls → Deployment σ calls → Prop
  /-- An issuance that is accepted: its proof has a witness. -/
  | issued {s : Deployment σ calls} {ρ' : Type} [CryptoRngCore ρ'] {request : IssueRequest P}
      {rng rng' : ρ'} {response : IssueResponse P} (o : Opening)
      (h : issuer.issue request o.balance rng = (.ok response, rng'))
      (hwitness : issuer.commitmentOf o = request.commitment) :
      Step s { s with ledger := s.ledger.issue issuer o response.salt }
  /-- A turn of a call that writes nothing. -/
  | quiet {s : Deployment σ calls} (i : ι) (rng : ρ)
      (h : D.lookup (s.turn i rng).2 = D.lookup s.store) :
      Step s { s with
        store := (s.turn i rng).2
        phase := Function.update s.phase i (s.turn i rng).1 }
  /-- The first write of a nullifier, whatever its call is told: the proof of the request has a
      witness, and the signature in it is on a target that was signed. -/
  | written {s : Deployment σ calls} (i : ι) (rng : ρ) {digest : Bytes 32}
      {candidate : RetryRecord P} {w : SpendSecrets} {a : Authenticator}
      (hphase : s.phase i = .proposed digest candidate)
      (hlookup : D.lookup s.store (calls i).request.nullifier = none)
      (h : D.lookup (s.turn i rng).2 =
        Function.update (D.lookup s.store) (calls i).request.nullifier (some candidate))
      (hwitness : SpendRelation issuer.publicKey.mayo (issuer.publicKey.spendCircuit (calls i).kind
        (calls i).request.spend (calls i).request.nullifier (calls i).request.freshCommitment) w)
      (hsigned : a ∈ s.ledger.signed) (htarget : (w.presented issuer).target P = a.target P) :
      Step s { s with
        store := (s.turn i rng).2
        phase := Function.update s.phase i (s.turn i rng).1
        ledger := s.ledger.settle issuer
          ⟨s.ledger.store.records.insert (calls i).request.nullifier candidate⟩ (calls i).request
          { signature := candidate.response.signature
            returnAmount := candidate.response.returnAmount
            salt := candidate.response.salt } w }
  /-- A replica is lost with what it knew of a call; the call is made again. -/
  | crashed {s : Deployment σ calls} (i : ι) :
      Step s { s with phase := Function.update s.phase i .started }
  /-- A response reaches the client, which may ask again. -/
  | delivered {s : Deployment σ calls} (i : ι)
      {response : TypedSpendResponse P (calls i).kind (calls i).settlement}
      (h : s.phase i = .answered (.ok response)) :
      Step s { s with
        delivered := insert ⟨i, response⟩ s.delivered
        phase := Function.update s.phase i .started }
  /-- The store moves without changing its records. -/
  | moved {s : Deployment σ calls} (store : σ) (h : D.lookup store = D.lookup s.store) :
      Step s { s with store }

/-- The states of the runs over a store that starts without records. -/
def Reachable (s : Deployment σ calls) : Prop :=
  ∃ store, (∀ nullifier, D.lookup store nullifier = none) ∧
    Relation.ReflTransGen (Step ρ D issuer) (initial calls store) s

/-- What holds in every state. -/
structure Sound (s : Deployment σ calls) : Prop where
  map_eq : s.ledger.store.lookup = D.lookup s.store
  carries : ∀ i, (calls i).Carries ρ (s.phase i)
  answered : ∀ i response, s.phase i = .answered (.ok response) →
    (calls i).Recorded (D.lookup s.store) response
  received : ∀ i response, ⟨i, response⟩ ∈ s.delivered →
    (calls i).Recorded (D.lookup s.store) response
  ledger : s.ledger.Reachable issuer

variable {ρ D issuer}

/-- A map is only ever extended. -/
theorem Step.extends {s s' : Deployment σ calls} (h : Step ρ D issuer s s') :
    WriteOnce.Extends (D.lookup s.store) (D.lookup s'.store) := by
  cases h with
  | issued o h hwitness => exact .refl _
  | quiet i rng h =>
      rw [h]
      exact .refl _
  | written i rng hphase hlookup h hwitness hsigned htarget =>
      rw [h]
      intro n stored hn
      rwa [Function.update_of_ne]
      rintro rfl
      rw [hlookup] at hn
      cases hn
  | crashed i => exact .refl _
  | delivered i h => exact .refl _
  | moved store h =>
      rw [h]
      exact .refl _

/-- The parts of the invariant that a turn concerns. -/
theorem Sound.turn {s : Deployment σ calls} (h : s.Sound ρ D issuer) (i : ι) (rng : ρ)
    (hextends : WriteOnce.Extends (D.lookup s.store) (D.lookup (s.turn i rng).2)) :
    (∀ j, (calls j).Carries ρ (Function.update s.phase i (s.turn i rng).1 j)) ∧
      ∀ j response, Function.update s.phase i (s.turn i rng).1 j = .answered (.ok response) →
        (calls j).Recorded (D.lookup (s.turn i rng).2) response := by
  constructor
  · intro j
    by_cases hj : j = i
    · subst hj
      rw [Function.update_self]
      exact (h.carries j).advance _ rng
    · rw [Function.update_of_ne hj]
      exact h.carries j
  · intro j response hresponse
    by_cases hj : j = i
    · subst hj
      rw [Function.update_self] at hresponse
      by_cases hold : s.phase j = .answered (.ok response)
      · exact (h.answered j response hold).mono hextends
      · exact SpendCall.advance_recorded D (h.carries j) s.store rng hold hresponse
    · rw [Function.update_of_ne hj] at hresponse
      exact (h.answered j response hresponse).mono hextends

/-- A call that starts again knows nothing. -/
theorem Sound.restart {s : Deployment σ calls} (h : s.Sound ρ D issuer) (i : ι) :
    (∀ j, (calls j).Carries ρ (Function.update s.phase i .started j)) ∧
      ∀ j response, Function.update s.phase i .started j = .answered (.ok response) →
        (calls j).Recorded (D.lookup s.store) response := by
  constructor
  · intro j
    by_cases hj : j = i
    · subst hj
      rw [Function.update_self]
      trivial
    · rw [Function.update_of_ne hj]
      exact h.carries j
  · intro j response hresponse
    by_cases hj : j = i
    · subst hj
      rw [Function.update_self] at hresponse
      cases hresponse
    · rw [Function.update_of_ne hj] at hresponse
      exact h.answered j response hresponse

omit [DecidableEq ι] in
/-- The first write of a proposal is a whole call of the issuer over the ledger's store. -/
theorem Sound.spent (hissuer : ∀ i, (calls i).issuer = issuer) {s : Deployment σ calls}
    (h : s.Sound ρ D issuer) {i : ι} {digest : Bytes 32} {candidate : RetryRecord P}
    {w : SpendSecrets} {a : Authenticator} (hphase : s.phase i = .proposed digest candidate)
    (hlookup : D.lookup s.store (calls i).request.nullifier = none)
    (hwitness : SpendRelation issuer.publicKey.mayo (issuer.publicKey.spendCircuit (calls i).kind
      (calls i).request.spend (calls i).request.nullifier (calls i).request.freshCommitment) w)
    (hsigned : a ∈ s.ledger.signed) (htarget : (w.presented issuer).target P = a.target P) :
    Ledger.Step issuer s.ledger (s.ledger.settle issuer
      ⟨s.ledger.store.records.insert (calls i).request.nullifier candidate⟩ (calls i).request
      { signature := candidate.response.signature
        returnAmount := candidate.response.returnAmount
        salt := candidate.response.salt } w) := by
  have hcarries := h.carries i
  rw [hphase] at hcarries
  obtain ⟨hreceive, rng, hpropose⟩ := hcarries
  have hnone : s.ledger.store.lookup (calls i).request.nullifier = none := by
    rw [h.map_eq]
    exact hlookup
  -- over the ledger's own store, with the randomness of the proposal
  have hsettle : (calls i).settle rng s.ledger.store = _ :=
    (calls i).settle_of_propose hreceive hpropose
  rw [MemoryNullifierStore.insertIfAbsent_of_none hnone] at hsettle
  dsimp only at hsettle
  rw [(SpendCall.proposal_of_propose hpropose).respond_eq, SpendCall.settle, hissuer i] at hsettle
  have hok := congrArg Prod.fst hsettle
  have hstore := congrArg Prod.snd hsettle
  dsimp only at hok hstore
  rw [← hstore]
  exact .spent (calls i).fixed hnone hok hwitness hsigned htarget

theorem Sound.step (hissuer : ∀ i, (calls i).issuer = issuer) {s s' : Deployment σ calls}
    (h : s.Sound ρ D issuer) (hstep : Step ρ D issuer s s') : s'.Sound ρ D issuer := by
  have hreceived := fun i response hmem => (h.received i response hmem).mono hstep.extends
  have hextends := hstep.extends
  cases hstep with
  | issued o hissue hwitness =>
      exact ⟨h.map_eq, h.carries, h.answered, h.received, h.ledger.tail (.issued o hissue hwitness)⟩
  | quiet i rng hmap =>
      obtain ⟨hcarries, hanswered⟩ := h.turn i rng hextends
      exact ⟨h.map_eq.trans hmap.symm, hcarries, hanswered, hreceived, h.ledger⟩
  | @written i rng digest candidate w a hphase hlookup hmap hwitness hsigned htarget =>
      obtain ⟨hcarries, hanswered⟩ := h.turn i rng hextends
      have hledger := h.spent hissuer hphase hlookup hwitness hsigned htarget
      refine ⟨?_, hcarries, hanswered, hreceived, h.ledger.tail hledger⟩
      rw [hmap, ← h.map_eq]
      exact MemoryNullifierStore.lookup_insert_eq ..
  | crashed i =>
      obtain ⟨hcarries, hanswered⟩ := h.restart i
      exact ⟨h.map_eq, hcarries, hanswered, h.received, h.ledger⟩
  | @delivered i response hanswer =>
      obtain ⟨hcarries, hanswered⟩ := h.restart i
      refine ⟨h.map_eq, hcarries, hanswered, fun j response' hmem => ?_, h.ledger⟩
      rcases Set.mem_insert_iff.mp hmem with heq | hmem
      · obtain ⟨rfl, hresponse⟩ := Sigma.mk.inj heq
        rw [eq_of_heq hresponse]
        exact h.answered j response hanswer
      · exact h.received j response' hmem
  | moved store hmap =>
      exact ⟨h.map_eq.trans hmap.symm, h.carries,
        fun i response hphase => hmap ▸ h.answered i response hphase, hreceived, h.ledger⟩

/-- Every turn is a step, when the request of a first write has a witness with a signature that was
    made. -/
theorem Step.of_turn (hissuer : ∀ i, (calls i).issuer = issuer) {s : Deployment σ calls}
    (hs : s.Sound ρ D issuer) (i : ι) (rng : ρ)
    (hideal : D.lookup s.store (calls i).request.nullifier = none →
      issuer.publicKey.verifySpend (calls i).request = .ok () → ∃ w, ∃ a ∈ s.ledger.signed,
        SpendRelation issuer.publicKey.mayo (issuer.publicKey.spendCircuit (calls i).kind
          (calls i).request.spend (calls i).request.nullifier (calls i).request.freshCommitment) w ∧
        (w.presented issuer).target P = a.target P) :
    ∃ s', Step ρ D issuer s s' ∧ s'.store = (s.turn i rng).2 ∧
      s'.phase = Function.update s.phase i (s.turn i rng).1 := by
  rcases (calls i).advance_map D (s.phase i) s.store rng with
    hmap | ⟨digest, candidate, hphase, hlookup, hmap⟩
  · exact ⟨_, .quiet i rng hmap, rfl, rfl⟩
  · have hcarries := hs.carries i
    rw [hphase] at hcarries
    obtain ⟨-, rng', hpropose⟩ := hcarries
    obtain ⟨w, a, hsigned, hwitness, htarget⟩ :=
      hideal hlookup (hissuer i ▸ (SpendCall.proposal_of_propose hpropose).verified)
    exact ⟨_, .written i rng hphase hlookup hmap hwitness hsigned htarget, rfl, rfl⟩

omit [DecidableEq ι] in
theorem Sound.initial {store : σ} (hstore : ∀ nullifier, D.lookup store nullifier = none) :
    (Deployment.initial calls store).Sound ρ D issuer where
  map_eq := funext fun nullifier =>
    (MemoryNullifierStore.lookup_default nullifier).trans (hstore nullifier).symm
  carries _ := trivial
  answered _ _ h := by cases h
  received _ _ h := absurd h (Set.notMem_empty _)
  ledger := .refl

/-- The invariant of every run. -/
theorem Reachable.sound (hissuer : ∀ i, (calls i).issuer = issuer) {s : Deployment σ calls}
    (hrun : s.Reachable ρ D issuer) : s.Sound ρ D issuer := by
  obtain ⟨store, hstore, hsteps⟩ := hrun
  induction hsteps with
  | refl => exact .initial hstore
  | tail _ hstep ih => exact ih.step hissuer hstep

/-- Fiscal conservation and exactly-once answers through crashes.  Replicas of one issuer share a
    store whose writes may be made although the call fails; they are lost at any point and clients
    ask again.  Every turn is still a step of the system; every state is one of a run of single
    calls, with the records that the store has, so the openings that can still be spent and the
    value redeemed are together at most the value issued; all the responses that clients have
    received for one nullifier are one response; and a call that is made again is given the response
    it was given before. -/
theorem durable_conserves (hissuer : ∀ i, (calls i).issuer = issuer) {s : Deployment σ calls}
    (hrun : s.Reachable ρ D issuer) :
    (∀ i (rng : ρ), (D.lookup s.store (calls i).request.nullifier = none →
        issuer.publicKey.verifySpend (calls i).request = .ok () → ∃ w, ∃ a ∈ s.ledger.signed,
          SpendRelation issuer.publicKey.mayo (issuer.publicKey.spendCircuit (calls i).kind
            (calls i).request.spend (calls i).request.nullifier (calls i).request.freshCommitment)
            w ∧ (w.presented issuer).target P = a.target P) →
      ∃ s' : Deployment σ calls, s'.Reachable ρ D issuer ∧ s'.store = (s.turn i rng).2 ∧
        s'.phase = Function.update s.phase i (s.turn i rng).1) ∧
    (s.ledger.Reachable issuer ∧ s.ledger.store.lookup = D.lookup s.store) ∧
    (s.ledger.CollisionFree issuer →
      ∑ o ∈ s.ledger.live issuer, s.ledger.value issuer o + s.ledger.redeemed ≤ s.ledger.issued) ∧
    (∀ i j response response', ⟨i, response⟩ ∈ s.delivered → ⟨j, response'⟩ ∈ s.delivered →
      (calls i).request.nullifier = (calls j).request.nullifier →
        response.signature = response'.signature ∧
        response.returnAmount = response'.returnAmount ∧ response.salt = response'.salt) ∧
    ∀ i response found (rng : ρ), ⟨i, response⟩ ∈ s.delivered → s.phase i = .started →
      NullifierStore.get (P := P) s.store (calls i).request.nullifier = .ok found →
        s.turn i rng = (.answered (.ok response), s.store) := by
  have hsound := hrun.sound hissuer
  refine ⟨fun i rng hideal => ?_, ⟨hsound.ledger, hsound.map_eq⟩, fun hfree => ?_, ?_, ?_⟩
  · obtain ⟨s', hstep, hs'⟩ := Step.of_turn hissuer hsound i rng hideal
    obtain ⟨store, hstore, hsteps⟩ := hrun
    exact ⟨s', ⟨store, hstore, hsteps.tail hstep⟩, hs'⟩
  · rw [Ledger.sum_live]
    exact (hsound.ledger.sound hfree).balanced
  · intro i j response response' hi hj hnullifier
    obtain ⟨digest, stored, -, hlookup, hrespond⟩ := hsound.received i response hi
    obtain ⟨digest', stored', -, hlookup', hrespond'⟩ := hsound.received j response' hj
    -- one nullifier has one record
    rw [hnullifier] at hlookup
    obtain rfl := Option.some.inj (hlookup.symm.trans hlookup')
    obtain ⟨-, rfl⟩ := RetryRecord.respond_eq_ok.mp hrespond
    obtain ⟨-, rfl⟩ := RetryRecord.respond_eq_ok.mp hrespond'
    exact ⟨rfl, rfl, rfl⟩
  · intro i response found rng hmem hphase hget
    obtain ⟨digest, stored, hreceive, hlookup, hrespond⟩ := hsound.received i response hmem
    obtain rfl : some stored = found := hlookup.symm.trans (D.get_ok hget)
    simp only [turn, hphase, SpendCall.advance, hreceive, hget, hrespond]

/-- A turn that writes nothing. -/
theorem Step.of_turn_eq {s : Deployment σ calls} (i : ι) (rng : ρ) {phase : (calls i).Phase}
    (h : s.turn i rng = (phase, s.store)) :
    Step ρ D issuer s { s with phase := Function.update s.phase i phase } := by
  have hquiet : Step ρ D issuer s _ := .quiet i rng (congrArg (D.lookup ·.2) h)
  rwa [h] at hquiet

/-- Five credits are issued, and a spend of four is written with a return of one.  The replica is
    lost before it answers; the call is made again, its response is delivered, and asking once more
    gives the same response. -/
theorem durable_conserves_issued :
    let issuer := tinyIssuer fun _ _ => 0#8
    let D := MemoryNullifierStore.durable tinyParams
    ∃ request : DeferredReturnSpendRequest tinyParams .direct,
      let calls := racingCalls issuer (fun _ : Unit => request) fun _ => 1
      ∃ s : Deployment (MemoryNullifierStore tinyParams) calls, s.Reachable RepeatRng D issuer ∧
        s.ledger.Reachable issuer ∧
        (∃ response, ⟨(), response⟩ ∈ s.delivered ∧ response.returnAmount = 1 ∧
          s.turn () (RepeatRng.mk 7#32) = (.answered (.ok response), s.store)) ∧
        s.ledger.issued = 5 ∧ s.ledger.redeemed = 3 ∧
        ∑ o ∈ s.ledger.live issuer, s.ledger.value issuer o + s.ledger.redeemed ≤
          s.ledger.issued := by
  intro issuer D
  obtain ⟨x⟩ := tinyIssuer_spending
  obtain ⟨rng', hissue⟩ := x.issued
  refine ⟨x.request, ?_⟩
  intro calls
  let rng := RepeatRng.mk 7#32
  let l := Ledger.initial.issue issuer x.opening x.issueResponse.salt
  let digest := x.pending.requestDigest
  have hnone : l.store.lookup x.request.nullifier = none := MemoryNullifierStore.lookup_default _
  obtain ⟨candidate, _, hpropose, hamount, hproposal, hsalt⟩ :=
    tinyIssuer_proposal x (show (1#64).toNat ≤ 4 by decide)
  let response : DeferredReturnSpendResponse tinyParams .direct :=
    { signature := candidate.response.signature, returnAmount := candidate.response.returnAmount,
      salt := candidate.response.salt }
  have hrespond : candidate.respond .direct .deferredReturnSpend digest = .ok response :=
    hproposal.respond_eq
  -- the call reads and proposes
  let s₁ : Deployment (MemoryNullifierStore tinyParams) calls :=
    { initial calls (.default : MemoryNullifierStore tinyParams) with ledger := l }
  let s₂ : Deployment (MemoryNullifierStore tinyParams) calls := { s₁ with
    phase := Function.update s₁.phase () (.absent digest) }
  let s₃ : Deployment (MemoryNullifierStore tinyParams) calls := { s₂ with
    phase := Function.update s₂.phase () (.proposed digest candidate) }
  have h₁ : Step RepeatRng D issuer (initial calls .default) s₁ :=
    .issued x.opening hissue x.commitmentOf_opening
  have h₂ : Step RepeatRng D issuer s₁ s₂ :=
    .of_turn_eq () rng (SpendCall.advance_started_of_none x.prepared.receive_eq hnone rng)
  have h₃ : Step RepeatRng D issuer s₂ s₃ :=
    .of_turn_eq () rng (SpendCall.advance_absent_of_propose hpropose)
  -- it writes, and is lost
  let store : MemoryNullifierStore tinyParams :=
    ⟨l.store.records.insert x.request.nullifier candidate⟩
  have hwrite : s₃.turn () rng = (.answered (.ok response), store) :=
    SpendCall.advance_proposed_of_none hnone hrespond rng
  let s₄ : Deployment (MemoryNullifierStore tinyParams) calls := { s₃ with
    store
    phase := Function.update s₃.phase () (.answered (.ok response))
    ledger := l.settle issuer store x.request response x.secrets }
  have h₄ : Step RepeatRng D issuer s₃ s₄ := by
    have hmap : D.lookup (s₃.turn () rng).2 =
        Function.update (D.lookup s₃.store) x.request.nullifier (some candidate) := by
      rw [hwrite]
      exact MemoryNullifierStore.lookup_insert_eq ..
    have hstep : Step RepeatRng D issuer s₃ _ := .written () rng rfl hnone hmap x.relation
      x.presented_mem rfl
    rwa [hwrite] at hstep
  let s₅ : Deployment (MemoryNullifierStore tinyParams) calls := { s₄ with
    phase := Function.update s₄.phase () .started }
  have h₅ : Step RepeatRng D issuer s₄ s₅ := .crashed ()
  -- the call is made again, and its response is delivered
  have hstored : store.lookup x.request.nullifier = some candidate :=
    (MemoryNullifierStore.lookup_insert ..).trans (if_pos rfl)
  let s₆ : Deployment (MemoryNullifierStore tinyParams) calls := { s₅ with
    phase := Function.update s₅.phase () (.answered (.ok response)) }
  have h₆ : Step RepeatRng D issuer s₅ s₆ :=
    .of_turn_eq () rng (SpendCall.advance_started_of_some x.prepared.receive_eq hstored hrespond rng)
  have hanswered : s₆.phase () = .answered (.ok response) := rfl
  have h₇ : Step RepeatRng D issuer s₆ _ := .delivered () hanswered
  have hrun : Reachable RepeatRng D issuer _ := ⟨.default, MemoryNullifierStore.lookup_default,
    .tail (.tail (.tail (.tail (.tail (.tail (.single h₁) h₂) h₃) h₄) h₅) h₆) h₇⟩
  have hissuer : ∀ i, (calls i).issuer = issuer := fun _ => rfl
  obtain ⟨-, ⟨hledger, -⟩, hconserved, -, hagain⟩ := durable_conserves hissuer hrun
  refine ⟨_, hrun, hledger, ⟨response, Set.mem_insert _ _, hamount,
    hagain () response (some candidate) _ (Set.mem_insert _ _) rfl (congrArg Except.ok hstored)⟩,
    rfl, tinyIssuer_redeemed x hamount,
    hconserved (tinyIssuer_collisionFree x _ response hamount hsalt)⟩

end Deployment

end VoleAct.Act
