/-
  VoleAct.Act.ReplicaLedger

  The fiscal invariant for racing replicas.

  Whole calls of the issuer, issuances among them, fall between the reads, the
  proposals and the writes of any number of spends.  A turn that writes a record is a
  spend of the ledger and every other turn is none, so each run is a run of the ledger.
-/
import VoleAct.Act.Fiscal
import VoleAct.Act.Linearizability

namespace VoleAct.Act

open VoleAct.BinaryFields VoleAct.Lib VoleAct.Mayo VoleAct.Voleith

variable {H : Xof} {P : MayoParams} {ρ σ ι : Type} [CryptoRngCore ρ] [NullifierStore P σ]
  [DecidableEq ι]

namespace SpendCall

variable (ρ) in
/-- What a call carries from turn to turn: its digest, and a candidate that it proposed. -/
def Carries (c : SpendCall H P) (phase : c.Phase) : Prop :=
  match phase with
  | .absent digest => c.issuer.receive c.request = .ok digest
  | .proposed digest candidate => c.issuer.receive c.request = .ok digest ∧
      ∃ rng : ρ, (c.issuer.propose c.request digest c.returnAmount rng).1 = .ok candidate
  | _ => True

theorem Carries.advance {c : SpendCall H P} {phase : c.Phase} (h : c.Carries ρ phase)
    (store : σ) (rng : ρ) : c.Carries ρ (c.advance phase store rng).1 := by
  cases phase with
  | started =>
      simp only [SpendCall.advance]
      split
      · trivial
      · next digest hreceive =>
          split
          · trivial
          · trivial
          · exact hreceive
  | absent digest =>
      simp only [SpendCall.advance]
      split
      · trivial
      · next candidate rng' hpropose => exact ⟨h, rng, congrArg Prod.fst hpropose⟩
  | proposed digest candidate =>
      simp only [SpendCall.advance]
      split <;> trivial
  | answered result => trivial

/-- A candidate was checked, and answers its own request. -/
theorem proposal_of_propose {c : SpendCall H P} {digest : Bytes 32} {candidate : RetryRecord P}
    {rng : ρ} (h : (c.issuer.propose c.request digest c.returnAmount rng).1 = .ok candidate) :
    c.issuer.Proposal c.request digest candidate := by
  rcases c.issuer.propose_cases c.fixed c.request digest rng with
    ⟨f, -, hpropose⟩ | ⟨-, rng', hpropose⟩ | ⟨candidate', rng', hpropose, -, hproposal⟩
  · rw [hpropose] at h
    cases h
  · rw [hpropose] at h
    cases h
  · rw [hpropose] at h
    obtain rfl := Except.ok.inj h
    exact hproposal

/-- Only a proposal is written. -/
theorem advance_store (c : SpendCall H P) {phase : c.Phase}
    (h : ∀ digest candidate, phase ≠ .proposed digest candidate) (store : σ) (rng : ρ) :
    (c.advance phase store rng).2 = store := by
  cases phase with
  | started =>
      simp only [SpendCall.advance]
      split
      · rfl
      · split <;> rfl
  | absent digest =>
      simp only [SpendCall.advance]
      split <;> rfl
  | proposed digest candidate => exact absurd rfl (h digest candidate)
  | answered result => rfl

end SpendCall

/-- The ledger of one issuer, and how far each call of its replicas has come. -/
structure ReplicaLedger (calls : ι → SpendCall H P) where
  ledger : Ledger P
  phase (i : ι) : (calls i).Phase

namespace ReplicaLedger

variable {calls : ι → SpendCall H P}

/-- Before the first call. -/
def initial (calls : ι → SpendCall H P) : ReplicaLedger calls := ⟨.initial, fun _ => .started⟩

/-- What the next turn of a call returns. -/
def turn (s : ReplicaLedger calls) (i : ι) (rng : ρ) : (calls i).Phase × MemoryNullifierStore P :=
  (calls i).advance (s.phase i) s.ledger.store rng

variable (ρ) (issuer : IssuerKey H P)

/-- One step of the system, by any client, in any state. -/
inductive Step : ReplicaLedger calls → ReplicaLedger calls → Prop
  /-- A whole call of the issuer. -/
  | call {s : ReplicaLedger calls} {l : Ledger P} (h : Ledger.Step issuer s.ledger l) :
      Step s { s with ledger := l }
  /-- A turn of a call that leaves the store as it is. -/
  | quiet {s : ReplicaLedger calls} (i : ι) (rng : ρ) (h : (s.turn i rng).2 = s.ledger.store) :
      Step s { s with phase := Function.update s.phase i (s.turn i rng).1 }
  /-- The write of a call, when it is the first of its nullifier: the proof of its request has a
      witness, and the signature in it is on a target that was signed. -/
  | written {s : ReplicaLedger calls} (i : ι) (rng : ρ) {digest : Bytes 32}
      {candidate : RetryRecord P}
      {response : TypedSpendResponse P (calls i).kind (calls i).settlement} {w : SpendSecrets}
      {a : Authenticator} (hphase : s.phase i = .proposed digest candidate)
      (hlookup : s.ledger.store.lookup (calls i).request.nullifier = none)
      (h : (s.turn i rng).1 = .answered (.ok response))
      (hwitness : SpendRelation issuer.publicKey.mayo (issuer.publicKey.spendCircuit (calls i).kind
        (calls i).request.spend (calls i).request.nullifier (calls i).request.freshCommitment) w)
      (hsigned : a ∈ s.ledger.signed) (htarget : (w.presented issuer).target P = a.target P) :
      Step s
        { ledger := s.ledger.settle issuer (s.turn i rng).2 (calls i).request response w
          phase := Function.update s.phase i (s.turn i rng).1 }

/-- The states of the runs. -/
def Reachable (s : ReplicaLedger calls) : Prop :=
  Relation.ReflTransGen (Step ρ issuer) (initial calls) s

variable {ρ issuer}

/-- Every turn is a step, when the request of a first write has a witness with a signature that was
    made. -/
theorem Step.of_turn (hissuer : ∀ i, (calls i).issuer = issuer) (s : ReplicaLedger calls) (i : ι)
    (rng : ρ) (hcarries : (calls i).Carries ρ (s.phase i))
    (hideal : s.ledger.store.lookup (calls i).request.nullifier = none →
      issuer.publicKey.verifySpend (calls i).request = .ok () → ∃ w, ∃ a ∈ s.ledger.signed,
        SpendRelation issuer.publicKey.mayo (issuer.publicKey.spendCircuit (calls i).kind
          (calls i).request.spend (calls i).request.nullifier (calls i).request.freshCommitment) w ∧
        (w.presented issuer).target P = a.target P) :
    ∃ s', Step ρ issuer s s' ∧ s'.ledger.store = (s.turn i rng).2 ∧
      s'.phase = Function.update s.phase i (s.turn i rng).1 := by
  have hquiet (h : (s.turn i rng).2 = s.ledger.store) :
      ∃ s', Step ρ issuer s s' ∧ s'.ledger.store = (s.turn i rng).2 ∧
        s'.phase = Function.update s.phase i (s.turn i rng).1 := ⟨_, .quiet i rng h, h.symm, rfl⟩
  cases hphase : s.phase i with
  | started => exact hquiet ((calls i).advance_store (by simp [hphase]) _ rng)
  | absent digest => exact hquiet ((calls i).advance_store (by simp [hphase]) _ rng)
  | answered result => exact hquiet ((calls i).advance_store (by simp [hphase]) _ rng)
  | proposed digest candidate =>
      rw [hphase] at hcarries
      obtain ⟨hreceive, rng', hpropose⟩ := hcarries
      cases hlookup : s.ledger.store.lookup (calls i).request.nullifier with
      | some stored =>
          refine hquiet ?_
          simp only [turn, hphase, SpendCall.advance,
            MemoryNullifierStore.insertIfAbsent_of_some hlookup]
      | none =>
          have hproposal := SpendCall.proposal_of_propose hpropose
          obtain ⟨w, a, hsigned, hwitness, htarget⟩ :=
            hideal hlookup (hissuer i ▸ hproposal.verified)
          have hanswer : (s.turn i rng).1 = .answered (.ok
              { signature := candidate.response.signature,
                returnAmount := candidate.response.returnAmount,
                salt := candidate.response.salt }) := by
            simp only [turn, hphase, SpendCall.advance,
              MemoryNullifierStore.insertIfAbsent_of_none hlookup, hproposal.respond_eq]
          exact ⟨_, .written i rng hphase hlookup hanswer hwitness hsigned htarget, rfl, rfl⟩

/-- Every run of the replicas is a run of the ledger. -/
theorem Reachable.ledger (hissuer : ∀ i, (calls i).issuer = issuer) {s : ReplicaLedger calls}
    (h : s.Reachable ρ issuer) :
    s.ledger.Reachable issuer ∧ ∀ i, (calls i).Carries ρ (s.phase i) := by
  unfold Reachable at h
  have hcarries {s : ReplicaLedger calls} (hs : ∀ j, (calls j).Carries ρ (s.phase j)) (i : ι)
      (rng : ρ) (j : ι) :
      (calls j).Carries ρ (Function.update s.phase i (s.turn i rng).1 j) := by
    by_cases hj : j = i
    · subst hj
      rw [Function.update_self]
      exact (hs j).advance _ rng
    · rw [Function.update_of_ne hj]
      exact hs j
  induction h with
  | refl => exact ⟨.refl, fun _ => trivial⟩
  | @tail s s' _ hstep ih =>
      obtain ⟨hledger, hs⟩ := ih
      cases hstep with
      | call h => exact ⟨hledger.tail h, hs⟩
      | quiet i rng h => exact ⟨hledger, hcarries hs i rng⟩
      | @written i rng digest candidate response w a hphase hlookup h hwitness hsigned htarget =>
          refine ⟨hledger.tail ?_, hcarries hs i rng⟩
          -- the write is the whole call, with the randomness of the proposal
          have hi := hs i
          rw [hphase] at hi
          obtain ⟨hreceive, rng', hpropose⟩ := hi
          have hturn : s.turn i rng = (.answered ((calls i).settle rng' s.ledger.store).1,
              ((calls i).settle rng' s.ledger.store).2) := by
            rw [turn, hphase]
            exact (calls i).advance_eq_settle hreceive hpropose _ _
          rw [hturn] at h ⊢
          have hok := SpendCall.Phase.answered.inj h
          rw [SpendCall.settle, hissuer i] at hok ⊢
          exact .spent (calls i).fixed hlookup hok hwitness hsigned htarget

/-- Fiscal conservation for racing replicas.  However the turns of any number of spends interleave
    with each other and with whole calls of the issuer, every turn is a step of the system, every
    state reached is one of a run of single calls, and the openings that can still be spent and the
    value redeemed are together at most the value issued. -/
theorem replicas_conserve (hissuer : ∀ i, (calls i).issuer = issuer) {s : ReplicaLedger calls}
    (hrun : s.Reachable ρ issuer) :
    (∀ i (rng : ρ), (s.ledger.store.lookup (calls i).request.nullifier = none →
        issuer.publicKey.verifySpend (calls i).request = .ok () → ∃ w, ∃ a ∈ s.ledger.signed,
          SpendRelation issuer.publicKey.mayo (issuer.publicKey.spendCircuit (calls i).kind
            (calls i).request.spend (calls i).request.nullifier (calls i).request.freshCommitment)
            w ∧ (w.presented issuer).target P = a.target P) →
      ∃ s' : ReplicaLedger calls, s'.Reachable ρ issuer ∧ s'.ledger.store = (s.turn i rng).2 ∧
        s'.phase = Function.update s.phase i (s.turn i rng).1) ∧
    s.ledger.Reachable issuer ∧
    (s.ledger.CollisionFree issuer →
      ∑ o ∈ s.ledger.live issuer, s.ledger.value issuer o + s.ledger.redeemed ≤ s.ledger.issued) := by
  obtain ⟨hledger, hcarries⟩ := hrun.ledger hissuer
  refine ⟨fun i rng hideal => ?_, hledger, fun hfree => ?_⟩
  · obtain ⟨s', hstep, hs'⟩ := Step.of_turn hissuer s i rng (hcarries i) hideal
    exact ⟨s', hrun.tail hstep, hs'⟩
  · rw [Ledger.sum_live]
    exact (hledger.sound hfree).balanced

/-- A turn that leaves the store as it is. -/
theorem Step.of_turn_eq {s : ReplicaLedger calls} (i : ι) (rng : ρ) {phase : (calls i).Phase}
    (h : s.turn i rng = (phase, s.ledger.store)) :
    Step ρ issuer s { s with phase := Function.update s.phase i phase } := by
  have hquiet : Step ρ issuer s _ := .quiet i rng (congrArg Prod.snd h)
  rwa [h] at hquiet

/-- Five credits are issued, and two calls race one request of four, to return one and to return
    nothing: both read and propose, and the first writes. -/
theorem replicas_conserve_issued :
    let issuer := tinyIssuer fun _ _ => 0#8
    ∃ request : DeferredReturnSpendRequest tinyParams .direct,
      let calls := racingCalls issuer (fun _ => request) fun i : Bool => if i then 1 else 0
      ∃ s : ReplicaLedger calls, s.Reachable RepeatRng issuer ∧ s.ledger.Reachable issuer ∧
        (∃ response response', s.phase true = .answered (.ok response) ∧
          s.phase false = .answered (.ok response') ∧ response'.returnAmount = 1) ∧
        s.ledger.issued = 5 ∧ s.ledger.redeemed = 3 ∧
        ∑ o ∈ s.ledger.live issuer, s.ledger.value issuer o + s.ledger.redeemed ≤
          s.ledger.issued := by
  intro issuer
  obtain ⟨x⟩ := tinyIssuer_spending
  refine ⟨x.request, ?_⟩
  intro calls
  let rng := RepeatRng.mk 7#32
  let l := Ledger.initial.issue issuer x.opening x.issueResponse.salt
  have hnone : l.store.lookup x.request.nullifier = none := MemoryNullifierStore.lookup_default _
  obtain ⟨candidate, rng₁, hpropose, hamount, hproposal, hsalt⟩ :=
    tinyIssuer_proposal x (show (1#64).toNat ≤ 4 by decide)
  obtain ⟨candidate', rng₂, hpropose', -, -, -⟩ :=
    tinyIssuer_proposal x (show (0#64).toNat ≤ 4 by decide)
  let digest := x.pending.requestDigest
  -- both calls read
  let s₁ : ReplicaLedger calls := { initial calls with ledger := l }
  let s₂ : ReplicaLedger calls := { s₁ with
    phase := Function.update s₁.phase true (.absent digest) }
  let s₃ : ReplicaLedger calls := { s₂ with
    phase := Function.update s₂.phase false (.absent digest) }
  have h₂ : Step RepeatRng issuer s₁ s₂ :=
    .of_turn_eq true rng (SpendCall.advance_started_of_none x.prepared.receive_eq hnone rng)
  have h₃ : Step RepeatRng issuer s₂ s₃ :=
    .of_turn_eq false rng (SpendCall.advance_started_of_none x.prepared.receive_eq hnone rng)
  -- both propose
  let s₄ : ReplicaLedger calls := { s₃ with
    phase := Function.update s₃.phase true (.proposed digest candidate) }
  let s₅ : ReplicaLedger calls := { s₄ with
    phase := Function.update s₄.phase false (.proposed digest candidate') }
  have h₄ : Step RepeatRng issuer s₃ s₄ :=
    .of_turn_eq true rng (SpendCall.advance_absent_of_propose hpropose)
  have h₅ : Step RepeatRng issuer s₄ s₅ :=
    .of_turn_eq false rng (SpendCall.advance_absent_of_propose hpropose')
  -- the first writes, and the other reads what it wrote
  let response : DeferredReturnSpendResponse tinyParams .direct :=
    { signature := candidate.response.signature, returnAmount := candidate.response.returnAmount,
      salt := candidate.response.salt }
  have hrespond : candidate.respond .direct .deferredReturnSpend digest = .ok response :=
    hproposal.respond_eq
  have hwrite : s₅.turn true rng =
      (.answered (.ok response), ⟨l.store.records.insert x.request.nullifier candidate⟩) :=
    SpendCall.advance_proposed_of_none hnone hrespond rng
  let s₆ : ReplicaLedger calls :=
    { ledger := l.settle issuer ⟨l.store.records.insert x.request.nullifier candidate⟩ x.request
        response x.secrets
      phase := Function.update s₅.phase true (.answered (.ok response)) }
  have h₆ : Step RepeatRng issuer s₅ s₆ := by
    have hstep : Step RepeatRng issuer s₅ _ := .written true rng rfl hnone
      (congrArg Prod.fst hwrite) x.relation x.presented_mem rfl
    rwa [hwrite] at hstep
  let s₇ : ReplicaLedger calls := { s₆ with
    phase := Function.update s₆.phase false (.answered (.ok response)) }
  have hstored : s₆.ledger.store.lookup x.request.nullifier = some candidate :=
    (MemoryNullifierStore.lookup_insert ..).trans (if_pos rfl)
  have h₇ : Step RepeatRng issuer s₆ s₇ :=
    .of_turn_eq false rng (SpendCall.advance_proposed_of_some hstored hrespond rng)
  have hrun : s₇.Reachable RepeatRng issuer :=
    .tail (.tail (.tail (.tail (.tail (.tail (.single (.call x.issue_step)) h₂) h₃) h₄) h₅) h₆) h₇
  have hissuer : ∀ i, (calls i).issuer = issuer := fun _ => rfl
  obtain ⟨-, hledger, hconserved⟩ := replicas_conserve hissuer hrun
  refine ⟨s₇, hrun, hledger, ⟨response, response, rfl, rfl, hamount⟩, rfl,
    tinyIssuer_redeemed x hamount, hconserved (tinyIssuer_collisionFree x _ response hamount hsalt)⟩

end ReplicaLedger

end VoleAct.Act
